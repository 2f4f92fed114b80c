import DbExp.Tapir.TapirStore
import DbExp.Foundation.TimestampOrder
import DbExp.Foundation.Machine

namespace DbExp.Tapir.TapirStore
open Function List
open OrdMap (mem_keys mem_entries erase_absent find_erase)
open TimestampOrder (Step Admissible Valid)
open TimestampOrder.State (ext initial)

section
variable {s : Store} {id : Nat}

theorem mem_preparedTimes {touches : Transaction → Bool} :
    t ∈ (s.preparedTimes touches).keys ↔ ∃ id txn, s.prepared.find id = some (t,txn) ∧ touches txn = true := by
  have listed (xs : List (Nat × Timestamp × Transaction)) (times : OrdMap Timestamp Unit) :
      t ∈ (xs.foldl (fun times t => if touches t.2.2 then times.add t.2.1 () else times) times).keys ↔
        t ∈ times.keys ∨ ∃ x ∈ xs, x.2.1 = t ∧ touches x.2.2 = true := by
    induction xs generalizing times with
    | nil => simp
    | cons head rest ih =>
      rw [foldl_cons,ih]
      by_cases touched : touches head.2.2 = true
      · simp only [touched,if_true,OrdMap.mem_keys_add,mem_cons,exists_eq_or_imp,and_true]
        rw [or_comm (a := t = _),or_assoc,eq_comm (a := t)]
      · simp [touched]
  rw [Store.preparedTimes,listed]
  constructor
  · rintro (none_yet | ⟨⟨id,t,txn⟩,mem,rfl,touched⟩)
    · obtain ⟨_,got⟩ := mem_keys.mp none_yet
      cases got
    · exact ⟨id,txn,mem_entries.mp mem,touched⟩
  · rintro ⟨id,txn,got,touched⟩
    exact .inr ⟨(id,t,txn),mem_entries.mpr got,rfl,touched⟩

theorem unwritten_of_still_valid (passed : ¬ (0 < (s.getPreparedWrites key).size ∧
    (s.linearizable = true ∨ ((s.getPreparedWrites key).atMost t).isSome = true)))
    (written : w ∈ (s.getPreparedWrites key).keys) : ¬ w < t := by
  intro before
  exact passed ⟨OrdMap.size_pos written,.inr (OrdMap.atMost_isSome written before.le)⟩

theorem readCheck_clear (passed : s.readCheck t (key,v) = none) (present : v ∈ (s.store.versions key).keys)
    (valid : ∀ next ∈ (s.store.versions key).upperBound v, next.1 < t → next.1.isValid = true) :
    (∀ w ∈ (s.store.versions key).keys, ¬ (v < w ∧ w < t)) ∧
    (∀ w ∈ (s.getPreparedWrites key).keys, ¬ (v < w ∧ w < t)) := by
  unfold Store.readCheck at passed
  rw [VersionedKVStore.getRange_present present] at passed
  cases bound : (s.store.versions key).upperBound v with
  | none =>
    rw [bound] at passed
    refine ⟨fun w version between => absurd (OrdMap.upperBound_none bound version) (not_le.mpr between.1),fun w written between => ?_⟩
    exact unwritten_of_still_valid (by simpa [Timestamp.isValid,Timestamp.zero] using passed) written between.2
  | some next =>
    rw [bound] at passed
    obtain ⟨_,_,least⟩ := OrdMap.upperBound_some bound
    have far (fits : ¬ next.1 < t) : ∀ w ∈ (s.store.versions key).keys, ¬ (v < w ∧ w < t) := fun w version between =>
      fits ((least w version between.1).trans_lt between.2)
    by_cases ends : next.1.isValid = true
    · simp only [Option.map_some,Option.getD_some,ne_eq,not_true_eq_false,if_false,ends,Bool.not_true,Bool.false_eq_true] at passed
      split at passed
      · cases passed
      split at passed
      · cases passed
      rename_i inside none_between
      refine ⟨far fun before => inside (.inr before),fun w written between => none_between ?_⟩
      obtain ⟨_,got⟩ := mem_keys.mp written
      exact any_eq_true.mpr ⟨(w,()),mem_entries.mpr got,by simpa using between⟩
    · have fits : ¬ next.1 < t := fun before => ends (valid next bound before)
      refine ⟨far fits,fun w written between => ?_⟩
      exact unwritten_of_still_valid (by simpa [ends] using passed) written between.2

theorem writeCheck_unread (passed : s.writeCheck t (key,value) = none) (read : u ∈ (s.getPreparedReads key).keys) : u ≤ t := by
  unfold Store.writeCheck Store.pendingReadCheck at passed
  simp only [Option.or_eq_none_iff,Option.map_eq_none_iff] at passed
  exact OrdMap.upperBound_none passed.2.2 read

theorem readCheck_code (stopped : s.readCheck t x = some code) : code = .fail ∨ code = .abstain := by
  unfold Store.readCheck at stopped
  dsimp only at stopped
  split at stopped
  · cases stopped
  · split_ifs at stopped <;> cases stopped <;> simp

theorem committedCheck_refuses (stopped : s.committedCheck t key = some (code,proposed)) : code = .retry := by
  unfold Store.committedCheck at stopped
  split at stopped
  · cases stopped
  split at stopped
  · cases stopped
    rfl
  split at stopped
  · cases stopped
  split at stopped
  · cases stopped
    rfl
  · cases stopped

theorem writeCheck_code (stopped : s.writeCheck t x = some (code,proposed)) : code = .retry ∨ code = .abstain := by
  rcases Option.or_eq_some_iff.mp stopped with first | ⟨_,second⟩
  · exact .inl (committedCheck_refuses first)
  rcases Option.or_eq_some_iff.mp second with write | ⟨_,read⟩
  · unfold Store.pendingWriteCheck at write
    split at write
    · obtain ⟨it,_,same⟩ := Option.map_eq_some_iff.mp write
      cases same
      exact .inl rfl
    · cases write
  · obtain ⟨it,_,same⟩ := Option.map_eq_some_iff.mp read
    cases same
    exact .inr rfl

-- What Prepare does: it answers again, or it forgets the id and refuses, or it forgets
-- the id and prepares the transaction after all checks have passed.
inductive Prepares (s : Store) (id : Nat) (txn : Transaction) (t : Timestamp) : Store × ReplyCode × Timestamp → Prop where
  | again (old : Transaction) (found : s.prepared.find id = some (t,old)) : Prepares s id txn t (s,.ok,.zero)
  | refused (code : ReplyCode) (proposed : Timestamp) (refuses : code ≠ .ok) : Prepares s id txn t (s.forget id,code,proposed)
  | accepted (reads : ∀ read ∈ txn.readSet.entries, (s.forget id).readCheck t read = none)
      (writes : ∀ write ∈ txn.writeSet.entries, (s.forget id).writeCheck t write = none) :
      Prepares s id txn t ({s with prepared := (s.prepared.erase id).insert id (t,txn)},.ok,.zero)

theorem checkAndPrepare_prepares (s : Store) (id : Nat) (txn : Transaction) (t : Timestamp) :
    Prepares s id txn t ((s.forget id).checkAndPrepare id txn t) := by
  unfold Store.checkAndPrepare
  split
  next code stopped =>
    obtain ⟨_,_,here⟩ := exists_of_findSome?_eq_some stopped
    exact .refused code .zero (by rcases readCheck_code here with rfl | rfl <;> simp)
  rename_i reads
  split
  next code proposed stopped =>
    obtain ⟨_,_,here⟩ := exists_of_findSome?_eq_some stopped
    exact .refused code proposed (by rcases writeCheck_code here with rfl | rfl <;> simp)
  next writes =>
    exact .accepted (List.findSome?_eq_none_iff.mp reads) (List.findSome?_eq_none_iff.mp writes)

theorem prepare_prepares (s : Store) (id : Nat) (txn : Transaction) (t : Timestamp) : Prepares s id txn t (s.prepare id txn t) := by
  unfold Store.prepare
  split
  next absent =>
    have same : s.forget id = s := by
      unfold Store.forget
      rw [erase_absent absent]
    have result := checkAndPrepare_prepares s id txn t
    rwa [same] at result
  next p got =>
    split
    next same =>
      exact .again p.2 (by rw [got,← same])
    · exact checkAndPrepare_prepares s id txn t

theorem mem_commitAt {store : VersionedKVStore} : w ∈ ((Store.commitAt store t txn (txn.puts t)).versions key).keys ↔
    w ∈ (store.versions key).keys ∨ txn.writes key = true ∧ w = t := by
  have reads (xs : List (String × Timestamp)) (store : VersionedKVStore) :
      (xs.foldl (fun store read => store.commitGet read.1 read.2 t) store).versions key = store.versions key := by
    induction xs generalizing store with
    | nil => rfl
    | cons head rest ih => rw [foldl_cons,ih,VersionedKVStore.versions_commitGet]
  unfold Store.commitAt
  rw [VersionedKVStore.mem_foldl_put,reads]
  exact or_congr_right Transaction.mem_puts

end

-- A store with what has been done to it: the transactions committed, with their
-- timestamps, and the answers Prepare has given, the latest first.
structure History where
  store : Store
  committed : List (Timestamp × Transaction)
  answers : List (Nat × Timestamp × ReplyCode)

inductive Call where
  | load (key value : String) (timestamp : Timestamp)
  | prepare (id : Nat) (txn : Transaction) (timestamp : Timestamp)
  | commit (id timestamp : Nat)
  | abort (id : Nat) (txn : Transaction)

namespace History

def new (linearizable : Bool) : History := ⟨.new linearizable,[],[]⟩

section
variable (h : History)

def step : Call → History
  | .load key value timestamp => {h with store := h.store.load key value timestamp}
  | .prepare id txn timestamp =>
    {h with store := (h.store.prepare id txn timestamp).1,
            answers := (id,timestamp,(h.store.prepare id txn timestamp).2.1) :: h.answers}
  | .commit id timestamp =>
    {h with store := h.store.commit id timestamp, committed := (h.store.prepared.find id).toList ++ h.committed}
  | .abort id txn => {h with store := h.store.abort id txn}

def Serializable : Prop :=
  ∀ p ∈ h.committed, ∀ key v, p.2.readSet.find key = some v →
    ∀ w ∈ (h.store.store.versions key).keys, ¬ (v < w ∧ w < p.1)

-- How the store is used: two transactions do not use one timestamp, the versions read
-- are there, and only a transaction that Prepare last answered with OK is committed.
def Proper : Call → Prop
  | .prepare id txn timestamp =>
    (∀ answer ∈ h.answers, answer.2.1 = timestamp → answer.1 = id) ∧
    ∀ read ∈ txn.readSet.entries, read.2 ∈ (h.store.store.versions read.1).keys
  | .commit id _ => (h.answers.find? (fun answer => answer.1 = id)).map (fun answer => answer.2.2) = some .ok
  | _ => True

def Misses (key : String) (w : Timestamp) (txns : List (Timestamp × Transaction)) : Prop :=
  ∀ p ∈ txns, ∀ v ∈ p.2.readSet.find key, ¬ (v < w ∧ w < p.1)

def Guarded : Call → Prop
  | .load key _ timestamp => Misses key timestamp (h.committed ++ h.store.prepared.entries.map Prod.snd)
  | .prepare _ txn timestamp =>
    (∀ write ∈ txn.writeSet.entries, Misses write.1 timestamp h.committed) ∧
    ∀ read ∈ txn.readSet.entries, ∀ next ∈ (h.store.store.versions read.1).upperBound read.2,
      next.1 < timestamp → next.1.isValid = true
  | _ => True

instance (key : String) (w : Timestamp) (txns : List (Timestamp × Transaction)) : Decidable (Misses key w txns) := by
  unfold Misses; infer_instance

instance (call : Call) : Decidable (Proper h call) := by
  unfold Proper; split <;> infer_instance

instance (call : Call) : Decidable (Guarded h call) := by
  unfold Guarded; split <;> infer_instance

end

end History

def machine (linearizable : Bool) : Machine History Call := ⟨.new linearizable,fun h call => some (h.step call)⟩

def stamped (p : Timestamp × Transaction) : TimestampOrder.Txn String Timestamp where
  stamp := p.1
  reads := {read | p.2.readSet.find read.1 = some read.2}
  writes := {key | p.2.writes key = true}

def History.view (h : History) : TimestampOrder.State Nat String Timestamp where
  versions := fun key => {w | w ∈ (h.store.store.versions key).keys}
  pending := fun id => (h.store.prepared.find id).map stamped
  committed := {T | ∃ p ∈ h.committed, T = stamped p}

section
variable {h : History} {id : Nat}

theorem pending_view (got : h.view.pending id = some T) : ∃ p, h.store.prepared.find id = some p ∧ T = stamped p := by
  obtain ⟨p,there,rfl⟩ := Option.map_eq_some_iff.mp got
  exact ⟨p,there,rfl⟩

theorem erase_view (j : Nat) : ((h.store.prepared.erase id).find j).map stamped = update h.view.pending id none j := by
  rw [find_erase]
  by_cases same : id = j
  · subst same
    simp
  · simp [same,update_of_ne (Ne.symm same),History.view]

theorem view_forget : ({h with store := h.store.forget id} : History).view = h.view.drop id :=
  ext rfl (funext erase_view) rfl

theorem view_accept : ({h with store := {h.store with prepared := (h.store.prepared.erase id).insert id (t,txn)}} : History).view =
    (h.view.drop id).hold id (stamped (t,txn)) := by
  refine ext rfl (funext fun j => ?_) rfl
  change (((h.store.prepared.erase id).insert id (t,txn)).find j).map stamped =
    update (update h.view.pending id none) id (some (stamped (t,txn))) j
  rw [OrdMap.find_insert,update_apply,← erase_view j]
  by_cases same : id = j
  · simp [same]
  · simp [same,Ne.symm same]

theorem view_commit (got : h.store.prepared.find id = some p) : (h.step (.commit id t)).view = h.view.install id (stamped p) := by
  have entry : h.store.preparedAs id = p := by
    unfold Store.preparedAs
    rw [got]
    rfl
  refine ext (funext fun key => Set.ext fun w => ?_) (funext fun j => ?_) (Set.ext fun T => ?_)
  · change w ∈ ((Store.commitAt h.store.store (h.store.preparedAs id).1 (h.store.preparedAs id).2
      ((h.store.preparedAs id).2.puts (h.store.preparedAs id).1)).versions key).keys ↔ _
    rw [entry]
    exact mem_commitAt
  · exact erase_view j
  · change (∃ q ∈ (h.store.prepared.find id).toList ++ h.committed, T = stamped q) ↔ T = stamped p ∨ ∃ q ∈ h.committed, T = stamped q
    simp [got]

theorem view_commit_absent (absent : h.store.prepared.find id = none) : (h.step (.commit id t)).view = h.view := by
  have entry : h.store.preparedAs id = (.zero,.empty) := by
    unfold Store.preparedAs
    rw [absent]
    rfl
  refine ext (funext fun key => Set.ext fun w => ?_) (funext fun j => ?_) (Set.ext fun T => ?_)
  · change w ∈ ((Store.commitAt h.store.store (h.store.preparedAs id).1 (h.store.preparedAs id).2
      ((h.store.preparedAs id).2.puts (h.store.preparedAs id).1)).versions key).keys ↔ _
    rw [entry,mem_commitAt]
    simp [Transaction.empty,Transaction.writes,History.view]
  · change ((h.store.prepared.erase id).find j).map stamped = (h.store.prepared.find j).map stamped
    rw [erase_absent absent]
  · change (∃ q ∈ (h.store.prepared.find id).toList ++ h.committed, T = stamped q) ↔ ∃ q ∈ h.committed, T = stamped q
    simp [absent]

theorem view_load : (h.step (.load key value t)).view = h.view.load key t := by
  refine ext (funext fun other => Set.ext fun w => ?_) rfl rfl
  change w ∈ ((h.store.store.put key value t).versions other).keys ↔ w ∈ update h.view.versions key _ other
  rw [VersionedKVStore.mem_put]
  by_cases same : other = key
  · subst same
    simp [History.view]
  · simp [same,Ne.symm same,History.view]

theorem outside_of_misses (misses : History.Misses key w (h.committed ++ h.store.prepared.entries.map Prod.snd)) :
    h.view.Outside key w := by
  rintro _ (⟨p,mem,rfl⟩ | ⟨id,got⟩) v read
  · exact misses p (mem_append_left _ mem) v read
  · obtain ⟨p,there,rfl⟩ := pending_view got
    exact misses p (mem_append_right _ (mem_map.mpr ⟨(id,p),mem_entries.mpr there,rfl⟩)) v read

theorem accepted_admissible (reads : ∀ read ∈ txn.readSet.entries, (h.store.forget id).readCheck t read = none)
    (writes : ∀ write ∈ txn.writeSet.entries, (h.store.forget id).writeCheck t write = none)
    (proper : h.Proper (.prepare id txn t)) (guarded : h.Guarded (.prepare id txn t)) :
    Admissible (h.view.drop id) (stamped (t,txn)) := by
  rw [← view_forget]
  have clear (key : String) (v : Timestamp) (read : txn.readSet.find key = some v) :=
    readCheck_clear (reads (key,v) (mem_entries.mpr read)) (proper.2 (key,v) (mem_entries.mpr read))
      (guarded.2 (key,v) (mem_entries.mpr read))
  refine ⟨fun key v read w version => (clear key v read).1 w version,fun key v read j U got written => ?_,
    fun key written U live v read => ?_⟩
  · obtain ⟨p,there,rfl⟩ := pending_view got
    exact (clear key v read).2 p.1 (mem_preparedTimes.mpr ⟨j,p.2,there,written⟩)
  obtain ⟨value,inSet⟩ := Option.isSome_iff_exists.mp written
  rcases live with ⟨p,mem,rfl⟩ | ⟨j,got⟩
  · exact guarded.1 (key,value) (mem_entries.mpr inSet) p mem v read
  obtain ⟨p,there,rfl⟩ := pending_view got
  have earlier : p.1 ≤ t := writeCheck_unread (writes (key,value) (mem_entries.mpr inSet))
    (mem_preparedTimes.mpr ⟨j,p.2,there,Option.isSome_iff_exists.mpr ⟨v,read⟩⟩)
  exact fun inside => absurd inside.2 (not_lt.mpr earlier)

theorem prepare_steps (proper : h.Proper (.prepare id txn t)) (guarded : h.Guarded (.prepare id txn t)) :
    Relation.ReflTransGen Step h.view (h.step (.prepare id txn t)).view := by
  have drops : Step h.view (h.view.drop id) := .drop h.view id
  have result := prepare_prepares h.store id txn t
  unfold History.step
  dsimp only
  generalize h.store.prepare id txn t = out at result
  cases result with
  | again old got => exact .refl
  | refused code proposed refuses =>
    refine .single ?_
    rw [← view_forget] at drops
    exact drops
  | accepted reads writes =>
    refine .tail (.single drops) ?_
    have admits : Step (h.view.drop id) ((h.view.drop id).hold id (stamped (t,txn))) :=
      .accept (h.view.drop id) id _ (update_self ..) (accepted_admissible reads writes proper guarded)
    rw [← view_accept] at admits
    exact admits

theorem step_steps (call : Call) (proper : h.Proper call) (guarded : h.Guarded call) :
    Relation.ReflTransGen Step h.view (h.step call).view := by
  cases call with
  | load key value t =>
    rw [view_load]
    exact .single (.load _ _ _ (outside_of_misses guarded))
  | prepare id txn t => exact prepare_steps proper guarded
  | commit id t =>
    cases got : h.store.prepared.find id with
    | none => rw [view_commit_absent got]
    | some p =>
      rw [view_commit got]
      exact .single (.commit _ id _ (by simp [History.view,got]))
  | abort id txn =>
    refine .single ?_
    have drops : Step h.view (h.view.drop id) := .drop h.view id
    rw [← view_forget] at drops
    exact drops

theorem view_new : (History.new linearizable).view = initial := by
  refine ext (funext fun key => Set.eq_empty_of_forall_notMem fun w version => ?_) rfl
    (Set.eq_empty_of_forall_notMem fun T ⟨p,mem,_⟩ => by cases mem)
  obtain ⟨_,got⟩ := mem_keys.mp version
  cases got

theorem reached_valid (reached : (machine linearizable).Reached (fun h call => h.Proper call ∧ h.Guarded call) h) : Valid h.view := by
  refine Machine.Reached.invariant (fun h => Valid h.view) ?_ ?_ reached
  · change Valid (History.new linearizable).view
    rw [view_new]
    exact TimestampOrder.initial_valid
  · rintro _ call _ _ valid allowed taken
    cases Option.some.inj taken
    exact TimestampOrder.steps_valid valid (step_steps call allowed.1 allowed.2)

end

theorem serializable_of_guarded_calls (linearizable : Bool) (h : History)
    (reached : (machine linearizable).Reached (fun h call => h.Proper call ∧ h.Guarded call) h) : h.Serializable := by
  intro p member key v read w version inside
  exact (reached_valid reached).clear key w version (stamped p) (.inl ⟨p,member,rfl⟩) v read inside

def readsKey : Transaction := Transaction.empty.addReadSet "k" .zero

def writesKey : Transaction := Transaction.empty.addWriteSet "k" "b"

def readThenWritten (readAt writtenAt : Timestamp) : List Call :=
  [.load "k" "a" .zero,.prepare 1 readsKey readAt,.commit 1 0,.prepare 2 writesKey writtenAt,.commit 2 0]

theorem serializable_after_later_write : ∃ h : History, h.Serializable ∧ h.committed.length = 2 ∧
    ⟨20,2⟩ ∈ (h.store.store.versions "k").keys := by
  obtain ⟨h,reached,seen⟩ := Machine.reached_of_run (machine true) (fun h call => h.Proper call ∧ h.Guarded call)
    (fun h => h.committed.length = 2 ∧ ⟨20,2⟩ ∈ (h.store.store.versions "k").keys)
    (readThenWritten ⟨10,1⟩ ⟨20,2⟩) (by decide +kernel)
  exact ⟨h,serializable_of_guarded_calls true h reached,seen⟩

theorem overwritten_run (linearizable : Bool) : ∃ h, (machine linearizable).Reached History.Proper h ∧ ¬ h.Serializable := by
  obtain ⟨h,reached,committed,version⟩ := Machine.reached_of_run (machine linearizable) History.Proper
    (fun h => ((⟨10,1⟩ : Timestamp),readsKey) ∈ h.committed ∧ ⟨5,2⟩ ∈ (h.store.store.versions "k").keys)
    (readThenWritten ⟨10,1⟩ ⟨5,2⟩) (by cases linearizable <;> decide +kernel)
  refine ⟨h,reached,fun serializable => ?_⟩
  exact serializable _ committed "k" .zero (by decide +kernel) ⟨5,2⟩ version (by decide +kernel)

-- The read of transaction 1 is never noted, so transaction 2 may write into its past,
-- in both modes.
theorem committed_read_overwritten : (¬ ∀ h, (machine true).Reached History.Proper h → h.Serializable) ∧
    ¬ ∀ h, (machine false).Reached History.Proper h → h.Serializable := by
  obtain ⟨g,reachedG,overwrittenG⟩ := overwritten_run true
  obtain ⟨h,reachedH,overwrittenH⟩ := overwritten_run false
  exact ⟨fun claimed => overwrittenG (claimed g reachedG),fun claimed => overwrittenH (claimed h reachedH)⟩

end DbExp.Tapir.TapirStore
