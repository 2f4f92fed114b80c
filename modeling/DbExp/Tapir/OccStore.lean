import DbExp.Tapir.VersionStore
import DbExp.Foundation.TimestampOrder
import DbExp.Foundation.Machine

namespace DbExp.Tapir.Occ
open Function
open TimestampOrder (Step Admissible Valid)

-- store/strongstore/occstore.cc
structure OCCStore where
  store : VersionedKVStore
  prepared : OrdMap Nat Transaction
  deriving DecidableEq

namespace OCCStore

def new : OCCStore := ⟨.empty,.empty⟩

section
variable (s : OCCStore)

def get (key : String) := ReplyCode.found (s.store.get key)

def getAt (key : String) (timestamp : Timestamp) := ReplyCode.found (s.store.getAt key timestamp)

def abort (id : Nat) (_txn : Transaction) : OCCStore := {s with prepared := s.prepared.erase id}

def getPreparedWrites (key : String) : Bool := s.prepared.entries.any fun t => t.2.writes key

def getPreparedReadWrites (key : String) : Bool := s.prepared.entries.any fun t => t.2.writes key || t.2.reads key

def readConflict (read : String × Timestamp) : Bool :=
  match s.store.get read.1 with
  | none => false
  | some cur => read.2 < cur.1 || s.getPreparedWrites read.1

def writeConflict (write : String × String) : Bool := s.getPreparedReadWrites write.1

def prepare (id : Nat) (txn : Transaction) : OCCStore × ReplyCode :=
  if (s.prepared.find id).isSome then (s,.ok)
  else if txn.readSet.entries.any s.readConflict then (s.abort id .empty,.fail)
  else if txn.writeSet.entries.any s.writeConflict then (s.abort id .empty,.fail)
  else ({s with prepared := s.prepared.insert id txn},.ok)

def commit (id timestamp : Nat) : OCCStore where
  store := (((s.prepared.find id).getD .empty).puts (.ofTime timestamp)).foldl (fun store put => store.put put.1 put.2.1 put.2.2) s.store
  prepared := s.prepared.erase id

def load (key value : String) (timestamp : Timestamp) : OCCStore :=
  {s with store := s.store.put key value timestamp}

end

end OCCStore

-- A store with what has been done to it: the transactions committed, with their
-- timestamps, and the ids that Prepare has answered with OK.
structure History where
  store : OCCStore
  committed : List (Nat × Transaction)
  accepted : List Nat

inductive Call where
  | load (key value : String) (timestamp : Timestamp)
  | prepare (id : Nat) (txn : Transaction)
  | commit (id timestamp : Nat)
  | abort (id : Nat) (txn : Transaction)

namespace History

def new : History := ⟨.new,[],[]⟩

section
variable (h : History)

def step : Call → History
  | .load key value timestamp => {h with store := h.store.load key value timestamp}
  | .prepare id txn =>
    {h with store := (h.store.prepare id txn).1,
            accepted := if (h.store.prepare id txn).2 = .ok then id :: h.accepted else h.accepted}
  | .commit id timestamp =>
    {h with store := h.store.commit id timestamp,
            committed := ((h.store.prepared.find id).map fun txn => (timestamp,txn)).toList ++ h.committed}
  | .abort id txn => {h with store := h.store.abort id txn}

def Updates (txn : Transaction) (key : String) (v : Timestamp) : Prop := txn.readSet.find key = some v ∧ txn.writes key = true

def NoLostUpdate : Prop :=
  ∀ p ∈ h.committed, ∀ key v, Updates p.2 key v → ∀ q ∈ h.committed, q.2.writes key = true →
    ¬ (v < .ofTime q.1 ∧ .ofTime q.1 < Timestamp.ofTime p.1)

-- How the store is used: the keys read exist, only what Prepare has answered with OK
-- is committed, and no two commits have one timestamp.
def Proper : Call → Prop
  | .prepare _ txn => ∀ read ∈ txn.readSet.entries, h.store.store.inStore read.1 = true
  | .commit id timestamp => id ∈ h.accepted ∧ ∀ p ∈ h.committed, p.1 ≠ timestamp
  | _ => True

def Guarded : Call → Prop
  | .commit id timestamp => ∀ txn ∈ h.store.prepared.find id, ∀ write ∈ txn.writeSet.entries, ∀ p ∈ h.committed,
      ∀ v ∈ p.2.readSet.find write.1, p.2.writes write.1 = true → ¬ (v < .ofTime timestamp ∧ .ofTime timestamp < Timestamp.ofTime p.1)
  | _ => True

instance (call : Call) : Decidable (Proper h call) := by
  unfold Proper; split <;> infer_instance

instance (call : Call) : Decidable (Guarded h call) := by
  unfold Guarded; split <;> infer_instance

end

end History

def machine : Machine History Call := ⟨.new,fun h call => some (h.step call)⟩

section
variable {h : History} {id : Nat}

-- What Prepare does when it does more than answer: it forgets an id that it does not
-- have, or it takes a transaction up after all checks.
inductive Prepares (s : OCCStore) (id : Nat) (txn : Transaction) : OCCStore × ReplyCode → Prop where
  | again (old : Transaction) (found : s.prepared.find id = some old) : Prepares s id txn (s,.ok)
  | refused (absent : s.prepared.find id = none) : Prepares s id txn (s,.fail)
  | accepted (absent : s.prepared.find id = none) (reads : ∀ read ∈ txn.readSet.entries, s.readConflict read = false)
      (writes : ∀ write ∈ txn.writeSet.entries, s.writeConflict write = false) :
      Prepares s id txn ({s with prepared := s.prepared.insert id txn},.ok)

theorem prepare_prepares (s : OCCStore) (id : Nat) (txn : Transaction) : Prepares s id txn (s.prepare id txn) := by
  unfold OCCStore.prepare
  cases got : s.prepared.find id with
  | some old => exact .again old got
  | none =>
    have same : s.abort id .empty = s := by
      unfold OCCStore.abort
      rw [OrdMap.erase_absent got]
    rw [if_neg (by simp),same]
    split
    · exact .refused got
    rename_i reads
    split
    · exact .refused got
    next writes =>
      exact .accepted got (by simpa using reads) (by simpa using writes)

-- Behind the windows: every committed write is in the store, no committed write is
-- newer than what a prepared update read, and no two prepared transactions write one key.
structure Sound (h : History) : Prop where
  stored : ∀ q ∈ h.committed, ∀ key, q.2.writes key = true → .ofTime q.1 ∈ (h.store.store.versions key).keys
  current : ∀ id txn, h.store.prepared.find id = some txn → ∀ key v, History.Updates txn key v →
    ∀ q ∈ h.committed, q.2.writes key = true → .ofTime q.1 ≤ v
  apart : ∀ i a, h.store.prepared.find i = some a → ∀ j b, h.store.prepared.find j = some b → i ≠ j →
    ∀ key, a.writes key = true → b.writes key = true → False

theorem mem_commit {s : OCCStore} : w ∈ ((s.commit id t).store.versions key).keys ↔
    w ∈ (s.store.versions key).keys ∨ ∃ txn, s.prepared.find id = some txn ∧ txn.writes key = true ∧ w = .ofTime t := by
  unfold OCCStore.commit
  rw [VersionedKVStore.mem_foldl_put,Transaction.mem_puts]
  cases got : s.prepared.find id with
  | none => simp [Transaction.empty,Transaction.writes]
  | some txn => simp

theorem find_erase_some {m : OrdMap Nat Transaction} (got : (m.erase id).find j = some txn) : id ≠ j ∧ m.find j = some txn := by
  rw [OrdMap.find_erase] at got
  split at got
  · cases got
  · exact ⟨‹_›,got⟩

theorem forget_sound (sound : Sound h) : Sound {h with store := h.store.abort id txn} where
  stored := sound.stored
  current := fun j a got => sound.current j a (find_erase_some got).2
  apart := fun i a foundA j b foundB => sound.apart i a (find_erase_some foundA).2 j b (find_erase_some foundB).2

theorem accept_sound (sound : Sound h) (reads : ∀ read ∈ txn.readSet.entries, h.store.readConflict read = false)
    (writes : ∀ write ∈ txn.writeSet.entries, h.store.writeConflict write = false) :
    Sound {h with store := {h.store with prepared := h.store.prepared.insert id txn}, accepted := ids} := by
  have unshared (j : Nat) (b : Transaction) (got : h.store.prepared.find j = some b) (key : String)
      (own : txn.writes key = true) : b.writes key = false := by
    obtain ⟨value,inSet⟩ := Option.isSome_iff_exists.mp own
    have none_there := List.any_eq_false.mp (writes (key,value) (OrdMap.mem_entries.mpr inSet)) (j,b) (OrdMap.mem_entries.mpr got)
    simp only [Bool.or_eq_true,not_or,Bool.not_eq_true] at none_there
    exact none_there.1
  refine ⟨sound.stored,fun j a got key v updates q mem written => ?_,fun i a foundA j b foundB different key writesA writesB => ?_⟩
  · rw [OrdMap.find_insert] at got
    split at got
    · cases got
      have passed := reads (key,v) (OrdMap.mem_entries.mpr updates.1)
      have version := sound.stored q mem key written
      unfold OCCStore.readConflict at passed
      split at passed
      next absent =>
        exact absurd version (VersionedKVStore.get_none absent)
      next cur latest =>
        simp only [Bool.or_eq_false_iff,decide_eq_false_iff_not,not_lt] at passed
        exact (VersionedKVStore.get_le latest version).trans passed.1
    · exact sound.current j a got key v updates q mem written
  rw [OrdMap.find_insert] at foundA foundB
  split at foundA
  · cases foundA
    split at foundB
    next left right =>
      exact different (left.symm.trans right)
    · rw [unshared j b foundB key writesA] at writesB
      cases writesB
  split at foundB
  · cases foundB
    rw [unshared i a foundA key writesB] at writesA
    cases writesA
  · exact sound.apart i a foundA j b foundB different key writesA writesB

theorem commit_sound (sound : Sound h) : Sound (h.step (.commit id t)) := by
  have members (q : Nat × Transaction) (mem : q ∈ (h.step (.commit id t)).committed) :
      (∃ txn, h.store.prepared.find id = some txn ∧ q = (t,txn)) ∨ q ∈ h.committed := by
    rcases List.mem_append.mp mem with new | old
    · obtain ⟨txn,got,rfl⟩ := Option.map_eq_some_iff.mp (Option.mem_toList.mp new)
      exact .inl ⟨txn,got,rfl⟩
    · exact .inr old
  refine ⟨fun q mem key written => mem_commit.mpr ?_,fun j a got key v updates q mem written => ?_,
    fun i a foundA j b foundB => sound.apart i a (find_erase_some foundA).2 j b (find_erase_some foundB).2⟩
  · rcases members q mem with ⟨txn,got,rfl⟩ | old
    · exact .inr ⟨txn,got,written,rfl⟩
    · exact .inl (sound.stored q old key written)
  obtain ⟨other,still⟩ := find_erase_some got
  rcases members q mem with ⟨txn,there,rfl⟩ | old
  · exact (sound.apart id txn there j a still other key written updates.2).elim
  · exact sound.current j a still key v updates q old written

theorem step_sound (sound : Sound h) (call : Call) : Sound (h.step call) := by
  cases call with
  | load key value t =>
    exact ⟨fun q mem other written => VersionedKVStore.mem_put.mpr (.inr (sound.stored q mem other written)),
      sound.current,sound.apart⟩
  | prepare id txn =>
    have result := prepare_prepares h.store id txn
    unfold History.step
    dsimp only
    generalize h.store.prepare id txn = out at result
    cases result with
    | again old got | refused absent => exact ⟨sound.stored,sound.current,sound.apart⟩
    | accepted absent reads writes => exact accept_sound sound reads writes
  | commit id t => exact commit_sound sound
  | abort id txn => exact forget_sound sound

def stamped (p : Nat × Transaction) : TimestampOrder.Txn String Timestamp where
  stamp := .ofTime p.1
  reads := {read | History.Updates p.2 read.1 read.2}
  writes := {key | p.2.writes key = true}

def History.view (h : History) : TimestampOrder.State Nat String Timestamp where
  versions := fun key => {w | ∃ q ∈ h.committed, q.2.writes key = true ∧ w = .ofTime q.1}
  pending := fun _ => none
  committed := {T | ∃ p ∈ h.committed, T = stamped p}

theorem admissible_commit (sound : Sound h) (guarded : h.Guarded (.commit id t)) (got : h.store.prepared.find id = some txn) :
    Admissible h.view (stamped (t,txn)) := by
  refine ⟨?_,fun key v updates j U pending => (by cases pending),?_⟩
  · rintro key v updates _ ⟨q,mem,written,rfl⟩ inside
    exact absurd inside.1 (not_lt.mpr (sound.current id txn got key v updates q mem written))
  rintro key written U (⟨p,mem,rfl⟩ | ⟨j,pending⟩) v updates inside
  · obtain ⟨value,inSet⟩ := Option.isSome_iff_exists.mp written
    exact guarded txn got (key,value) (OrdMap.mem_entries.mpr inSet) p mem v updates.1 updates.2 inside
  · cases pending

theorem view_commit (got : h.store.prepared.find id = some txn) :
    (h.step (.commit id t)).view = (h.view.hold id (stamped (t,txn))).install id (stamped (t,txn)) := by
  have committed : (h.step (.commit id t)).committed = (t,txn) :: h.committed := by
    simp [History.step,got]
  refine TimestampOrder.State.ext (funext fun key => Set.ext fun w => ?_) (funext fun j => ?_) (Set.ext fun T => ?_)
  · change (∃ q ∈ (h.step (.commit id t)).committed, _) ↔ (∃ q ∈ h.committed, _) ∨ txn.writes key = true ∧ w = .ofTime t
    rw [committed]
    simp only [List.mem_cons,exists_eq_or_imp]
    exact or_comm
  · change none = update (update (fun _ => none) id (some (stamped (t,txn)))) id none j
    by_cases same : j = id
    · subst same
      rw [update_self]
    · rw [update_of_ne same,update_of_ne same]
  · change (∃ q ∈ (h.step (.commit id t)).committed, T = stamped q) ↔ T = stamped (t,txn) ∨ ∃ q ∈ h.committed, T = stamped q
    rw [committed]
    simp

theorem step_steps (sound : Sound h) (call : Call) (guarded : h.Guarded call) :
    Relation.ReflTransGen Step h.view (h.step call).view := by
  cases call with
  | load key value t | prepare id txn | abort id txn => exact .refl
  | commit id t =>
    cases got : h.store.prepared.find id with
    | none =>
      have same : (h.step (.commit id t)).view = h.view := by
        simp [History.view,History.step,got]
      rw [same]
    | some txn =>
      rw [view_commit got]
      exact .tail (.single (.accept _ id _ rfl (admissible_commit sound guarded got)))
        (.commit _ id _ (update_self ..))

theorem view_new : History.new.view = TimestampOrder.State.initial := by
  refine TimestampOrder.State.ext (funext fun key => Set.eq_empty_of_forall_notMem fun w ⟨q,mem,_⟩ => by cases mem) rfl
    (Set.eq_empty_of_forall_notMem fun T ⟨p,mem,_⟩ => by cases mem)

theorem new_sound : Sound History.new where
  stored := nofun
  current := fun id txn got => by cases got
  apart := fun i a got => by cases got

theorem reached_sound (reached : machine.Reached (fun h call => h.Proper call ∧ h.Guarded call) h) : Sound h ∧ Valid h.view := by
  refine Machine.Reached.invariant (fun h => Sound h ∧ Valid h.view) ⟨new_sound,?_⟩ ?_ reached
  · change Valid History.new.view
    rw [view_new]
    exact TimestampOrder.initial_valid
  · rintro _ call _ _ ⟨sound,valid⟩ allowed taken
    cases Option.some.inj taken
    exact ⟨step_sound sound call,TimestampOrder.steps_valid valid (step_steps sound call allowed.2)⟩

end

theorem no_lost_update_of_guarded_commits (h : History)
    (reached : machine.Reached (fun h call => h.Proper call ∧ h.Guarded call) h) : h.NoLostUpdate := by
  intro p member key v updates q other written inside
  exact (reached_sound reached).2.clear key _ ⟨q,other,written,rfl⟩ (stamped p) (.inl ⟨p,member,rfl⟩) v updates inside

def updatesKey : Transaction := (Transaction.empty.addReadSet "k" .zero).addWriteSet "k" "b"

def writesKey : Transaction := Transaction.empty.addWriteSet "k" "c"

def updatedThenWritten (updatedAt writtenAt : Nat) : List Call :=
  [.load "k" "a" .zero,.prepare 1 updatesKey,.commit 1 updatedAt,.prepare 2 writesKey,.commit 2 writtenAt]

theorem no_lost_update_in_order : ∃ h : History, h.NoLostUpdate ∧ h.committed = [(3,writesKey),(2,updatesKey)] := by
  obtain ⟨h,reached,seen⟩ := Machine.reached_of_run machine (fun h call => h.Proper call ∧ h.Guarded call)
    (fun h => h.committed = [(3,writesKey),(2,updatesKey)]) (updatedThenWritten 2 3) (by decide +kernel)
  exact ⟨h,no_lost_update_of_guarded_commits h reached,seen⟩

-- Transaction 2 got its timestamp before transaction 1 did, and prepares after
-- transaction 1 has committed: nothing compares its timestamp with the versions there.
theorem late_write_under_update : ¬ ∀ h : History, machine.Reached History.Proper h → h.NoLostUpdate := by
  intro claimed
  obtain ⟨h,reached,committed⟩ := Machine.reached_of_run machine History.Proper
    (fun h => h.committed = [(1,writesKey),(2,updatesKey)]) (updatedThenWritten 2 1) (by decide +kernel)
  refine claimed h reached (2,updatesKey) (by simp [committed]) "k" .zero ⟨?_,?_⟩ (1,writesKey) (by simp [committed]) ?_ ?_ <;>
    decide +kernel

end DbExp.Tapir.Occ
