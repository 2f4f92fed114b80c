import DbExp.Tapir.TapirSerializable

namespace DbExp.Tapir
open VersionedKVStore (getRange_present inStore_iff get_none)

-- getLastRead(key, t) with its assertion, which is made before the table of reads is looked
-- at; `none` is a failed assertion here and below.
def VersionedKVStore.getLastReadAsserting (s : VersionedKVStore) (key : String) (t : Timestamp) : Option (Option Timestamp) :=
  if s.inStore key then (s.getValue key t).map fun it => (s.lastReads.find key).bind fun reads => reads.find it.1
  else some none

namespace TapirStore

-- The sets are unordered maps: Prepare goes through them in some order.
structure Walk (txn : Transaction) where
  reads : List (String × Timestamp)
  writes : List (String × String)
  readSet : reads.Perm txn.readSet.entries
  writeSet : writes.Perm txn.writeSet.entries

namespace Store

section
variable (s : Store) (timestamp : Timestamp)

def readTurn (read : String × Timestamp) : Option (Option ReplyCode) :=
  let pWrites := s.getPreparedWrites read.1
  match s.store.getRange read.1 read.2 with
  | none => some none
  | some range =>
    if range.1 ≠ read.2 then some none
    else if !range.2.isValid then
      some (if 0 < pWrites.size ∧ (s.linearizable ∨ (pWrites.atMost timestamp).isSome) then some .abstain else none)
    else if s.linearizable ∨ range.2 < timestamp then if range.1 < timestamp then some (some .fail) else none
    else some (if pWrites.entries.any (fun writeTime => range.1 < writeTime.1 ∧ writeTime.1 < timestamp) then some .abstain else none)

def committedTurn (key : String) : Option (Option (ReplyCode × Timestamp)) :=
  match s.store.get key with
  | none => some none
  | some val =>
    if s.linearizable ∧ timestamp < val.1 then some (some (.retry,val.1))
    else
      (if s.linearizable then some (s.store.getLastRead key) else s.store.getLastReadAsserting key timestamp).map fun ret =>
        match ret with
        | none => none
        | some lastRead => if timestamp < lastRead then some (.retry,lastRead) else none

def writeTurn (write : String × String) : Option (Option (ReplyCode × Timestamp)) :=
  (s.committedTurn timestamp write.1).map fun committed =>
    committed.or ((s.pendingWriteCheck timestamp write.1).or (s.pendingReadCheck timestamp write.1))

end

section
variable (s : Store) (id : Nat) {txn : Transaction} (timestamp : Timestamp) (walk : Walk txn)

def checkAndPrepareAsserting : Option (Store × ReplyCode × Timestamp) :=
  (walk.reads.findSomeM? (s.readTurn timestamp)).bind fun refused =>
    match refused with
    | some code => some (s,code,.zero)
    | none => (walk.writes.findSomeM? (s.writeTurn timestamp)).map fun refused =>
      match refused with
      | some (code,proposed) => (s,code,proposed)
      | none => ({s with prepared := s.prepared.insert id (timestamp,txn)},.ok,.zero)

def prepareAsserting : Option (Store × ReplyCode × Timestamp) :=
  match s.prepared.find id with
  | none => s.checkAndPrepareAsserting id timestamp walk
  | some p => if p.1 = timestamp then some (s,.ok,.zero) else (s.forget id).checkAndPrepareAsserting id timestamp walk

end

end Store

def Store.call (s : Store) (order : ∀ txn, Walk txn) : Call → Option Store
  | .load key value timestamp => some (s.load key value timestamp)
  | .prepare id txn timestamp => (s.prepareAsserting id timestamp (order txn)).map Prod.fst
  | .commit id timestamp => some (s.commit id timestamp)
  | .abort id txn => some (s.abort id txn)

def asserting (linearizable : Bool) : Machine Store (Call × ∀ txn, Walk txn) := ⟨.new linearizable,fun s c => s.call c.2 c.1⟩

def Returns (s : Store) (id : Nat) (txn : Transaction) (t : Timestamp) : Prop :=
  ∀ walk : Walk txn, ∃ r, s.prepareAsserting id t walk = some r

def ReadAfter (s : Store) (t : Timestamp) (read : String × Timestamp) : Prop :=
  s.linearizable = true → read.2 ∈ (s.store.versions read.1).keys →
    (∃ next ∈ (s.store.versions read.1).upperBound read.2, next.1.isValid = true) → read.2 < t

def WrittenAfter (s : Store) (t : Timestamp) (write : String × String) : Prop :=
  s.linearizable = false → (s.store.versions write.1).keys.Nonempty → ∃ w ∈ (s.store.versions write.1).keys, w ≤ t

def PreparedWrite (s : Store) (key : String) (when : Timestamp → Prop) : Prop :=
  ∃ id w txn, s.prepared.find id = some (w,txn) ∧ txn.writes key = true ∧ when w

-- The version was read and has been replaced, or a prepared write is in the way.
def Refused (s : Store) (t : Timestamp) (read : String × Timestamp) : Prop :=
  read.2 ∈ (s.store.versions read.1).keys ∧
  ((∃ next ∈ (s.store.versions read.1).upperBound read.2, next.1.isValid = true ∧
      (s.linearizable = true ∨ next.1 < t ∨ PreparedWrite s read.1 fun w => read.2 < w ∧ w < t)) ∨
    (∀ next ∈ (s.store.versions read.1).upperBound read.2, next.1.isValid = false) ∧
      PreparedWrite s read.1 fun w => s.linearizable = true ∨ w ≤ t)

section
variable {s : Store} {t : Timestamp}

theorem mem_of_getRange {store : VersionedKVStore} (got : store.getRange key v = some range) (same : range.1 = v) :
    v ∈ (store.versions key).keys ∧ range.2 = (((store.versions key).upperBound v).map Prod.fst).getD .zero := by
  have present : v ∈ (store.versions key).keys := by
    unfold VersionedKVStore.getRange at got
    split at got
    · obtain ⟨_,valid,rfl⟩ := Option.map_eq_some_iff.mp got
      rw [← same]
      exact (OrdMap.atMost_some valid).1
    · cases got
  rw [getRange_present present] at got
  cases got
  exact ⟨present,rfl⟩

theorem zero_invalid : Timestamp.zero.isValid = false := by decide

theorem next_of_valid {store : VersionedKVStore}
    (valid : ((((store.versions key).upperBound v).map Prod.fst).getD .zero).isValid = true) :
    ∃ next ∈ (store.versions key).upperBound v,
      (((store.versions key).upperBound v).map Prod.fst).getD .zero = next.1 ∧ next.1.isValid = true := by
  cases bound : (store.versions key).upperBound v with
  | none =>
    rw [bound] at valid
    exact absurd (zero_invalid.symm.trans valid) (by decide)
  | some next =>
    rw [bound] at valid
    exact ⟨next,rfl,rfl,valid⟩

theorem readTurn_returns (read : String × Timestamp) (after : ReadAfter s t read) : s.readTurn t read = some (s.readCheck t read) := by
  unfold Store.readTurn Store.readCheck
  cases got : s.store.getRange read.1 read.2 with
  | none => rfl
  | some range =>
    dsimp only
    split
    · rfl
    rename_i same
    obtain ⟨present,ends⟩ := mem_of_getRange got (not_not.mp same)
    split
    · rfl
    rename_i valid
    rw [Bool.not_eq_true,Bool.not_eq_false'] at valid
    obtain ⟨next,bound,named,ok⟩ := next_of_valid (ends ▸ valid)
    split
    next stale =>
      -- without linearizability the timestamp is beyond the next version
      have later : range.1 < t := by
        rw [not_not.mp same]
        rcases stale with linear | past
        · exact after linear present ⟨next,bound,ok⟩
        · rw [ends,named] at past
          exact (OrdMap.upperBound_some bound).1.trans past
      rw [if_pos later]
    · rfl

theorem readTurn_fails (read : String × Timestamp) (early : ¬ ReadAfter s t read) : s.readTurn t read = none := by
  unfold ReadAfter at early
  push Not at early
  obtain ⟨linear,present,⟨_,bound,valid⟩,below⟩ := early
  unfold Store.readTurn
  rw [getRange_present present,Option.mem_def.mp bound]
  simp [valid,linear,not_lt.mpr below]

theorem getLastReadAsserting_of_le {store : VersionedKVStore} (version : w ∈ (store.versions key).keys) (early : w ≤ t) :
    store.getLastReadAsserting key t = some (store.getLastReadAt key t) := by
  obtain ⟨it,valid⟩ := Option.isSome_iff_exists.mp (OrdMap.atMost_isSome version early)
  have here : store.getValue key t = some it := valid
  unfold VersionedKVStore.getLastReadAsserting VersionedKVStore.getLastReadAt
  rw [if_pos (inStore_iff.mpr ⟨w,version⟩),if_pos (inStore_iff.mpr ⟨w,version⟩),here]
  rfl

theorem get_nonempty {store : VersionedKVStore} (got : store.get key = some e) : (store.versions key).keys.Nonempty := by
  unfold VersionedKVStore.get at got
  split at got
  next inside =>
    exact inStore_iff.mp inside
  · cases got

theorem writeTurn_returns (write : String × String) (after : WrittenAfter s t write) : s.writeTurn t write = some (s.writeCheck t write) := by
  have committed : s.committedTurn t write.1 = some (s.committedCheck t write.1) := by
    unfold Store.committedTurn Store.committedCheck
    cases got : s.store.get write.1 with
    | none => rfl
    | some val =>
      dsimp only
      split
      · rfl
      cases mode : s.linearizable with
      | true => rfl
      | false =>
        obtain ⟨_,version,early⟩ := after mode (get_nonempty got)
        simp only [Bool.false_eq_true,if_false]
        rw [getLastReadAsserting_of_le version early]
        rfl
  unfold Store.writeTurn Store.writeCheck
  rw [committed]
  rfl

theorem writeTurn_fails (write : String × String) (early : ¬ WrittenAfter s t write) : s.writeTurn t write = none := by
  unfold WrittenAfter at early
  push Not at early
  obtain ⟨mode,⟨w,version⟩,above⟩ := early
  have unread : s.store.getLastReadAsserting write.1 t = none := by
    unfold VersionedKVStore.getLastReadAsserting
    rw [if_pos (inStore_iff.mpr ⟨w,version⟩),Option.map_eq_none_iff]
    cases got : s.store.getValue write.1 t with
    | none => rfl
    | some it =>
      obtain ⟨there,within⟩ := OrdMap.atMost_some got
      exact absurd within (not_le.mpr (above it.1 there))
  have committed : s.committedTurn t write.1 = none := by
    unfold Store.committedTurn
    cases got : s.store.get write.1 with
    | none => exact absurd version (get_none got)
    | some val => simp [mode,unread]
  unfold Store.writeTurn
  rw [committed]
  rfl

theorem preparedWrite_iff : PreparedWrite s key p ↔ ∃ w ∈ (s.getPreparedWrites key).keys, p w := by
  simp only [Store.getPreparedWrites,mem_preparedTimes,PreparedWrite]
  constructor
  · rintro ⟨id,w,txn,found,writes,good⟩
    exact ⟨w,⟨id,txn,found,writes⟩,good⟩
  · rintro ⟨w,⟨id,txn,found,writes⟩,good⟩
    exact ⟨id,w,txn,found,writes,good⟩

theorem pending_iff : PreparedWrite s key (fun w => s.linearizable = true ∨ w ≤ t) ↔
    0 < (s.getPreparedWrites key).size ∧ (s.linearizable = true ∨ ((s.getPreparedWrites key).atMost t).isSome = true) := by
  rw [preparedWrite_iff]
  constructor
  · rintro ⟨w,there,early⟩
    exact ⟨OrdMap.size_pos there,early.imp_right fun early => OrdMap.atMost_isSome there early⟩
  rintro ⟨nonempty,linear | early⟩
  · rw [← OrdMap.card_keys] at nonempty
    obtain ⟨w,there⟩ := Finset.card_pos.mp nonempty
    exact ⟨w,there,.inl linear⟩
  · obtain ⟨it,got⟩ := Option.isSome_iff_exists.mp early
    obtain ⟨there,within⟩ := OrdMap.atMost_some got
    exact ⟨it.1,there,.inr within⟩

theorem between_iff : PreparedWrite s key (fun w => v < w ∧ w < t) ↔
    (s.getPreparedWrites key).entries.any (fun writeTime => v < writeTime.1 ∧ writeTime.1 < t) = true := by
  rw [preparedWrite_iff,List.any_eq_true]
  constructor
  · rintro ⟨w,there,between⟩
    obtain ⟨_,got⟩ := OrdMap.mem_keys.mp there
    exact ⟨_,OrdMap.mem_entries.mpr got,decide_eq_true between⟩
  · rintro ⟨⟨w,u⟩,listed,between⟩
    exact ⟨w,OrdMap.mem_keys.mpr ⟨u,OrdMap.mem_entries.mp listed⟩,of_decide_eq_true between⟩

theorem refused_iff (read : String × Timestamp) : Refused s t read ↔ (s.readCheck t read).isSome := by
  by_cases present : read.2 ∈ (s.store.versions read.1).keys
  · unfold Refused Store.readCheck
    rw [getRange_present present]
    simp only [present,true_and,ne_eq,not_true_eq_false,if_false]
    rw [pending_iff,between_iff]
    cases bound : (s.store.versions read.1).upperBound read.2 with
    | none => simp [zero_invalid]
    | some next =>
      cases valid : next.1.isValid with
      | true =>
        simp only [Option.mem_def,Option.some.injEq,exists_eq_left',valid,true_and,forall_eq',Bool.true_eq_false,false_and,or_false,
          Option.map_some,Option.getD_some,Bool.not_true,Bool.false_eq_true,if_false]
        split_ifs with stale pending
        · exact iff_of_true (stale.imp_right .inl) rfl
        · exact iff_of_true (.inr (.inr pending)) rfl
        · refine iff_of_false ?_ (by decide)
          rintro (linear | past | between)
          · exact stale (.inl linear)
          · exact stale (.inr past)
          · exact pending between
      | false => simp [valid]
  refine iff_of_false (fun refused => present refused.1) ?_
  unfold Store.readCheck
  cases got : s.store.getRange read.1 read.2 with
  | none => simp
  | some range =>
    have other : range.1 ≠ read.2 := fun same => present (mem_of_getRange got same).1
    simp [other]

end

section
variable {turn : α → Option (Option β)} {check : α → Option β} {ok : α → Prop}

theorem scan_eq (returns : ∀ x, ok x → turn x = some (check x)) {xs : List α} (all : ∀ x ∈ xs, ok x) :
    xs.findSomeM? turn = some (xs.findSome? check) := by
  induction xs with
  | nil => rfl
  | cons head rest ih =>
    rw [List.findSomeM?_cons,returns head (all head List.mem_cons_self),List.findSome?_cons]
    cases check head with
    | some b => rfl
    | none => exact ih fun x mem => all x (.tail _ mem)

-- Any of them may come first.
theorem walk_from {xs : List α} (mem : x ∈ xs) : ∃ ys, (x :: ys).Perm xs := by
  obtain ⟨front,back,rfl⟩ := List.append_of_mem mem
  exact ⟨front ++ back,List.perm_middle.symm⟩

end

structure Covered (s : Store) (txn : Transaction) (t : Timestamp) : Prop where
  reads : ∀ read ∈ txn.readSet.entries, ReadAfter s t read
  writes : (∃ read ∈ txn.readSet.entries, Refused s t read) ∨ ∀ write ∈ txn.writeSet.entries, WrittenAfter s t write

theorem reads_scan {walk : Walk txn} (after : ∀ read ∈ txn.readSet.entries, ReadAfter s t read) :
    walk.reads.findSomeM? (s.readTurn t) = some (walk.reads.findSome? (s.readCheck t)) :=
  scan_eq readTurn_returns fun read mem => after read (walk.readSet.mem_iff.mp mem)

theorem unrefused_iff {walk : Walk txn} :
    walk.reads.findSome? (s.readCheck t) = none ↔ ¬ ∃ read ∈ txn.readSet.entries, Refused s t read := by
  simp only [List.findSome?_eq_none_iff,refused_iff,walk.readSet.mem_iff,not_exists,not_and,Bool.not_eq_true,Option.isSome_eq_false_iff,
    Option.isNone_iff_eq_none]

theorem checkAndPrepareAsserting_isSome (s : Store) (id : Nat) (txn : Transaction) (t : Timestamp) :
    (∀ walk : Walk txn, (s.checkAndPrepareAsserting id t walk).isSome) ↔ Covered s txn t := by
  constructor
  · intro runs
    have after : ∀ read ∈ txn.readSet.entries, ReadAfter s t read := by
      intro read mem
      by_contra early
      obtain ⟨others,readSet⟩ := walk_from mem
      have stopped := runs ⟨_,_,readSet,.refl _⟩
      simp [Store.checkAndPrepareAsserting,readTurn_fails read early] at stopped
    refine ⟨after,or_iff_not_imp_left.mpr fun passed write mem => ?_⟩
    by_contra early
    obtain ⟨others,writeSet⟩ := walk_from mem
    have stopped := runs ⟨_,_,.refl _,writeSet⟩
    rw [Store.checkAndPrepareAsserting,reads_scan after,unrefused_iff.mpr passed] at stopped
    simp [writeTurn_fails write early] at stopped
  intro covered walk
  rw [Store.checkAndPrepareAsserting,reads_scan covered.reads]
  cases passed : walk.reads.findSome? (s.readCheck t) with
  | some code => rfl
  | none =>
    have after := covered.writes.resolve_left (unrefused_iff.mp passed)
    rw [Option.bind_some,scan_eq writeTurn_returns fun write mem => after write (walk.writeSet.mem_iff.mp mem)]
    rfl

theorem prepare_returns_iff_covered (s : Store) (id : Nat) (txn : Transaction) (t : Timestamp) :
    Returns s id txn t ↔ (∃ old, s.prepared.find id = some (t,old)) ∨ Covered (s.forget id) txn t := by
  simp only [Returns,← Option.isSome_iff_exists]
  rw [← checkAndPrepareAsserting_isSome _ id]
  unfold Store.prepareAsserting
  cases found : s.prepared.find id with
  | none =>
    have same : s.forget id = s := by
      unfold Store.forget
      rw [OrdMap.erase_absent found]
    rw [same]
    exact ⟨.inr,fun either => either.resolve_left (nofun)⟩
  | some p =>
    by_cases same : p.1 = t
    · simp only [if_pos same]
      exact iff_of_true (fun _ => rfl) (.inl ⟨p.2,by rw [← same]⟩)
    · simp only [if_neg same]
      refine ⟨.inr,fun either => either.resolve_left ?_⟩
      rintro ⟨old,named⟩
      cases named
      exact same rfl

-- The client's clock is behind: it reads the version of time 5, which is then replaced, and
-- prepares at time 3; or it writes a key whose only version is newer.
def keyOrder (txn : Transaction) : Walk txn := ⟨_,_,.refl _,.refl _⟩

def writtenAt (id : Nat) (t : Timestamp) : List (Call × ∀ txn, Walk txn) :=
  [(.prepare id writesKey t,keyOrder),(.commit id 0,keyOrder)]

theorem late_clock_fails_assertions :
    (¬ ∀ s, (asserting true).Reached Machine.anyStep s → ∀ id txn t, Returns s id txn t) ∧
    ¬ ∀ s, (asserting false).Reached Machine.anyStep s → ∀ id txn t, Returns s id txn t := by
  refine ⟨fun claimed => ?_,fun claimed => ?_⟩
  · obtain ⟨s,reached,seen⟩ := Machine.reached_of_run (asserting true) Machine.anyStep
      (fun s => s.prepareAsserting 3 ⟨3,3⟩ (keyOrder (Transaction.empty.addReadSet "k" ⟨5,1⟩)) = none)
      (writtenAt 1 ⟨5,1⟩ ++ writtenAt 2 ⟨9,2⟩) (by decide +kernel)
    obtain ⟨r,returned⟩ := claimed s reached 3 _ ⟨3,3⟩ (keyOrder _)
    rw [seen] at returned
    cases returned
  obtain ⟨s,reached,seen⟩ := Machine.reached_of_run (asserting false) Machine.anyStep
    (fun s => s.prepareAsserting 2 ⟨3,2⟩ (keyOrder writesKey) = none) (writtenAt 1 ⟨5,1⟩) (by decide +kernel)
  obtain ⟨r,returned⟩ := claimed s reached 2 _ ⟨3,2⟩ (keyOrder _)
  rw [seen] at returned
  cases returned

end TapirStore
end DbExp.Tapir
