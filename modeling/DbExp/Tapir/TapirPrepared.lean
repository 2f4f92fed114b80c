import DbExp.Tapir.TapirSerializable

namespace DbExp.Tapir.TapirStore

-- What a store answered OK for can still be committed in any order: no prepared write and
-- no version lies between a version that a prepared transaction read and its timestamp.
structure Compatible (s : Store) : Prop where
  pending : ∀ i j t u T U, i ≠ j → s.prepared.find i = some (t,T) → s.prepared.find j = some (u,U) →
    ∀ key v, T.readSet.find key = some v → U.writes key = true → ¬ (v < u ∧ u < t)
  versions : ∀ i t T, s.prepared.find i = some (t,T) → ∀ key v, T.readSet.find key = some v →
    ∀ w ∈ (s.store.versions key).keys, ¬ (v < w ∧ w < t)

theorem compatible_new (linearizable : Bool) : Compatible (.new linearizable) := by
  refine ⟨?_,?_⟩
  · intro i j t u T U _ got
    cases got
  · intro i t T got
    cases got

section
variable {s : Store} {id : Nat}

theorem find_forget (got : (s.forget id).prepared.find i = some p) : i ≠ id ∧ s.prepared.find i = some p := by
  unfold Store.forget at got
  rw [OrdMap.find_erase] at got
  split at got
  · cases got
  next other =>
    exact ⟨Ne.symm other,got⟩

theorem Compatible.forget (compatible : Compatible s) : Compatible (s.forget id) where
  pending := fun i j t u T U apart one two =>
    compatible.pending i j t u T U apart (find_forget one).2 (find_forget two).2
  versions := fun i t T one => compatible.versions i t T (find_forget one).2

-- The reader is checked against the prepared writers, and the writer against the prepared
-- readers, so it does not matter which of them came first.
theorem Compatible.accept (compatible : Compatible s)
    (reads : ∀ read ∈ txn.readSet.entries, (s.forget id).readCheck t read = none)
    (writes : ∀ write ∈ txn.writeSet.entries, (s.forget id).writeCheck t write = none)
    (present : ∀ read ∈ txn.readSet.entries, read.2 ∈ (s.store.versions read.1).keys)
    (valid : ∀ read ∈ txn.readSet.entries, ∀ next ∈ (s.store.versions read.1).upperBound read.2,
      next.1 < t → next.1.isValid = true) :
    Compatible {s with prepared := (s.prepared.erase id).insert id (t,txn)} := by
  have clear (key : String) (v : Timestamp) (read : txn.readSet.find key = some v) :=
    readCheck_clear (s := s.forget id) (reads (key,v) (OrdMap.mem_entries.mpr read))
      (present (key,v) (OrdMap.mem_entries.mpr read)) (valid (key,v) (OrdMap.mem_entries.mpr read))
  have cases_of (i : Nat) (p : Timestamp × Transaction)
      (got : ((s.prepared.erase id).insert id (t,txn)).find i = some p) :
      i = id ∧ p = (t,txn) ∨ i ≠ id ∧ (s.forget id).prepared.find i = some p := by
    rw [OrdMap.find_insert] at got
    split at got
    next same =>
      exact .inl ⟨same.symm,(Option.some.inj got).symm⟩
    next other =>
      exact .inr ⟨Ne.symm other,got⟩
  refine ⟨?_,?_⟩
  · intro i j r u T U apart one two key v read written
    rcases cases_of i _ one with ⟨rfl,mine⟩ | ⟨_,old⟩
    · cases mine
      rcases cases_of j _ two with ⟨same,_⟩ | ⟨_,other⟩
      · exact absurd same.symm apart
      · exact (clear key v read).2 u (mem_preparedTimes.mpr ⟨j,U,other,written⟩)
    rcases cases_of j _ two with ⟨_,mine⟩ | ⟨_,other⟩
    · cases mine
      obtain ⟨value,inSet⟩ := Option.isSome_iff_exists.mp written
      have earlier : r ≤ t := writeCheck_unread (writes (key,value) (OrdMap.mem_entries.mpr inSet))
        (mem_preparedTimes.mpr ⟨i,T,old,Option.isSome_iff_exists.mpr ⟨v,read⟩⟩)
      exact fun inside => absurd inside.2 (not_lt.mpr earlier)
    · exact compatible.forget.pending i j r u T U apart old other key v read written
  intro i r T one key v read
  rcases cases_of i _ one with ⟨_,mine⟩ | ⟨_,old⟩
  · cases mine
    exact (clear key v read).1
  · exact compatible.forget.versions i r T old key v read

theorem Compatible.commit (compatible : Compatible s) (time : Nat) : Compatible (s.commit id time) := by
  refine ⟨compatible.forget.pending,?_⟩
  intro i t T one key v read w version
  rcases mem_commitAt.mp version with old | ⟨written,rfl⟩
  · exact compatible.forget.versions i t T one key v read w old
  obtain ⟨apart,before⟩ := find_forget one
  cases got : s.prepared.find id with
  | none =>
    rw [Store.preparedAs,got] at written
    cases written
  | some p =>
    have entry : s.preparedAs id = p := by rw [Store.preparedAs,got]; rfl
    rw [entry] at written ⊢
    exact compatible.pending i id t p.1 T p.2 apart before got key v read written

end

namespace History

section
variable (h : History)

def Present : Call → Prop
  | .prepare _ txn _ => ∀ read ∈ txn.readSet.entries, read.2 ∈ (h.store.store.versions read.1).keys
  | _ => True

def NextValid : Call → Prop
  | .prepare _ txn timestamp => ∀ read ∈ txn.readSet.entries, ∀ next ∈ (h.store.store.versions read.1).upperBound read.2,
      next.1 < timestamp → next.1.isValid = true
  | _ => True

def LoadsOutside : Call → Prop
  | .load key _ timestamp => Misses key timestamp (h.store.prepared.entries.map Prod.snd)
  | _ => True

instance (call : Call) : Decidable (Present h call) := by
  unfold Present; rcases call with ⟨⟩ <;> infer_instance

instance (call : Call) : Decidable (NextValid h call) := by
  unfold NextValid; rcases call with ⟨⟩ <;> infer_instance

instance (call : Call) : Decidable (LoadsOutside h call) := by
  unfold LoadsOutside; rcases call with ⟨⟩ <;> infer_instance

end

theorem step_compatible {h : History} (call : Call) (compatible : Compatible h.store) (present : h.Present call)
    (valid : h.NextValid call) (outside : h.LoadsOutside call) : Compatible (h.step call).store := by
  cases call with
  | load key value t =>
    refine ⟨compatible.pending,?_⟩
    intro i u T got other v read w version
    rcases VersionedKVStore.mem_put.mp version with ⟨rfl,rfl⟩ | old
    · exact outside (u,T) (List.mem_map.mpr ⟨(i,u,T),OrdMap.mem_entries.mpr got,rfl⟩) v read
    · exact compatible.versions i u T got other v read w old
  | prepare id txn t =>
    have result := prepare_prepares h.store id txn t
    unfold History.step
    dsimp only
    generalize h.store.prepare id txn t = out at result
    cases result with
    | again old got => exact compatible
    | refused code proposed refuses => exact compatible.forget
    | accepted reads writes => exact compatible.accept reads writes present valid
  | commit id t => exact compatible.commit t
  | abort id txn => exact compatible.forget

end History

theorem compatible_of_valid_versions (linearizable : Bool) (h : History)
    (reached : (machine linearizable).Reached (fun h call => h.Present call ∧ h.NextValid call ∧ h.LoadsOutside call) h) :
    Compatible h.store := by
  refine Machine.Reached.invariant (fun h => Compatible h.store) (compatible_new linearizable) ?_ reached
  rintro _ call _ _ compatible allowed taken
  cases Option.some.inj taken
  exact History.step_compatible call compatible allowed.1 allowed.2.1 allowed.2.2

theorem compatible_with_later_writer : ∃ h : History, Compatible h.store ∧ h.store.prepared.size = 2 := by
  obtain ⟨h,reached,seen⟩ := Machine.reached_of_run (machine false)
    (fun h call => h.Present call ∧ h.NextValid call ∧ h.LoadsOutside call) (fun h => h.store.prepared.size = 2)
    [.load "k" "a" .zero,.prepare 1 readsKey ⟨10,1⟩,.prepare 2 writesKey ⟨20,2⟩] (by decide +kernel)
  exact ⟨h,compatible_of_valid_versions false h reached,seen⟩

-- Prepare takes a version with the client id 0 for no version, and Load does not look at
-- what is prepared.
theorem stale_reader_prepared :
    (¬ ∀ h, (machine false).Reached (fun h call => h.Present call ∧ h.LoadsOutside call) h → Compatible h.store) ∧
    ¬ ∀ h, (machine false).Reached (fun h call => h.Present call ∧ h.NextValid call) h → Compatible h.store := by
  refine ⟨fun claimed => ?_,fun claimed => ?_⟩
  · obtain ⟨h,reached,found,version⟩ := Machine.reached_of_run (machine false) (fun h call => h.Present call ∧ h.LoadsOutside call)
      (fun h => h.store.prepared.find 1 = some (⟨10,1⟩,readsKey) ∧ ⟨5,0⟩ ∈ (h.store.store.versions "k").keys)
      [.load "k" "a" .zero,.load "k" "b" ⟨5,0⟩,.prepare 1 readsKey ⟨10,1⟩] (by decide +kernel)
    exact (claimed h reached).versions 1 _ _ found "k" .zero (by decide +kernel) ⟨5,0⟩ version (by decide +kernel)
  obtain ⟨h,reached,found,version⟩ := Machine.reached_of_run (machine false) (fun h call => h.Present call ∧ h.NextValid call)
    (fun h => h.store.prepared.find 1 = some (⟨10,1⟩,readsKey) ∧ ⟨5,2⟩ ∈ (h.store.store.versions "k").keys)
    [.load "k" "a" .zero,.prepare 1 readsKey ⟨10,1⟩,.load "k" "b" ⟨5,2⟩] (by decide +kernel)
  exact (claimed h reached).versions 1 _ _ found "k" .zero (by decide +kernel) ⟨5,2⟩ version (by decide +kernel)

end DbExp.Tapir.TapirStore
