import DbExp.Tapir.OccStore

namespace DbExp.Tapir.Occ

structure Unconflicted (s : OCCStore) : Prop where
  apart : ∀ i a, s.prepared.find i = some a → ∀ j b, s.prepared.find j = some b → i ≠ j →
    ∀ key, a.writes key = true → ¬ (b.reads key = true ∨ b.writes key = true)
  newest : ∀ i a, s.prepared.find i = some a → ∀ key v, a.readSet.find key = some v →
    ∀ w ∈ (s.store.versions key).keys, ¬ v < w

namespace History

def ReadsExist (h : History) : Call → Prop
  | .prepare _ txn => ∀ read ∈ txn.readSet.entries, h.store.store.inStore read.1 = true
  | _ => True

def LoadsOld (h : History) : Call → Prop
  | .load key _ t => ∀ p ∈ h.store.prepared.entries, ∀ v ∈ p.2.readSet.find key, ¬ v < t
  | _ => True

instance (h : History) (call : Call) : Decidable (ReadsExist h call) := by
  unfold ReadsExist; rcases call with ⟨⟩ <;> infer_instance

instance (h : History) (call : Call) : Decidable (LoadsOld h call) := by
  unfold LoadsOld; rcases call with ⟨⟩ <;> infer_instance

end History

section
variable {s : OCCStore} {txn : Transaction} {id : Nat}

theorem apart_of_writeConflict (writes : ∀ write ∈ txn.writeSet.entries, s.writeConflict write = false)
    (got : s.prepared.find j = some other) (own : txn.writes key = true) : ¬ (other.reads key = true ∨ other.writes key = true) := by
  obtain ⟨value,inSet⟩ := Option.isSome_iff_exists.mp own
  have unshared := List.any_eq_false.mp (writes (key,value) (OrdMap.mem_entries.mpr inSet)) (j,other) (OrdMap.mem_entries.mpr got)
  rwa [Bool.or_eq_true,or_comm] at unshared

theorem current_of_readConflict (present : s.store.inStore key = true) (passed : s.readConflict (key,v) = false) :
    s.getPreparedWrites key = false ∧ ∀ w ∈ (s.store.versions key).keys, ¬ v < w := by
  unfold OCCStore.readConflict at passed
  split at passed
  next absent =>
    obtain ⟨w,version⟩ := VersionedKVStore.inStore_iff.mp present
    exact absurd version (VersionedKVStore.get_none absent)
  next cur latest =>
    rw [Bool.or_eq_false_iff,decide_eq_false_iff_not] at passed
    exact ⟨passed.2,fun w version newer => passed.1 (newer.trans_le (VersionedKVStore.get_le latest version))⟩

section
variable (held : Unconflicted s)
include held

theorem forget_unconflicted (id : Nat) (txn : Transaction) : Unconflicted (s.abort id txn) where
  apart := fun i a foundA j b foundB => held.apart i a (find_erase_some foundA).2 j b (find_erase_some foundB).2
  newest := fun i a got => held.newest i a (find_erase_some got).2

theorem accept_unconflicted (present : ∀ read ∈ txn.readSet.entries, s.store.inStore read.1 = true)
    (reads : ∀ read ∈ txn.readSet.entries, s.readConflict read = false)
    (writes : ∀ write ∈ txn.writeSet.entries, s.writeConflict write = false) :
    Unconflicted {s with prepared := s.prepared.insert id txn} := by
  have current {key : String} {v : Timestamp} (read : txn.readSet.find key = some v) :=
    current_of_readConflict (present _ (OrdMap.mem_entries.mpr read)) (reads _ (OrdMap.mem_entries.mpr read))
  refine ⟨fun i a foundA j b foundB different key writesA => ?_,fun i a got key v read => ?_⟩
  · rw [OrdMap.find_insert] at foundA foundB
    split at foundA
    · cases foundA
      rw [if_neg (by omega)] at foundB
      exact apart_of_writeConflict writes foundB writesA
    split at foundB
    · cases foundB
      rintro (reading | writing)
      · obtain ⟨v,read⟩ := Option.isSome_iff_exists.mp reading
        have unwritten := List.any_eq_false.mp (current read).1 (i,a) (OrdMap.mem_entries.mpr foundA)
        exact unwritten writesA
      · exact apart_of_writeConflict writes foundA writing (.inr writesA)
    · exact held.apart i a foundA j b foundB different key writesA
  rw [OrdMap.find_insert] at got
  split at got
  · cases got
    exact (current read).2
  · exact held.newest i a got key v read

theorem commit_unconflicted (id t : Nat) : Unconflicted (s.commit id t) := by
  refine ⟨fun i a foundA j b foundB => held.apart i a (find_erase_some foundA).2 j b (find_erase_some foundB).2,
    fun i a got key v read w version => ?_⟩
  obtain ⟨other,still⟩ := find_erase_some got
  rcases mem_commit.mp version with old | ⟨txn,there,written,rfl⟩
  · exact held.newest i a still key v read w old
  · have reading : a.reads key = true := Option.isSome_iff_exists.mpr ⟨v,read⟩
    exact absurd (.inl reading) (held.apart id txn there i a still other key written)

theorem load_unconflicted (old : ∀ p ∈ s.prepared.entries, ∀ v ∈ p.2.readSet.find key, ¬ v < t) :
    Unconflicted (s.load key value t) := by
  refine ⟨held.apart,fun i a got other v read w version => ?_⟩
  rcases VersionedKVStore.mem_put.mp version with ⟨rfl,rfl⟩ | before
  · exact old (i,a) (OrdMap.mem_entries.mpr got) v read
  · exact held.newest i a got other v read w before

end

theorem step_unconflicted {h : History} (held : Unconflicted h.store) (call : Call) (present : h.ReadsExist call) (old : h.LoadsOld call) :
    Unconflicted (h.step call).store := by
  cases call with
  | load key value t => exact load_unconflicted held old
  | commit id t => exact commit_unconflicted held id t
  | abort id txn => exact forget_unconflicted held id txn
  | prepare id txn =>
    have result := prepare_prepares h.store id txn
    change Unconflicted (h.store.prepare id txn).1
    generalize h.store.prepare id txn = out at result
    cases result with
    | again old got | refused absent => exact held
    | accepted absent reads writes => exact accept_unconflicted held present reads writes

end

theorem unconflicted_of_old_loads (h : History) (reached : machine.Reached (fun h call => h.ReadsExist call ∧ h.LoadsOld call) h) :
    Unconflicted h.store := by
  refine Machine.Reached.invariant (fun h => Unconflicted h.store) ?_ ?_ reached
  · exact ⟨fun i a found => (by cases found),fun i a found => by cases found⟩
  · rintro _ call _ _ held allowed taken
    cases Option.some.inj taken
    exact step_unconflicted held call allowed.1 allowed.2

def readsKey : Transaction := Transaction.empty.addReadSet "k" .zero

theorem readers_unconflicted : ∃ h : History, Unconflicted h.store ∧ h.accepted = [3,1] ∧ h.store.prepared.size = 2 := by
  obtain ⟨h,reached,seen⟩ := Machine.reached_of_run machine (fun h call => h.ReadsExist call ∧ h.LoadsOld call)
    (fun h => h.accepted = [3,1] ∧ h.store.prepared.size = 2)
    [.load "k" "a" .zero,.prepare 1 readsKey,.prepare 2 writesKey,.prepare 3 readsKey] (by decide +kernel)
  exact ⟨h,unconflicted_of_old_loads h reached,seen⟩

theorem loaded_past_reader : ¬ ∀ h : History, machine.Reached History.ReadsExist h → Unconflicted h.store := by
  intro claimed
  obtain ⟨h,reached,found,version⟩ := Machine.reached_of_run machine History.ReadsExist
    (fun h => h.store.prepared.find 1 = some readsKey ∧ ⟨5,2⟩ ∈ (h.store.store.versions "k").keys)
    [.load "k" "a" .zero,.prepare 1 readsKey,.load "k" "b" ⟨5,2⟩] (by decide +kernel)
  exact (claimed h reached).newest 1 _ found "k" .zero (by decide +kernel) ⟨5,2⟩ version (by decide +kernel)

end DbExp.Tapir.Occ
