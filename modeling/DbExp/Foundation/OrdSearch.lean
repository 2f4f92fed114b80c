import DbExp.Foundation.OrdMap

namespace DbExp.OrdMap
open List
variable {κ ν : Type} [LinearOrder κ]

section
variable (m : OrdMap κ ν)

def add (k : κ) (v : ν) : OrdMap κ ν :=
  match m.find k with
  | some _ => m
  | none => m.insert k v

def upperBound (k : κ) : Option (κ × ν) := m.entries.find? (fun e => k < e.1)

def atMost (k : κ) : Option (κ × ν) := (m.entries.filter (fun e => e.1 ≤ k)).getLast?

def last : Option (κ × ν) := m.entries.getLast?

end

variable {m : OrdMap κ ν}

theorem fst_mem_keys (mem : e ∈ m.entries) : e.1 ∈ m.keys := mem_keys.mpr ⟨e.2,mem_entries.mp mem⟩

theorem find_add (m : OrdMap κ ν) (k j : κ) (v : ν) :
    (m.add k v).find j = if k = j then some ((m.find k).getD v) else m.find j := by
  unfold add
  cases got : m.find k with
  | none => exact find_insert ..
  | some old =>
    by_cases same : k = j
    · simp [← same,got]
    · simp [same]

theorem mem_keys_add : j ∈ (m.add k v).keys ↔ j = k ∨ j ∈ m.keys := by
  rw [mem_keys,mem_keys,find_add]
  by_cases same : k = j
  · simp [same]
  · simp [same,Ne.symm same]

theorem upperBound_some (got : m.upperBound t = some e) :
    t < e.1 ∧ e.1 ∈ m.keys ∧ ∀ k ∈ m.keys, t < k → e.1 ≤ k := by
  obtain ⟨above,front,back,split,below⟩ := List.find?_eq_some_iff_append.mp got
  refine ⟨by simpa using above,fst_mem_keys (split ▸ by simp),fun k mem less => ?_⟩
  obtain ⟨v,there⟩ := mem_keys.mp mem
  have placed : (k,v) ∈ front ++ e :: back := split ▸ mem_entries.mpr there
  have sorted := split ▸ m.sorted
  rcases mem_append.mp placed with early | late
  · exact absurd less (by simpa using below _ early)
  · rcases mem_cons.mp late with here | after
    · exact (congrArg Prod.fst here).ge
    · exact ((pairwise_cons.mp (pairwise_append.mp sorted).2.1).1 _ after).le

theorem upperBound_none (absent : m.upperBound t = none) (mem : k ∈ m.keys) : k ≤ t := by
  obtain ⟨_,there⟩ := mem_keys.mp mem
  simpa using List.find?_eq_none.mp absent _ (mem_entries.mpr there)

theorem getLast_sorted {xs : List (κ × ν)} (sorted : xs.Pairwise (fun a b => a.1 < b.1)) (final : xs.getLast? = some e)
    (mem : x ∈ xs) : x = e ∨ x.1 < e.1 := by
  obtain ⟨_,rfl⟩ := List.getLast?_eq_some_iff.mp final
  rcases mem_append.mp mem with early | here
  · exact .inr ((pairwise_append.mp sorted).2.2 _ early _ (mem_singleton_self _))
  · exact .inl (mem_singleton.mp here)

-- The entry with the greatest key among those asked for, or that there is none.
def Greatest (holds : κ → ν → Prop) (within : κ → Prop) : Option (κ × ν) → Prop
  | some e => holds e.1 e.2 ∧ within e.1 ∧ ∀ k v, holds k v → within k → k ≤ e.1
  | none => ∀ k v, holds k v → ¬ within k

theorem greatest_getLast (m : OrdMap κ ν) (within : κ → Prop) [DecidablePred within] :
    Greatest (fun k v => m.find k = some v) within (m.entries.filter fun e => within e.1).getLast? := by
  have listed : ∀ {k v}, m.find k = some v → within k → (k,v) ∈ m.entries.filter fun e => within e.1 :=
    fun got inside => mem_filter.mpr ⟨mem_entries.mpr got,by simpa using inside⟩
  cases final : (m.entries.filter fun e => within e.1).getLast? with
  | none =>
    intro k v got inside
    have mem := listed got inside
    rw [List.getLast?_eq_none_iff.mp final] at mem
    cases mem
  | some e =>
    obtain ⟨mem,inside⟩ := mem_filter.mp (mem_of_getLast? final)
    refine ⟨mem_entries.mp mem,by simpa using inside,fun k v got near => ?_⟩
    rcases getLast_sorted (m.sorted.filter _) final (listed got near) with rfl | below
    · exact le_rfl
    · exact below.le

theorem greatest_last (m : OrdMap κ ν) : Greatest (fun k v => m.find k = some v) (fun _ => True) m.last := by
  simpa [last] using greatest_getLast m fun _ => True

theorem greatest_atMost (m : OrdMap κ ν) (k : κ) : Greatest (fun k v => m.find k = some v) (· ≤ k) (m.atMost k) :=
  greatest_getLast m _

theorem last_le (final : m.last = some e) (mem : k ∈ m.keys) : k ≤ e.1 := by
  obtain ⟨_,there⟩ := mem_keys.mp mem
  exact (final ▸ greatest_last m).2.2 _ _ there trivial

theorem last_none (absent : m.last = none) : k ∉ m.keys := by
  intro mem
  obtain ⟨_,there⟩ := mem_keys.mp mem
  exact (absent ▸ greatest_last m) _ _ there trivial

theorem atMost_some (got : m.atMost k = some e) : e.1 ∈ m.keys ∧ e.1 ≤ k := by
  obtain ⟨there,within,_⟩ := got ▸ greatest_atMost m k
  exact ⟨mem_keys.mpr ⟨_,there⟩,within⟩

theorem atMost_isSome (mem : j ∈ m.keys) (within : j ≤ k) : (m.atMost k).isSome = true := by
  obtain ⟨_,there⟩ := mem_keys.mp mem
  cases final : m.atMost k with
  | none => exact absurd within ((final ▸ greatest_atMost m k) _ _ there)
  | some e => rfl

theorem atMost_self (mem : k ∈ m.keys) : ∃ v, m.atMost k = some (k,v) := by
  obtain ⟨_,there⟩ := mem_keys.mp mem
  obtain ⟨e,final⟩ := Option.isSome_iff_exists.mp (atMost_isSome mem le_rfl)
  obtain ⟨_,within,greatest⟩ := final ▸ greatest_atMost m k
  have same : e.1 = k := le_antisymm within (greatest _ _ there le_rfl)
  exact ⟨e.2,by rw [final,← same]⟩

theorem size_pos (mem : k ∈ m.keys) : 0 < m.size := by
  rw [← card_keys]
  exact Finset.card_pos.mpr ⟨k,mem⟩

theorem erase_absent (absent : m.find k = none) : m.erase k = m := by
  change (⟨_,_⟩ : OrdMap κ ν) = ⟨m.entries,m.sorted⟩
  congr 1
  refine filter_eq_self.mpr fun e mem => ?_
  have got := mem_entries.mp mem
  have apart : e.1 ≠ k := by
    rintro rfl
    rw [absent] at got
    cases got
  simpa using apart

end DbExp.OrdMap
