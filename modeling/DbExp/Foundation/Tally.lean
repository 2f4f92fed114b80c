import Mathlib.Data.Finset.Card

namespace DbExp.Tally

open Classical in
noncomputable def tally (members : Finset α) (p : α → Prop) : Nat := (members.filter p).card

section
variable {members : Finset α} {p q : α → Prop}

theorem tally_congr (same : ∀ a ∈ members, p a ↔ q a) : tally members p = tally members q := by
  classical
  unfold tally
  rw [Finset.filter_congr same]

theorem tally_eq_zero : tally members p = 0 ↔ ∀ a ∈ members, ¬ p a := by
  classical
  unfold tally
  rw [Finset.card_eq_zero,Finset.filter_eq_empty_iff]

theorem tally_all (all : ∀ a ∈ members, p a) : tally members p = members.card := by
  classical
  unfold tally
  rw [Finset.filter_true_of_mem all]

theorem tally_gain (mem : x ∈ members) (without : ¬ p x) (gained : q x) (others : ∀ a ∈ members, a ≠ x → (p a ↔ q a)) :
    tally members q = tally members p + 1 := by
  classical
  have grown : members.filter q = insert x (members.filter p) := by
    ext a
    rw [Finset.mem_filter,Finset.mem_insert,Finset.mem_filter]
    by_cases same : a = x
    · subst same; simp [mem,gained]
    · simp only [same,false_or]
      exact and_congr_right fun inside => (others a inside same).symm
  have fresh : x ∉ members.filter p := fun inside => without (Finset.mem_filter.mp inside).2
  unfold tally
  rw [grown,Finset.card_insert_of_notMem fresh]

end
end DbExp.Tally
