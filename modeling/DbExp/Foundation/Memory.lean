import Mathlib.Tactic

namespace DbExp.Memory
open Function List

variable {α : Type} {word word' : Nat → α} {pos p q m n : Nat} {ws : List α}

def readAll (word : Nat → α) (pos n : Nat) : List α := (List.range n).map fun i => word (pos+i)

def write (word : Nat → α) (pos : Nat) : List α → Nat → α
  | [] => word
  | w :: rest => write (update word pos w) (pos+1) rest

@[simp] theorem length_readAll (word : Nat → α) (pos n : Nat) : (readAll word pos n).length = n := by
  simp [readAll]

theorem readAll_succ (word : Nat → α) (pos n : Nat) : readAll word pos (n+1) = word pos :: readAll word (pos+1) n := by
  simp only [readAll,range_succ_eq_map,map_cons,map_map,Nat.add_zero,List.cons.injEq,true_and]
  apply map_congr_left
  intro i _
  simp only [Function.comp]
  congr 1
  omega

theorem readAll_add (word : Nat → α) (pos m n : Nat) : readAll word pos (m+n) = readAll word pos m ++ readAll word (pos+m) n := by
  induction m generalizing pos with
  | zero => simp [readAll]
  | succ m ih =>
    rw [Nat.succ_add,readAll_succ,readAll_succ,ih,cons_append]
    congr 3
    omega

theorem readAll_congr (same : ∀ i < n, word (pos+i) = word' (pos+i)) : readAll word pos n = readAll word' pos n := by
  apply map_congr_left
  intro i listed
  exact same i (mem_range.mp listed)

theorem write_other (apart : q < pos ∨ pos+ws.length ≤ q) : write word pos ws q = word q := by
  induction ws generalizing word pos with
  | nil => rfl
  | cons w rest ih =>
    rw [length_cons] at apart
    unfold write
    rw [ih (by omega),update_of_ne (by omega)]

theorem readAll_write (word : Nat → α) (pos : Nat) (ws : List α) : readAll (write word pos ws) pos ws.length = ws := by
  induction ws generalizing word pos with
  | nil => rfl
  | cons w rest ih =>
    rw [length_cons,readAll_succ]
    unfold write
    rw [ih,write_other (.inl (Nat.lt_succ_self pos)),update_self]

section
variable {κ : Type} [DecidableEq κ] {rows : κ → Nat → α} {r r' : κ} {i i' : Nat} {x y : α}

theorem entry_other (other : r' = r → i' ≠ i) : update rows r (update (rows r) i x) r' i' = rows r' i' := by
  by_cases same : r' = r
  · subst same
    simp [other rfl]
  · simp [same]

theorem entry_cases (got : update rows r (update (rows r) i x) r' i' = y) :
    (r' = r ∧ i' = i ∧ x = y) ∨ ((r' = r → i' ≠ i) ∧ rows r' i' = y) := by
  by_cases same : r' = r ∧ i' = i
  · obtain ⟨rfl,rfl⟩ := same
    exact .inl ⟨rfl,rfl,by simpa using got⟩
  · have other : r' = r → i' ≠ i := fun row place => same ⟨row,place⟩
    rw [entry_other other] at got
    exact .inr ⟨other,got⟩

end

end DbExp.Memory
