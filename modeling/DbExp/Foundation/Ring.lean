import DbExp.Foundation.Memory
import Mathlib.Data.Nat.ModEq

namespace DbExp.Ring
open Function

-- Memory under positions that only grow: two positions that differ by a multiple of the
-- size are the same cell.
variable {α : Type} {size pos p q m n : Nat} {data data' : Nat → α} {ws : List α}

def read (size : Nat) (data : Nat → α) (pos : Nat) : α := data (pos % size)

def write (size : Nat) (data : Nat → α) (pos : Nat) : List α → Nat → α
  | [] => data
  | w :: rest => write size (update data (pos % size) w) (pos+1) rest

section
variable (size : Nat) (data : Nat → α)

def readAll (pos n : Nat) : List α := (List.range n).map fun i => read size data (pos+i)

@[simp] theorem length_readAll (pos n : Nat) : (readAll size data pos n).length = n :=
  Memory.length_readAll _ _ _

theorem readAll_succ (pos n : Nat) :
    readAll size data pos (n+1) = read size data pos :: readAll size data (pos+1) n :=
  Memory.readAll_succ (read size data) pos n

theorem readAll_add (pos m n : Nat) :
    readAll size data pos (m+n) = readAll size data pos m ++ readAll size data (pos+m) n :=
  Memory.readAll_add (read size data) pos m n

end

theorem readAll_mod (n : Nat) (same : p % size = pos % size) : readAll size data p n = readAll size data pos n := by
  apply List.map_congr_left
  intro i _
  unfold read
  rw [Nat.add_mod,same,← Nat.add_mod]

theorem write_mod (ws : List α) (same : p % size = pos % size) : write size data p ws = write size data pos ws := by
  induction ws generalizing data p pos with
  | nil => rfl
  | cons w rest ih =>
    unfold write
    rw [same]
    apply ih
    rw [Nat.add_mod,same,← Nat.add_mod]

theorem cell_ne (first : q < p) (near : p < q+size) : q % size ≠ p % size := by
  intro same
  have whole : size ∣ p-q := (Nat.modEq_iff_dvd' (Nat.le_of_lt first)).mp same
  have := Nat.le_of_dvd (by omega) whole
  omega

theorem read_write_other (apart : ∀ i < ws.length, q % size ≠ (pos+i) % size) :
    read size (write size data pos ws) q = read size data q := by
  induction ws generalizing data pos with
  | nil => rfl
  | cons w rest ih =>
    unfold write
    rw [ih]
    · unfold read
      have first := apart 0 (by simp)
      rw [update_of_ne]
      simpa using first
    · intro i less
      have := apart (i+1) (by simpa using less)
      rwa [show pos+1+i = pos+(i+1) by omega]

theorem readAll_write (fits : ws.length ≤ size) : readAll size (write size data pos ws) pos ws.length = ws := by
  induction ws generalizing data pos with
  | nil => rfl
  | cons w rest ih =>
    rw [List.length_cons] at fits ⊢
    rw [readAll_succ]
    unfold write
    rw [ih (by omega),read_write_other]
    · unfold read
      rw [update_self]
    · intro i less
      exact cell_ne (by omega) (by omega)

def Apart (size q m p n : Nat) : Prop := q+m ≤ p ∧ p+n ≤ q+size ∨ p+n ≤ q ∧ q+m ≤ p+size

theorem readAll_write_other (apart : Apart size q m p ws.length) :
    readAll size (write size data p ws) q m = readAll size data q m := by
  apply Memory.readAll_congr
  intro i inside
  apply read_write_other
  intro j written
  rcases apart with ⟨first,near⟩ | ⟨first,near⟩
  · exact cell_ne (by omega) (by omega)
  · exact (cell_ne (by omega) (by omega)).symm

end DbExp.Ring
