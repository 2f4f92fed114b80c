import Mathlib.Data.List.Basic

namespace DbExp.Tiling

structure Block (σ : Type) where
  start : Nat
  size : Nat
  status : σ
  deriving DecidableEq

variable {σ : Type} {p q : Nat} {blocks xs ys zs : List (Block σ)} {a b : Block σ}

def Tiled : Nat → Nat → List (Block σ) → Prop
  | p,q,[] => p = q
  | p,q,b :: rest => b.start = p ∧ 0 < b.size ∧ Tiled (p+b.size) q rest

theorem tiled_append : Tiled p q (xs ++ ys) ↔ ∃ m, Tiled p m xs ∧ Tiled m q ys := by
  induction xs generalizing p with
  | nil => simp [Tiled]
  | cons b rest ih =>
    simp only [List.cons_append,Tiled,ih]
    constructor
    · rintro ⟨start,size,m,left,right⟩
      exact ⟨m,⟨start,size,left⟩,right⟩
    · rintro ⟨m,⟨start,size,left⟩,right⟩
      exact ⟨start,size,m,left,right⟩

section
variable (tiled : Tiled p q blocks)
include tiled

theorem Tiled.le : p ≤ q := by
  induction blocks generalizing p with
  | nil => exact Nat.le_of_eq tiled
  | cons b rest ih =>
    have := ih tiled.2.2
    omega

theorem Tiled.bounds (mem : b ∈ blocks) : p ≤ b.start ∧ 0 < b.size ∧ b.start+b.size ≤ q := by
  induction blocks generalizing p with
  | nil => cases mem
  | cons head rest ih =>
    obtain ⟨start,size,tail⟩ := tiled
    rcases List.mem_cons.mp mem with rfl | later
    · have := tail.le
      omega
    · have := ih tail later
      omega

theorem Tiled.apart (one : a ∈ blocks) (other : b ∈ blocks) :
    a = b ∨ a.start+a.size ≤ b.start ∨ b.start+b.size ≤ a.start := by
  induction blocks generalizing p with
  | nil => cases one
  | cons head rest ih =>
    obtain ⟨start,size,tail⟩ := tiled
    rcases List.mem_cons.mp one with rfl | later
    · rcases List.mem_cons.mp other with rfl | behind
      · exact .inl rfl
      · have := tail.bounds behind
        exact .inr (.inl (by omega))
    rcases List.mem_cons.mp other with rfl | behind
    · have := tail.bounds later
      exact .inr (.inr (by omega))
    · exact ih tail later behind

theorem Tiled.unique (one : a ∈ blocks) (other : b ∈ blocks) (start : a.start = b.start) : a = b := by
  rcases tiled.apart one other with same | before | after
  · exact same
  · have := tiled.bounds one
    omega
  · have := tiled.bounds other
    omega

end

theorem Tiled.before (tiled : Tiled p q (xs ++ ys)) (left : a ∈ xs) (right : b ∈ ys) : a.start+a.size ≤ b.start := by
  obtain ⟨m,front,back⟩ := tiled_append.mp tiled
  exact Nat.le_trans (front.bounds left).2.2 (back.bounds right).1

theorem Tiled.adjacent (tiled : Tiled p q (xs ++ a :: b :: zs)) : a.start+a.size = b.start := by
  obtain ⟨m,_,start,_,next,_⟩ := tiled_append.mp tiled
  omega

theorem Tiled.last (tiled : Tiled p q (xs ++ [b])) : b.start+b.size = q := by
  obtain ⟨m,_,start,_,stop⟩ := tiled_append.mp tiled
  simp only [Tiled] at stop
  omega

theorem Tiled.replace (tiled : Tiled p q (xs ++ ys ++ zs)) (again : ∀ m n, Tiled m n ys → Tiled m n ys') : Tiled p q (xs ++ ys' ++ zs) := by
  obtain ⟨n,front,back⟩ := tiled_append.mp tiled
  obtain ⟨m,left,middle⟩ := tiled_append.mp front
  exact tiled_append.mpr ⟨n,tiled_append.mpr ⟨m,left,again m n middle⟩,back⟩

end DbExp.Tiling
