import Mathlib.Order.Interval.Set.Basic
import Mathlib.Tactic.Basic

namespace DbExp.TimestampOrder
open Function

-- Multi-version timestamp ordering. A transaction that read version `v` of a key and
-- has timestamp `t` owns the window between them: no version may ever appear in it.
structure Txn (κ τ : Type) where
  stamp : τ
  reads : Set (κ × τ)
  writes : Set κ

@[ext] structure State (ι κ τ : Type) where
  versions : κ → Set τ
  pending : ι → Option (Txn κ τ)
  committed : Set (Txn κ τ)

variable {ι κ τ : Type}

def State.Live (s : State ι κ τ) (T : Txn κ τ) : Prop := T ∈ s.committed ∨ ∃ i, s.pending i = some T

section
variable [DecidableEq ι]

namespace State

section
variable (s : State ι κ τ) (i : ι)

def hold (T : Txn κ τ) : State ι κ τ := {s with pending := update s.pending i (some T)}

def drop : State ι κ τ := {s with pending := update s.pending i none}

def install (T : Txn κ τ) : State ι κ τ where
  versions := fun k => {w | w ∈ s.versions k ∨ k ∈ T.writes ∧ w = T.stamp}
  pending := update s.pending i none
  committed := insert T s.committed

end

end State

section
variable {s : State ι κ τ}

theorem pending_hold (got : (s.hold i T).pending j = some U) : U = T ∨ s.pending j = some U := by
  change update s.pending i (some T) j = some U at got
  by_cases same : j = i
  · subst same
    rw [update_self] at got
    exact .inl (Option.some.inj got).symm
  · rw [update_of_ne same] at got
    exact .inr got

theorem live_hold (live : (s.hold i T).Live U) : U = T ∨ s.Live U := by
  rcases live with done | ⟨j,got⟩
  · exact .inr (.inl done)
  · exact (pending_hold got).imp_right fun old => .inr ⟨j,old⟩

theorem pending_drop (got : update s.pending i none j = some U) : s.pending j = some U := by
  by_cases same : j = i
  · subst same
    rw [update_self] at got
    cases got
  · rwa [update_of_ne same] at got

theorem live_drop (live : (s.drop i).Live U) : s.Live U := by
  rcases live with done | ⟨j,got⟩
  · exact .inl done
  · exact .inr ⟨j,pending_drop got⟩

theorem live_install (got : s.pending i = some T) (live : (s.install i T).Live U) : s.Live U := by
  rcases live with (rfl | done) | ⟨j,left⟩
  · exact .inr ⟨i,got⟩
  · exact .inl done
  · exact .inr ⟨j,pending_drop left⟩

end

end

def State.load [DecidableEq κ] (s : State ι κ τ) (k : κ) (w : τ) : State ι κ τ :=
  {s with versions := update s.versions k (insert w (s.versions k))}

theorem versions_load [DecidableEq κ] {s : State ι κ τ} (version : u ∈ (s.load k w).versions j) : j = k ∧ u = w ∨ u ∈ s.versions j := by
  change u ∈ update s.versions k (insert w (s.versions k)) j at version
  by_cases same : j = k
  · subst same
    rw [update_self] at version
    exact version.imp_left fun new => ⟨rfl,new⟩
  · rw [update_of_ne same] at version
    exact .inr version

section
variable [Preorder τ]

def State.Outside (s : State ι κ τ) (k : κ) (w : τ) : Prop := ∀ T, s.Live T → ∀ v, (k,v) ∈ T.reads → w ∉ Set.Ioo v T.stamp

-- A transaction is admitted when nothing is in its windows and its writes are outside
-- the windows of all others. From then on nothing has to be checked.
structure Admissible (s : State ι κ τ) (T : Txn κ τ) : Prop where
  current : ∀ k v, (k,v) ∈ T.reads → ∀ w ∈ s.versions k, w ∉ Set.Ioo v T.stamp
  unwritten : ∀ k v, (k,v) ∈ T.reads → ∀ i U, s.pending i = some U → k ∈ U.writes → U.stamp ∉ Set.Ioo v T.stamp
  unread : ∀ k ∈ T.writes, s.Outside k T.stamp

structure Valid (s : State ι κ τ) : Prop where
  clear : ∀ k w, w ∈ s.versions k → s.Outside k w
  apart : ∀ i T, s.pending i = some T → ∀ k ∈ T.writes, s.Outside k T.stamp

def State.initial : State ι κ τ := ⟨fun _ => ∅,fun _ => none,∅⟩

theorem initial_valid : Valid (State.initial : State ι κ τ) where
  clear := fun _ _ version => absurd version (Set.notMem_empty _)
  apart := fun _ _ got => by cases got

theorem load_valid [DecidableEq κ] {s : State ι κ τ} (valid : Valid s) (outside : s.Outside k w) : Valid (s.load k w) where
  clear := by
    intro j u version U live v read
    rcases versions_load version with ⟨rfl,rfl⟩ | old
    · exact outside U live v read
    · exact valid.clear j u old U live v read
  apart := valid.apart

variable [DecidableEq ι]

section
variable {s : State ι κ τ} (valid : Valid s)
include valid

theorem hold_valid (admissible : Admissible s T) : Valid (s.hold i T) where
  clear := by
    intro k w version U live v read
    rcases live_hold live with rfl | old
    · exact admissible.current k v read w version
    · exact valid.clear k w version U old v read
  apart := by
    intro j U got k writes V live v read
    -- The writer or the reader is the new transaction, both are, or neither is.
    rcases pending_hold got with rfl | writer
    · rcases live_hold live with rfl | reader
      · exact fun inside => lt_irrefl _ inside.2
      · exact admissible.unread k writes V reader v read
    · rcases live_hold live with rfl | reader
      · exact admissible.unwritten k v read j U writer writes
      · exact valid.apart j U writer k writes V reader v read

theorem install_valid (got : s.pending i = some T) : Valid (s.install i T) where
  clear := by
    rintro k w (old | ⟨writes,rfl⟩) U live v read
    · exact valid.clear k w old U (live_install got live) v read
    · exact valid.apart i T got k writes U (live_install got live) v read
  apart := fun _ U left k writes V live v read =>
    valid.apart _ U (pending_drop left) k writes V (live_install got live) v read

theorem drop_valid : Valid (s.drop i) where
  clear := fun k w version U live v read => valid.clear k w version U (live_drop live) v read
  apart := fun _ U left k writes V live v read => valid.apart _ U (pending_drop left) k writes V (live_drop live) v read

end

variable [DecidableEq κ]

inductive Step : State ι κ τ → State ι κ τ → Prop where
  | accept (s : State ι κ τ) (i : ι) (T : Txn κ τ) (free : s.pending i = none) (admissible : Admissible s T) : Step s (s.hold i T)
  | commit (s : State ι κ τ) (i : ι) (T : Txn κ τ) (found : s.pending i = some T) : Step s (s.install i T)
  | drop (s : State ι κ τ) (i : ι) : Step s (s.drop i)
  | load (s : State ι κ τ) (k : κ) (w : τ) (outside : s.Outside k w) : Step s (s.load k w)

theorem step_valid {s t : State ι κ τ} (valid : Valid s) (step : Step s t) : Valid t := by
  cases step with
  | accept i T free admissible => exact hold_valid valid admissible
  | commit i T got => exact install_valid valid got
  | drop i => exact drop_valid valid
  | load k w outside => exact load_valid valid outside

theorem steps_valid {s t : State ι κ τ} (valid : Valid s) (steps : Relation.ReflTransGen Step s t) : Valid t := by
  induction steps with
  | refl => exact valid
  | tail _ step ih => exact step_valid ih step

end
end DbExp.TimestampOrder
