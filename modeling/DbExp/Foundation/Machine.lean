import Mathlib.Tactic.Basic

namespace DbExp

-- A transition system driven by actions. An action that is not enabled has no result;
-- the choices of an environment or of a scheduler are part of the action.
structure Machine (σ α : Type) where
  initial : σ
  step : σ → α → Option σ

theorem of_guard [Decidable p] {x t : σ} (taken : (if p then some x else none) = some t) : p ∧ x = t := by
  simpa using taken

namespace Machine
variable {σ α : Type}

inductive Reached (m : Machine σ α) (allow : σ → α → Prop) : σ → Prop where
  | initial : Reached m allow m.initial
  | step {s t : σ} {a : α} (before : Reached m allow s) (allowed : allow s a) (taken : m.step s a = some t) : Reached m allow t

def anyStep (_ : σ) (_ : α) : Prop := True

instance (s : σ) (a : α) : Decidable (anyStep s a) := isTrue trivial

def run (m : Machine σ α) (allow : σ → α → Prop) [∀ s a, Decidable (allow s a)] : σ → List α → Option σ
  | s,[] => some s
  | s,a :: rest => if allow s a then (m.step s a).bind fun t => run m allow t rest else none

variable {m : Machine σ α} {allow : σ → α → Prop}

theorem Reached.invariant (holds : σ → Prop) (start : holds m.initial)
    (keeps : ∀ s a t, m.Reached allow s → holds s → allow s a → m.step s a = some t → holds t)
    (reached : m.Reached allow s) : holds s := by
  induction reached with
  | initial => exact start
  | step before allowed taken ih => exact keeps _ _ _ before ih allowed taken

theorem Reached.weaken_along (more : ∀ s a, m.Reached allow s → allow s a → allow' s a) (reached : m.Reached allow s) :
    m.Reached allow' s := by
  induction reached with
  | initial => exact .initial
  | step before allowed taken ih => exact .step ih (more _ _ before allowed) taken

theorem Reached.weaken (more : ∀ s a, allow s a → allow' s a) (reached : m.Reached allow s) : m.Reached allow' s :=
  reached.weaken_along fun s a _ => more s a

theorem Reached.run (p : σ → Prop) [∀ s a, Decidable (allow s a)] [DecidablePred p] (reached : m.Reached allow s)
    (ran : ((m.run allow s acts).map fun s => decide (p s)) = some true) : ∃ s, m.Reached allow s ∧ p s := by
  induction acts generalizing s with
  | nil => exact ⟨s,reached,of_decide_eq_true (Option.some.inj ran)⟩
  | cons a rest ih =>
    rw [Machine.run] at ran
    split at ran
    next allowed =>
      cases taken : m.step s a with
      | none => simp [taken] at ran
      | some t => exact ih (.step reached allowed taken) (by simpa [taken] using ran)
    next => cases ran

theorem reached_of_run (m : Machine σ α) (allow : σ → α → Prop) [∀ s a, Decidable (allow s a)] (p : σ → Prop) [DecidablePred p]
    (acts : List α) (ran : ((m.run allow m.initial acts).map fun s => decide (p s)) = some true) : ∃ s, m.Reached allow s ∧ p s :=
  Reached.run p .initial ran

theorem run_until (a : α) (inv goal : σ → Prop) (measure : σ → Nat)
    (progress : ∀ s, inv s → ∃ t, m.step s a = some t ∧ (goal t ∨ inv t ∧ measure t < measure s)) (start : inv s) :
    ∃ k t, m.run anyStep s (List.replicate k a) = some t ∧ goal t := by
  induction size : measure s using Nat.strongRecOn generalizing s with
  | _ size ih =>
    obtain ⟨t,taken,done | ⟨kept,_⟩⟩ := progress s start
    · refine ⟨1,t,?_,done⟩
      simp [run,anyStep,taken]
    obtain ⟨k,u,path,done⟩ := ih (measure t) (by omega) kept rfl
    refine ⟨k+1,u,?_,done⟩
    rw [List.replicate_succ,run,if_pos (show anyStep s a from trivial),taken]
    exact path

end Machine
end DbExp
