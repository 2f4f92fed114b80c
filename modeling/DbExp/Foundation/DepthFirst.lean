import Mathlib.Data.Finset.Card

namespace DbExp.DepthFirst

inductive Hint where
  | exit
  | ok
  | skip
  deriving DecidableEq

inductive Outcome (V : Type) where
  | missing
  | exit (vertex : V)
  | done (walked : List V)
  deriving DecidableEq

variable {V : Type} [DecidableEq V]

-- One round of the loop over the parents of a vertex. A parent the graph does not have
-- stops the traversal for good.
def follow (vertices : Finset V) (hint : V → Hint) (call : V → List V → Outcome V) (out : Outcome V) (p : V) : Outcome V :=
  match out with
  | .done walked =>
    if p ∈ vertices then
      match hint p with
      | .exit => .exit p
      | .skip => .done walked
      | .ok => call p walked
    else .missing
  | stopped => stopped

-- Depth-first traversal against the edges, with the vertices walked so far.
def traverse (parents : V → List V) (vertices : Finset V) (hint : V → Hint) : Nat → V → List V → Outcome V
  | 0,_,walked => .done walked
  | fuel+1,v,walked =>
    if v ∈ walked then .done walked
    else (parents v).foldl (follow vertices hint (traverse parents vertices hint fuel)) (.done (v :: walked))

def rest (vertices : Finset V) (walked : List V) : Nat := (vertices.filter fun u => u ∉ walked).card

section
variable (parents : V → List V) (vertices : Finset V) (hint : V → Hint)

def Covered (walked after : List V) (u : V) : Prop :=
  u ∈ walked ∨ ∀ p ∈ parents u, p ∈ vertices ∧ (hint p = .skip ∨ hint p = .ok ∧ p ∈ after)

def Serves (n : Nat) (call : V → List V → Outcome V) : Prop :=
  ∀ p walked after, p ∈ vertices → rest vertices walked < n → call p walked = .done after →
    p ∈ after ∧ walked ⊆ after ∧ ∀ u ∈ after, Covered parents vertices hint walked after u

end

section
variable {parents : V → List V} {vertices : Finset V} {hint : V → Hint} {call : V → List V → Outcome V} {walked after : List V}

theorem rest_le (more : walked ⊆ after) : rest vertices after ≤ rest vertices walked := by
  apply Finset.card_le_card
  intro u mem
  simp only [Finset.mem_filter] at mem ⊢
  exact ⟨mem.1,fun old => mem.2 (more old)⟩

theorem rest_cons (known : v ∈ vertices) (new : v ∉ walked) : rest vertices (v :: walked) < rest vertices walked := by
  apply Finset.card_lt_card
  refine Finset.ssubset_iff_subset_ne.mpr ⟨?_,?_⟩
  · intro u mem
    simp only [Finset.mem_filter,List.mem_cons,not_or] at mem ⊢
    exact ⟨mem.1,mem.2.2⟩
  intro same
  have mem : v ∈ vertices.filter fun u => u ∉ walked := Finset.mem_filter.mpr ⟨known,new⟩
  rw [← same] at mem
  simp at mem

theorem follow_foldl_stopped (todo : List V) (stopped : ∀ l, out ≠ .done l) : todo.foldl (follow vertices hint call) out = out := by
  induction todo with
  | nil => rfl
  | cons p todo ih =>
    have same : follow vertices hint call out p = out := by
      cases out with
      | missing | exit u => rfl
      | done l => exact absurd rfl (stopped l)
    rw [List.foldl_cons,same,ih]

omit [DecidableEq V] in
theorem Covered.mono (covered : Covered parents vertices hint walked after u) (more : after ⊆ later) :
    Covered parents vertices hint walked later u := by
  rcases covered with old | all
  · exact .inl old
  refine .inr fun p parent => ?_
  obtain ⟨known,skipped | ⟨ok,seen⟩⟩ := all p parent
  · exact ⟨known,.inl skipped⟩
  · exact ⟨known,.inr ⟨ok,more seen⟩⟩

theorem follow_foldl (serves : Serves parents vertices hint n call) (todo : List V) (few : rest vertices walked < n)
    (result : todo.foldl (follow vertices hint call) (.done walked) = .done after) :
    walked ⊆ after ∧ (∀ p ∈ todo, p ∈ vertices ∧ (hint p = .skip ∨ hint p = .ok ∧ p ∈ after)) ∧
      ∀ u ∈ after, Covered parents vertices hint walked after u := by
  induction todo generalizing walked with
  | nil =>
    cases result
    exact ⟨fun _ mem => mem,by simp,fun _ mem => .inl mem⟩
  | cons p todo ih =>
    rw [List.foldl_cons] at result
    by_cases known : p ∈ vertices
    · cases shown : hint p with
      | exit =>
        rw [follow_foldl_stopped todo (by simp [follow,known,shown])] at result
        simp [follow,known,shown] at result
      | skip =>
        simp only [follow,known,shown,if_true] at result
        obtain ⟨more,all,covered⟩ := ih few result
        refine ⟨more,?_,covered⟩
        intro q listed
        rcases List.mem_cons.mp listed with rfl | later
        · exact ⟨known,.inl shown⟩
        · exact all q later
      | ok =>
        simp only [follow,known,shown,if_true] at result
        cases called : call p walked with
        | missing | exit u =>
          rw [called,follow_foldl_stopped todo (by simp)] at result
          cases result
        | done between =>
          rw [called] at result
          obtain ⟨seen,first,inner⟩ := serves p walked between known few called
          obtain ⟨second,all,outer⟩ := ih (Nat.lt_of_le_of_lt (rest_le first) few) result
          refine ⟨fun u mem => second (first mem),?_,?_⟩
          · intro q listed
            rcases List.mem_cons.mp listed with rfl | later
            · exact ⟨known,.inr ⟨shown,second seen⟩⟩
            · exact all q later
          intro u mem
          rcases outer u mem with old | new
          · exact (inner u old).mono second
          · exact .inr new
    · rw [follow_foldl_stopped todo (by simp [follow,known])] at result
      simp [follow,known] at result

theorem traverse_serves (parents : V → List V) (vertices : Finset V) (hint : V → Hint) (fuel : Nat) :
    Serves parents vertices hint fuel (traverse parents vertices hint fuel) := by
  induction fuel with
  | zero =>
    intro p walked after _ few
    omega
  | succ fuel ih =>
    intro p walked after known few result
    unfold traverse at result
    split at result
    next seen =>
      cases result
      exact ⟨seen,fun _ mem => mem,fun _ mem => .inl mem⟩
    rename_i new
    have less := rest_cons known new
    obtain ⟨more,all,covered⟩ := follow_foldl ih (parents p) (by omega) result
    refine ⟨more List.mem_cons_self,fun u mem => more (.tail _ mem),?_⟩
    intro u mem
    rcases covered u mem with old | parts
    · rcases List.mem_cons.mp old with rfl | before
      · exact .inr all
      · exact .inl before
    · exact .inr parts

end

def walk (parents : V → List V) (vertices : Finset V) (hint : V → Hint) (v : V) : Outcome V :=
  traverse parents vertices hint (vertices.card+1) v []

section
variable {parents : V → List V} {vertices : Finset V} {hint : V → Hint}

theorem walk_done (known : v ∈ vertices)
    (result : walk parents vertices hint v = .done after) :
    v ∈ after ∧ ∀ u ∈ after, ∀ p ∈ parents u, p ∈ vertices ∧ (hint p = .skip ∨ hint p = .ok ∧ p ∈ after) := by
  have few : rest vertices [] < vertices.card+1 := Nat.lt_succ_of_le (Finset.card_filter_le _ _)
  obtain ⟨seen,_,covered⟩ := traverse_serves parents vertices hint _ v [] after known few result
  refine ⟨seen,fun u mem => ?_⟩
  rcases covered u mem with old | all
  · cases old
  · exact all

theorem walk_reach (good : V → Prop) (known : v ∈ vertices) (start : good v)
    (result : walk parents vertices hint v = .done after)
    (skips : ∀ p, hint p = .skip → ∀ w, Relation.ReflTransGen (fun u p => p ∈ parents u) p w → good w)
    (oks : ∀ p, hint p = .ok → good p) (path : Relation.ReflTransGen (fun u p => p ∈ parents u) v u) : good u := by
  obtain ⟨first,covered⟩ := walk_done known result
  have reached : u ∈ after ∧ good u ∨ ∀ w, Relation.ReflTransGen (fun u p => p ∈ parents u) u w → good w := by
    induction path with
    | refl => exact .inl ⟨first,start⟩
    | tail _ step ih =>
      rcases ih with ⟨seen,_⟩ | all
      · rcases (covered _ seen _ step).2 with skip | ⟨ok,more⟩
        · exact .inr (skips _ skip)
        · exact .inl ⟨more,oks _ ok⟩
      · exact .inr fun w path => all w (path.head step)
  rcases reached with ⟨_,here⟩ | all
  · exact here
  · exact all u .refl

theorem traverse_exit (fuel : Nat) :
    ∀ v walked u, traverse parents vertices hint fuel v walked = .exit u → u ∈ vertices ∧ hint u = .exit := by
  induction fuel with
  | zero =>
    intro v walked u result
    cases result
  | succ fuel ih =>
    intro v walked u result
    have loop : ∀ (todo : List V) (out : Outcome V), (∀ x, out = .exit x → x ∈ vertices ∧ hint x = .exit) →
        todo.foldl (follow vertices hint (traverse parents vertices hint fuel)) out = .exit u → u ∈ vertices ∧ hint u = .exit := by
      intro todo
      induction todo with
      | nil =>
        intro out before same
        exact before u same
      | cons p rest ihRest =>
        intro out before same
        refine ihRest _ ?_ same
        intro x stopped
        cases out with
        | missing => cases stopped
        | exit y => exact before x stopped
        | done l =>
          by_cases known : p ∈ vertices
          · cases shown : hint p with
            | exit =>
              simp only [follow,known,shown,if_true,Outcome.exit.injEq] at stopped
              exact stopped ▸ ⟨known,shown⟩
            | skip => simp [follow,known,shown] at stopped
            | ok =>
              simp only [follow,known,shown,if_true] at stopped
              exact ih p l x stopped
          · simp [follow,known] at stopped
    unfold traverse at result
    split at result
    · cases result
    · exact loop _ _ (by simp) result

theorem walk_exit (result : walk parents vertices hint v = .exit u) : u ∈ vertices ∧ hint u = .exit :=
  traverse_exit _ v [] u result

end

end DbExp.DepthFirst
