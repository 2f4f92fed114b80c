import DbExp.Foundation.ViewLog

namespace DbExp.ViewSet
open Function
open ViewLog (Majority majorities_meet hold hold_same hold_other)
set_option linter.unusedSectionVars false

-- Replication of an unordered set by numbered views. In a view it takes part in,
-- each replica adds elements by itself; a view starts from everything that the
-- latest participants of a majority held.
structure State (ι α : Type) where
  view : ι → Nat
  held : ι → Nat → Option (Set α)
  start : Nat → Option (Set α)

variable {ι α : Type} {s t : State ι α}

structure Grows (s t : State ι α) : Prop where
  view : ∀ r, s.view r ≤ t.view r
  frozen : ∀ r v, v < s.view r → t.held r v = s.held r v
  kept : ∀ r v old, s.held r v = some old → ∃ more, t.held r v = some more ∧ old ⊆ more
  started : ∀ v first, s.start v = some first → t.start v = some first

theorem Grows.refl : Grows s s :=
  ⟨fun _ => le_rfl,fun _ _ _ => rfl,fun _ _ old here => ⟨old,here,subset_rfl⟩,fun _ _ here => here⟩

theorem Grows.trans {u : State ι α} (one : Grows s t) (two : Grows t u) : Grows s u := by
  refine ⟨fun r => (one.view r).trans (two.view r),?_,?_,fun v first here => two.started v first (one.started v first here)⟩
  · intro r v old
    rw [two.frozen r v (old.trans_le (one.view r)),one.frozen r v old]
  intro r v old here
  obtain ⟨more,there,larger⟩ := one.kept r v old here
  obtain ⟨most,last,largest⟩ := two.kept r v more there
  exact ⟨most,last,larger.trans largest⟩

def initial : State ι α where
  view := fun _ => 0
  held := fun _ v => if v = 0 then some ∅ else none
  start := fun v => if v = 0 then some ∅ else none

variable [DecidableEq ι]

theorem hold_grows {s : State ι α} {start : Nat → Option (Set α)} (grows : ∀ old, s.held r v = some old → old ⊆ items)
    (current : s.view r ≤ v) (started : ∀ w first, s.start w = some first → start w = some first) :
    Grows s {s with held := hold s.held r v items, start := start} := by
  refine ⟨fun _ => le_rfl,?_,?_,started⟩
  · intro i w past
    refine hold_other _ _ ?_
    rintro ⟨rfl,rfl⟩
    omega
  intro i w old here
  by_cases same : i = r ∧ w = v
  · obtain ⟨rfl,rfl⟩ := same
    exact ⟨items,hold_same _ _ _ _,grows old here⟩
  · exact ⟨old,(hold_other s.held items same).trans here,subset_rfl⟩

variable [Fintype ι]

-- All that a majority held in the latest view below `v` that any of them took part
-- in, once they have all left the views below `v`.
structure Gathered (s : State ι α) (v : Nat) (q : Finset ι) (w : Nat) (items : Set α) : Prop where
  majority : Majority q
  left : ∀ r ∈ q, v ≤ s.view r
  earlier : w < v
  chosen : ∃ r ∈ q, ∃ old, s.held r w = some old
  latest : ∀ r ∈ q, ∀ x < v, ∀ old, s.held r x = some old → x ≤ w
  covers : ∀ r ∈ q, ∀ old, s.held r w = some old → old ⊆ items

inductive Step : State ι α → State ι α → Prop where
  | advance {s : State ι α} {r : ι} {v : Nat} (later : s.view r ≤ v) : Step s {s with view := update s.view r v}
  | add {s : State ι α} {r : ι} {old : Set α} (x : α) (current : s.held r (s.view r) = some old) :
      Step s {s with held := hold s.held r (s.view r) (insert x old)}
  | begin {s : State ι α} {r : ι} {v w : Nat} {q : Finset ι} {items : Set α} (inView : s.view r = v) (idle : s.held r v = none)
      (first : s.start v = none) (gathered : Gathered s v q w items) :
      Step s {s with held := hold s.held r v items, start := update s.start v (some items)}
  | adopt {s : State ι α} {r : ι} {v : Nat} {items : Set α} (inView : s.view r = v) (idle : s.held r v = none)
      (started : s.start v = some items) : Step s {s with held := hold s.held r v items}

theorem step_grows (step : Step s t) : Grows s t := by
  cases step with
  | @advance r v later =>
    refine ⟨?_,fun _ _ _ => rfl,fun _ _ old here => ⟨old,here,subset_rfl⟩,fun _ _ here => here⟩
    intro i
    by_cases same : i = r
    · subst same; simpa using later
    · simp [update_of_ne same]
  | @add r old x current =>
    refine hold_grows ?_ le_rfl (fun _ _ here => here)
    intro other here
    rw [current] at here
    cases here
    exact Set.subset_insert x old
  | @begin r v w q items inView idle first gathered =>
    refine hold_grows (fun old here => by rw [idle] at here; cases here) inView.le ?_
    intro w items here
    by_cases same : w = v
    · subst same; rw [first] at here; cases here
    · rw [update_of_ne same,here]
  | adopt inView idle started =>
    exact hold_grows (fun old here => by rw [idle] at here; cases here) inView.le (fun _ _ here => here)

def Dead (s : State ι α) (v : Nat) (x : α) : Prop :=
  ∃ q, Majority q ∧ ∀ r ∈ q, v < s.view r ∧ ∀ old, s.held r v = some old → x ∉ old

theorem Dead.grows (dead : Dead s v x) (grows : Grows s t) : Dead t v x := by
  obtain ⟨q,majority,gone⟩ := dead
  refine ⟨q,majority,fun r mem => ⟨(gone r mem).1.trans_le (grows.view r),?_⟩⟩
  rw [grows.frozen r v (gone r mem).1]
  exact (gone r mem).2

structure Valid (s : State ι α) : Prop where
  bounded : ∀ r v old, s.held r v = some old → v ≤ s.view r
  based : ∀ r v old, s.held r v = some old → ∃ first, s.start v = some first ∧ first ⊆ old
  safe : ∀ v w x first, v < w → s.start w = some first → x ∈ first ∨ Dead s v x

theorem initial_valid : Valid (initial : State ι α) := by
  refine ⟨?_,?_,?_⟩
  · intro r v old here
    by_cases zero : v = 0
    · rw [zero]; exact Nat.zero_le _
    · simp [initial,zero] at here
  · intro r v old here
    by_cases zero : v = 0
    · subst zero; cases here; exact ⟨∅,rfl,subset_rfl⟩
    · simp [initial,zero] at here
  · intro v w x first later here
    simp [initial,show w ≠ 0 by omega] at here

theorem gathered_safe (valid : Valid s) (gathered : Gathered s v q w items) (earlier : u < v) (x : α) :
    x ∈ items ∨ Dead s u x := by
  rcases Nat.lt_trichotomy w u with _ | same | more
  · refine .inr ⟨q,gathered.majority,fun r mem => ⟨earlier.trans_le (gathered.left r mem),?_⟩⟩
    intro old here
    have := gathered.latest r mem u earlier old here
    omega
  · subst same
    by_cases held : ∃ r ∈ q, ∃ old, s.held r w = some old ∧ x ∈ old
    · obtain ⟨r,mem,old,here,inside⟩ := held
      exact .inl (gathered.covers r mem old here inside)
    · refine .inr ⟨q,gathered.majority,fun r mem => ⟨earlier.trans_le (gathered.left r mem),?_⟩⟩
      exact fun old here inside => held ⟨r,mem,old,here,inside⟩
  obtain ⟨r,mem,old,here⟩ := gathered.chosen
  obtain ⟨first,started,inOld⟩ := valid.based r w old here
  rcases valid.safe u w x first more started with inside | dead
  · exact .inl (gathered.covers r mem old here (inOld inside))
  · exact .inr dead

theorem hold_valid {s : State ι α} {start : Nat → Option (Set α)} (valid : Valid s)
    (grows : Grows s {s with held := hold s.held r v items, start := start})
    (inView : v ≤ s.view r) (based : ∃ first, start v = some first ∧ first ⊆ items)
    (fresh : ∀ w first, start w = some first → s.start w = some first ∨ ∀ u < w, ∀ x, x ∈ first ∨ Dead s u x) :
    Valid {s with held := hold s.held r v items, start := start} := by
  refine ⟨?_,?_,?_⟩
  · intro i w old here
    by_cases same : i = r ∧ w = v
    · rw [same.1,same.2]; exact inView
    · exact valid.bounded i w old ((hold_other s.held items same).symm.trans here)
  · intro i w old here
    by_cases same : i = r ∧ w = v
    · obtain ⟨rfl,rfl⟩ := same
      cases (hold_same s.held i w items).symm.trans here
      exact based
    · obtain ⟨first,started,inside⟩ := valid.based i w old ((hold_other s.held items same).symm.trans here)
      exact ⟨first,grows.started w first started,inside⟩
  intro u w x first later here
  have before : x ∈ first ∨ Dead s u x := by
    rcases fresh w first here with old | new
    · exact valid.safe u w x first later old
    · exact new u later x
  exact before.imp_right fun dead => dead.grows grows

theorem step_valid (valid : Valid s) (step : Step s t) : Valid t := by
  have grows := step_grows step
  cases step with
  | @advance r v later =>
    exact ⟨fun i w old here => (valid.bounded i w old here).trans (grows.view i),valid.based,
      fun u w x first lt here => (valid.safe u w x first lt here).imp_right fun dead => dead.grows grows⟩
  | @add r old x current =>
    refine hold_valid valid grows le_rfl ?_ (fun _ _ here => .inl here)
    obtain ⟨first,started,inside⟩ := valid.based r _ old current
    exact ⟨first,started,inside.trans (Set.subset_insert x old)⟩
  | @begin r v w q items inView idle first gathered =>
    refine hold_valid valid grows inView.ge ⟨items,update_self ..,subset_rfl⟩ ?_
    intro z other here
    by_cases same : z = v
    · subst same
      rw [update_self] at here
      cases here
      exact .inr fun u earlier x => gathered_safe valid gathered earlier x
    · rw [update_of_ne same] at here
      exact .inl here
  | adopt inView idle started =>
    exact hold_valid valid grows inView.ge ⟨_,started,subset_rfl⟩ (fun _ _ here => .inl here)

def Stored (s : State ι α) (v : Nat) (x : α) : Prop :=
  ∃ q, Majority q ∧ ∀ r ∈ q, ∃ old, s.held r v = some old ∧ x ∈ old

theorem Stored.grows (stored : Stored s v x) (grows : Grows s t) : Stored t v x := by
  obtain ⟨q,majority,here⟩ := stored
  refine ⟨q,majority,fun r mem => ?_⟩
  obtain ⟨old,held,inside⟩ := here r mem
  obtain ⟨more,there,larger⟩ := grows.kept r v old held
  exact ⟨more,there,larger inside⟩

theorem stored_started (valid : Valid s) (stored : Stored s v x) (later : v < w) (started : s.start w = some first) :
    x ∈ first := by
  rcases valid.safe v w x first later started with inside | ⟨_,majority,gone⟩
  · exact inside
  obtain ⟨_,quorum,here⟩ := stored
  obtain ⟨r,inP,inQ⟩ := majorities_meet majority quorum
  obtain ⟨old,held,inside⟩ := here r inQ
  exact absurd inside ((gone r inP).2 old held)

def Moves (s t : State ι α) : Prop := Valid s → Valid t ∧ Grows s t

theorem Moves.trans {u : State ι α} (one : Moves s t) (two : Moves t u) : Moves s u := by
  intro valid
  obtain ⟨validT,growsT⟩ := one valid
  obtain ⟨validU,growsU⟩ := two validT
  exact ⟨validU,growsT.trans growsU⟩

theorem Step.moves (step : Step s t) : Moves s t := fun valid => ⟨step_valid valid step,step_grows step⟩

end DbExp.ViewSet
