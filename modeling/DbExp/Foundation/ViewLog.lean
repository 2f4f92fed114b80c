import Mathlib.Tactic

namespace DbExp.ViewLog
open Function List
set_option linter.unusedSectionVars false

-- Replication of one log by numbered views. Every view has one leader. A replica
-- that takes part in a view holds a log there; what it holds in a view can only
-- grow, and only while that view is its current one.
structure State (ι α : Type) where
  view : ι → Nat
  held : ι → Nat → Option (List α)
  start : Nat → List α

-- What an entry tells of its origin (the view it was first logged in), and a
-- property every log keeps as long as each append keeps it.
structure Rules (α : Type) where
  stamp : α → Nat
  Sound : List α → Prop
  sound_nil : Sound []
  sound_shorter : ∀ {log more}, log <+: more → Sound more → Sound log

variable {ι α : Type} {leader : Nat → ι} {rules : Rules α}

structure Grows (leader : Nat → ι) (s t : State ι α) : Prop where
  view : ∀ r, s.view r ≤ t.view r
  frozen : ∀ r v, v < s.view r → t.held r v = s.held r v
  kept : ∀ r v log, s.held r v = some log → ∃ more, t.held r v = some more ∧ log <+: more
  started : ∀ v log, s.held (leader v) v = some log → t.start v = s.start v

theorem Grows.refl : Grows leader s s :=
  ⟨fun _ => le_rfl,fun _ _ _ => rfl,fun _ _ log here => ⟨log,here,prefix_rfl⟩,fun _ _ _ => rfl⟩

theorem Grows.trans (one : Grows leader s t) (two : Grows leader t u) : Grows leader s u := by
  refine ⟨fun r => (one.view r).trans (two.view r),?_,?_,?_⟩
  · intro r v old
    rw [two.frozen r v (old.trans_le (one.view r)),one.frozen r v old]
  · intro r v log here
    obtain ⟨more,there,longer⟩ := one.kept r v log here
    obtain ⟨most,last,longest⟩ := two.kept r v more there
    exact ⟨most,last,longer.trans longest⟩
  · intro v log here
    obtain ⟨more,there,_⟩ := one.kept _ v log here
    rw [two.started v more there,one.started v log here]

variable [DecidableEq ι]

def initial : State ι α where
  view := fun _ => 0
  held := fun _ v => if v = 0 then some [] else none
  start := fun _ => []

section
variable (held : ι → Nat → Option β)

def hold (r : ι) (v : Nat) (kept : β) : ι → Nat → Option β :=
  fun i w => if i = r ∧ w = v then some kept else held i w

@[simp] theorem hold_same (r : ι) (v : Nat) (kept : β) : hold held r v kept r v = some kept := by simp [hold]

theorem hold_other (kept : β) (other : ¬ (i = r ∧ w = v)) : hold held r v kept i w = held i w := by simp [hold,other]

end

theorem hold_cases {held : ι → Nat → Option (List α)} (here : hold held r v log i w = some other) :
    (i = r ∧ w = v ∧ log = other) ∨ held i w = some other := by
  by_cases same : i = r ∧ w = v
  · exact .inl ⟨same.1,same.2,by simpa [hold,same] using here⟩
  · exact .inr (by rwa [hold_other _ _ same] at here)

theorem hold_grows {held : ι → Nat → Option (List α)} (grows : ∀ old, held r v = some old → old <+: log)
    (here : held i w = some old) : ∃ more, hold held r v log i w = some more ∧ old <+: more := by
  by_cases same : i = r ∧ w = v
  · obtain ⟨rfl,rfl⟩ := same
    exact ⟨log,hold_same _ _ _ _,grows old here⟩
  · exact ⟨old,by rw [hold_other _ _ same,here],prefix_rfl⟩

variable [Fintype ι]

def Majority (q : Finset ι) : Prop := Fintype.card ι < 2 * q.card

theorem majorities_meet {p q : Finset ι} (left : Majority p) (right : Majority q) : ∃ r, r ∈ p ∧ r ∈ q := by
  unfold Majority at left right
  have room : (Finset.univ : Finset ι).card < p.card + q.card := by
    rw [Finset.card_univ]; omega
  obtain ⟨r,both⟩ := Finset.inter_nonempty_of_card_lt_card_add_card (Finset.subset_univ p) (Finset.subset_univ q) room
  exact ⟨r,Finset.mem_inter.mp both⟩

-- The newest log of a majority whose members have all left the views below `v`:
-- the one held in the latest view, and among those the longest.
structure Newest (s : State ι α) (v : Nat) (q : Finset ι) (w : Nat) (log : List α) : Prop where
  majority : Majority q
  left : ∀ r ∈ q, v ≤ s.view r
  earlier : w < v
  chosen : ∃ r ∈ q, s.held r w = some log
  latest : ∀ r ∈ q, ∀ x < v, ∀ other, s.held r x = some other → x < w ∨ x = w ∧ other.length ≤ log.length

inductive Step (leader : Nat → ι) (rules : Rules α) : State ι α → State ι α → Prop where
  | advance {s : State ι α} {r : ι} {v : Nat} (later : s.view r ≤ v) : Step leader rules s {s with view := update s.view r v}
  | append {s : State ι α} {v : Nat} {log new : List α} (current : s.held (leader v) v = some log)
      (inView : s.view (leader v) = v) (fresh : ∀ e ∈ new, rules.stamp e = v) (sound : rules.Sound (log ++ new)) :
      Step leader rules s {s with held := hold s.held (leader v) v (log ++ new)}
  | adopt {s : State ι α} {r : ι} {v : Nat} {full log : List α} (inView : s.view r = v)
      (source : s.held (leader v) v = some full) (above : s.start v <+: log) (below : log <+: full)
      (grows : ∀ old, s.held r v = some old → old <+: log) :
      Step leader rules s {s with held := hold s.held r v log}
  | begin {s : State ι α} {v w : Nat} {q : Finset ι} {log : List α} (inView : s.view (leader v) = v)
      (idle : s.held (leader v) v = none) (newest : Newest s v q w log) :
      Step leader rules s {s with held := hold s.held (leader v) v log, start := update s.start v log}

theorem grows_of_hold {s : State ι α} {held : ι → Nat → Option (List α)} {start : Nat → List α}
    (frozen : ∀ i w, w < s.view i → held i w = s.held i w)
    (kept : ∀ i w old, s.held i w = some old → ∃ more, held i w = some more ∧ old <+: more)
    (started : ∀ w old, s.held (leader w) w = some old → start w = s.start w) :
    Grows leader s {s with held := held, start := start} :=
  ⟨fun _ => le_rfl,frozen,kept,started⟩

theorem step_grows (step : Step leader rules s t) : Grows leader s t := by
  cases step with
  | @advance r v later =>
    refine ⟨?_,fun _ _ _ => rfl,fun _ _ log here => ⟨log,here,prefix_rfl⟩,fun _ _ _ => rfl⟩
    intro i
    by_cases same : i = r
    · subst same; simpa using later
    · simp [update_of_ne same]
  | append current inView fresh sound =>
    refine grows_of_hold ?_ ?_ (fun _ _ _ => rfl)
    · intro i w old
      exact hold_other _ _ (by rintro ⟨rfl,rfl⟩; omega)
    intro i w old here
    refine hold_grows ?_ here
    intro prior same
    rw [current] at same; cases same
    exact prefix_append _ _
  | adopt inView source above below grows =>
    refine grows_of_hold ?_ (fun i w old here => hold_grows grows here) (fun _ _ _ => rfl)
    intro i w old
    exact hold_other _ _ (by rintro ⟨rfl,rfl⟩; omega)
  | begin inView idle newest =>
    refine grows_of_hold ?_ (fun i w old here => hold_grows (by simp [idle]) here) ?_
    · intro i w old
      exact hold_other _ _ (by rintro ⟨rfl,rfl⟩; omega)
    intro w old here
    refine update_of_ne ?_ _ _
    rintro rfl
    rw [idle] at here; cases here

-- Either the first `k` entries of view `v` are in the log, or some majority has
-- left `v` without ever holding `k` entries there and so they can never be chosen.
def Carried (leader : Nat → ι) (s : State ι α) (v k : Nat) (log : List α) : Prop :=
  ∃ full, s.held (leader v) v = some full ∧ k ≤ full.length ∧ full.take k <+: log

def Dead (s : State ι α) (v k : Nat) : Prop :=
  ∃ q : Finset ι, Majority q ∧ ∀ r ∈ q, v < s.view r ∧ ∀ log, s.held r v = some log → log.length < k

structure Valid (leader : Nat → ι) (rules : Rules α) (s : State ι α) : Prop where
  bounded : ∀ r v log, s.held r v = some log → v ≤ s.view r
  between : ∀ r v log, s.held r v = some log →
    ∃ full, s.held (leader v) v = some full ∧ s.start v <+: log ∧ log <+: full
  origin : ∀ r v log, s.held r v = some log → ∀ (k : Nat) e, log[k]? = some e → rules.stamp e ≤ v ∧
    ∃ full, s.held (leader (rules.stamp e)) (rules.stamp e) = some full ∧ log.take (k+1) <+: full
  fresh : ∀ v log, s.held (leader v) v = some log →
    ∀ (k : Nat) e, (s.start v).length ≤ k → log[k]? = some e → rules.stamp e = v
  sound : ∀ r v log, s.held r v = some log → rules.Sound log
  safe : ∀ w log, s.held (leader w) w = some log → ∀ v < w, ∀ k, Carried leader s v k (s.start w) ∨ Dead s v k

theorem initial_valid : Valid leader rules (initial : State ι α) := by
  refine ⟨?_,?_,?_,?_,?_,?_⟩
  all_goals simp only [initial]
  · intro r v log here
    split at here
    · simp_all
    · cases here
  · intro r v log here
    split at here
    · cases here; subst v; exact ⟨[],rfl,prefix_rfl,prefix_rfl⟩
    · cases here
  · intro r v log here k e mem
    split at here
    · cases here; simp at mem
    · cases here
  · intro v log here k e _ mem
    split at here
    · cases here; simp at mem
    · cases here
  · intro r v log here
    split at here
    · cases here; exact rules.sound_nil
    · cases here
  intro w log here v below
  split at here
  · omega
  · cases here

theorem Dead.grows (dead : Dead s v k) (grown : Grows leader s t) : Dead t v k := by
  obtain ⟨q,majority,all⟩ := dead
  refine ⟨q,majority,?_⟩
  intro r mem
  obtain ⟨left,short⟩ := all r mem
  refine ⟨left.trans_le (grown.view r),?_⟩
  intro log here
  rw [grown.frozen r v left] at here
  exact short log here

theorem Carried.grows (carried : Carried leader s v k log) (grown : Grows leader s t) : Carried leader t v k log := by
  obtain ⟨full,here,enough,_⟩ := carried
  obtain ⟨more,there,longer⟩ := grown.kept _ v full here
  refine ⟨more,there,enough.trans longer.length_le,?_⟩
  obtain ⟨_,rfl⟩ := longer
  rwa [take_append_of_le_length enough]

theorem Newest.log_bounds (newest : Newest s v q w log) (valid : Valid leader rules s) :
    ∃ full, s.held (leader w) w = some full ∧ s.start w <+: log ∧ log <+: full := by
  obtain ⟨r,_,here⟩ := newest.chosen
  exact valid.between r w log here

-- The heart of a view change. Views above the newest one were never entered by
-- the majority; in the newest view any member's log is inside the chosen one;
-- below it the chosen log already starts with what was safe there.
theorem Newest.safe (newest : Newest s v q w log) (valid : Valid leader rules s) (below : x < v) (k : Nat) :
    Carried leader s x k log ∨ Dead s x k := by
  obtain ⟨full,source,above,inside⟩ := newest.log_bounds valid
  rcases Nat.lt_trichotomy x w with less | rfl | _
  · rcases valid.safe w full source x less k with carried | dead
    · obtain ⟨first,here,enough,start⟩ := carried
      exact .inl ⟨first,here,enough,start.trans above⟩
    · exact .inr dead
  · by_cases holder : ∃ r ∈ q, ∃ other, s.held r x = some other ∧ k ≤ other.length
    · obtain ⟨r,mem,other,here,enough⟩ := holder
      have longest : other.length ≤ log.length := by
        rcases newest.latest r mem x below other here with less | ⟨_,bound⟩
        · omega
        · exact bound
      refine .inl ⟨full,source,(enough.trans longest).trans inside.length_le,?_⟩
      obtain ⟨_,rfl⟩ := inside
      rw [take_append_of_le_length (enough.trans longest)]
      exact take_prefix k log
    refine .inr ⟨q,newest.majority,?_⟩
    intro r mem
    refine ⟨below.trans_le (newest.left r mem),?_⟩
    intro other here
    by_contra enough
    exact holder ⟨r,mem,other,here,by omega⟩
  refine .inr ⟨q,newest.majority,?_⟩
  intro r mem
  refine ⟨below.trans_le (newest.left r mem),?_⟩
  intro other here
  rcases newest.latest r mem x below other here with less | ⟨_,_⟩ <;> omega

theorem advance_valid (valid : Valid leader rules s) (later : s.view r ≤ v) :
    Valid leader rules {s with view := update s.view r v} := by
  have grown : Grows leader s {s with view := update s.view r v} :=
    step_grows (Step.advance later : Step leader rules s _)
  refine ⟨?_,valid.between,valid.origin,valid.fresh,valid.sound,?_⟩
  · intro i w log here
    exact (valid.bounded i w log here).trans (grown.view i)
  · intro w log here x below k
    exact (valid.safe w log here x below k).imp (·.grows grown) (·.grows grown)

theorem hold_valid {start : Nat → List α} (valid : Valid leader rules s)
    (grown : Grows leader s {s with held := hold s.held r v log, start := start})
    (bounded : v ≤ s.view r)
    (between : ∃ full, hold s.held r v log (leader v) v = some full ∧ start v <+: log ∧ log <+: full)
    (origin : ∀ (k : Nat) e, log[k]? = some e → rules.stamp e ≤ v ∧
      ∃ full, hold s.held r v log (leader (rules.stamp e)) (rules.stamp e) = some full ∧ log.take (k+1) <+: full)
    (fresh : r = leader v → ∀ (k : Nat) e, (start v).length ≤ k → log[k]? = some e → rules.stamp e = v)
    (sound : rules.Sound log) (safe : r = leader v → ∀ x < v, ∀ k, Carried leader s x k (start v) ∨ Dead s x k) :
    Valid leader rules {s with held := hold s.held r v log, start := start} := by
  refine ⟨?_,?_,?_,?_,?_,?_⟩
  · intro i w held here
    rcases hold_cases here with ⟨rfl,rfl,_⟩ | old
    · exact bounded
    · exact valid.bounded i w held old
  · intro i w held here
    rcases hold_cases here with ⟨rfl,rfl,rfl⟩ | old
    · exact between
    obtain ⟨full,source,_,below⟩ := valid.between i w held old
    obtain ⟨more,there,longer⟩ := grown.kept _ _ _ source
    refine ⟨more,there,?_,below.trans longer⟩
    change start w <+: held
    rwa [show start w = s.start w from grown.started w full source]
  · intro i w held here k e mem
    rcases hold_cases here with ⟨rfl,rfl,rfl⟩ | old
    · exact origin k e mem
    · obtain ⟨early,full,source,place⟩ := valid.origin i w held old k e mem
      obtain ⟨more,there,longer⟩ := grown.kept _ _ _ source
      exact ⟨early,more,there,place.trans longer⟩
  · intro w held here k e far mem
    rcases hold_cases here with ⟨rfl,rfl,rfl⟩ | old
    · exact fresh rfl k e far mem
    · change (start w).length ≤ k at far
      rw [show start w = s.start w from grown.started w held old] at far
      exact valid.fresh w held old k e far mem
  · intro i w held here
    rcases hold_cases here with ⟨rfl,rfl,rfl⟩ | old
    · exact sound
    · exact valid.sound i w held old
  intro w held here x below k
  rcases hold_cases here with ⟨rfl,rfl,_⟩ | old
  · exact (safe rfl x below k).imp (·.grows grown) (·.grows grown)
  change Carried leader _ x k (start w) ∨ Dead _ x k
  rw [show start w = s.start w from grown.started w held old]
  exact (valid.safe w held old x below k).imp (·.grows grown) (·.grows grown)

theorem step_valid (valid : Valid leader rules s) (step : Step leader rules s t) : Valid leader rules t := by
  have grown := step_grows step
  cases step with
  | advance later => exact advance_valid valid later
  | @append v log new current inView fresh sound =>
    obtain ⟨_,source,above,_⟩ := valid.between _ v log current
    refine hold_valid valid grown (by omega) ?_ ?_ ?_ sound ?_
    · exact ⟨_,hold_same _ _ _ _,above.trans (prefix_append _ _),prefix_rfl⟩
    · intro k e mem
      rcases Nat.lt_or_ge k log.length with old | new
      · rw [List.getElem?_append_left old] at mem
        obtain ⟨early,full,place,inside⟩ := valid.origin _ v log current k e mem
        obtain ⟨more,there,longer⟩ := grown.kept _ _ _ place
        refine ⟨early,more,there,?_⟩
        rw [take_append_of_le_length (by omega)]
        exact inside.trans longer
      have tail := mem
      rw [List.getElem?_append_right new] at tail
      have same : rules.stamp e = v := fresh e (mem_of_getElem? tail)
      rw [same]
      exact ⟨le_rfl,_,hold_same _ _ _ _, take_prefix _ _⟩
    · intro _ k e far mem
      rcases Nat.lt_or_ge k log.length with old | new
      · rw [List.getElem?_append_left old] at mem
        exact valid.fresh v log current k e far mem
      · rw [List.getElem?_append_right new] at mem
        exact fresh e (mem_of_getElem? mem)
    · intro _ x below k
      exact valid.safe v log current x below k
  | @adopt r v full log inView source above below grows =>
    obtain ⟨more,there,longer⟩ := grown.kept _ _ _ source
    have placed : ∀ {k : Nat} {e}, log[k]? = some e → full[k]? = some e ∧ log.take (k+1) = full.take (k+1) := by
      intro k e mem
      have bound := (List.getElem?_eq_some_iff.mp mem).1
      obtain ⟨_,rfl⟩ := below
      exact ⟨by rwa [List.getElem?_append_left bound],(take_append_of_le_length bound).symm⟩
    refine hold_valid valid grown (by omega) ⟨more,there,above,below.trans longer⟩ ?_ ?_
      (rules.sound_shorter below (valid.sound _ v full source)) ?_
    · intro k e mem
      obtain ⟨early,first,place,inside⟩ := valid.origin _ v full source k e (placed mem).1
      obtain ⟨most,last,further⟩ := grown.kept _ _ _ place
      exact ⟨early,most,last,(placed mem).2 ▸ inside.trans further⟩
    · rintro rfl k e far mem
      exact valid.fresh v full source k e far (placed mem).1
    · rintro rfl x earlier k
      exact valid.safe v full source x earlier k
  | @begin v w q log inView idle newest =>
    obtain ⟨r,_,here⟩ := newest.chosen
    refine hold_valid valid grown (by omega) ?_ ?_ ?_ (valid.sound r w log here) ?_
    · exact ⟨log,hold_same _ _ _ _,by simp,prefix_rfl⟩
    · intro k e mem
      obtain ⟨early,first,place,inside⟩ := valid.origin r w log here k e mem
      obtain ⟨most,last,further⟩ := grown.kept _ _ _ place
      exact ⟨early.trans newest.earlier.le,most,last,inside.trans further⟩
    · intro _ k e far mem
      have inside := (List.getElem?_eq_some_iff.mp mem).1
      simp only [update_self] at far
      omega
    · intro _ x earlier k
      simpa using newest.safe valid earlier k

theorem stamp_determines (valid : Valid leader rules s) (here : s.held r v = some log) (there : s.held i w = some other)
    (left : log[k]? = some e) (right : other[k]? = some x) (same : rules.stamp e = rules.stamp x) :
    log.take (k+1) = other.take (k+1) := by
  obtain ⟨_,_,source,inside⟩ := valid.origin r v log here k e left
  obtain ⟨_,_,second,within⟩ := valid.origin i w other there k x right
  rw [← same,source] at second; cases second
  have one := (List.getElem?_eq_some_iff.mp left).1
  have two := (List.getElem?_eq_some_iff.mp right).1
  rw [prefix_iff_eq_take.mp inside,prefix_iff_eq_take.mp within]
  simp only [length_take]
  congr 1
  omega

-- A prefix is chosen in a view when the leader's log there starts with it and a
-- majority has held at least that much there.
def Chosen (leader : Nat → ι) (s : State ι α) (v : Nat) (log : List α) : Prop :=
  (∃ full, s.held (leader v) v = some full ∧ log <+: full) ∧
  ∃ q : Finset ι, Majority q ∧ ∀ r ∈ q, ∃ mine, s.held r v = some mine ∧ log.length ≤ mine.length

theorem Chosen.grows (chosen : Chosen leader s v log) (grown : Grows leader s t) : Chosen leader t v log := by
  obtain ⟨⟨_,source,inside⟩,q,majority,all⟩ := chosen
  obtain ⟨more,there,longer⟩ := grown.kept _ _ _ source
  refine ⟨⟨more,there,inside.trans longer⟩,q,majority,?_⟩
  intro r mem
  obtain ⟨_,here,enough⟩ := all r mem
  obtain ⟨further,later,extended⟩ := grown.kept _ _ _ here
  exact ⟨further,later,enough.trans extended.length_le⟩

theorem chosen_start (valid : Valid leader rules s) (chosen : Chosen leader s v log) (later : v < w)
    (begun : s.held (leader w) w = some first) : log <+: s.start w := by
  obtain ⟨⟨_,source,inside⟩,_,majority,all⟩ := chosen
  rcases valid.safe w first begun v later log.length with ⟨_,same,_,carried⟩ | ⟨_,other,none⟩
  · rw [source] at same; cases same
    rwa [← prefix_iff_eq_take.mp inside] at carried
  obtain ⟨i,both,left⟩ := majorities_meet majority other
  obtain ⟨log,held,_⟩ := all i both
  have short := (none i left).2 log held
  omega

theorem chosen_carried (valid : Valid leader rules s) (chosen : Chosen leader s v log) (later : v < w)
    (here : s.held r w = some mine) : log <+: mine := by
  obtain ⟨_,begun,above,_⟩ := valid.between r w mine here
  exact (chosen_start valid chosen later begun).trans above

theorem chosen_agree (valid : Valid leader rules s) (one : Chosen leader s v log) (two : Chosen leader s w other) :
    log <+: other ∨ other <+: log := by
  obtain ⟨_,source,inside⟩ := one.1
  obtain ⟨more,there,within⟩ := two.1
  rcases Nat.lt_trichotomy v w with less | rfl | more
  · exact prefix_or_prefix_of_prefix (chosen_carried valid one less there) within
  · rw [source] at there; cases there
    exact prefix_or_prefix_of_prefix inside within
  · exact prefix_or_prefix_of_prefix inside (chosen_carried valid two more source)

theorem Chosen.shorten (chosen : Chosen leader s v log) (shorter : less <+: log) : Chosen leader s v less := by
  obtain ⟨⟨full,source,inside⟩,q,majority,all⟩ := chosen
  refine ⟨⟨full,source,shorter.trans inside⟩,q,majority,?_⟩
  intro r mem
  obtain ⟨mine,here,enough⟩ := all r mem
  exact ⟨mine,here,shorter.length_le.trans enough⟩

def Settled (leader : Nat → ι) (s : State ι α) (v : Nat) (log : List α) : Prop :=
  log = [] ∨ ∃ w ≤ v, Chosen leader s w log

theorem Settled.grows (settled : Settled leader s v log) (grown : Grows leader s t) : Settled leader t v log :=
  settled.imp id fun ⟨w,early,chosen⟩ => ⟨w,early,chosen.grows grown⟩

theorem Settled.later (settled : Settled leader s v log) (later : v ≤ w) : Settled leader s w log :=
  settled.imp id fun ⟨x,early,chosen⟩ => ⟨x,early.trans later,chosen⟩

theorem Settled.shorten (settled : Settled leader s v log) (shorter : less <+: log) : Settled leader s v less := by
  rcases settled with rfl | ⟨w,early,chosen⟩
  · exact .inl (prefix_nil.mp shorter)
  · exact .inr ⟨w,early,chosen.shorten shorter⟩

theorem settled_start (valid : Valid leader rules s) (settled : Settled leader s v log) (later : v < w)
    (begun : s.held (leader w) w = some first) : log <+: s.start w := by
  rcases settled with rfl | ⟨_,_,chosen⟩
  · exact nil_prefix
  · exact chosen_start valid chosen (by omega) begun

theorem settled_agree (valid : Valid leader rules s) (one : Settled leader s v log) (two : Settled leader s w other) :
    log <+: other ∨ other <+: log := by
  rcases one with rfl | ⟨_,_,one⟩
  · exact .inl nil_prefix
  rcases two with rfl | ⟨_,_,two⟩
  · exact .inr nil_prefix
  exact chosen_agree valid one two

structure Moves (leader : Nat → ι) (rules : Rules α) (i : ι) (s t : State ι α) : Prop where
  grows : Grows leader s t
  others : ∀ j ≠ i, t.view j = s.view j ∧ t.held j = s.held j
  valid : Valid leader rules s → Valid leader rules t

theorem Moves.refl : Moves leader rules i s s := ⟨.refl,fun _ _ => ⟨rfl,rfl⟩,id⟩

theorem Moves.trans (one : Moves leader rules i s t) (two : Moves leader rules i t u) : Moves leader rules i s u := by
  refine ⟨one.grows.trans two.grows,?_,two.valid ∘ one.valid⟩
  intro j other
  rw [(two.others j other).1,(two.others j other).2]
  exact one.others j other

theorem moves_hold {i : ι} {start : Nat → List α} (step : Step leader rules s {s with held := hold s.held i v log, start := start}) :
    Moves leader rules i s {s with held := hold s.held i v log, start := start} := by
  refine ⟨step_grows step,?_,fun valid => step_valid valid step⟩
  intro j other
  refine ⟨rfl,?_⟩
  funext w
  exact hold_other _ _ (fun same => other same.1)

theorem moves_advance (later : s.view i ≤ v) : Moves leader rules i s {s with view := update s.view i v} := by
  have step : Step leader rules s {s with view := update s.view i v} := .advance later
  refine ⟨step_grows step,?_,fun valid => step_valid valid step⟩
  intro j other
  exact ⟨update_of_ne other _ _,rfl⟩

end DbExp.ViewLog
