import DbExp.Aria.CalvinStores

namespace DbExp.Aria.Calvin
open Function
open Machine (anyStep reached_of_run)
set_option linter.unusedSectionVars false

section
variable {κ ν : Type} [DecidableEq κ] {b : Batch κ ν} {s s' : State κ ν} {a : Tasks κ ν}

theorem share_pos (b : Batch κ ν) : 0 < b.workers / b.lockManagers :=
  Nat.div_pos (Nat.le_of_dvd b.some_workers (Nat.dvd_of_mod_eq_zero b.workers_split)) b.some_managers

theorem available_manager (b : Batch κ ν) (m request : Nat) : b.managerOf (b.availableWorker m request) = m := by
  unfold Batch.managerOf Batch.availableWorker
  rw [Nat.add_mul_div_left _ _ (share_pos b),Nat.div_eq_of_lt (Nat.mod_lt _ (share_pos b)),Nat.zero_add]

theorem available_lt (b : Batch κ ν) (inside : m < b.lockManagers) (request : Nat) : b.availableWorker m request < b.workers := by
  unfold Batch.availableWorker
  have below := Nat.mod_lt request (share_pos b)
  have whole := Nat.div_mul_cancel (Nat.dvd_of_mod_eq_zero b.workers_split)
  calc request % (b.workers / b.lockManagers) + b.workers / b.lockManagers * m
      < b.workers / b.lockManagers * (m + 1) := by rw [Nat.mul_add]; omega
    _ ≤ b.workers / b.lockManagers * b.lockManagers := Nat.mul_le_mul_left _ inside
    _ = b.workers := whole

namespace Stage

def Working : Stage ν → Prop
  | .reading _ | .running _ | .writing _ | .releasing _ => True
  | .locking _ | .queued | .done => False

end Stage

theorem work_advance (worked : work b c m i shared stage = some (after,next)) :
    Advance b shared c m i stage after next ∧ stage.Working ∧ (next = .done ∨ next.Working) := by
  unfold work at worked
  split at worked
  · obtain ⟨x,got,same⟩ := Option.map_eq_some_iff.mp worked
    cases same
    exact ⟨.read got,trivial,.inr trivial⟩
  · split at worked
    next active =>
      split at worked
      next counters =>
        cases worked
        exact ⟨.run active counters.1 counters.2,trivial,.inr trivial⟩
      · cases worked
    next inactive =>
      cases worked
      exact ⟨.abort inactive,trivial,.inr trivial⟩
  · cases worked
    exact ⟨.assign,trivial,.inr trivial⟩
  · cases worked
    exact ⟨.ended,trivial,.inr trivial⟩
  · split at worked
    next got stored =>
      cases worked
      exact ⟨.write got stored,trivial,.inr trivial⟩
    · cases worked
  · cases worked
    exact ⟨.written,trivial,.inr trivial⟩
  · obtain ⟨x,got,same⟩ := Option.map_eq_some_iff.mp worked
    cases same
    exact ⟨.release got,trivial,.inr trivial⟩
  · cases worked
    exact ⟨.finish,trivial,.inl rfl⟩
  · cases worked
  · cases worked
  · cases worked

def Has (x : Worker ν) (i : Nat) : Prop := i ∈ x.queue ∨ ∃ stage, x.job = some (i,stage)

structure Carries (b : Batch κ ν) (managers : Nat × Nat → Manager) (workers : Nat × Nat → Worker ν) (tasks : Nat × Nat × Nat → Stage ν) :
    Prop where
  current : ∀ c m, tasks (c,m,(managers (c,m)).current) = .locking (managers (c,m)).todo
  later : ∀ c m i, (managers (c,m)).current < i → tasks (c,m,i) = .locking (b.slots c m i)
  passed : ∀ c m i, i < (managers (c,m)).current → ¬ (tasks (c,m,i)).Locking
  queued : ∀ c w i, i ∈ (workers (c,w)).queue → tasks (c,b.managerOf w,i) = .queued
  jobs : ∀ c w i stage, (workers (c,w)).job = some (i,stage) → tasks (c,b.managerOf w,i) = stage ∧ stage.Working
  once : ∀ c w, (workers (c,w)).queue.Nodup
  apart : ∀ c v w i, b.managerOf v = b.managerOf w → Has (workers (c,v)) i → Has (workers (c,w)) i → v = w
  held : ∀ c m i, i < (managers (c,m)).current → tasks (c,m,i) = .done ∨
    ∃ w, b.managerOf w = m ∧ w < b.workers ∧ Has (workers (c,w)) i

def Refines (b : Batch κ ν) (s : State κ ν) (a : Tasks κ ν) : Prop := a.shared = s.shared ∧ Carries b s.managers s.workers a.tasks

theorem initial_refines (b : Batch κ ν) : Refines b (initial b) (initialTasks b) where
  left := rfl
  right := {
    current := fun _ _ => rfl
    later := fun _ _ _ _ => rfl
    passed := fun _ _ _ none => absurd none (Nat.not_lt_zero _)
    queued := fun _ _ _ none => absurd none List.not_mem_nil
    jobs := by intro _ _ _ _ none; cases none
    once := fun _ _ => List.nodup_nil
    apart := by
      rintro _ _ _ _ _ (none | ⟨_,none⟩)
      · exact absurd none List.not_mem_nil
      · cases none
    held := fun _ _ _ none => absurd none (Nat.not_lt_zero _) }

section
variable {managers : Nat × Nat → Manager} {workers next : Nat × Nat → Worker ν} {tasks : Nat × Nat × Nat → Stage ν} {stage : Stage ν}
variable (carries : Carries b managers workers tasks)
include carries

theorem Carries.has_stage (has : Has (workers (c,w)) i) : tasks (c,b.managerOf w,i) = .queued ∨ (tasks (c,b.managerOf w,i)).Working := by
  rcases has with waiting | ⟨stage,running⟩
  · exact .inl (carries.queued c w i waiting)
  · obtain ⟨same,working⟩ := carries.jobs c w i stage running
    exact .inr (same ▸ working)

theorem Carries.has_other (has : Has (workers (d,w)) i) : (d,b.managerOf w,i) ≠ (c,m,(managers (c,m)).current) := by
  intro same
  have stage := carries.has_stage has
  rw [same,carries.current c m] at stage
  rcases stage with waiting | working
  · cases waiting
  · exact working

theorem Carries.lock : Carries b (update managers (c,m) {managers (c,m) with todo := rest}) workers
    (update tasks (c,m,(managers (c,m)).current) (.locking rest)) := by
  have kept : ∀ d n, ((update managers (c,m) {managers (c,m) with todo := rest}) (d,n)).current = (managers (d,n)).current := by
    intro d n
    by_cases mine : (d,n) = (c,m)
    · rw [mine,update_self]
    · rw [update_of_ne mine]
  refine ⟨?_,?_,?_,?_,?_,carries.once,carries.apart,?_⟩
  · intro d n
    rw [kept]
    by_cases mine : (d,n) = (c,m)
    · cases mine
      rw [update_self,update_self]
    · rw [update_of_ne mine,update_of_ne (by intro same; simp only [Prod.mk.injEq] at same; exact mine (by rw [same.1,same.2.1]))]
      exact carries.current d n
  · intro d n i above
    rw [kept] at above
    rw [update_of_ne (by rintro same; cases same; omega)]
    exact carries.later d n i above
  · intro d n i below
    rw [kept] at below
    rw [update_of_ne (by rintro same; cases same; omega)]
    exact carries.passed d n i below
  · intro d w i waiting
    rw [update_of_ne (carries.has_other (.inl waiting))]
    exact carries.queued d w i waiting
  · intro d w i stage running
    rw [update_of_ne (carries.has_other (.inr ⟨stage,running⟩))]
    exact carries.jobs d w i stage running
  intro d n i below
  rw [kept] at below
  rw [update_of_ne (by rintro same; cases same; omega)]
  exact carries.held d n i below

theorem Carries.moveOn (requests : Nat) (past : ¬ stage.Locking)
    (queued : ∀ d w i, i ∈ (next (d,w)).queue → i ∈ (workers (d,w)).queue ∨
      (d,b.managerOf w,i) = (c,m,(managers (c,m)).current) ∧ stage = .queued)
    (jobs : ∀ d w, (next (d,w)).job = (workers (d,w)).job) (once : ∀ d w, (next (d,w)).queue.Nodup)
    (apart : ∀ d v w i, b.managerOf v = b.managerOf w → Has (next (d,v)) i → Has (next (d,w)) i → v = w)
    (kept : ∀ d w i, Has (workers (d,w)) i → Has (next (d,w)) i)
    (handed : stage = .done ∨ ∃ w, b.managerOf w = m ∧ w < b.workers ∧ Has (next (c,w)) (managers (c,m)).current) :
    Carries b (update managers (c,m) ⟨(managers (c,m)).current + 1,b.slots c m ((managers (c,m)).current + 1),requests⟩) next
      (update tasks (c,m,(managers (c,m)).current) stage) := by
  have other : ∀ {d n j}, (d,n) ≠ (c,m) → (d,n,j) ≠ (c,m,(managers (c,m)).current) := by
    intro d n j apart same
    simp only [Prod.mk.injEq] at same
    exact apart (by rw [same.1,same.2.1])
  have earlier : ∀ {d n j}, (d,n,j) ≠ (c,m,(managers (c,m)).current) → j < ((update managers (c,m)
      ⟨(managers (c,m)).current + 1,b.slots c m ((managers (c,m)).current + 1),requests⟩) (d,n)).current → j < (managers (d,n)).current := by
    intro d n j apart below
    by_cases same : (d,n) = (c,m)
    · cases same
      rw [update_self] at below
      have : j ≠ (managers (c,m)).current := fun equal => apart (by rw [equal])
      change j < (managers (c,m)).current + 1 at below
      omega
    · rwa [update_of_ne same] at below
  refine ⟨?_,?_,?_,?_,?_,once,apart,?_⟩
  · intro d n
    by_cases mine : (d,n) = (c,m)
    · cases mine
      rw [update_self,update_of_ne (by simp)]
      exact carries.later c m _ (Nat.lt_succ_self _)
    · rw [update_of_ne mine,update_of_ne (other mine)]
      exact carries.current d n
  · intro d n j above
    by_cases mine : (d,n) = (c,m)
    · cases mine
      rw [update_self] at above
      change (managers (c,m)).current + 1 < j at above
      rw [update_of_ne (by simp only [ne_eq,Prod.mk.injEq]; omega)]
      exact carries.later c m j (by omega)
    · rw [update_of_ne mine] at above
      rw [update_of_ne (other mine)]
      exact carries.later d n j above
  · intro d n j below
    by_cases mine : (d,n,j) = (c,m,(managers (c,m)).current)
    · rw [mine,update_self]
      exact past
    · rw [update_of_ne mine]
      exact carries.passed d n j (earlier mine below)
  · intro d w j waiting
    rcases queued d w j waiting with before | ⟨same,rfl⟩
    · rw [update_of_ne (carries.has_other (.inl before))]
      exact carries.queued d w j before
    · rw [same,update_self]
  · intro d w j stage running
    rw [jobs] at running
    rw [update_of_ne (carries.has_other (.inr ⟨stage,running⟩))]
    exact carries.jobs d w j stage running
  intro d n j below
  by_cases mine : (d,n,j) = (c,m,(managers (c,m)).current)
  · cases mine
    rw [update_self]
    exact handed
  rw [update_of_ne mine]
  refine (carries.held d n j (earlier mine below)).imp_right ?_
  rintro ⟨w,manager,inside,has⟩
  exact ⟨w,manager,inside,kept d w j has⟩

theorem Carries.push (requests : Nat) (manager : b.managerOf w = m) (worker : w < b.workers) :
    Carries b (update managers (c,m) ⟨(managers (c,m)).current + 1,b.slots c m ((managers (c,m)).current + 1),requests⟩)
      (update workers (c,w) {workers (c,w) with queue := (workers (c,w)).queue ++ [(managers (c,m)).current]})
      (update tasks (c,m,(managers (c,m)).current) .queued) := by
  have fresh : ∀ {v}, b.managerOf v = m → ¬ Has (workers (c,v)) (managers (c,m)).current := by
    intro v same has
    exact carries.has_other (c := c) (m := m) has (by rw [same])
  have has : ∀ {d v i}, Has (update workers (c,w) {workers (c,w) with queue := (workers (c,w)).queue ++ [(managers (c,m)).current]} (d,v)) i ↔
      Has (workers (d,v)) i ∨ (d,v) = (c,w) ∧ i = (managers (c,m)).current := by
    intro d v i
    by_cases mine : (d,v) = (c,w)
    · cases mine
      rw [update_self]
      simp [Has,or_right_comm]
    · rw [update_of_ne mine]
      simp [mine]
  apply carries.moveOn requests id
  · intro d v i waiting
    by_cases mine : (d,v) = (c,w)
    · cases mine
      rw [update_self] at waiting
      rcases List.mem_append.mp waiting with before | last
      · exact .inl before
      · exact .inr ⟨by rw [manager,List.mem_singleton.mp last],rfl⟩
    · rw [update_of_ne mine] at waiting
      exact .inl waiting
  · intro d v
    by_cases mine : (d,v) = (c,w)
    · rw [mine,update_self]
    · rw [update_of_ne mine]
  · intro d v
    by_cases mine : (d,v) = (c,w)
    · cases mine
      rw [update_self]
      refine List.nodup_append.mpr ⟨carries.once c w,List.nodup_singleton _,?_⟩
      rintro i waiting _ last rfl
      exact fresh manager (.inl (List.mem_singleton.mp last ▸ waiting))
    · rw [update_of_ne mine]
      exact carries.once d v
  · intro d u v i same one two
    rcases has.mp one with first | ⟨atU,mine⟩
    · rcases has.mp two with second | ⟨atV,mine⟩
      · exact carries.apart d u v i same first second
      · cases atV
        subst mine
        exact absurd first (fresh (same.trans manager))
    rcases has.mp two with second | ⟨atV,_⟩
    · cases atU
      subst mine
      exact absurd second (fresh (same.symm.trans manager))
    · cases atU
      cases atV
      rfl
  · intro d v i before
    exact has.mpr (.inl before)
  · exact .inr ⟨w,manager,worker,has.mpr (.inr ⟨rfl,rfl⟩)⟩

theorem Carries.worker {y : Worker ν} (worker : w < b.workers) (has : Has (workers (c,w)) i) (past : ¬ stage.Locking)
    (queue : ∀ j ∈ y.queue, j ∈ (workers (c,w)).queue ∧ j ≠ i) (once : y.queue.Nodup)
    (job : ∀ j got, y.job = some (j,got) → j = i ∧ got = stage ∧ stage.Working)
    (kept : ∀ j, j ≠ i → Has (workers (c,w)) j → Has y j) (handed : stage = .done ∨ Has y i) :
    Carries b managers (update workers (c,w) y) (update tasks (c,b.managerOf w,i) stage) := by
  have begun : ¬ (tasks (c,b.managerOf w,i)).Locking := by
    rcases carries.has_stage has with waiting | working
    · rw [waiting]; exact id
    · intro locking
      generalize tasks (c,b.managerOf w,i) = before at working locking
      cases before <;> trivial
  have fewer : ∀ {j}, Has y j → Has (workers (c,w)) j := by
    rintro j (waiting | ⟨got,running⟩)
    · exact .inl (queue j waiting).1
    · obtain ⟨rfl,_⟩ := job j got running
      exact has
  have alone : ∀ {d v j}, (d,v) ≠ (c,w) → Has (workers (d,v)) j → (d,b.managerOf v,j) ≠ (c,b.managerOf w,i) := by
    intro d v j apart theirs same
    simp only [Prod.mk.injEq] at same
    obtain ⟨rfl,manager,rfl⟩ := same
    exact apart (by rw [carries.apart d v w j manager theirs has])
  have before : ∀ {d v j}, Has (update workers (c,w) y (d,v)) j → Has (workers (d,v)) j := by
    intro d v j after
    by_cases mine : (d,v) = (c,w)
    · rw [mine,update_self] at after
      rw [mine]
      exact fewer after
    · rwa [update_of_ne mine] at after
  refine ⟨?_,?_,?_,?_,?_,?_,?_,?_⟩
  · intro d n
    rw [update_of_ne (Ne.symm (carries.has_other has))]
    exact carries.current d n
  · intro d n j above
    rw [update_of_ne (by intro same; rw [← same,carries.later d n j above] at begun; exact begun trivial)]
    exact carries.later d n j above
  · intro d n j below
    by_cases mine : (d,n,j) = (c,b.managerOf w,i)
    · rw [mine,update_self]
      exact past
    · rw [update_of_ne mine]
      exact carries.passed d n j below
  · intro d v j waiting
    by_cases mine : (d,v) = (c,w)
    · cases mine
      rw [update_self] at waiting
      obtain ⟨old,apart⟩ := queue j waiting
      rw [update_of_ne (by simp [apart])]
      exact carries.queued c w j old
    · rw [update_of_ne mine] at waiting
      rw [update_of_ne (alone mine (.inl waiting))]
      exact carries.queued d v j waiting
  · intro d v j got running
    by_cases mine : (d,v) = (c,w)
    · cases mine
      rw [update_self] at running
      obtain ⟨rfl,rfl,working⟩ := job j got running
      rw [update_self]
      exact ⟨rfl,working⟩
    · rw [update_of_ne mine] at running
      rw [update_of_ne (alone mine (.inr ⟨got,running⟩))]
      exact carries.jobs d v j got running
  · intro d v
    by_cases mine : (d,v) = (c,w)
    · rw [mine,update_self]
      exact once
    · rw [update_of_ne mine]
      exact carries.once d v
  · intro d u v j same one two
    exact carries.apart d u v j same (before one) (before two)
  intro d n j below
  by_cases mine : (d,n,j) = (c,b.managerOf w,i)
  · cases mine
    rw [update_self]
    exact handed.imp_right fun still => ⟨w,rfl,worker,by rw [update_self]; exact still⟩
  rw [update_of_ne mine]
  refine (carries.held d n j below).imp_right ?_
  rintro ⟨v,manager,inside,theirs⟩
  refine ⟨v,manager,inside,?_⟩
  by_cases same : (d,v) = (c,w)
  · cases same
    rw [update_self]
    apply kept j _ theirs
    rintro rfl
    exact mine (by rw [manager])
  · rwa [update_of_ne same]

end
theorem manage_refines (refines : Refines b s a) (inside : m < b.lockManagers) (managed : manage b s c m = some s') :
    ∃ after, TaskStep b a after ∧ Refines b s' after := by
  obtain ⟨shared,carries⟩ := refines
  have stage := carries.current c m
  have turn : (a.tasks (c,m,(s.managers (c,m)).current)).Locking →
      ∀ j, j < (s.managers (c,m)).current → ¬ (a.tasks (c,m,j)).Locking := fun _ => carries.passed c m
  dsimp only [manage] at managed
  split at managed
  · split at managed
    next p rest here =>
      rw [here] at stage
      obtain ⟨_,locked,rfl⟩ := Option.map_eq_some_iff.mp managed
      obtain ⟨x,got,locked⟩ := Option.bind_eq_some_iff.mp locked
      obtain ⟨word,taken,rfl⟩ := Option.map_eq_some_iff.mp locked
      rw [← shared] at taken
      have done : Advance b a.shared c m (s.managers (c,m)).current (a.tasks (c,m,(s.managers (c,m)).current))
          {a.shared with locks := update a.shared.locks x.key word} (.locking rest) := by
        rw [stage]
        exact .lock got taken
      refine ⟨_,.advance done turn,?_,carries.lock⟩
      rw [shared]
    next here =>
      rw [here] at stage
      split at managed
      next none =>
        cases managed
        refine ⟨_,.advance (stage ▸ .skip none) turn,shared,carries.moveOn _ id (fun _ _ _ => .inl) (fun _ _ => rfl) carries.once
          carries.apart (fun _ _ _ => id) (.inl rfl)⟩
      next some =>
        cases managed
        exact ⟨_,.advance (stage ▸ .grant some) turn,shared,carries.push _ (available_manager b m _) (available_lt b inside _)⟩
  · cases managed

theorem keep_some (kept : keep i stage = some (j,got)) : j = i ∧ got = stage := by
  cases stage <;> cases kept <;> exact ⟨rfl,rfl⟩

theorem keep_has {next : Stage ν} (still : next.Working) (queue : List Nat) : Has ⟨queue,keep i next⟩ i := by
  right
  cases next <;> first | exact ⟨_,rfl⟩ | cases still

theorem perform_refines (refines : Refines b s a) (inside : w < b.workers) (performed : perform b s c w = some s') :
    ∃ after, TaskStep b a after ∧ Refines b s' after := by
  obtain ⟨shared,carries⟩ := refines
  dsimp only [perform] at performed
  split at performed
  · cases performed
  next i rest free first =>
    cases performed
    have waiting : i ∈ (s.workers (c,w)).queue := by rw [first]; simp
    have stage := carries.queued c w i waiting
    have once := carries.once c w
    rw [first] at once
    obtain ⟨fresh,once⟩ := List.nodup_cons.mp once
    have done : Advance b a.shared c (b.managerOf w) i (a.tasks (c,b.managerOf w,i)) a.shared (.reading (b.slots c (b.managerOf w) i).reverse) := by
      rw [stage]
      exact .start
    refine ⟨_,.advance done (by rw [stage]; exact False.elim),shared,?_⟩
    apply carries.worker inside (.inl waiting) id _ once
    · intro j got running
      cases running
      exact ⟨rfl,rfl,trivial⟩
    · rintro j apart (before | ⟨got,running⟩)
      · rw [first] at before
        exact .inl ((List.mem_cons.mp before).resolve_left apart)
      · rw [free] at running
        cases running
    · exact .inr (.inr ⟨_,rfl⟩)
    · intro j later
      rw [first]
      exact ⟨.tail _ later,by rintro rfl; exact fresh later⟩
  next i stage running =>
    obtain ⟨⟨_,next⟩,worked,rfl⟩ := Option.map_eq_some_iff.mp performed
    obtain ⟨here,_⟩ := carries.jobs c w i stage running
    rw [← shared] at worked
    obtain ⟨done,working,result⟩ := work_advance worked
    have unlocked : ∀ {x : Stage ν}, x.Working → ¬ x.Locking := by
      intro x busy locking
      cases x <;> trivial
    rw [← here] at done
    refine ⟨_,.advance done (fun locking => absurd (here ▸ locking) (unlocked working)),rfl,?_⟩
    apply carries.worker inside (.inr ⟨stage,running⟩)
    · rcases result with rfl | busy
      · exact id
      · exact unlocked busy
    · intro j waiting
      refine ⟨waiting,?_⟩
      rintro rfl
      have queued := carries.queued c w j waiting
      rw [here] at queued
      rw [queued] at working
      exact working
    · exact carries.once c w
    · intro j got kept
      obtain ⟨rfl,rfl⟩ := keep_some kept
      refine ⟨rfl,rfl,result.resolve_left ?_⟩
      rintro rfl
      cases kept
    · rintro j apart (before | ⟨got,theirs⟩)
      · exact .inl before
      · rw [running] at theirs
        cases theirs
        exact absurd rfl apart
    · rcases result with rfl | busy
      · exact .inl rfl
      · exact .inr (keep_has busy _)

theorem step_refines (refines : Refines b s a) (taken : step b s action = some s') : ∃ after, TaskStep b a after ∧ Refines b s' after := by
  cases action with
  | manage c m =>
    dsimp only [step] at taken
    split at taken
    next inside =>
      exact manage_refines refines inside.2 taken
    · cases taken
  | work c w =>
    dsimp only [step] at taken
    split at taken
    next inside =>
      exact perform_refines refines inside.2 taken
    · cases taken
  | deliver k =>
    obtain ⟨_,got,rfl⟩ := Option.map_eq_some_iff.mp taken
    rw [← refines.1] at got
    exact ⟨_,.deliver got,rfl,refines.2⟩

theorem reached_refines (reached : (machine b).Reached anyStep s) :
    ∃ a, Relation.ReflTransGen (TaskStep b) (initialTasks b) a ∧ Refines b s a := by
  apply reached.invariant (fun s => ∃ a, Relation.ReflTransGen (TaskStep b) (initialTasks b) a ∧ Refines b s a)
  · exact ⟨_,.refl,initial_refines b⟩
  · rintro s _ _ _ ⟨a,path,refines⟩ _ taken
    obtain ⟨after,task,kept⟩ := step_refines refines taken
    exact ⟨after,path.tail task,kept⟩

theorem complete_tasks (refines : Refines b s a) (complete : Complete b s) (c m i : Nat) (busy : b.slots c m i ≠ []) :
    a.tasks (c,m,i) = .done := by
  obtain ⟨_,mem⟩ := List.exists_mem_of_ne_nil _ busy
  obtain ⟨x,got,rfl,rfl⟩ := mem_slots.mp mem
  obtain ⟨managers,workers⟩ := complete _ (Nat.mod_lt _ b.some_nodes : b.master x.key < b.nodes)
  have passed := managers _ (Nat.mod_lt _ b.some_managers : b.manager x.key < b.lockManagers)
  refine (refines.2.held _ _ i (Nat.lt_of_lt_of_le (slot_txn got) passed)).resolve_right ?_
  rintro ⟨w,_,inside,has⟩
  obtain ⟨empty,free⟩ := workers w inside
  rcases has with waiting | ⟨_,running⟩
  · rw [empty] at waiting
    cases waiting
  · rw [running] at free
    cases free

theorem completed_serial_of_one_manager (b : Batch κ ν) (single : OneManager b) (s : State κ ν)
    (reached : (machine b).Reached anyStep s) (complete : Complete b s) : s.shared.db = Calvin.serial b.txns b.db := by
  obtain ⟨_,path,refines⟩ := reached_refines reached
  rw [← refines.1]
  exact tasks_serial single path (complete_tasks refines complete)

-- With any number of lock managers and workers: a conflicting lock is granted only after every
-- earlier transaction has released the key, and the words count exactly the locks held.
theorem locks_granted_in_order (b : Batch κ ν) (s : State κ ν) (reached : (machine b).Reached anyStep s) :
    ∃ a, Refines b s a ∧ InOrder b a ∧ ∀ k,
      (s.shared.locks k).readers = Tally.tally (Finset.range b.txns.length) (fun i => Holds b a i k false) ∧
      ((s.shared.locks k).writer = true ↔ ∃ i, Holds b a i k true) := by
  obtain ⟨a,path,refines⟩ := reached_refines reached
  have locked := reached_locked path
  rw [← refines.1]
  exact ⟨a,refines,locked.order,fun k => ⟨locked.readers k,locked.writer k⟩⟩

end

-- Two nodes, each transaction with a key on both of them.
def crossing (mine other : Fin 2) : Txn (Fin 2) Nat :=
  ⟨[⟨mine,true⟩,⟨other,false⟩],[(0,List.sum),(0,fun values => values[0]?.getD 0 + 1)]⟩

theorem two_split : 2 % 2 = 0 := rfl

def twoNodes : Batch (Fin 2) Nat where
  nodes := 2
  lockManagers := 2
  workers := 2
  partition := fun k => k
  txns := [crossing ⟨0,Nat.zero_lt_two⟩ ⟨1,Nat.one_lt_two⟩,crossing ⟨1,Nat.one_lt_two⟩ ⟨0,Nat.zero_lt_two⟩]
  storage := fun _ _ => [0,0]
  db := fun k => k + 10
  some_nodes := Nat.zero_lt_two
  some_managers := Nat.zero_lt_two
  some_workers := Nat.zero_lt_two
  workers_split := two_split
  once := by decide
  storage_fits := by
    intro c i t here
    rcases List.mem_pair.mp (List.mem_of_getElem? here) with rfl | rfl <;> rfl

theorem twoNodes_one_manager : OneManager twoNodes := by
  intro i p q x y _ _ _ _
  have home : ∀ k, twoNodes.manager k = 0 := by decide
  rw [home,home]

def crossingRun : List Action :=
  [[.manage 0 0,.manage 0 0,.work 0 0,.work 0 0,.manage 0 1,.manage 0 1,.manage 1 0,.manage 1 0],List.replicate 5 (.work 1 0),
    [.deliver 0],List.replicate 8 (.work 0 0),[.manage 0 0,.manage 0 0],List.replicate 5 (.work 0 0),
    [.deliver 0,.manage 1 0,.manage 1 0],List.replicate 10 (.work 1 0),[.manage 1 1,.manage 1 1]].flatten

theorem completed_serial_two_nodes : ∃ s, (machine twoNodes).Reached anyStep s ∧ Complete twoNodes s ∧
    s.shared.db 0 = 22 ∧ s.shared.db 1 = 34 := by
  obtain ⟨s,reached,complete⟩ := reached_of_run (machine twoNodes) anyStep (fun s => Complete twoNodes s)
    crossingRun (by decide +kernel)
  refine ⟨s,reached,complete,?_⟩
  rw [completed_serial_of_one_manager twoNodes twoNodes_one_manager s reached complete]
  decide +kernel

theorem locks_granted_after_crossing : ∃ s a, Refines twoNodes s a ∧ InOrder twoNodes a ∧ Complete twoNodes s := by
  obtain ⟨s,reached,complete⟩ := reached_of_run (machine twoNodes) anyStep (fun s => Complete twoNodes s)
    crossingRun (by decide +kernel)
  obtain ⟨a,refines,order,_⟩ := locks_granted_in_order twoNodes s reached
  exact ⟨s,a,refines,order,complete⟩

-- NewOrder on a district and a stock of two lock managers: both workers run the
-- procedure on the one storage, so the first statement is carried out twice before
-- the district is written.
def newOrder : Txn Bool Nat :=
  ⟨[⟨false,true⟩,⟨true,true⟩],[(0,fun values => values[0]?.getD 0 + 1),(1,fun values => values[1]?.getD 0 + 5)]⟩

def twoManagers : Batch Bool Nat where
  nodes := 1
  lockManagers := 2
  workers := 2
  partition := fun k => if k then 1 else 0
  txns := [newOrder]
  storage := fun _ _ => [0,0]
  db := fun _ => 10
  some_nodes := Nat.zero_lt_one
  some_managers := Nat.zero_lt_two
  some_workers := Nat.zero_lt_two
  workers_split := two_split
  once := by decide
  storage_fits := by
    intro c i t here
    rw [List.mem_singleton.mp (List.mem_of_getElem? here)]
    rfl

theorem two_workers_update_twice : ¬ ∀ (b : Batch Bool Nat) (s : State Bool Nat),
    (machine b).Reached anyStep s → Complete b s → s.shared.db = Calvin.serial b.txns b.db := by
  intro claim
  obtain ⟨s,reached,complete,value⟩ := reached_of_run (machine twoManagers) anyStep
    (fun s => Complete twoManagers s ∧ s.shared.db false = 12)
    ([.manage 0 0,.manage 0 0,.manage 0 1,.manage 0 1] ++ (List.replicate 10 [.work 0 0,.work 0 1]).flatten) (by decide +kernel)
  rw [claim twoManagers s reached complete] at value
  exact absurd value (by decide +kernel)

end DbExp.Aria.Calvin
