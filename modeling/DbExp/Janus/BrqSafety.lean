import DbExp.Janus.BrqSystem

namespace DbExp.Janus
open StrongConnect DepthFirst
open Status (cmt abt std dcd pac)
open Option (map_eq_some_iff bind_eq_some_iff isSome_of_eq_some)

structure Fits (granted : Txn → Option (List Txn)) (t : Txn) (status : Status) (parents : List Txn) : Prop where
  small : status < 32
  right : cmt ≤ status → granted t = some parents

theorem Fits.early (early : status < cmt) : Fits granted t status parents where
  small := early.trans (by decide)
  right := fun late => absurd late (Nat.not_le.mpr early)

theorem Fits.mono (fits : Fits granted t status parents) (grows : ∀ p, granted t = some p → granted' t = some p) :
    Fits granted' t status parents where
  small := fits.small
  right := fun late => grows _ (fits.right late)

theorem or_early (first : a < cmt) (second : b < cmt) : a ||| b < cmt := Nat.or_lt_two_pow (n := 3) first second

theorem late_of_or (late : cmt ≤ a ||| b) : cmt ≤ a ∨ cmt ≤ b := by
  by_contra neither
  obtain ⟨first,second⟩ := not_or.mp neither
  exact absurd late (Nat.not_le.mpr (or_early (Nat.not_le.mp first) (Nat.not_le.mp second)))

theorem or_small {a b : Nat} (first : a < 32) (second : b < 32) : a ||| b < 32 := Nat.or_lt_two_pow (n := 5) first second

theorem not_aborted {v : Vertex} (small : v.status < 32) : v.isAborted = false := by
  have bit : v.status.testBit 6 = false := Nat.testBit_lt_two_pow (small.trans (by decide))
  have masked : v.status &&& abt = 0 := by
    have shape := Nat.and_two_pow v.status 6
    rw [bit] at shape
    simpa [abt] using shape
  simp [Vertex.isAborted,masked]

namespace Sched

variable {c : Carried}

theorem merge_parents {v : Vertex} (late : cmt ≤ v.status ∨ cmt ≤ c.status) :
    (merge v c).parents = if cmt ≤ c.status ∧ v.status < c.status then c.parents else v.parents := by
  have high : ¬ (v.status ≤ std ∧ c.status ≤ std) := fun both =>
    absurd (late.elim (·.trans both.1) (·.trans both.2)) (by decide)
  unfold merge
  rw [if_neg fun all => high all.2]
  by_cases there : cmt ≤ c.status
  · by_cases less : v.status < c.status
    · simp [there,less]
    · simp [there,less]
  · have before := late.resolve_right there
    rw [if_neg there,if_neg fun both => there (before.trans both.2.1)]
    simp [there]

end Sched

open Sched

theorem Fits.merge {v : Vertex} (own : Fits granted c.txn v.status v.parents)
    (carried : Fits granted c.txn c.status c.parents) :
    Fits granted c.txn (Sched.merge v c).status (Sched.merge v c).parents := by
  refine ⟨?_,?_⟩
  · rw [merge_status]
    exact or_small own.small carried.small
  intro late
  rw [merge_status] at late
  rw [merge_parents (late_of_or late)]
  split
  next higher => exact carried.right higher.1
  next lower =>
    exact own.right ((late_of_or late).elim id fun there => there.trans (Nat.not_lt.mp fun less => lower ⟨there,less⟩))

structure Faithful (granted : Txn → Option (List Txn)) (s : Sched) : Prop where
  sound : Sound s
  fits : ∀ t, Fits granted t (s.info t).status (s.info t).parents

section
variable {granted : Txn → Option (List Txn)} {s s' : Sched}

theorem getOrCreateDTxn_fields (s : Sched) (plain : Plain s) (own t u : Txn) :
    ((s.getOrCreateDTxn own t).info u).status = (s.info u).status ∧
    ((s.getOrCreateDTxn own t).info u).parents = (s.info u).parents ∧
    ((s.getOrCreateDTxn own t).info u).scc = (s.info u).scc ∧
    ((s.getOrCreateDTxn own t).info u).executed = (s.info u).executed := by
  unfold getOrCreateDTxn
  by_cases known : t ∈ s.vertices
  · simp only [known,if_true]
    by_cases same : u = t
    · subst same
      rw [set_own]
      exact ⟨rfl,rfl,rfl,rfl⟩
    · rw [set_other _ _ same]
      exact ⟨rfl,rfl,rfl,rfl⟩
  simp only [known,if_false]
  by_cases same : u = t
  · subst same
    rw [set_own,plain u known]
    rw [set_own]
    exact ⟨rfl,rfl,rfl,rfl⟩
  · rw [set_other _ _ same]
    rw [set_other _ _ same]
    exact ⟨rfl,rfl,rfl,rfl⟩

theorem updateStatus_early {v : Vertex} (early : v.status < cmt) (low : status < cmt) :
    (v.updateStatus status).status < cmt := by
  unfold Vertex.updateStatus
  split
  · exact low
  · exact early

theorem updateStatus_late {v : Vertex} (late : cmt ≤ v.status) (low : status < cmt) : v.updateStatus status = v := by
  unfold Vertex.updateStatus
  rw [if_neg (Nat.not_lt.mpr (Nat.le_of_lt (Nat.lt_of_lt_of_le low late)))]

structure Leaves (s s' : Sched) : Prop where
  parents : ∀ t, (s'.info t).parents = (s.info t).parents
  memo : ∀ t, (s.info t).scc.isSome = true → (s'.info t).scc.isSome = true
  status : ∀ t, (s'.info t).status = (s.info t).status ∨
    cmt ≤ (s.info t).status ∧ (s'.info t).status = (s.info t).status ||| dcd ∧ (s'.info t).scc.isSome = true

theorem Leaves.refl (s : Sched) : Leaves s s := ⟨fun _ => rfl,fun _ => id,fun _ => .inl rfl⟩

theorem Leaves.trans (first : Leaves s s') (second : Leaves s' s'') : Leaves s s'' where
  parents := fun t => (second.parents t).trans (first.parents t)
  memo := fun t known => second.memo t (first.memo t known)
  status := by
    intro t
    rcases first.status t with same | ⟨late,decided,known⟩
    · have later := second.status t
      rw [same] at later
      exact later
    refine .inr ⟨late,?_,second.memo t known⟩
    rcases second.status t with again | ⟨_,again,_⟩
    · exact again.trans decided
    · rw [again,decided,Nat.or_assoc,Nat.or_self]

theorem Leaves.late (leaves : Leaves s s') (late : cmt ≤ (s.info t).status) : cmt ≤ (s'.info t).status := by
  rcases leaves.status t with same | ⟨_,same,_⟩
  · rw [same]
    exact late
  · rw [same]
    exact late.trans Nat.left_le_or

theorem leaves_of_same (same : ∀ t, (s'.info t).parents = (s.info t).parents ∧ (s'.info t).scc = (s.info t).scc ∧
    (s'.info t).status = (s.info t).status) : Leaves s s' where
  parents := fun t => (same t).1
  memo := fun t known => by rwa [(same t).2.1]
  status := fun t => .inl (same t).2.2

theorem leaves_set (s : Sched) (parents : v.parents = (s.info t).parents) (scc : v.scc = (s.info t).scc)
    (status : v.status = (s.info t).status) : Leaves s (s.set t v) := by
  apply leaves_of_same
  intro u
  by_cases same : u = t
  · subst same
    rw [set_own]
    exact ⟨parents,scc,status⟩
  · rw [set_other s v same]
    exact ⟨rfl,rfl,rfl⟩

theorem leaves_ancestors (result : s.ancestors hint v = some (all,s')) : Leaves s s' := by
  unfold ancestors at result
  split at result
  · cases result
  · cases result
    exact leaves_set s rfl rfl rfl
  · cases result
    exact .refl s

theorem leaves_allAncFns (result : s.allAncFns scc = some (all,s')) : Leaves s s' := by
  cases scc with
  | nil => cases result
  | cons first rest => exact leaves_ancestors result

theorem leaves_findScc (result : s.findScc v = some (scc,s')) : Leaves s s' := by
  cases memo : (s.info v).scc with
  | some l =>
    obtain ⟨rfl,rfl⟩ := findScc_known memo result
    exact .refl _
  | none =>
    obtain ⟨_,_,rfl⟩ := findScc_new memo result
    refine ⟨fun t => ?_,fun t known => ?_,fun t => ?_⟩
    · change (if _ then _ else _ : Vertex).parents = _
      split <;> rfl
    · change (if _ then _ else _ : Vertex).scc.isSome = true
      split
      · rfl
      · exact known
    · change (if _ then _ else _ : Vertex).status = _ ∨ _
      split <;> exact .inl rfl

theorem leaves_fullyDispatched (own : Nat) (scc : List Txn) (s : Sched) : Leaves s (s.fullyDispatched own scc).2 := by
  induction scc generalizing s with
  | nil => exact .refl s
  | cons t rest ih =>
    obtain ⟨_,same⟩ := noteInvolve_eq own (s.info t)
    have noted : Leaves s (s.set t ((s.info t).noteInvolve own)) := by
      rw [same]
      exact leaves_set s rfl rfl rfl
    unfold fullyDispatched
    dsimp only
    split
    · exact noted
    · exact noted.trans (ih _)

theorem leaves_execute (s : Sched) (scc : List Txn) : Leaves s (s.execute scc) := by
  apply leaves_of_same
  intro t
  rw [execute_info]
  split <;> exact ⟨rfl,rfl,rfl⟩

theorem leaves_decideScc (committed : ∀ u ∈ scc, cmt ≤ (s.info u).status)
    (memo : ∀ u ∈ scc, (s.info u).scc.isSome = true) : Leaves s (s.decideScc scc) := by
  refine ⟨fun t => ?_,fun t known => ?_,fun t => ?_⟩
  · rw [decideScc_info]
    split <;> rfl
  · rw [decideScc_info]
    split <;> exact known
  rw [decideScc_info]
  split
  next inside =>
    exact .inr ⟨committed t inside,rfl,memo t inside⟩
  · exact .inl rfl

def Answerable (s : Sched) (t : Txn) : Prop := (s.info t).isDecided = true → (s.info t).scc.isSome = true ∨ (s.info t).parents = []

instance (s : Sched) (t : Txn) : Decidable (Answerable s t) := by unfold Answerable; infer_instance

def Carries (granted : Txn → Option (List Txn)) (graph : List Carried) : Prop := ∀ c ∈ graph, Fits granted c.txn c.status c.parents

theorem decided_iff {v : Vertex} (small : v.status < 32) : v.isDecided = true ↔ dcd ≤ v.status := by
  have all : ∀ x < 32, ((x &&& dcd != 0) = true ↔ dcd ≤ x) := by decide
  exact all _ small

theorem or_decided {x : Nat} (small : x < 32) (decided : dcd ≤ x) : x ||| dcd = x := by
  have all : ∀ x < 32, dcd ≤ x → x ||| dcd = x := by decide
  exact all x small decided

theorem selectGraphCmtUkn_parts (answer : selectGraphCmtUkn s t = some graph) (c : Carried) (mem : c ∈ graph) :
    c.status = 0 ∨ c.txn = t ∧ c.parents = (s.info t).parents ∧ c.status ≤ (s.info t).status := by
  unfold selectGraphCmtUkn at answer
  obtain ⟨_,rfl⟩ := of_guard answer
  rcases List.mem_cons.mp mem with rfl | parent
  · refine .inr ⟨rfl,rfl,?_⟩
    split
    next decided =>
      exact cmt_le_dcd decided
    · exact le_rfl
  · obtain ⟨_,_,rfl⟩ := List.mem_map.mp parent
    exact .inl rfl

section
variable (f : Faithful granted s)
include f

theorem Faithful.mono (grows : ∀ t p, granted t = some p → granted' t = some p) : Faithful granted' s :=
  ⟨f.sound,fun t => (f.fits t).mono (grows t)⟩

theorem Faithful.mild (mild : Mild s s')
    (fits : ∀ t, Fits granted t (s'.info t).status (s'.info t).parents) : Faithful granted s' := by
  refine ⟨f.sound.keeps ⟨mild,?_⟩,fits⟩
  intro t late
  have before := (f.fits t).right late
  have after := (fits t).right (late.trans (mild.status t))
  exact Option.some.inj (after.symm.trans before)

theorem fits_set (own : Fits granted t v.status v.parents) (u : Txn) :
    Fits granted u ((s.set t v).info u).status ((s.set t v).info u).parents := by
  by_cases same : u = t
  · subst same
    rw [set_own]
    exact own
  · rw [set_other s v same]
    exact f.fits u

theorem Faithful.waitlist (listed : Finset Txn) : Faithful granted { s with waitlist := listed } :=
  f.mild ((Mild.refl f.sound.plain).waitlist listed) f.fits

theorem Faithful.aggregateVertex (fits : Fits granted c.txn c.status c.parents)
    (known : cmt ≤ c.status → c.txn ∈ s.vertices) : Faithful granted (s.aggregateVertex c) := by
  have created : Faithful granted (s.findOrCreateV c) := by
    refine f.mild (findOrCreateV_mild f.sound.plain c) ?_
    unfold findOrCreateV
    split
    · exact f.fits
    next new =>
      have early : c.status < cmt := Nat.not_le.mp fun late => new (known late)
      exact fits_set f (Fits.early early)
  refine created.mild ?_ (fits_set created ((created.fits c.txn).merge fits))
  apply Mild.set created.sound.plain (s.mem_findOrCreateV c) (merge_scc _ c) (merge_executed _ c)
  rw [merge_status]
  exact Nat.left_le_or

omit f in
theorem aggregateVertex_vertices (c : Carried) (known : t ∈ s.vertices) : t ∈ (s.aggregateVertex c).vertices := by
  change t ∈ (s.findOrCreateV c).vertices
  unfold findOrCreateV
  split
  · exact known
  · exact Finset.mem_insert_of_mem known

theorem Faithful.aggregate {graph : List Carried}
    (fits : ∀ c ∈ graph, Fits granted c.txn c.status c.parents)
    (known : ∀ c ∈ graph, cmt ≤ c.status → c.txn ∈ s.vertices) : Faithful granted (s.aggregate graph) := by
  induction graph generalizing s with
  | nil => exact f
  | cons c rest ih =>
    have first := f.aggregateVertex (fits c List.mem_cons_self) (known c List.mem_cons_self)
    refine ih first (fun x mem => fits x (.tail _ mem)) ?_
    intro x mem late
    exact aggregateVertex_vertices c (known x (.tail _ mem) late)

theorem Faithful.getOrCreateDTxn (own t : Txn) : Faithful granted (s.getOrCreateDTxn own t) := by
  refine f.mild (getOrCreateDTxn_mild f.sound.plain own t).1 fun u => ?_
  obtain ⟨status,parents,_⟩ := getOrCreateDTxn_fields s f.sound.plain own t u
  rw [status,parents]
  exact f.fits u

theorem Faithful.status_none (none_yet : granted t = none) : (s.info t).status < cmt := by
  by_contra late
  have chosen := (f.fits t).right (Nat.not_lt.mp late)
  rw [none_yet] at chosen
  cases chosen

theorem Faithful.onDispatch (none_yet : granted t = none) (own : Nat) (traced : List Txn) :
    Faithful granted (s.onDispatch own t traced) := by
  have created := f.getOrCreateDTxn own t
  have early := created.status_none none_yet
  refine f.mild (onDispatch_mild f.sound.plain own t traced) (fits_set created (Fits.early ?_))
  exact updateStatus_early early (by decide)

theorem Faithful.setInvolved (own t : Txn) : Faithful granted (s.setInvolved own t) := by
  have created := f.getOrCreateDTxn own t
  exact f.mild (setInvolved_mild f.sound.plain own t) (fits_set created (created.fits t))

theorem Faithful.onPreAccept (taken : s.onPreAccept own t traced = some s') : Faithful granted s' := by
  have created := f.getOrCreateDTxn own t
  refine f.mild (onPreAccept_mild f.sound.plain taken) ?_
  have raised : Fits granted t (((s.getOrCreateDTxn own t).info t).updateStatus pac).status
      (((s.getOrCreateDTxn own t).info t).updateStatus pac).parents := by
    by_cases late : cmt ≤ ((s.getOrCreateDTxn own t).info t).status
    · rw [updateStatus_late late (by decide)]
      exact created.fits t
    · exact Fits.early (updateStatus_early (Nat.not_le.mp late) (by decide))
  unfold Sched.onPreAccept at taken
  dsimp only at taken
  split at taken
  · cases taken
    exact fits_set created raised
  split at taken
  · cases taken
  split at taken
  next early =>
    cases taken
    exact fits_set created (Fits.early early)
  · cases taken
    exact fits_set created raised

theorem Faithful.onAccept {graph : List Carried}
    (fits : ∀ c ∈ graph, Fits granted c.txn c.status c.parents) (others : ∀ c ∈ graph, c.txn ≠ t → c.status < cmt)
    (taken : s.onAccept own t ballot graph = some s') : Faithful granted s' := by
  have created := f.getOrCreateDTxn own t
  have known := (getOrCreateDTxn_mild f.sound.plain own t).2
  unfold Sched.onAccept at taken
  dsimp only at taken
  split at taken
  · cases taken
  cases taken
  have stored : Faithful granted ((s.getOrCreateDTxn own t).set t { (s.getOrCreateDTxn own t).info t with maxSeenBallot := ballot }) :=
    created.mild (Mild.set created.sound.plain known rfl rfl le_rfl) (fits_set created (created.fits t))
  refine stored.aggregate fits fun c mem late => ?_
  by_cases own : c.txn = t
  · rw [own]
    exact known
  · exact absurd late (Nat.not_le.mpr (others c mem own))

theorem Faithful.leaves (sound : Sound s') (leaves : Leaves s s') : Faithful granted s' := by
  refine ⟨sound,fun t => ?_⟩
  rw [leaves.parents t]
  rcases leaves.status t with same | ⟨late,decided,_⟩
  · rw [same]
    exact f.fits t
  · rw [decided]
    exact ⟨or_small (f.fits t).small (by decide),fun _ => (f.fits t).right late⟩

omit f in
theorem Leaves.waitlist (leaves : Leaves s s') (listed : Finset Txn) : Leaves s { s' with waitlist := listed } :=
  ⟨leaves.parents,leaves.memo,leaves.status⟩

omit f in
theorem leaves_adjust (s : Sched) (own : Nat) (v : Txn) : Leaves s (s.adjust own v) := by
  obtain ⟨_,same⟩ := noteInvolve_eq own (s.info v)
  unfold adjust
  dsimp only
  rw [same]
  split <;> split <;> exact Leaves.waitlist (by apply leaves_set <;> rfl) _

theorem Faithful.committed (known : v ∈ s.vertices) (late : cmt ≤ (s.info v).status)
    (walked : walk s.parents s.vertices s.hintCmt v = .done after) (path : Reach s.Edge v u) : cmt ≤ (s.info u).status := by
  refine walk_reach (fun u => cmt ≤ (s.info u).status) known late walked ?_ ?_ path
  · intro p skip w behind
    unfold hintCmt at skip
    have := not_aborted (f.fits p).small
    exact cmt_le_dcd (f.sound.preceded p (by grind) w behind)
  · intro p ok
    unfold hintCmt at ok
    grind

theorem leaves_judge (result : s.judge own v = some verdict) :
    match verdict with
    | .idle s' => Leaves s s'
    | .run s' _ => Leaves s s' := by
  unfold judge at result
  split at result
  next waits =>
    have known : v ∈ s.vertices := known_of_status f.sound.plain (Nat.lt_of_lt_of_le (by decide) waits.1)
    obtain ⟨⟨committed,s1⟩,traversed,afterCmt⟩ := bind_eq_some_iff.mp result
    obtain ⟨_,passed⟩ := ancestors_parts f.sound.plain traversed
    cases committed with
    | false =>
      cases afterCmt
      exact leaves_ancestors traversed
    | true =>
      obtain ⟨rfl,_,walked⟩ := passed rfl
      obtain ⟨⟨scc,s2⟩,got,afterScc⟩ := bind_eq_some_iff.mp afterCmt
      obtain ⟨⟨finished,s3⟩,fns,afterFns⟩ := bind_eq_some_iff.mp afterScc
      have computed := leaves_findScc got
      obtain ⟨decided,memo,first⟩ := f.sound.found known got
      -- the members of the component are ancestors of the vertex
      have members : ∀ u ∈ scc, cmt ≤ (s2.info u).status := by
        intro u inside
        have path := inside_edge (decided.linked v scc (memo v first) u inside)
        have back : Reach s1.Edge v u := by
          refine Relation.ReflTransGen.mono (fun x y step => ?_) _ _ path
          have same : ((s2.decideScc scc).info x).parents = (s1.info x).parents := by
            rw [decideScc_info]
            split <;> exact computed.parents x
          change y ∈ (s1.info x).parents
          rw [← same]
          exact step
        exact computed.late (f.committed known waits.1 walked back)
      have noted : ∀ u ∈ scc, (s2.info u).scc.isSome = true := by
        intro u inside
        have known := memo u inside
        rw [decideScc_info,if_pos inside] at known
        exact isSome_of_eq_some known
      have settled := (computed.trans (leaves_decideScc members noted)).trans (leaves_allAncFns fns)
      cases finished with
      | false =>
        cases afterFns
        exact settled
      | true =>
        simp only [if_true] at afterFns
        have noted := leaves_fullyDispatched own scc s3
        cases dispatched : s3.fullyDispatched own scc with
        | mk all s4 =>
          rw [dispatched] at noted afterFns
          cases all with
          | false | true =>
            cases afterFns
            exact settled.trans noted
  · cases result
    exact .refl s

theorem Faithful.visit (taken : s.visit own v = some s') : Faithful granted s' ∧ Leaves s s' := by
  have leaves : Leaves s s' := by
    unfold Sched.visit at taken
    split at taken
    · obtain ⟨verdict,judged,rfl⟩ := map_eq_some_iff.mp taken
      have parts := leaves_judge f judged
      cases verdict with
      | idle r => exact parts.trans (leaves_adjust r own v)
      | run r scc => exact (parts.trans (leaves_execute r scc)).trans (leaves_adjust _ own v)
    · cases taken
  exact ⟨f.leaves (visit_sound f.sound taken) leaves,leaves⟩

omit f in
theorem Carries.mono (carries : Carries granted graph) (grows : ∀ t p, granted t = some p → granted' t = some p) :
    Carries granted' graph := fun c mem => (carries c mem).mono (grows c.txn)

theorem Faithful.selected (answer : selectGraphCmtUkn s t = some graph) : Carries granted graph := by
  intro c mem
  rcases selectGraphCmtUkn_parts answer c mem with zero | ⟨own,parents,less⟩
  · exact Fits.early (by rw [zero]; decide)
  · rw [own,parents]
    exact ⟨Nat.lt_of_le_of_lt less (f.fits t).small,fun late => (f.fits t).right (late.trans less)⟩

theorem Faithful.alone (decided : dcd ≤ (s.info t).status) (alone : (s.info t).parents = [])
    (got : s.findScc t = some (scc,s')) : Sound s' := by
  obtain ⟨sound,memo,first⟩ := f.sound.found (known_of_dcd f.sound.plain decided) got
  have leaves := leaves_findScc got
  have status : ∀ u, (s'.info u).status = (s.info u).status := by
    intro u
    unfold findScc at got
    split at got
    · cases got
    · cases got
      rfl
  have only : ∀ u ∈ scc, u = t := by
    intro u inside
    have path := sound.linked t scc (memo t first) u inside
    rcases Relation.ReflTransGen.cases_head path with same | ⟨_,step,_⟩
    · exact same.symm
    have parent := step.1
    unfold Sched.parents at parent
    rw [decideScc_info,if_pos first] at parent
    rw [leaves.parents,alone] at parent
    cases parent
  have same : s'.decideScc scc = s' := by
    unfold decideScc
    congr 1
    funext u
    split
    next inside =>
      rw [only u inside,status t,or_decided (f.fits t).small decided,← status t]
    · rfl
  rwa [same] at sound

theorem Faithful.inquired (ready : Answerable s t) (answer : inquiredGraph s t = some (graph,s')) :
    Faithful granted s' ∧ Answerable s' t ∧ Carries granted graph := by
  unfold inquiredGraph at answer
  split at answer
  next decided =>
    obtain ⟨⟨scc,s1⟩,got,same⟩ := map_eq_some_iff.mp answer
    obtain ⟨rfl,rfl⟩ := Prod.mk.inj same
    have whole : Faithful granted s1 ∧ (s1.info t).scc.isSome = true := by
      cases memo : (s.info t).scc with
      | some l =>
        obtain ⟨rfl,rfl⟩ := findScc_known memo got
        exact ⟨f,isSome_of_eq_some memo⟩
      | none =>
        have alone : (s.info t).parents = [] := by
          rcases ready decided with known | alone
          · rw [memo] at known
            cases known
          · exact alone
        have late := (decided_iff (f.fits t).small).mp decided
        have sound := f.alone late alone got
        have known := f.sound.found (known_of_dcd f.sound.plain late) got
        refine ⟨f.leaves sound (leaves_findScc got),?_⟩
        have noted := known.2.1 t known.2.2
        rw [decideScc_info,if_pos known.2.2] at noted
        exact isSome_of_eq_some noted
    refine ⟨whole.1,fun _ => .inl whole.2,fun c mem => ?_⟩
    obtain ⟨u,_,rfl⟩ := List.mem_map.mp mem
    exact whole.1.fits u
  · obtain ⟨_,selected,same⟩ := map_eq_some_iff.mp answer
    cases same
    exact ⟨f,ready,f.selected selected⟩

omit f in
theorem Leaves.answerable (leaves : Leaves s s') (f : Faithful granted s) (f' : Faithful granted s') (ready : Answerable s t) :
    Answerable s' t := by
  intro decided
  rcases leaves.status t with same | ⟨_,_,known⟩
  · rw [decided_iff (f'.fits t).small,same,← decided_iff (f.fits t).small] at decided
    rcases ready decided with known | alone
    · exact .inl (leaves.memo t known)
    · exact .inr ((leaves.parents t).trans alone)
  · exact .inl known

theorem Faithful.answered (ready : Answerable s v)
    (answers : Replica.answerInquirers s v waiting = some (s',sent)) :
    Faithful granted s' ∧ ∀ m ∈ sent, ∃ asker graph, m = .inquireAck v asker graph ∧ Carries granted graph := by
  induction waiting generalizing s s' sent with
  | nil =>
    cases answers
    exact ⟨f,fun m mem => absurd mem List.not_mem_nil⟩
  | cons first rest ih =>
    obtain ⟨_,asker⟩ := first
    unfold Replica.answerInquirers at answers
    split at answers
    · obtain ⟨⟨graph,_⟩,inquired,after⟩ := bind_eq_some_iff.mp answers
      obtain ⟨⟨_,_⟩,others,last⟩ := bind_eq_some_iff.mp after
      cases last
      obtain ⟨f1,ready1,carries⟩ := f.inquired ready inquired
      obtain ⟨f2,rest⟩ := ih f1 ready1 others
      refine ⟨f2,fun m mem => ?_⟩
      rcases List.mem_cons.mp mem with rfl | later
      · exact ⟨asker,graph,rfl,carries⟩
      · exact rest m later
    · exact ih f ready answers

omit f in
theorem sound_execute_alone (sound : Sound s) (known : t ∈ s.vertices) (alone : (s.info t).parents = [])
    (decided : dcd ≤ (s.info t).status) : Sound (s.set t { s.info t with executed := true }) := by
  have same : ∀ u, ((s.set t { s.info t with executed := true }).info u).parents = (s.info u).parents ∧
      ((s.set t { s.info t with executed := true }).info u).scc = (s.info u).scc ∧
      ((s.set t { s.info t with executed := true }).info u).status = (s.info u).status := by
    intro u
    by_cases own : u = t
    · subst own
      rw [set_own]
      exact ⟨rfl,rfl,rfl⟩
    · rw [set_other s _ own]
      exact ⟨rfl,rfl,rfl⟩
  have edges : (s.set t { s.info t with executed := true }).parents = s.parents := funext fun u => (same u).1
  refine ⟨?_,?_,?_,?_,?_,?_⟩
  · intro u new
    have apart : u ≠ t := fun own => new (own ▸ known)
    rw [set_other s _ apart]
    exact sound.plain u new
  · intro u l
    rw [(same u).2.1]
    exact sound.member u l
  · intro u l memo x inside
    rw [(same u).2.1] at memo
    rw [(same x).2.1]
    exact sound.shared u l memo x inside
  · intro u l
    rw [(same u).2.1,(same u).2.2]
    exact sound.decided u l
  · intro u l
    rw [(same u).2.1]
    unfold Inside
    rw [edges]
    exact sound.linked u l
  intro u ran w path
  unfold Sched.Edge at path
  rw [edges] at path
  rw [(same w).2.2]
  by_cases own : u = t
  · subst own
    rcases Relation.ReflTransGen.cases_head path with rfl | ⟨p,step,_⟩
    · exact decided
    · change p ∈ (s.info u).parents at step
      rw [alone] at step
      cases step
  · rw [set_other s _ own] at ran
    exact sound.preceded u ran w path

theorem Faithful.quickCommit (known : t ∈ s.vertices) (alone : (s.info t).parents = [])
    (right : granted t = some []) :
    Faithful granted (s.set t { s.info t with status := (s.info t).status ||| dcd,executed := true }) := by
  have fits : Fits granted t ((s.info t).status ||| dcd) (s.info t).parents :=
    ⟨or_small (f.fits t).small (by decide),fun _ => by rw [alone]; exact right⟩
  have raised : Faithful granted (s.set t { s.info t with status := (s.info t).status ||| dcd }) :=
    f.mild (Mild.set f.sound.plain known rfl rfl Nat.left_le_or) (fits_set f fits)
  have sound := sound_execute_alone raised.sound known (by rw [set_own]; exact alone) (by rw [set_own]; exact Nat.right_le_or)
  refine ⟨?_,fits_set f fits⟩
  have same : (s.set t { s.info t with status := (s.info t).status ||| dcd }).set t
      { (s.set t { s.info t with status := (s.info t).status ||| dcd }).info t with executed := true } =
      s.set t { s.info t with status := (s.info t).status ||| dcd,executed := true } := by
    rw [set_own]
    unfold Sched.set
    rw [Function.update_idem]
  rwa [same] at sound

end

end

end DbExp.Janus
