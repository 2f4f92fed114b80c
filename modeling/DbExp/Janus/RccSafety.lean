import DbExp.Janus.RccSched

namespace DbExp.Janus.Sched
open Function
open StrongConnect DepthFirst
open Status (cmt dcd pac)

def Edge (s : Sched) (u p : Txn) : Prop := p ∈ s.parents u

def CommittedEdge (s : Sched) (u p : Txn) : Prop := cmt ≤ (s.info u).status ∧ p ∈ s.parents u

def Inside (s : Sched) (scc : List Txn) (u p : Txn) : Prop := p ∈ s.parents u ∧ p ∈ scc

def Plain (s : Sched) : Prop := ∀ t, t ∉ s.vertices → s.info t = {}

-- The members of a component that was computed are decided and lead to each other inside
-- the component, and what precedes an executed transaction is decided.
structure Sound (s : Sched) : Prop where
  plain : Plain s
  member : ∀ u l, (s.info u).scc = some l → u ∈ l
  shared : ∀ u l, (s.info u).scc = some l → ∀ x ∈ l, (s.info x).scc = some l
  decided : ∀ u l, (s.info u).scc = some l → dcd ≤ (s.info u).status
  linked : ∀ u l, (s.info u).scc = some l → ∀ x ∈ l, Reach (s.Inside l) u x
  preceded : ∀ t, (s.info t).executed = true → ∀ u, Reach s.Edge t u → dcd ≤ (s.info u).status

structure Mild (s s' : Sched) : Prop where
  plain : Plain s'
  scc : ∀ t, (s'.info t).scc = (s.info t).scc
  executed : ∀ t, (s'.info t).executed = (s.info t).executed
  status : ∀ t, (s.info t).status ≤ (s'.info t).status

structure Keeps (s s' : Sched) : Prop extends Mild s s' where
  parents : ∀ t, cmt ≤ (s.info t).status → s'.parents t = s.parents t

theorem cmt_le_dcd {x : Nat} (decided : dcd ≤ x) : cmt ≤ x := by
  exact Nat.le_trans (by decide) decided

section
variable {s s' : Sched}

theorem Keeps.inside (keeps : Keeps s s') (decided : ∀ x ∈ l, dcd ≤ (s.info x).status) (first : u ∈ l)
    (path : Reach (s.Inside l) u x) : Reach (s'.Inside l) u x := by
  induction path with
  | refl => exact .refl
  | tail before step ih =>
    refine ih.tail ⟨?_,step.2⟩
    rename_i y z
    have inside : y ∈ l := by
      cases before with
      | refl => exact first
      | tail _ last => exact last.2
    rw [keeps.parents y (cmt_le_dcd (decided y inside))]
    exact step.1

theorem Sound.decided_of_mem (sound : Sound s) (known : (s.info u).scc = some l) (inside : x ∈ l) :
    dcd ≤ (s.info x).status :=
  sound.decided x l (sound.shared u l known x inside)

theorem Keeps.back_edge (keeps : Keeps s s') (before : ∀ u, Reach s.Edge t u → dcd ≤ (s.info u).status)
    (path : Reach s'.Edge t u) : Reach s.Edge t u := by
  induction path with
  | refl => exact .refl
  | tail _ step ih =>
    refine ih.tail ?_
    rename_i y z _
    have same := keeps.parents y (cmt_le_dcd (before y ih))
    change z ∈ s.parents y
    rw [← same]
    exact step

theorem Sound.keeps (sound : Sound s) (keeps : Keeps s s') : Sound s' where
  plain := keeps.plain
  member u l known := by
    rw [keeps.scc] at known
    exact sound.member u l known
  shared u l known x inside := by
    rw [keeps.scc] at known ⊢
    exact sound.shared u l known x inside
  decided u l known := by
    rw [keeps.scc] at known
    exact (sound.decided u l known).trans (keeps.status u)
  linked u l known x inside := by
    rw [keeps.scc] at known
    exact keeps.inside (fun y inside => sound.decided_of_mem known inside) (sound.member u l known) (sound.linked u l known x inside)
  preceded t ran u path := by
    rw [keeps.executed] at ran
    exact (sound.preceded t ran u (keeps.back_edge (sound.preceded t ran) path)).trans (keeps.status u)

theorem Mild.refl (plain : Plain s) : Mild s s :=
  ⟨plain,fun _ => rfl,fun _ => rfl,fun _ => le_rfl⟩

theorem Mild.trans (first : Mild s s') (second : Mild s' s'') : Mild s s'' where
  plain := second.plain
  scc t := (second.scc t).trans (first.scc t)
  executed t := (second.executed t).trans (first.executed t)
  status t := (first.status t).trans (second.status t)

theorem Mild.waitlist (mild : Mild s s') (listed : Finset Txn) : Mild s { s' with waitlist := listed } :=
  ⟨mild.plain,mild.scc,mild.executed,mild.status⟩

theorem Keeps.trans (first : Keeps s s') (second : Keeps s' s'') : Keeps s s'' :=
  ⟨first.toMild.trans second.toMild,
    fun t committed => (second.parents t (committed.trans (first.status t))).trans (first.parents t committed)⟩

theorem set_own (s : Sched) (t : Txn) (v : Vertex) : (s.set t v).info t = v := update_self _ _ _

theorem set_other (s : Sched) (v : Vertex) (apart : u ≠ t) : (s.set t v).info u = s.info u := update_of_ne apart _ _

theorem set_forall {P : Txn → Vertex → Prop} (own : P t v) (others : ∀ u, u ≠ t → P u (s.info u)) (u : Txn) :
    P u ((s.set t v).info u) := (forall_update_iff s.info P).mpr ⟨own,others⟩ u

theorem merge_scc (v : Vertex) (c : Carried) : (merge v c).scc = v.scc := by
  unfold merge
  split <;> [skip; split <;> [split;split]] <;> rfl

theorem merge_executed (v : Vertex) (c : Carried) : (merge v c).executed = v.executed := by
  unfold merge
  split <;> [skip; split <;> [split;split]] <;> rfl

theorem merge_status (v : Vertex) (c : Carried) : (merge v c).status = v.status ||| c.status := by
  unfold merge
  split <;> [skip; split <;> [split;split]] <;> rfl

theorem mem_findOrCreateV (s : Sched) (c : Carried) : c.txn ∈ (s.findOrCreateV c).vertices := by
  unfold findOrCreateV
  split
  next known =>
    exact known
  · exact Finset.mem_insert_self _ _

theorem updateStatus_status (v : Vertex) (status : Status) : v.status ≤ (v.updateStatus status).status := by
  unfold Vertex.updateStatus
  split
  next less =>
    exact Nat.le_of_lt less
  · exact le_rfl

theorem updateStatus_scc (v : Vertex) (status : Status) : (v.updateStatus status).scc = v.scc := by
  unfold Vertex.updateStatus
  split <;> rfl

theorem updateStatus_executed (v : Vertex) (status : Status) : (v.updateStatus status).executed = v.executed := by
  unfold Vertex.updateStatus
  split <;> rfl

section
variable (plain : Plain s)
include plain

theorem Mild.set (known : t ∈ s.vertices) (scc : v.scc = (s.info t).scc)
    (executed : v.executed = (s.info t).executed) (status : (s.info t).status ≤ v.status) : Mild s (s.set t v) := by
  refine ⟨?_,?_,?_,?_⟩
  · intro u out
    have apart : u ≠ t := fun same => out (same ▸ known)
    rw [set_other s v apart]
    exact plain u out
  · exact set_forall (P := fun u w => w.scc = (s.info u).scc) scc fun _ _ => rfl
  · exact set_forall (P := fun u w => w.executed = (s.info u).executed) executed fun _ _ => rfl
  · exact set_forall (P := fun u w => (s.info u).status ≤ w.status) status fun _ _ => le_rfl

theorem Keeps.set (known : t ∈ s.vertices) (scc : v.scc = (s.info t).scc)
    (executed : v.executed = (s.info t).executed) (status : (s.info t).status ≤ v.status)
    (parents : v.parents = (s.info t).parents) : Keeps s (s.set t v) := by
  refine ⟨Mild.set plain known scc executed status,?_⟩
  intro u _
  unfold Sched.parents
  by_cases same : u = t
  · subst same
    rw [set_own,parents]
  · rw [set_other s v same]

theorem Mild.create (new : t ∉ s.vertices) (scc : v.scc = none) (executed : v.executed = false) :
    Mild s { s.set t v with vertices := insert t s.vertices } := by
  have was := plain t new
  refine ⟨?_,?_,?_,?_⟩
  · intro u out
    simp only [Finset.mem_insert,not_or] at out
    rw [set_other s v out.1]
    exact plain u out.2
  · exact set_forall (P := fun u w => w.scc = (s.info u).scc) (by rw [was,scc]) fun _ _ => rfl
  · exact set_forall (P := fun u w => w.executed = (s.info u).executed) (by rw [was,executed]) fun _ _ => rfl
  · exact set_forall (P := fun u w => (s.info u).status ≤ w.status) (by rw [was]; exact Nat.zero_le _) fun _ _ => le_rfl

theorem findOrCreateV_mild (c : Carried) : Mild s (s.findOrCreateV c) := by
  unfold findOrCreateV
  split
  · exact Mild.refl plain
  next new =>
    exact Mild.create plain new rfl rfl

theorem aggregate_parts (graph : List Carried) :
    Mild s (s.aggregate graph) ∧ ∀ c ∈ graph, c.status ≤ ((s.aggregate graph).info c.txn).status := by
  induction graph generalizing s with
  | nil => exact ⟨Mild.refl plain,nofun⟩
  | cons c rest ih =>
    have created := findOrCreateV_mild plain c
    have merged : Mild (s.findOrCreateV c) (s.aggregateVertex c) := by
      apply Mild.set created.plain (s.mem_findOrCreateV c) (merge_scc _ c) (merge_executed _ c)
      rw [merge_status]
      exact Nat.left_le_or
    have first := created.trans merged
    obtain ⟨mild,marks⟩ := ih first.plain
    refine ⟨first.trans mild,List.forall_mem_cons.mpr ⟨le_trans ?_ (mild.status c.txn),marks⟩⟩
    rw [aggregateVertex,set_own,merge_status]
    exact Nat.right_le_or

theorem getOrCreateDTxn_mild (own t : Txn) :
    Mild s (s.getOrCreateDTxn own t) ∧ t ∈ (s.getOrCreateDTxn own t).vertices := by
  unfold getOrCreateDTxn
  by_cases known : t ∈ s.vertices
  · simp only [known,if_true]
    exact ⟨Mild.set plain known rfl rfl le_rfl,known⟩
  simp only [known,if_false]
  have created : Mild s _ := Mild.create plain known (rfl : ({} : Vertex).scc = none) rfl
  have entered := Finset.mem_insert_self t s.vertices
  exact ⟨created.trans (Mild.set created.plain entered rfl rfl le_rfl),entered⟩

theorem onDispatch_mild (own t : Txn) (traced : List Txn) : Mild s (s.onDispatch own t traced) := by
  obtain ⟨created,known⟩ := getOrCreateDTxn_mild plain own t
  refine created.trans (Mild.set created.plain known ?_ ?_ ?_)
  · exact updateStatus_scc _ _
  · exact updateStatus_executed _ _
  · refine Nat.le_trans ?_ (updateStatus_status _ _)
    exact le_rfl

theorem setInvolved_mild (own t : Txn) : Mild s (s.setInvolved own t) := by
  obtain ⟨created,known⟩ := getOrCreateDTxn_mild plain own t
  exact created.trans (Mild.set created.plain known rfl rfl le_rfl)

theorem onPreAccept_mild (taken : s.onPreAccept own t traced = some s') : Mild s s' := by
  obtain ⟨created,known⟩ := getOrCreateDTxn_mild plain own t
  have grow := updateStatus_status ((s.getOrCreateDTxn own t).info t) pac
  have scc := updateStatus_scc ((s.getOrCreateDTxn own t).info t) pac
  have executed := updateStatus_executed ((s.getOrCreateDTxn own t).info t) pac
  unfold onPreAccept at taken
  dsimp only at taken
  split at taken
  · cases taken
    exact created.trans (Mild.set created.plain known scc executed grow)
  split at taken
  · cases taken
  split at taken
  · cases taken
    exact created.trans (Mild.set created.plain known scc executed grow)
  · cases taken
    apply Mild.waitlist
    exact created.trans (Mild.set created.plain known scc executed grow)

theorem onAccept_parts {graph : List Carried} (taken : s.onAccept own t ballot graph = some s') :
    Mild s s' ∧ ∀ c ∈ graph, c.status ≤ (s'.info c.txn).status := by
  obtain ⟨created,known⟩ := getOrCreateDTxn_mild plain own t
  unfold onAccept at taken
  dsimp only at taken
  split at taken
  · cases taken
  cases taken
  have stored : Mild _ ((s.getOrCreateDTxn own t).set t { (s.getOrCreateDTxn own t).info t with maxSeenBallot := ballot }) :=
    Mild.set created.plain known rfl rfl le_rfl
  obtain ⟨mild,marks⟩ := aggregate_parts stored.plain graph
  exact ⟨created.trans (stored.trans mild),marks⟩

theorem Keeps.refl : Keeps s s := ⟨Mild.refl plain,fun _ _ => rfl⟩

theorem ancestors_parts (result : s.ancestors hint v = some (all,s')) :
    Keeps s s' ∧ (all = true → s' = s ∧ ∃ after, walk s.parents s.vertices hint v = .done after) := by
  unfold ancestors at result
  split at result
  · cases result
  next u left =>
    cases result
    obtain ⟨known,_⟩ := walk_exit left
    exact ⟨Keeps.set plain known rfl rfl le_rfl rfl,by simp⟩
  next after walked =>
    cases result
    exact ⟨Keeps.refl plain,fun _ => ⟨rfl,after,walked⟩⟩

theorem known_of_status (some : 0 < (s.info t).status) : t ∈ s.vertices := by
  by_contra out
  rw [plain t out] at some
  exact absurd some (by decide)

theorem known_of_dcd (decided : dcd ≤ (s.info t).status) : t ∈ s.vertices :=
  known_of_status plain (Nat.lt_of_lt_of_le (by decide) decided)

end

theorem decideScc_info (s : Sched) (scc : List Txn) (u : Txn) : (s.decideScc scc).info u =
    if u ∈ scc then { s.info u with status := (s.info u).status ||| dcd } else s.info u := rfl

theorem decideScc_keeps (plain : Plain s) (known : ∀ u ∈ scc, u ∈ s.vertices) : Keeps s (s.decideScc scc) := by
  refine ⟨⟨?_,?_,?_,?_⟩,?_⟩
  · intro u out
    rw [decideScc_info,if_neg (fun inside => out (known u inside))]
    exact plain u out
  · intro u
    rw [decideScc_info]
    split <;> rfl
  · intro u
    rw [decideScc_info]
    split <;> rfl
  · intro u
    rw [decideScc_info]
    split
    · exact Nat.left_le_or
    · exact le_rfl
  intro u _
  unfold Sched.parents
  rw [decideScc_info]
  split <;> rfl

theorem decideScc_status (s : Sched) (inside : u ∈ scc) : dcd ≤ ((s.decideScc scc).info u).status := by
  rw [decideScc_info,if_pos inside]
  exact Nat.right_le_or

theorem scc_region (known : v ∈ s.vertices) (walked : walk s.parents s.vertices s.hintScc v = .done after) :
    Region s.parents (fun u => (s.info u).scc.isSome) s.vertices.card v (s.vertices.filter fun u => u ∈ after) := by
  obtain ⟨first,covered⟩ := walk_done known walked
  refine ⟨Finset.mem_filter.mpr ⟨known,first⟩,?_,Finset.card_filter_le _ _⟩
  intro u inside w step
  obtain ⟨entered,skipped | ⟨_,seen⟩⟩ := covered u (Finset.mem_filter.mp inside).2 w step.1
  · simp [hintScc,step.2] at skipped
  · exact Finset.mem_filter.mpr ⟨entered,seen⟩

def remember (s : Sched) (scc : List Txn) : Sched :=
  { s with info := fun u => if u ∈ scc then { s.info u with scc := some scc } else s.info u }

theorem remember_decideScc (s : Sched) (scc : List Txn) (u : Txn) : ((s.remember scc).decideScc scc).info u =
    if u ∈ scc then { s.info u with scc := some scc,status := (s.info u).status ||| dcd } else s.info u := by
  rw [decideScc_info]
  by_cases inside : u ∈ scc <;> simp [remember,inside]

theorem Sound.computed (sound : Sound s) (fresh : ∀ u ∈ scc, (s.info u).scc = none) (entered : ∀ u ∈ scc, u ∈ s.vertices)
    (path : ∀ x ∈ scc, ∀ y ∈ scc, Reach (s.Inside scc) x y) : Sound ((s.remember scc).decideScc scc) := by
  have inside : ∀ u ∈ scc, (((s.remember scc).decideScc scc).info u).scc = some scc := by
    intro u inside
    rw [remember_decideScc,if_pos inside]
  have outside : ∀ u, u ∉ scc → ((s.remember scc).decideScc scc).info u = s.info u := by
    intro u outside
    rw [remember_decideScc,if_neg outside]
  have parents : ∀ u, ((s.remember scc).decideScc scc).parents u = s.parents u := by
    intro u
    unfold Sched.parents
    rw [remember_decideScc]
    split <;> rfl
  have executed : ∀ u, (((s.remember scc).decideScc scc).info u).executed = (s.info u).executed := by
    intro u
    rw [remember_decideScc]
    split <;> rfl
  have status : ∀ u, (s.info u).status ≤ (((s.remember scc).decideScc scc).info u).status := by
    intro u
    rw [remember_decideScc]
    split
    · exact Nat.left_le_or
    · exact le_rfl
  have edges : ((s.remember scc).decideScc scc).Edge = s.Edge := by
    funext u p
    unfold Edge
    rw [parents]
  have within : ∀ l, ((s.remember scc).decideScc scc).Inside l = s.Inside l := by
    intro l
    funext u p
    unfold Inside
    rw [parents]
  refine ⟨?_,?_,?_,?_,?_,?_⟩
  · intro u out
    rw [outside u (fun mem => out (entered u mem))]
    exact sound.plain u out
  all_goals intro u
  · intro l known
    by_cases mem : u ∈ scc
    · rw [inside u mem,Option.some.injEq] at known
      exact known ▸ mem
    · rw [outside u mem] at known
      exact sound.member u l known
  · intro l known x listed
    by_cases mem : u ∈ scc
    · rw [inside u mem,Option.some.injEq] at known
      subst known
      exact inside x listed
    rw [outside u mem] at known
    have before := sound.shared u l known x listed
    have apart : x ∉ scc := fun mem => by simp [fresh x mem] at before
    rw [outside x apart]
    exact before
  · intro l known
    by_cases mem : u ∈ scc
    · exact (s.remember scc).decideScc_status mem
    · rw [outside u mem] at known
      exact (sound.decided u l known).trans (status u)
  · intro l known x listed
    rw [within]
    by_cases mem : u ∈ scc
    · rw [inside u mem,Option.some.injEq] at known
      subst known
      exact path u mem x listed
    · rw [outside u mem] at known
      exact sound.linked u l known x listed
  intro ran w path
  rw [executed] at ran
  rw [edges] at path
  exact (sound.preceded u ran w path).trans (status w)

theorem findScc_known (memo : (s.info v).scc = some l) (result : s.findScc v = some (scc,s')) : scc = l ∧ s' = s := by
  have same : findSccPred s.parents s.vertices.card (fun u => (s.info u).scc) v = (l,fun u => (s.info u).scc) := by
    simp only [findSccPred,memo]
  simp only [findScc,memo,Option.isNone_some,Bool.false_eq_true,false_and,if_false,same,Option.some.injEq,Prod.mk.injEq] at result
  exact ⟨result.1.symm,result.2.symm⟩

theorem findScc_new (memo : (s.info v).scc = none) (result : s.findScc v = some (scc,s')) :
    (∃ after, walk s.parents s.vertices s.hintScc v = .done after) ∧
      scc = search s.parents (fun u => (s.info u).scc.isSome) s.vertices.card v ∧ s' = s.remember scc := by
  unfold findScc at result
  split at result
  · cases result
  rename_i allowed
  simp only [findSccPred,memo,Option.some.injEq,Prod.mk.injEq] at result
  obtain ⟨rfl,rfl⟩ := result
  refine ⟨?_,rfl,?_⟩
  · cases walked : walk s.parents s.vertices s.hintScc v with
    | missing => exact absurd ⟨by simp [memo],walked⟩ allowed
    | exit u =>
      have stop := (walk_exit walked).2
      unfold hintScc at stop
      split at stop <;> cases stop
    | done after => exact ⟨after,rfl⟩
  unfold remember
  congr 1
  funext u
  split <;> rfl

theorem Sound.found (sound : Sound s) (known : v ∈ s.vertices) (result : s.findScc v = some (scc,s')) :
    Sound (s'.decideScc scc) ∧ (∀ x ∈ scc, ((s'.decideScc scc).info x).scc = some scc) ∧ v ∈ scc := by
  cases memo : (s.info v).scc with
  | some l =>
    obtain ⟨rfl,rfl⟩ := findScc_known memo result
    have inside : ∀ u ∈ scc, u ∈ s'.vertices := fun u inside => known_of_dcd sound.plain (sound.decided_of_mem memo inside)
    have keeps := decideScc_keeps sound.plain inside
    refine ⟨sound.keeps keeps,?_,sound.member v scc memo⟩
    intro x inside
    exact (keeps.scc x).trans (sound.shared v scc memo x inside)
  | none =>
    obtain ⟨⟨_,walked⟩,shape,rfl⟩ := findScc_new memo result
    have region := scc_region known walked
    have mem : ∀ u, u ∈ scc ↔ _ := fun u => shape ▸ search_mem region
    have path : ∀ x ∈ scc, ∀ y ∈ scc, Reach (s.Inside scc) x y := by
      rw [shape]
      exact fun x first y last => search_path region first last
    have fresh : ∀ u ∈ scc, (s.info u).scc = none := by
      intro u inside
      cases ((mem u).mp inside).1 with
      | refl => exact memo
      | tail _ step => simpa using step.2
    have entered : ∀ u ∈ scc, u ∈ s.vertices := by
      intro u inside
      exact (Finset.mem_filter.mp (region.reach ((mem u).mp inside).1)).1
    refine ⟨sound.computed fresh entered path,?_,(mem v).mpr ⟨.refl,.refl⟩⟩
    intro x inside
    rw [remember_decideScc,if_pos inside]

theorem noteInvolve_eq (own : Nat) (v : Vertex) : ∃ flag, v.noteInvolve own = { v with involveFlag := flag } := by
  unfold Vertex.noteInvolve
  split
  · exact ⟨_,rfl⟩
  · exact ⟨v.involveFlag,rfl⟩

theorem Keeps.note (plain : Plain s) (known : t ∈ s.vertices) (own : Nat) : Keeps s (s.set t ((s.info t).noteInvolve own)) := by
  obtain ⟨_,same⟩ := noteInvolve_eq own (s.info t)
  rw [same]
  exact Keeps.set plain known rfl rfl le_rfl rfl

theorem fullyDispatched_keeps (own : Nat) (scc : List Txn) (plain : Plain s) (known : ∀ t ∈ scc, t ∈ s.vertices) :
    Keeps s (s.fullyDispatched own scc).2 := by
  induction scc generalizing s with
  | nil => exact Keeps.refl plain
  | cons t rest ih =>
    have noted := Keeps.note plain (known t List.mem_cons_self) own
    unfold fullyDispatched
    dsimp only
    split
    · exact noted
    · exact noted.trans (ih noted.plain fun u mem => known u (.tail _ mem))

theorem inside_edge (path : Reach (s.Inside l) x y) : Reach s.Edge x y :=
  Relation.ReflTransGen.mono (fun _ _ step => step.1) _ _ path

theorem Sound.walked (sound : Sound s) (memo : ∀ x ∈ scc, (s.info x).scc = some scc) (first : v ∈ scc)
    (walked : walk s.parents s.vertices (s.hintFns scc) v = .done after) (path : Reach s.Edge v u) :
    dcd ≤ (s.info u).status := by
  have settled : ∀ x ∈ scc, dcd ≤ (s.info x).status := fun x inside => sound.decided x scc (memo x inside)
  refine walk_reach (fun u => dcd ≤ (s.info u).status) (known_of_dcd sound.plain (settled v first)) (settled v first) walked
    ?_ ?_ path
  · intro p skip
    unfold hintFns at skip
    exact sound.preceded p (by grind)
  · intro p ok
    unfold hintFns at ok
    have := settled p
    grind

structure Ready (s : Sched) (scc : List Txn) : Prop where
  sound : Sound s
  memo : ∀ x ∈ scc, (s.info x).scc = some scc
  ancestors : ∀ t ∈ scc, ∀ u, Reach s.Edge t u → dcd ≤ (s.info u).status

theorem allAncFns_parts (sound : Sound s) (memo : ∀ x ∈ scc, (s.info x).scc = some scc)
    (result : s.allAncFns scc = some (finished,s')) : Keeps s s' ∧ (finished = true → s' = s ∧ Ready s scc) := by
  cases scc with
  | nil => cases result
  | cons first rest =>
    obtain ⟨keeps,passed⟩ := ancestors_parts sound.plain result
    refine ⟨keeps,?_⟩
    intro all
    obtain ⟨same,_,walked⟩ := passed all
    refine ⟨same,sound,memo,?_⟩
    intro t inside u path
    have lead := sound.linked first _ (memo first List.mem_cons_self) t inside
    exact sound.walked memo List.mem_cons_self walked ((inside_edge lead).trans path)

theorem Ready.keeps (ready : Ready s scc) (keeps : Keeps s s') : Ready s' scc := by
  refine ⟨ready.sound.keeps keeps,fun x inside => (keeps.scc x).trans (ready.memo x inside),?_⟩
  intro t inside u path
  exact (ready.ancestors t inside u (keeps.back_edge (ready.ancestors t inside) path)).trans (keeps.status u)

theorem judge_parts (sound : Sound s) (result : s.judge own v = some verdict) :
    match verdict with
    | .idle s' => Sound s'
    | .run s' scc => Ready s' scc := by
  unfold judge at result
  split at result
  next waits =>
    have known : v ∈ s.vertices := known_of_status sound.plain (Nat.lt_of_lt_of_le (by decide) waits.1)
    obtain ⟨⟨committed,_⟩,traversed,afterCmt⟩ := Option.bind_eq_some_iff.mp result
    obtain ⟨keeps,passed⟩ := ancestors_parts sound.plain traversed
    cases committed with
    | false =>
      cases afterCmt
      exact sound.keeps keeps
    | true =>
      obtain ⟨rfl,_⟩ := passed rfl
      obtain ⟨⟨scc,s2⟩,got,afterScc⟩ := Option.bind_eq_some_iff.mp afterCmt
      obtain ⟨⟨finished,_⟩,fns,afterFns⟩ := Option.bind_eq_some_iff.mp afterScc
      obtain ⟨decided,memo,_⟩ := sound.found known got
      obtain ⟨keeps,passed⟩ := allAncFns_parts decided memo fns
      cases finished with
      | false =>
        cases afterFns
        exact decided.keeps keeps
      | true =>
        obtain ⟨rfl,ready⟩ := passed rfl
        have members : ∀ t ∈ scc, t ∈ (s2.decideScc scc).vertices :=
          fun t inside => known_of_dcd decided.plain (ready.ancestors t inside t .refl)
        have noted := fullyDispatched_keeps own scc decided.plain members
        simp only [if_true] at afterFns
        cases dispatched : (s2.decideScc scc).fullyDispatched own scc with
        | mk all s4 =>
          rw [dispatched] at noted afterFns
          cases all with
          | false =>
            cases afterFns
            exact decided.keeps noted
          | true =>
            cases afterFns
            exact ready.keeps noted
  · cases result
    exact sound

theorem execute_info (s : Sched) (scc : List Txn) (u : Txn) :
    (s.execute scc).info u = if u ∈ scc then { s.info u with executed := true } else s.info u := rfl

theorem Ready.execute (ready : Ready s scc) : Sound (s.execute scc) := by
  have scc' : ∀ u, ((s.execute scc).info u).scc = (s.info u).scc := by
    intro u
    rw [execute_info]
    split <;> rfl
  have status : ∀ u, ((s.execute scc).info u).status = (s.info u).status := by
    intro u
    rw [execute_info]
    split <;> rfl
  have parents : ∀ u, (s.execute scc).parents u = s.parents u := by
    intro u
    unfold Sched.parents
    rw [execute_info]
    split <;> rfl
  have edges : (s.execute scc).Edge = s.Edge := by
    funext u p
    unfold Edge
    rw [parents]
  have within : ∀ l, (s.execute scc).Inside l = s.Inside l := by
    intro l
    funext u p
    unfold Inside
    rw [parents]
  have sound := ready.sound
  refine ⟨?_,?_,?_,?_,?_,?_⟩
  · intro u out
    have apart : u ∉ scc := by
      intro inside
      apply out
      change u ∈ s.vertices
      exact known_of_dcd sound.plain (ready.ancestors u inside u .refl)
    rw [execute_info,if_neg apart]
    exact sound.plain u out
  all_goals intro u
  · intro l known
    exact sound.member u l ((scc' u).symm.trans known)
  · intro l known x inside
    exact (scc' x).trans (sound.shared u l ((scc' u).symm.trans known) x inside)
  · intro l known
    rw [status]
    exact sound.decided u l ((scc' u).symm.trans known)
  · intro l known x inside
    rw [within]
    exact sound.linked u l ((scc' u).symm.trans known) x inside
  intro ran w path
  rw [edges] at path
  rw [status]
  by_cases inside : u ∈ scc
  · exact ready.ancestors u inside w path
  · rw [execute_info,if_neg inside] at ran
    exact sound.preceded u ran w path

theorem Keeps.waitlist (keeps : Keeps s s') (listed : Finset Txn) : Keeps s { s' with waitlist := listed } :=
  ⟨keeps.toMild.waitlist listed,keeps.parents⟩

theorem adjust_known (plain : Plain s) (known : v ∈ s.vertices) (own : Nat) : Keeps s (s.adjust own v) := by
  obtain ⟨flag,same⟩ : ∃ flag, (if !(s.info v).executed && !(s.info v).isAborted && (s.info v).isDecided then
      (s.info v).noteInvolve own else s.info v) = { s.info v with involveFlag := flag } := by
    split
    · exact noteInvolve_eq own (s.info v)
    · exact ⟨(s.info v).involveFlag,rfl⟩
  unfold adjust
  simp only [same]
  split
  · apply Keeps.waitlist
    exact Keeps.set plain known rfl rfl le_rfl rfl
  · apply Keeps.waitlist
    exact Keeps.set plain known rfl rfl le_rfl rfl

theorem Keeps.same (plain : Plain s) (info : s'.info = s.info) (known : s'.vertices = s.vertices) : Keeps s s' := by
  refine ⟨⟨?_,fun t => by rw [info],fun t => by rw [info],fun t => by rw [info]⟩,?_⟩
  · intro t out
    rw [info]
    exact plain t (known ▸ out)
  · intro t _
    unfold Sched.parents
    rw [info]

theorem adjust_keeps (plain : Plain s) (v : Txn) (own : Nat) : Keeps s (s.adjust own v) := by
  by_cases known : v ∈ s.vertices
  · exact adjust_known plain known own
  have none := plain v known
  have fresh : s.adjust own v = { s.set v {} with waitlist := s.waitlist.erase v } := by
    simp [adjust,none,Vertex.isAborted,Vertex.isDecided]
  rw [fresh]
  refine Keeps.same plain ?_ rfl
  change update s.info v {} = s.info
  rw [← none,update_eq_self]

theorem visit_sound (sound : Sound s) (taken : s.visit own v = some s') : Sound s' := by
  unfold visit at taken
  split at taken
  · obtain ⟨verdict,judged,rfl⟩ := Option.map_eq_some_iff.mp taken
    have parts := judge_parts sound judged
    cases verdict with
    | idle r => exact parts.keeps (adjust_keeps parts.plain v own)
    | run r scc => exact parts.execute.keeps (adjust_keeps parts.execute.plain v own)
  · cases taken

def Fixed (own : Nat) (s : Sched) (a : Action) : Prop :=
  ∀ s', s.step own a = some s' → ∀ t ∈ s.vertices, cmt ≤ (s.info t).status → s'.parents t = s.parents t

instance (own : Nat) (s : Sched) (a : Action) : Decidable (Fixed own s a) :=
  match taken : s.step own a with
  | none => isTrue fun _ h => by rw [taken] at h; cases h
  | some s' =>
    decidable_of_iff (∀ t ∈ s.vertices, cmt ≤ (s.info t).status → s'.parents t = s.parents t)
      ⟨fun all _ h => by rw [taken] at h; cases h; exact all,fun all => all s' taken⟩

theorem Sound.step (sound : Sound s) (fixed : Fixed own s a) (taken : s.step own a = some s') : Sound s' := by
  have kept : Mild s s' → Sound s' := by
    intro mild
    refine sound.keeps ⟨mild,?_⟩
    intro t committed
    exact fixed s' taken t (known_of_status sound.plain (Nat.lt_of_lt_of_le (by decide) committed)) committed
  cases a with
  | dispatch t traced =>
    cases taken
    exact kept (onDispatch_mild sound.plain own t traced)
  | setInvolved t =>
    cases taken
    exact kept (setInvolved_mild sound.plain own t)
  | preAccept t traced => exact kept (onPreAccept_mild sound.plain taken)
  | accept t ballot graph => exact kept (onAccept_parts sound.plain taken).1
  | aggregate graph =>
    cases taken
    exact kept ((aggregate_parts sound.plain graph).1.waitlist _)
  | visit v => exact visit_sound sound taken

theorem sound_of_reached (reached : (sched own).Reached (Fixed own) s) : Sound s := by
  refine reached.invariant Sound ?_ ?_
  · exact ⟨fun _ _ => rfl,by simp [sched],by simp [sched],by simp [sched],by simp [sched],by simp [sched]⟩
  · intro s a s' _ sound fixed taken
    exact sound.step fixed taken

def executing (own : Nat) (s : Sched) (v : Txn) : Option (Sched × List Txn) :=
  if v ∈ s.waitlist then
    match s.judge own v with
    | some (.run r scc) => some (r,scc)
    | _ => none
  else none

-- No transaction outside the component that involves this server and is not aborted is
-- decided and still to be executed.
def Clear (own : Nat) (r : Sched) (scc : List Txn) : Prop :=
  ∀ u ∈ r.vertices, u ∉ scc → dcd ≤ (r.info u).status → (r.info u).involve own = true →
    (r.info u).isAborted = false → (r.info u).executed = true

theorem executing_ready (sound : Sound s) (runs : s.executing own v = some (r,scc)) : Ready r scc := by
  unfold executing at runs
  split at runs
  · split at runs
    next judged =>
      cases runs
      exact judge_parts sound judged
    · cases runs
  · cases runs

theorem Ready.committed (ready : Ready r scc) (first : u ∈ scc) (last : t ∈ scc) : Reach r.CommittedEdge u t := by
  have path := ready.sound.linked u scc (ready.memo u first) t last
  induction path with
  | refl => exact .refl
  | tail before step ih =>
    rename_i y z
    have inside : y ∈ scc := by
      cases before with
      | refl => exact first
      | tail _ last => exact last.2
    exact (ih inside).tail ⟨cmt_le_dcd (ready.ancestors y inside y .refl),step.1⟩

-- When a component is executed while no other transaction is decided and still to be
-- executed, what precedes its members outside the component has been executed.
theorem ancestors_executed_of_clear (own : Nat) (s r : Sched) (v t u : Txn) (scc : List Txn)
    (reached : (sched own).Reached (Fixed own) s) (runs : s.executing own v = some (r,scc)) (clear : Clear own r scc)
    (inside : t ∈ scc) (path : Reach r.CommittedEdge t u) (outside : ¬ Reach r.CommittedEdge u t)
    (involves : (r.info u).involve own = true) (alive : (r.info u).isAborted = false) : (r.info u).executed = true := by
  have ready := executing_ready (sound_of_reached reached) runs
  have decided : dcd ≤ (r.info u).status :=
    ready.ancestors t inside u (Relation.ReflTransGen.mono (fun _ _ step => step.2) _ _ path)
  have apart : u ∉ scc := fun member => outside (ready.committed member inside)
  exact clear u (known_of_dcd ready.sound.plain decided) apart decided involves alive

theorem not_reach_of_root {r : Sched} (root : r.parents u = []) (apart : u ≠ t) : ¬ Reach r.CommittedEdge u t := by
  intro path
  rcases Relation.ReflTransGen.cases_head path with same | ⟨_,step,_⟩
  · exact apart same
  · have parent := step.2
    rw [root] at parent
    cases parent

end

instance (own : Nat) (r : Sched) (scc : List Txn) : Decidable (Clear own r scc) :=
  inferInstanceAs (Decidable (∀ u ∈ r.vertices, _))

def secondRuns (s : Sched) (p : Sched → Bool) : Bool :=
  match s.executing 1 2 with
  | some (r,scc) => decide (scc = [2] ∧ 1 ∈ r.parents 2 ∧ cmt ≤ (r.info 2).status ∧ r.parents 1 = [] ∧
      (r.info 1).involve 1 = true ∧ (r.info 1).isAborted = false) && p r
  | none => false

theorem secondRuns_parts {s : Sched} (seen : secondRuns s p = true) : ∃ r, s.executing 1 2 = some (r,[2]) ∧
    Reach r.CommittedEdge 2 1 ∧ ¬ Reach r.CommittedEdge 1 2 ∧ (r.info 1).involve 1 = true ∧ (r.info 1).isAborted = false ∧ p r = true := by
  unfold secondRuns at seen
  split at seen
  next r scc runs =>
    rw [Bool.and_eq_true] at seen
    obtain ⟨rfl,parent,committed,root,involves,alive⟩ := of_decide_eq_true seen.1
    exact ⟨r,runs,.single ⟨committed,parent⟩,not_reach_of_root root (by decide),involves,alive,seen.2⟩
  · cases seen

theorem ancestors_executed_of_clear_pair : ∃ s r : Sched, s.executing 1 2 = some (r,[2]) ∧ (r.info 1).executed = true := by
  obtain ⟨s,reached,seen⟩ := Machine.reached_of_run (sched 1) (Fixed 1) (fun s => secondRuns s fun r => Clear 1 r [2])
    [.preAccept 1 [],.aggregate [⟨1,cmt,[],{1},0⟩],.visit 1,.preAccept 2 [1],.aggregate [⟨2,cmt,[1],{1},0⟩]]
    (by decide +kernel)
  obtain ⟨r,runs,path,outside,involves,alive,clear⟩ := secondRuns_parts seen
  exact ⟨s,r,runs,ancestors_executed_of_clear 1 s r 2 2 1 [2] reached runs (of_decide_eq_true clear) List.mem_cons_self path outside
    involves alive⟩

-- The pieces of transaction 1 have not arrived when it is committed: it is decided, not
-- executed, and transaction 2 passes it.
theorem decided_ancestor_passed : ¬ ∀ (own : Nat) (s r : Sched) (v t u : Txn) (scc : List Txn),
    (sched own).Reached (Fixed own) s → s.executing own v = some (r,scc) → t ∈ scc → Reach r.CommittedEdge t u →
      ¬ Reach r.CommittedEdge u t → (r.info u).involve own = true → (r.info u).isAborted = false → (r.info u).executed = true := by
  intro claim
  obtain ⟨s,reached,seen⟩ := Machine.reached_of_run (sched 1) (Fixed 1) (fun s => secondRuns s fun r => !(r.info 1).executed)
    [.aggregate [⟨1,cmt,[],{1},0⟩],.visit 1,.preAccept 2 [],.aggregate [⟨2,cmt,[1],{1},0⟩,⟨1,0,[],{1},0⟩],.visit 1]
    (by decide +kernel)
  obtain ⟨r,runs,path,outside,involves,alive,waiting⟩ := secondRuns_parts seen
  have ran := claim 1 s r 2 2 1 [2] reached runs List.mem_cons_self path outside involves alive
  simp [ran] at waiting

end DbExp.Janus.Sched
