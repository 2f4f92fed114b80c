import DbExp.Foundation.StrongConnect

namespace DbExp.Janus
open StrongConnect
open List

abbrev Txn := Nat

-- The components a server has computed, by member. A component keeps the order in which
-- the search took it off its stack.
abbrev Sccs := Txn → Option (List Txn)

def findSccPred (parents : Txn → List Txn) (fuel : Nat) (scc : Sccs) (v : Txn) : List Txn × Sccs :=
  match scc v with
  | some known => (known,scc)
  | none =>
    let found := search parents (fun u => (scc u).isSome) fuel v
    (found,fun u => if u ∈ found then some found else scc u)

-- A committed dependency graph. The parents of a transaction are an ordered set, so every
-- server goes through them in the same order.
structure Dependencies where
  parents : Txn → List Txn
  ordered : ∀ t, (parents t).Pairwise (· < ·)

structure Server (d : Dependencies) where
  vertices : Finset Txn
  closed : ∀ u ∈ vertices, ∀ w ∈ d.parents u, w ∈ vertices
  involves : Txn → Bool
  asked : List Txn
  known : ∀ u ∈ asked, u ∈ vertices

namespace Server
variable {d : Dependencies}

section
variable (s : Server d)

def sccAfter (asked : List Txn) : Sccs :=
  asked.foldl (fun scc v => (findSccPred d.parents s.vertices.card scc v).2) fun _ => none

-- Executing the component of a transaction runs its members in the order of the
-- component, those of other partitions without effect.
def execute (trigger : Txn) : List Txn :=
  (findSccPred d.parents s.vertices.card (s.sccAfter s.asked) trigger).1.filter s.involves

def component (t : Txn) : List Txn := search d.parents (fun _ => false) s.vertices.card t

def firstAsked (asked : List Txn) (t : Txn) : Option Txn := asked.find? fun u => decide (u ∈ s.component t)

def start (trigger : Txn) : Txn :=
  (s.firstAsked (s.asked ++ [trigger]) trigger).getD trigger

end

section
variable (s : Server d)
include s

theorem region (skip : Txn → Bool) (known : t ∈ s.vertices) :
    Region d.parents skip s.vertices.card t s.vertices :=
  ⟨known,fun u inside w step => s.closed u inside w step.1,le_rfl⟩

section
variable (known : t ∈ s.vertices)
include known

theorem mem_component : u ∈ s.component t ↔ Linked d.parents t u := by
  rw [linked_iff (fun _ _ => rfl)]
  exact search_mem (s.region _ known)

theorem component_refl : t ∈ s.component t :=
  (s.mem_component known).mpr ⟨.refl,.refl⟩

theorem vertices_reach (path : Reach (fun x y => y ∈ d.parents x) t u) :
    u ∈ s.vertices := by
  induction path with
  | refl => exact known
  | tail _ step ih => exact s.closed _ ih _ step

theorem mem_component_congr (linked : Linked d.parents t v) (u : Txn) :
    u ∈ s.component v ↔ u ∈ s.component t := by
  rw [s.mem_component known,s.mem_component (s.vertices_reach known linked.1)]
  refine ⟨?_,?_⟩
  · intro other
    exact ⟨linked.1.trans other.1,other.2.trans linked.2⟩
  · intro other
    exact ⟨linked.2.trans other.1,other.2.trans linked.1⟩

end

theorem firstAsked_congr (asked : List Txn) (known : t ∈ s.vertices) (linked : Linked d.parents t v) :
    s.firstAsked asked v = s.firstAsked asked t := by
  unfold firstAsked
  congr 1
  funext u
  simp only [s.mem_component_congr known linked u]

theorem firstAsked_append (asked : List Txn) (v t : Txn) :
    s.firstAsked (asked ++ [v]) t = (s.firstAsked asked t).or (if v ∈ s.component t then some v else none) := by
  by_cases mem : v ∈ s.component t
  · simp [firstAsked,List.find?_append,mem]
  · simp [firstAsked,List.find?_append,mem]

theorem findSccPred_new (known : v ∈ s.vertices)
    (whole : ∀ u, Linked d.parents v u → scc u = none) (new : scc v = none) :
    findSccPred d.parents s.vertices.card scc v =
      (s.component v,fun u => if u ∈ s.component v then some (s.component v) else scc u) := by
  have got : search d.parents (fun u => (scc u).isSome) s.vertices.card v = s.component v := by
    apply search_unique (s.region _ known) (s.region _ known)
    · intro u linked
      simp [whole u linked]
    · intro u _
      rfl
  simp only [findSccPred,new,got]

theorem sccAfter_eq (asked : List Txn) (listed : ∀ u ∈ asked, u ∈ s.vertices) (known : t ∈ s.vertices) :
    s.sccAfter asked t = (s.firstAsked asked t).map s.component := by
  induction asked using List.reverseRecOn generalizing t with
  | nil => rfl
  | append_singleton asked v ih =>
    have earlier : ∀ u ∈ asked, u ∈ s.vertices := fun u mem => listed u (mem_append_left _ mem)
    have last : v ∈ s.vertices := listed v (mem_append_right _ mem_cons_self)
    have unfolded : s.sccAfter (asked ++ [v]) t = (findSccPred d.parents s.vertices.card (s.sccAfter asked) v).2 t := by
      simp [sccAfter]
    rw [unfolded,s.firstAsked_append]
    by_cases member : v ∈ s.component t
    · have linked := (s.mem_component known).mp member
      have back : t ∈ s.component v := (s.mem_component last).mpr linked.symm
      rw [if_pos member]
      have same := s.firstAsked_congr asked known linked
      cases first : s.firstAsked asked t with
      | some x =>
        have got : s.sccAfter asked v = some (s.component x) := by rw [ih earlier last,same,first]; rfl
        simp only [findSccPred,got,ih earlier known,first]
        rfl
      | none =>
        have new : s.sccAfter asked v = none := by rw [ih earlier last,same,first]; rfl
        have whole : ∀ u, Linked d.parents v u → s.sccAfter asked u = none := by
          intro u other
          rw [ih earlier (s.vertices_reach last other.1),s.firstAsked_congr asked last other,same,first]
          rfl
        rw [s.findSccPred_new last whole new]
        simp [back]
    have apart : t ∉ s.component v := by
      intro back
      exact member ((s.mem_component known).mpr ((s.mem_component last).mp back).symm)
    rw [if_neg member,Option.or_none,← ih earlier known]
    cases new : s.sccAfter asked v with
    | some got => simp only [findSccPred,new]
    | none =>
      have unasked : s.firstAsked asked v = none := by
        rw [ih earlier last] at new
        simpa using new
      have whole : ∀ u, Linked d.parents v u → s.sccAfter asked u = none := by
        intro u other
        rw [ih earlier (s.vertices_reach last other.1),s.firstAsked_congr asked last other,unasked]
        rfl
      rw [s.findSccPred_new last whole new]
      simp [apart]

section
variable (known : t ∈ s.vertices)
include known

theorem start_eq : s.start t = (s.firstAsked s.asked t).getD t := by
  unfold start
  rw [s.firstAsked_append,if_pos (s.component_refl known)]
  cases s.firstAsked s.asked t <;> rfl

theorem linked_start : Linked d.parents t (s.start t) := by
  rw [s.start_eq known]
  cases first : s.firstAsked s.asked t with
  | none => exact ⟨.refl,.refl⟩
  | some x =>
    have mem := List.find?_some first
    exact (s.mem_component known).mp (by simpa using mem)

theorem execute_eq : s.execute t = (s.component (s.start t)).filter s.involves := by
  unfold execute
  rw [s.start_eq known]
  have memo := s.sccAfter_eq s.asked s.known known
  cases first : s.firstAsked s.asked t with
  | some x =>
    rw [first] at memo
    simp only [findSccPred,memo]
    rfl
  | none =>
    rw [first] at memo
    have whole : ∀ u, Linked d.parents t u → s.sccAfter s.asked u = none := by
      intro u linked
      rw [s.sccAfter_eq s.asked s.known (s.vertices_reach known linked.1),s.firstAsked_congr s.asked known linked,first]
      rfl
    rw [s.findSccPred_new known whole memo]
    rfl

theorem component_last : ∃ before, s.component t = before ++ [t] :=
  search_last (s.region _ known)

end

end

theorem component_agree (s s' : Server d) (known : t ∈ s.vertices) (known' : t ∈ s'.vertices) :
    s.component t = s'.component t :=
  search_unique (s.region _ known) (s'.region _ known') (fun _ _ => rfl) fun _ _ => rfl

theorem filter_last {p : Txn → Bool} (ends : l = before ++ [a]) (kept : p a = true) : (l.filter p).getLast? = some a := by
  simp [ends,kept]

-- Two servers that execute a component run the transactions that involve both in the
-- same order if they computed it from the same member first, and, when these members
-- involve both servers, only then: the member a search starts from is run last. The
-- triggers t and t' are any two members; a common first member links them.
theorem same_order_iff_same_start (s s' : Server d) (t t' : Txn) (known : t ∈ s.vertices) (known' : t' ∈ s'.vertices) :
    (s.start t = s'.start t' → (s.execute t).filter s'.involves = (s'.execute t').filter s.involves) ∧
    (s.involves (s.start t) = true → s'.involves (s.start t) = true → s.involves (s'.start t') = true →
      s'.involves (s'.start t') = true →
      ((s.execute t).filter s'.involves = (s'.execute t').filter s.involves ↔ s.start t = s'.start t')) := by
  have held := s.vertices_reach known (s.linked_start known).1
  have held' := s'.vertices_reach known' (s'.linked_start known').1
  have agree : s.start t = s'.start t' → (s.execute t).filter s'.involves = (s'.execute t').filter s.involves := by
    intro same
    rw [s.execute_eq known,s'.execute_eq known',← same,s.component_agree s' held (same ▸ held'),filter_filter,filter_filter]
    congr 1
    funext u
    exact Bool.and_comm _ _
  refine ⟨agree,?_⟩
  intro mine others mine' others'
  refine ⟨?_,agree⟩
  intro equal
  obtain ⟨_,ends⟩ := s.component_last held
  obtain ⟨_,ends'⟩ := s'.component_last held'
  have last : ((s.execute t).filter s'.involves).getLast? = some (s.start t) := by
    rw [s.execute_eq known,filter_filter]
    exact filter_last ends (by simp [mine,others])
  have last' : ((s'.execute t').filter s.involves).getLast? = some (s'.start t') := by
    rw [s'.execute_eq known',filter_filter]
    exact filter_last ends' (by simp [mine',others'])
  rw [equal,last'] at last
  exact (Option.some.inj last).symm

end Server

def twoCycle : Dependencies where
  parents t := if t = 1 then [2] else if t = 2 then [1] else []
  ordered t := by
    split
    · simp
    · split <;> simp

def twoCycleServer (asked : List Txn) (known : ∀ u ∈ asked, u ∈ ({1,2} : Finset Txn)) : Server twoCycle where
  vertices := {1,2}
  closed := by decide
  involves _ := true
  asked := asked
  known := known

theorem twoCycle_linked : Linked twoCycle.parents 1 2 := ⟨.single (by decide),.single (by decide)⟩

theorem Server.same_order_iff_same_start_asked :
    (((twoCycleServer [2] (by decide)).execute 1).filter fun _ => true) =
      ((twoCycleServer [] (by decide)).execute 2).filter fun _ => true :=
  (Server.same_order_iff_same_start (twoCycleServer [2] (by decide)) (twoCycleServer [] (by decide)) 1 2 (by decide)
    (by decide)).1 (by decide)

-- The order depends on the member that triggers the execution.
theorem Server.trigger_orders_differ :
    ¬ ∀ (d : Dependencies) (s s' : Server d) (t t' : Txn), t ∈ s.vertices → t' ∈ s'.vertices → Linked d.parents t t' →
      (s.execute t).filter s'.involves = (s'.execute t').filter s.involves := by
  intro same
  have := same twoCycle (twoCycleServer [] (by decide)) (twoCycleServer [] (by decide)) 1 2 (by decide) (by decide) twoCycle_linked
  exact absurd this (by decide)

-- A graph at one moment, complete in the sense that every parent has a vertex.
structure Moment where
  parents : Txn → List Txn
  vertices : Finset Txn
  closed : ∀ u ∈ vertices, ∀ w ∈ parents u, w ∈ vertices

def Frozen (parents parents' : Txn → List Txn) (v : Txn) : Prop :=
  ∀ u, Reach (fun x y => y ∈ parents x) v u → parents' u = parents u

-- Searches in a graph that changes in between, but not at the ancestors of a vertex that
-- was asked for.
inductive Searched : Moment → List Txn → Sccs → Prop where
  | start (g : Moment) : Searched g [] fun _ => none
  | change (g' : Moment) (past : Searched g asked scc) (frozen : ∀ v ∈ asked, Frozen g.parents g'.parents v) :
      Searched g' asked scc
  | find (past : Searched g asked scc) (known : v ∈ g.vertices) :
      Searched g (v :: asked) (findSccPred g.parents g.vertices.card scc v).2

section
variable (frozen : Frozen parents parents' v)
include frozen

theorem Frozen.reach :
    Reach (fun x y => y ∈ parents x) v u ↔ Reach (fun x y => y ∈ parents' x) v u := by
  refine ⟨?_,?_⟩
  · intro path
    induction path with
    | refl => exact .refl
    | tail before step ih => exact ih.tail (by rw [frozen _ before]; exact step)
  intro path
  induction path with
  | refl => exact .refl
  | tail _ step ih => exact ih.tail (by rw [← frozen _ ih]; exact step)

theorem Frozen.ancestor (path : Reach (fun x y => y ∈ parents x) v u) :
    Frozen parents parents' u := fun w more => frozen w (path.trans more)

theorem Frozen.linked : Linked parents v u ↔ Linked parents' v u := by
  refine ⟨?_,?_⟩
  · rintro ⟨down,back⟩
    exact ⟨frozen.reach.mp down,(frozen.ancestor down).reach.mp back⟩
  · rintro ⟨down,back⟩
    have there := frozen.reach.mpr down
    exact ⟨there,(frozen.ancestor there).reach.mpr back⟩

end

def Exact (g : Moment) (v : Txn) (found : List Txn) : Prop := found.Nodup ∧ ∀ u, u ∈ found ↔ Linked g.parents v u

theorem Exact.member (exact : Exact g v found) (mem : u ∈ found) : Exact g u found := by
  have linked := (exact.2 u).mp mem
  refine ⟨exact.1,fun w => (exact.2 w).trans ⟨?_,?_⟩⟩
  · intro other
    exact ⟨linked.2.trans other.1,other.2.trans linked.1⟩
  · intro other
    exact ⟨linked.1.trans other.1,other.2.trans linked.2⟩

-- A component is remembered at all its members, and its members are ancestors of a
-- vertex that was asked for.
structure Remembers (g : Moment) (asked : List Txn) (scc : Sccs) : Prop where
  exact : scc u = some found → Exact g u found
  whole : scc u = some found → w ∈ found → scc w = some found
  source : scc u = some found → ∃ v ∈ asked, Reach (fun x y => y ∈ g.parents x) v u

theorem Remembers.search_exact (memo : Remembers g asked scc) (known : v ∈ g.vertices) (new : scc v = none) :
    Exact g v (search g.parents (fun u => (scc u).isSome) g.vertices.card v) := by
  have region : Region g.parents (fun u => (scc u).isSome) g.vertices.card v g.vertices :=
    ⟨known,fun u inside w step => g.closed u inside w step.1,le_rfl⟩
  refine ⟨search_nodup region,?_⟩
  intro u
  rw [search_mem region,linked_iff]
  intro w linked
  cases got : scc w with
  | none => rfl
  | some found =>
    have back := memo.whole got (((memo.exact got).2 v).mpr linked.symm)
    simp [new] at back

theorem Searched.remembers (run : Searched g asked scc) : Remembers g asked scc := by
  induction run with
  | start g => exact ⟨nofun,nofun,nofun⟩
  | change g' _ frozen ih =>
    refine ⟨?_,ih.whole,?_⟩
    · intro u found got
      obtain ⟨v,mem,path⟩ := ih.source got
      exact ⟨(ih.exact got).1,fun w => ((ih.exact got).2 w).trans ((frozen v mem).ancestor path).linked⟩
    · intro u found got
      obtain ⟨v,mem,path⟩ := ih.source got
      exact ⟨v,mem,(frozen v mem).reach.mp path⟩
  | @find g asked scc v _ known ih =>
    have before : ∀ {u found}, scc u = some found → ∃ w ∈ v :: asked, Reach (fun x y => y ∈ g.parents x) w u := by
      intro u found got
      obtain ⟨w,mem,path⟩ := ih.source got
      exact ⟨w,.tail _ mem,path⟩
    unfold findSccPred
    split
    next => exact ⟨ih.exact,ih.whole,before⟩
    next new =>
    have exact := ih.search_exact known new
    generalize search g.parents (fun u => (scc u).isSome) g.vertices.card v = component at exact
    refine ⟨?_,?_,?_⟩
    · intro u found got
      dsimp only at got
      split at got
      next mem =>
        cases got
        exact exact.member mem
      next => exact ih.exact got
    · intro u found w got mem
      dsimp only at got ⊢
      split at got
      next =>
        cases got
        rw [if_pos mem]
      next out =>
        rw [if_neg,ih.whole got mem]
        intro there
        exact out (((exact.member there).2 u).mpr (((ih.exact got).2 w).mp mem).symm)
    intro u found got
    dsimp only at got
    split at got
    next mem => exact ⟨v,mem_cons_self,((exact.2 u).mp mem).1⟩
    next => exact before got

theorem findSccPred_exact (run : Searched g asked scc) (known : v ∈ g.vertices) :
    let found := (findSccPred g.parents g.vertices.card scc v).1
    found.Nodup ∧ ∀ u, u ∈ found ↔ Linked g.parents v u := by
  unfold findSccPred
  split
  next got => exact run.remembers.exact got
  next new => exact run.remembers.search_exact known new

def twoCycleMoment : Moment := ⟨twoCycle.parents,{1,2},by decide⟩

theorem findSccPred_exact_remembered :
    let found := (findSccPred twoCycle.parents 2 (findSccPred twoCycle.parents 2 (fun _ => none) 2).2 1).1
    found.Nodup ∧ ∀ u, u ∈ found ↔ Linked twoCycle.parents 1 u :=
  findSccPred_exact (.find (.start twoCycleMoment) (v := 2) (by decide)) (by decide)

end DbExp.Janus
