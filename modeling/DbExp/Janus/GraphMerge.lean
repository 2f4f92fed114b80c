import DbExp.Janus.BrqSafety

namespace DbExp.Janus
open Sched (merge aggregate aggregateVertex findOrCreateV merge_status merge_parents)
open Status (std pac cmt)

def occurrences (t : Txn) (graphs : List (List Carried)) : List Carried := graphs.flatten.filter fun c => c.txn = t

-- What a table knows of a transaction comes from its occurrences, one after the other.
theorem find_foldl (find : σ → Txn → Option Vertex) (add : σ → Carried → σ) (create : Carried → Vertex)
    (adds : ∀ s c t, find (add s c) t = if c.txn = t then some ((find s t).elim (create c) (merge · c)) else find s t)
    (s : σ) (cs : List Carried) (t : Txn) :
    find (cs.foldl add s) t =
      (cs.filter fun c => c.txn = t).foldl (fun v c => some (v.elim (create c) (merge · c))) (find s t) := by
  induction cs generalizing s with
  | nil => rfl
  | cons c rest ih =>
    rw [List.foldl_cons,ih,adds,List.filter_cons]
    by_cases same : c.txn = t
    · simp [same]
    · simp [same]

theorem foldl_some (create : Carried → Vertex) (v : Vertex) (cs : List Carried) :
    cs.foldl (fun v c => some (v.elim (create c) (merge · c))) (some v) = some (cs.foldl merge v) := by
  induction cs generalizing v with
  | nil => rfl
  | cons c rest ih => exact ih (merge v c)

section
variable {v : Vertex} {cs : List Carried}

theorem foldl_merge_status (i : Nat) : (cs.foldl merge v).status.testBit i = true ↔
    v.status.testBit i = true ∨ ∃ c ∈ cs, c.status.testBit i = true := by
  induction cs generalizing v with
  | nil => simp
  | cons c rest ih => simp [ih,merge_status,Nat.testBit_or,or_assoc]

-- Some committed occurrence has a status above all that was seen before it.
def raises (status : Status) : List Carried → Prop
  | [] => False
  | c :: rest => cmt ≤ c.status ∧ status < c.status ∨ raises (status ||| c.status) rest

theorem foldl_merge_parents (agreed : ∀ c ∈ cs, cmt ≤ c.status → c.parents = parents) :
    (raises v.status cs → (cs.foldl merge v).parents = parents) ∧
    (cmt ≤ v.status → ¬ raises v.status cs → (cs.foldl merge v).parents = v.parents) := by
  induction cs generalizing v with
  | nil => exact ⟨nofun,fun _ _ => rfl⟩
  | cons c rest ih =>
    obtain ⟨raised,kept⟩ := ih (v := merge v c) fun x mem => agreed x (.tail _ mem)
    rw [merge_status] at raised kept
    refine ⟨?_,?_⟩
    · intro some
      by_cases later : raises (v.status ||| c.status) rest
      · exact raised later
      have now := some.resolve_right later
      rw [List.foldl_cons,kept (now.1.trans Nat.right_le_or) later,merge_parents (.inr now.1),if_pos now]
      exact agreed c List.mem_cons_self now.1
    · intro late none
      obtain ⟨now,later⟩ := not_or.mp none
      rw [List.foldl_cons,kept (late.trans Nat.left_le_or) later,merge_parents (.inl late),if_neg now]

theorem raises_early (early : s < cmt) (mem : c ∈ cs) (committed : cmt ≤ c.status) : raises s cs := by
  induction cs generalizing s with
  | nil => cases mem
  | cons x rest ih =>
    by_cases first : cmt ≤ x.status
    · exact .inl ⟨first,early.trans_le first⟩
    rcases List.mem_cons.mp mem with rfl | later
    · exact absurd committed first
    · exact .inr (ih (or_early early (Nat.not_le.mp first)) later)

end

section
variable (order : List (List Carried))

def learn : Sched := order.foldl aggregate {}

-- The first occurrence of a transaction makes its vertex, and its status is then seen.
def Raised (t : Txn) : Prop :=
  ∃ c ∈ (occurrences t order).head?, raises c.status (occurrences t order)

def Learned (s : Sched) (t : Txn) (parents : List Txn) : Prop :=
  (s.info t).parents = parents ∧
  ∀ i, (s.info t).status.testBit i = true ↔ ∃ c ∈ occurrences t order, c.status.testBit i = true

end

theorem learn_info (first : occurrences t order = c :: rest) :
    (learn order).info t = (c :: rest).foldl merge { status := c.status,partition := c.partition } := by
  have got := find_foldl (fun s t => if t ∈ s.vertices then some (s.info t) else none) aggregateVertex
    (fun c => merge { status := c.status,partition := c.partition } c) (by
      intro s c t
      unfold aggregateVertex findOrCreateV
      by_cases known : c.txn ∈ s.vertices
      · by_cases same : c.txn = t
        · subst same; simp [known,Sched.set]
        · simp [known,same,Sched.set,Ne.symm same]
      · by_cases same : c.txn = t
        · subst same; simp [known,Sched.set]
        · simp [known,same,Sched.set,Ne.symm same]) {} order.flatten t
  have shape : learn order = order.flatten.foldl aggregateVertex {} := List.foldl_flatten.symm
  rw [← shape,show order.flatten.filter _ = _ from first,List.foldl_cons] at got
  change _ = rest.foldl _ (some (merge _ c)) at got
  rw [foldl_some] at got
  split at got
  next => exact Option.some.inj got
  next => cases got

-- A transaction that a server first hears of as committed is entered without its parents,
-- and it gets them only from an occurrence with a higher status.
theorem learned_iff_raised (order : List (List Carried)) (t : Txn) (parents : List Txn)
    (committed : ∃ c ∈ occurrences t order, cmt ≤ c.status)
    (agreed : ∀ c ∈ occurrences t order, cmt ≤ c.status → c.parents = parents) :
    (Learned order (learn order) t parents ↔ parents = [] ∨ Raised order t) ∧
    ∀ order', (∀ c, c ∈ occurrences t order' ↔ c ∈ occurrences t order) →
      ((learn order').info t).status = ((learn order).info t).status := by
  obtain ⟨d,mem,late⟩ := committed
  have bits (order : List (List Carried)) (some : ∃ c, c ∈ occurrences t order) (i : Nat) :
      ((learn order).info t).status.testBit i = true ↔ ∃ c ∈ occurrences t order, c.status.testBit i = true := by
    cases first : occurrences t order with
    | nil => simp [first] at some
    | cons c rest =>
      rw [learn_info first,foldl_merge_status]
      exact or_iff_right_of_imp fun bit => ⟨c,List.mem_cons_self,bit⟩
  refine ⟨?_,?_⟩
  · unfold Learned Raised
    simp only [bits order ⟨d,mem⟩,implies_true,and_true]
    cases first : occurrences t order with
    | nil => simp [first] at mem
    | cons c rest =>
      rw [first] at mem agreed
      obtain ⟨raised,kept⟩ := foldl_merge_parents (v := { status := c.status,partition := c.partition }) agreed
      rw [learn_info first]
      by_cases high : raises c.status (c :: rest)
      · rw [raised high]
        simp [high]
      · have created : cmt ≤ c.status := Nat.not_lt.mp fun early => high (raises_early early mem late)
        rw [kept created high]
        simp [high,eq_comm]
  · intro order' same
    refine Nat.eq_of_testBit_eq fun i => Bool.eq_iff_iff.mpr ?_
    rw [bits order ⟨d,mem⟩,bits order' ⟨d,(same d).mpr mem⟩]
    simp [same]

theorem learned_iff_raised_pending : Learned [[⟨1,1,[],∅,0⟩],[⟨1,8,[2],∅,0⟩]] (learn [[⟨1,1,[],∅,0⟩],[⟨1,8,[2],∅,0⟩]]) 1 [2] :=
  (learned_iff_raised _ _ _ (by decide) (by decide)).1.mpr (.inr ⟨⟨1,1,[],∅,0⟩,by decide,.inr (.inl (by decide))⟩)

theorem committed_parents_dropped : ¬ ∀ (order : List (List Carried)) (t : Txn) (parents : List Txn),
    (∃ c ∈ occurrences t order, cmt ≤ c.status) → (∀ c ∈ occurrences t order, cmt ≤ c.status → c.parents = parents) →
    Learned order (learn order) t parents := by
  intro all
  have wrong := (all [[⟨1,8,[2],∅,0⟩]] 1 [2] (by decide) (by decide)).1
  exact absurd wrong (by decide)

-- The reply whose parents are the ones left in the end, when a reply has put its own in
-- the place of what was there.
def deciding (status : Status) : List Carried → Option Carried
  | [] => none
  | c :: rest =>
    (deciding (status ||| c.status) rest).or (if pac ≤ c.status ∧ status ≤ c.status then some c else none)

theorem mem_insertParent : p ∈ insertParent t ps ↔ p = t ∨ p ∈ ps := by
  fun_induction insertParent t ps with grind

theorem mem_insertParents : p ∈ insertParents ps more ↔ p ∈ ps ∨ p ∈ more := by
  unfold insertParents
  induction more generalizing ps with
  | nil => simp
  | cons t rest ih => simp [ih,mem_insertParent,or_assoc,or_left_comm]

-- The ballot is not sent with a vertex, so a reply never has one.
abbrev Pending (c : Carried) : Prop := c.status < cmt ∧ c.maxAcceptedBallot = 0

theorem merge_pending {v : Vertex} (ballot : v.maxSeenBallot = 0) (pending : Pending c) :
    (merge v c).maxSeenBallot = 0 ∧
    (merge v c).parents = if v.status ≤ std ∧ c.status ≤ std then insertParents v.parents c.parents
      else if pac ≤ c.status ∧ v.status ≤ c.status then c.parents else v.parents := by
  have low : ¬ cmt ≤ c.status := Nat.not_le.mpr pending.1
  unfold merge
  simp only [ballot,pending.2,low,true_and,if_false,le_refl,and_true]
  split
  · simp
  · split <;> simp [ballot]

theorem foldl_merge_deciding {v : Vertex} {cs : List Carried} (ballot : v.maxSeenBallot = 0) (pending : ∀ c ∈ cs, Pending c) :
    match deciding v.status cs with
    | some y => (cs.foldl merge v).parents = y.parents
    | none => if v.status ≤ std then v.parents ⊆ (cs.foldl merge v).parents ∧ ∀ x ∈ cs, x.parents ⊆ (cs.foldl merge v).parents
      else (cs.foldl merge v).parents = v.parents := by
  induction cs generalizing v with
  | nil => simp [deciding]
  | cons c rest ih =>
    obtain ⟨unseen,parents⟩ := merge_pending ballot (pending c List.mem_cons_self)
    have next := ih unseen fun x mem => pending x (.tail _ mem)
    rw [merge_status] at next
    simp only [deciding]
    cases later : deciding (v.status ||| c.status) rest with
    | some y => simpa [later] using next
    | none =>
      simp only [later] at next
      rw [List.foldl_cons]
      by_cases takes : pac ≤ c.status ∧ v.status ≤ c.status
      · have high : ¬ c.status ≤ std := Nat.not_le.mpr takes.1
        rw [if_neg fun both => high both.2,if_pos takes] at parents
        rw [if_neg fun both => high (Nat.right_le_or.trans both)] at next
        simpa [takes] using next.trans parents
      rw [if_neg takes] at parents ⊢
      change if v.status ≤ std then _ else _
      by_cases low : v.status ≤ std
      · have small : c.status ≤ std := by
          by_contra high
          exact takes ⟨Nat.not_le.mp high,low.trans (Nat.le_of_not_le high)⟩
        rw [if_pos ⟨low,small⟩] at parents
        have both : v.status ||| c.status ≤ std :=
          Nat.le_of_lt_succ (Nat.or_lt_two_pow (n := 1) (Nat.lt_succ_of_le low) (Nat.lt_succ_of_le small))
        rw [if_pos both,parents] at next
        rw [if_pos low]
        refine ⟨fun p mem => next.1 (mem_insertParents.mpr (.inl mem)),?_⟩
        rw [List.forall_mem_cons]
        exact ⟨fun p mem => next.1 (mem_insertParents.mpr (.inr mem)),next.2⟩
      · rw [if_neg fun both => low both.1] at parents
        rw [if_neg fun both => low (Nat.left_le_or.trans both)] at next
        rw [if_neg low]
        exact next.trans parents

namespace Coord
variable (d : Deployment) (c : Coord) (t : Txn)

def aggregated : List (List Carried) :=
  (d.partitions t).flatMap fun par => if c.fastPath then (c.nFastAcceptGraphs par).take 1 else c.nFastAcceptGraphs par

theorem chooseGraph_find (held : c.graph.find t = some v) :
    (c.chooseGraph d t).find t = some ((occurrences t (c.aggregated d t)).foldl merge v) := by
  have shape : c.chooseGraph d t = (c.aggregated d t).flatten.foldl Graph.aggregateVertex c.graph := by
    rw [List.foldl_flatten,aggregated,List.foldl_flatMap]
    rfl
  have got := find_foldl OrdMap.find Graph.aggregateVertex
    (fun c => { status := c.status,parents := c.parents,partition := c.partition }) (by
      intro g c t
      by_cases same : c.txn = t
      · subst same
        cases known : g.find c.txn <;> simp [Graph.aggregateVertex,known]
      · simp [Graph.aggregateVertex,same]) c.graph (c.aggregated d t).flatten t
  rw [shape,got,held]
  exact foldl_some ..

end Coord

-- Before ChooseGraph the coordinator knows from the dispatch replies that the transaction
-- has started at most. A pre-accepted reply replaces the parents gathered so far, or is
-- passed over when started and pre-accepted are both set already.
theorem chooseGraph_keeps_iff (d : Deployment) (c : Coord) (t : Txn) (v : Vertex) (held : c.graph.find t = some v)
    (started : v.status ≤ std) (ballot : v.maxSeenBallot = 0) (pending : ∀ x ∈ occurrences t (c.aggregated d t), Pending x) :
    (∀ x ∈ occurrences t (c.aggregated d t), ∃ w, (c.chooseGraph d t).find t = some w ∧ x.parents ⊆ w.parents) ↔
      ∀ y ∈ deciding v.status (occurrences t (c.aggregated d t)), ∀ x ∈ occurrences t (c.aggregated d t), x.parents ⊆ y.parents := by
  have merged := foldl_merge_deciding ballot pending
  simp only [c.chooseGraph_find d t held,Option.some.injEq,exists_eq_left']
  cases last : deciding v.status (occurrences t (c.aggregated d t)) with
  | some y =>
    simp only [last] at merged
    simp [merged]
  | none =>
    simp only [last,started,if_true] at merged
    simpa using merged.2

def onePartition : Deployment := ⟨fun _ => 3,fun _ => [0],fun _ _ => []⟩

def twoReplies : Coord :=
  { graph := Graph.aggregate .empty [⟨1,1,[],{0},0⟩],nFastAcceptGraphs := fun _ => [[⟨1,2,[2],{0},0⟩],[⟨1,2,[3],{0},0⟩]] }

theorem chooseGraph_keeps_iff_fast :
    ∃ w, (({ twoReplies with fastPath := true } : Coord).chooseGraph onePartition 1).find 1 = some w ∧ [2] ⊆ w.parents :=
  (chooseGraph_keeps_iff onePartition { twoReplies with fastPath := true } 1 { status := 1,partition := {0} } (by decide) (by decide)
    rfl (by decide)).mpr (by decide) ⟨1,2,[2],{0},0⟩ (by decide)

theorem preAccepted_parents_lost : ¬ ∀ (d : Deployment) (c : Coord) (t : Txn) (v : Vertex), c.graph.find t = some v →
    v.status ≤ std → v.maxSeenBallot = 0 → (∀ x ∈ occurrences t (c.aggregated d t), Pending x) →
    ∀ x ∈ occurrences t (c.aggregated d t), ∃ w, (c.chooseGraph d t).find t = some w ∧ x.parents ⊆ w.parents := by
  intro all
  obtain ⟨w,got,kept⟩ := all onePartition twoReplies 1 { status := 1,partition := {0} }
    (by decide) (by decide) rfl (by decide) ⟨1,2,[3],{0},0⟩ (by decide)
  have left : ((twoReplies.chooseGraph onePartition 1).find 1).map Vertex.parents = some [2] := by decide
  rw [got] at left
  exact absurd (kept (List.mem_singleton_self 3)) (by simp [Option.some.inj left])

end DbExp.Janus
