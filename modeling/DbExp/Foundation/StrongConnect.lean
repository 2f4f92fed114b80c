import Mathlib.Data.Finset.Card

namespace DbExp.StrongConnect
open List (mem_cons mem_cons_self mem_append pairwise_append mem_singleton mem_append_right)

-- Depth-first search for one strongly connected component, with the bookkeeping of
-- Tarjan's algorithm. The stack is kept with its top first.
structure Search (V : Type) where
  indexes : V → Option Nat
  lowlinks : V → Nat
  index : Nat
  stack : List V

namespace Search
variable {V : Type} [DecidableEq V]

def empty : Search V := ⟨fun _ => none,fun _ => 0,0,[]⟩

def push (s : Search V) (v : V) : Search V :=
  ⟨Function.update s.indexes v (some s.index),Function.update s.lowlinks v s.index,s.index+1,v :: s.stack⟩

def lower (s : Search V) (v : V) (bound : Nat) : Search V :=
  { s with lowlinks := Function.update s.lowlinks v (min (s.lowlinks v) bound) }

end Search

variable {V : Type} [DecidableEq V]

def popTo (v : V) : List V → List V × List V
  | [] => ([],[])
  | w :: rest => if w = v then ([w],rest) else (w :: (popTo v rest).1,(popTo v rest).2)

def finish (v : V) (s : Search V) : Search V × List V :=
  if s.indexes v = some (s.lowlinks v) then ({ s with stack := (popTo v s.stack).2 },(popTo v s.stack).1) else (s,[])

-- One round of the loop over the parents of v. A parent whose component is known
-- already is passed over.
def relax (skip : V → Bool) (call : V → Search V → Search V) (v : V) (s : Search V) (w : V) : Search V :=
  if skip w then s
  else match s.indexes w with
    | none =>
      let after := call w s
      after.lower v (after.lowlinks w)
    | some i => if w ∈ s.stack then s.lower v i else s

def strongConnect (parents : V → List V) (skip : V → Bool) : Nat → V → Search V → Search V × List V
  | 0,_,s => (s,[])
  | fuel+1,v,s =>
    finish v ((parents v).foldl (relax skip (fun w s => (strongConnect parents skip fuel w s).1) v) (s.push v))

abbrev Edge (parents : V → List V) (skip : V → Bool) (u w : V) : Prop := w ∈ parents u ∧ skip w = false

section
variable (edge : V → V → Prop)

abbrev Reach : V → V → Prop := Relation.ReflTransGen edge

-- A vertex is finished when it was visited and is off the stack; finished vertices
-- lead to finished vertices only.
structure Sound (s : Search V) : Prop where
  placed : ∀ u ∈ s.stack, ∃ i, s.indexes u = some i
  ordered : s.stack.Pairwise fun u w => ∀ i j, s.indexes u = some i → s.indexes w = some j → j < i
  below : ∀ u i, s.indexes u = some i → i < s.index
  closed : ∀ u w, s.indexes u ≠ none → u ∉ s.stack → edge u w → s.indexes w ≠ none ∧ w ∉ s.stack

section
variable (v : V) (old new : Search V)

structure Grown : Prop where
  sound : Sound edge new
  kept : ∀ u i, old.indexes u = some i → new.indexes u = some i
  lowKept : ∀ u, old.indexes u ≠ none → new.lowlinks u = old.lowlinks u
  own : new.indexes v = some old.index
  reached : ∀ u, old.indexes u = none → new.indexes u ≠ none → Reach edge v u
  low_le : new.lowlinks v ≤ old.index
  attained : new.lowlinks v < old.index →
    ∃ x ∈ old.stack, old.indexes x = some (new.lowlinks v) ∧ Reach edge v x

structure Scanned (fresh seen : List V) : Prop
    extends Grown edge v old new where
  stack : new.stack = fresh ++ v :: old.stack
  finished : ∀ u, u ≠ v → old.indexes u = none → new.indexes u ≠ none → ∀ w, edge u w → new.indexes w ≠ none
  scanned : ∀ w ∈ seen, edge v w → new.indexes w ≠ none
  floor : ∀ u w i, u ∈ fresh ∨ u = v ∧ w ∈ seen → edge u w → w ∈ old.stack → old.indexes w = some i →
    new.lowlinks v ≤ i
  home : ∀ u ∈ fresh, Reach edge u v ∨ ∃ x ∈ old.stack, Reach edge u x

structure Called (fresh : List V) : Prop
    extends Grown edge v old new where
  stack : new.stack = fresh ++ old.stack
  finished : ∀ u, old.indexes u = none → new.indexes u ≠ none → ∀ w, edge u w → new.indexes w ≠ none
  floor : ∀ u w i, u ∈ fresh → edge u w → w ∈ old.stack → old.indexes w = some i → new.lowlinks v ≤ i
  home : ∀ u ∈ fresh, ∃ x ∈ old.stack, Reach edge u x

end

end

section
variable {edge : V → V → Prop} {v w : V} {old cur after s : Search V} {fresh seen : List V}

omit [DecidableEq V] in
theorem Sound.empty : Sound edge (Search.empty : Search V) := by
  refine ⟨?_,?_,?_,?_⟩ <;> simp [Search.empty]

theorem Sound.lower (sound : Sound edge s) : Sound edge (s.lower v bound) :=
  ⟨sound.placed,sound.ordered,sound.below,sound.closed⟩

omit [DecidableEq V] in
theorem Sound.finished_reach (sound : Sound edge s) (visited : s.indexes u ≠ none) (off : u ∉ s.stack)
    (path : Reach edge u w) : s.indexes w ≠ none ∧ w ∉ s.stack := by
  induction path with
  | refl => exact ⟨visited,off⟩
  | tail _ step ih => exact sound.closed _ _ ih.1 ih.2 step

omit [DecidableEq V] in
theorem Sound.visited (sound : Sound edge s) (on : u ∈ s.stack) : s.indexes u ≠ none := by
  obtain ⟨_,placed⟩ := sound.placed u on
  simp [placed]

theorem popTo_append (above : v ∉ fresh) : popTo v (fresh ++ v :: rest) = (fresh ++ [v],rest) := by
  induction fresh with
  | nil => simp [popTo]
  | cons u more ih =>
    simp only [mem_cons,not_or] at above
    simp [popTo,Ne.symm above.1,ih above.2]

theorem Search.push_indexes (s : Search V) (v u : V) (i : Nat) :
    (s.push v).indexes u = some i ↔ u = v ∧ i = s.index ∨ u ≠ v ∧ s.indexes u = some i := by
  by_cases same : u = v
  · subst same
    simp [Search.push,eq_comm]
  · simp [Search.push,same]

theorem Sound.push (sound : Sound edge s) (new : s.indexes v = none) : Sound edge (s.push v) := by
  have notOn : v ∉ s.stack := fun on => sound.visited on new
  have others : ∀ u, u ≠ v → (s.push v).indexes u = s.indexes u := by
    intro u other
    simp [Search.push,other]
  refine ⟨?_,?_,?_,?_⟩
  · intro u on
    by_cases same : u = v
    · exact ⟨s.index,by simp [Search.push,same]⟩
    · rw [others u same]
      apply sound.placed
      simpa [Search.push,same] using on
  · apply List.Pairwise.cons
    · intro u on i j first second
      have other : u ≠ v := fun same => notOn (same ▸ on)
      rw [others u other] at second
      have := sound.below u j second
      have : i = s.index := by simpa [Search.push,eq_comm] using first
      omega
    apply sound.ordered.imp_of_mem
    intro a b onA onB order i j first second
    have otherA : a ≠ v := fun same => notOn (same ▸ onA)
    have otherB : b ≠ v := fun same => notOn (same ▸ onB)
    rw [others a otherA] at first
    rw [others b otherB] at second
    exact order i j first second
  · intro u i indexed
    change i < s.index+1
    rcases (s.push_indexes v u i).mp indexed with ⟨_,rfl⟩ | ⟨_,indexed⟩
    · omega
    · have := sound.below u i indexed
      omega
  intro u w visited off step
  have other : u ≠ v := by
    rintro rfl
    exact off mem_cons_self
  rw [others u other] at visited
  have kept := sound.closed u w visited (fun on => off (.tail _ on)) step
  have apart : w ≠ v := fun same => kept.1 (same ▸ new)
  rw [others w apart]
  refine ⟨kept.1,?_⟩
  simpa [Search.push,apart] using kept.2

theorem Scanned.start (sound : Sound edge old) (unvisited : old.indexes v = none) :
    Scanned edge v old (old.push v) [] [] where
  sound := sound.push unvisited
  kept u i indexed := by
    refine (old.push_indexes v u i).mpr (.inr ⟨?_,indexed⟩)
    rintro rfl
    simp [unvisited] at indexed
  lowKept u visited := by
    have other : u ≠ v := fun same => visited (same ▸ unvisited)
    simp [Search.push,other]
  own := by simp [Search.push]
  reached u before after := by
    have same : u = v := by
      by_contra other
      simp [Search.push,other,before] at after
    rw [same]
  low_le := by simp [Search.push]
  attained := by simp [Search.push]
  stack := rfl
  finished u other before after := by
    simp [Search.push,other,before] at after
  scanned := by simp
  floor := by simp
  home := by simp

omit [DecidableEq V] in
theorem Grown.visited (grown : Grown edge v old cur) (visited : old.indexes u ≠ none) : cur.indexes u ≠ none := by
  obtain ⟨i,indexed⟩ := Option.ne_none_iff_exists'.mp visited
  simp [grown.kept u i indexed]

omit [DecidableEq V] in
theorem Scanned.earlier (scan : Scanned edge v old cur fresh seen) (start : Sound edge old) (on : x ∈ cur.stack)
    (indexed : cur.indexes x = some i) (less : i < old.index) : x ∈ old.stack ∧ old.indexes x = some i := by
  have ordered := scan.sound.ordered
  rw [scan.stack] at on ordered
  rcases mem_append.mp on with above | below
  · have := (pairwise_append.mp ordered).2.2 x above v mem_cons_self i old.index indexed scan.own
    omega
  rcases mem_cons.mp below with rfl | deep
  · have := scan.own.symm.trans indexed
    simp only [Option.some.injEq] at this
    omega
  obtain ⟨j,was⟩ := start.placed x deep
  have := (scan.kept x j was).symm.trans indexed
  simp only [Option.some.injEq] at this
  exact ⟨deep,this ▸ was⟩

omit [DecidableEq V] in
theorem Scanned.pass (scan : Scanned edge v old cur fresh seen) (visited : edge v w → cur.indexes w ≠ none)
    (low : ∀ i, edge v w → w ∈ old.stack → old.indexes w = some i → cur.lowlinks v ≤ i) :
    Scanned edge v old cur fresh (seen ++ [w]) where
  toGrown := scan.toGrown
  stack := scan.stack
  finished := scan.finished
  home := scan.home
  scanned u listed step := by
    rcases mem_append.mp listed with before | last
    · exact scan.scanned u before step
    · cases mem_singleton.mp last
      exact visited step
  floor u x i place step on indexed := by
    rcases place with above | ⟨rfl,listed⟩
    · exact scan.floor u x i (.inl above) step on indexed
    rcases mem_append.mp listed with before | last
    · exact scan.floor u x i (.inr ⟨rfl,before⟩) step on indexed
    · cases mem_singleton.mp last
      exact low i step on indexed

theorem Search.lower_own (s : Search V) (v : V) (bound : Nat) :
    (s.lower v bound).lowlinks v = min (s.lowlinks v) bound := by
  simp [Search.lower]

theorem Search.lower_other (s : Search V) (bound : Nat) (other : u ≠ v) :
    (s.lower v bound).lowlinks u = s.lowlinks u := by
  simp [Search.lower,other]

theorem Grown.lower (grown : Grown edge v old cur) (unvisited : old.indexes v = none)
    (bounded : bound < old.index → ∃ x ∈ old.stack, old.indexes x = some bound ∧ Reach edge v x) :
    Grown edge v old (cur.lower v bound) where
  sound := grown.sound.lower
  kept := grown.kept
  lowKept u visited := by
    have other : u ≠ v := fun same => visited (same ▸ unvisited)
    rw [cur.lower_other bound other]
    exact grown.lowKept u visited
  own := grown.own
  reached := grown.reached
  low_le := by
    rw [cur.lower_own]
    exact (Nat.min_le_left _ _).trans grown.low_le
  attained := by
    rw [cur.lower_own]
    intro less
    rcases Nat.le_total (cur.lowlinks v) bound with first | second
    · rw [Nat.min_eq_left first] at less ⊢
      exact grown.attained less
    · rw [Nat.min_eq_right second] at less ⊢
      exact bounded less

theorem Scanned.lower (scan : Scanned edge v old cur fresh seen) (unvisited : old.indexes v = none)
    (bounded : bound < old.index → ∃ x ∈ old.stack, old.indexes x = some bound ∧ Reach edge v x) :
    Scanned edge v old (cur.lower v bound) fresh seen where
  toGrown := scan.toGrown.lower unvisited bounded
  stack := scan.stack
  finished := scan.finished
  scanned := scan.scanned
  home := scan.home
  floor u w i place step on indexed := by
    rw [cur.lower_own]
    exact (Nat.min_le_left _ _).trans (scan.floor u w i place step on indexed)

omit [DecidableEq V] in
theorem Grown.trans (grown : Grown edge v old cur) (called : Called edge w cur after above) (step : edge v w) :
    Grown edge v old after := by
  have low : after.lowlinks v = cur.lowlinks v := called.lowKept v (by simp [grown.own])
  refine ⟨called.sound,?_,?_,?_,?_,?_,?_⟩
  · intro u i indexed
    exact called.kept u i (grown.kept u i indexed)
  · intro u visited
    rw [called.lowKept u (grown.visited visited),grown.lowKept u visited]
  · exact called.kept v _ grown.own
  · intro u before now
    by_cases visited : cur.indexes u = none
    · exact (called.reached u visited now).head step
    · exact grown.reached u before visited
  · rw [low]
    exact grown.low_le
  · rw [low]
    exact grown.attained

theorem Scanned.called (scan : Scanned edge v old cur fresh seen) (start : Sound edge old)
    (unvisited : old.indexes v = none) (new : cur.indexes w = none) (called : Called edge w cur after above)
    (step : edge v w) : Scanned edge v old (after.lower v (after.lowlinks w)) (above ++ fresh) (seen ++ [w]) := by
  have low : after.lowlinks v = cur.lowlinks v := called.lowKept v (by simp [scan.own])
  have later : old.index < cur.index := scan.sound.below v _ scan.own
  have onOld : ∀ x, x ∈ old.stack → x ∈ cur.stack := by
    intro x on
    rw [scan.stack]
    exact mem_append_right _ (.tail _ on)
  have bounded : after.lowlinks w < old.index →
      ∃ x ∈ old.stack, old.indexes x = some (after.lowlinks w) ∧ Reach edge v x := by
    intro less
    obtain ⟨x,on,indexed,path⟩ := called.attained (less.trans later)
    obtain ⟨deep,was⟩ := scan.earlier start on indexed less
    exact ⟨x,deep,was,path.head step⟩
  refine ⟨(scan.toGrown.trans called step).lower unvisited bounded,?_,?_,?_,?_,?_⟩
  · change after.stack = _
    rw [called.stack,scan.stack,List.append_assoc]
  · intro u other before now x next
    by_cases visited : cur.indexes u = none
    · exact called.finished u visited now x next
    · exact called.visited (scan.finished u other before visited x next)
  · intro x listed next
    rcases mem_append.mp listed with first | last
    · exact called.visited (scan.scanned x first next)
    · cases mem_singleton.mp last
      change after.indexes w ≠ none
      simp [called.own]
  · intro u x i place next on indexed
    rw [after.lower_own,low]
    -- An edge from what the parent left behind is bounded by the parent's low link, any
    -- other one by the low link that v had.
    rcases place with stands | ⟨rfl,listed⟩
    · rcases mem_append.mp stands with first | second
      · have := called.floor u x i first next (onOld x on) (scan.kept x i indexed)
        omega
      · have := scan.floor u x i (.inl second) next on indexed
        omega
    rcases mem_append.mp listed with first | last
    · have := scan.floor u x i (.inr ⟨rfl,first⟩) next on indexed
      omega
    · cases mem_singleton.mp last
      simp [scan.kept w i indexed] at new
  refine List.forall_mem_append.mpr ⟨fun u first => ?_,scan.home⟩
  obtain ⟨x,on,path⟩ := called.home u first
  rw [scan.stack] at on
  rcases mem_append.mp on with above | below
  · rcases scan.home x above with back | ⟨y,deep,down⟩
    · exact .inl (path.trans back)
    · exact .inr ⟨y,deep,path.trans down⟩
  · rcases mem_cons.mp below with rfl | deep
    · exact .inl path
    · exact .inr ⟨x,deep,path⟩

omit [DecidableEq V] in
theorem Scanned.above (scan : Scanned edge v old cur fresh seen) : v ∉ fresh := by
  intro inside
  have ordered := scan.sound.ordered
  rw [scan.stack] at ordered
  have := (pairwise_append.mp ordered).2.2 v inside v mem_cons_self _ _ scan.own scan.own
  omega

section
variable (scan : Scanned edge v old cur fresh seen)
include scan

theorem finish_pop (root : cur.lowlinks v = old.index) :
    finish v cur = ({ cur with stack := old.stack },fresh ++ [v]) := by
  rw [finish,if_pos (by rw [root,scan.own]),scan.stack,popTo_append scan.above]

theorem finish_keep (root : cur.lowlinks v ≠ old.index) :
    finish v cur = (cur,[]) := by
  rw [finish,if_neg (by simp [scan.own,Ne.symm root])]

section
variable (start : Sound edge old) (all : ∀ w, edge v w → w ∈ seen)
include start all

-- A component is taken off the stack with v only when nothing in it leads to what stands
-- below, so the finished vertices stay closed.
theorem Scanned.popped (root : cur.lowlinks v = old.index) :
    Sound edge { cur with stack := old.stack } := by
  have onOld : ∀ x, x ∈ old.stack → x ∈ cur.stack := by
    intro x on
    rw [scan.stack]
    exact mem_append_right _ (.tail _ on)
  refine ⟨fun u on => scan.sound.placed u (onOld u on),?_,scan.sound.below,?_⟩
  · have ordered := scan.sound.ordered
    rw [scan.stack] at ordered
    exact (List.pairwise_cons.mp (pairwise_append.mp ordered).2.1).2
  intro u w visited off step
  by_cases on : u ∈ cur.stack
  · rw [scan.stack] at on
    have place : u ∈ fresh ∨ u = v ∧ w ∈ seen := by
      rcases mem_append.mp on with above | below
      · exact .inl above
      · rcases mem_cons.mp below with rfl | deep
        · exact .inr ⟨rfl,all w step⟩
        · exact absurd deep off
    have unvisited : u ≠ v → old.indexes u = none := by
      intro other
      by_contra was
      obtain ⟨i,indexed⟩ := Option.ne_none_iff_exists'.mp was
      have less := start.below u i indexed
      have on : u ∈ cur.stack := by rw [scan.stack]; exact on
      exact off (scan.earlier start on (scan.kept u i indexed) less).1
    refine ⟨?_,?_⟩
    · by_cases same : u = v
      · subst same
        exact scan.scanned w (all w step) step
      · exact scan.finished u same (unvisited same) visited w step
    intro deep
    obtain ⟨i,indexed⟩ := start.placed w deep
    have low := scan.floor u w i place step deep indexed
    have less := start.below w i indexed
    omega
  · obtain ⟨known,outside⟩ := scan.sound.closed u w visited on step
    exact ⟨known,fun deep => outside (onOld w deep)⟩

theorem Scanned.stays
    (unvisited : old.indexes v = none) (back : Reach edge v a) (on : a ∈ old.stack) : cur.lowlinks v ≠ old.index := by
  intro root
  have popped := scan.popped start all root
  have off : v ∉ old.stack := fun inside => start.visited inside unvisited
  exact (popped.finished_reach (by simp [scan.own]) off back).2 on

theorem Scanned.finish : ∃ left, Called edge v old (finish v cur).1 left := by
  have closed : ∀ u, old.indexes u = none → cur.indexes u ≠ none → ∀ w, edge u w → cur.indexes w ≠ none := by
    intro u before now w step
    by_cases same : u = v
    · subst same
      exact scan.scanned w (all w step) step
    · exact scan.finished u same before now w step
  by_cases root : cur.lowlinks v = old.index
  · rw [finish_pop scan root]
    have grown : Grown edge v old { cur with stack := old.stack } :=
      ⟨scan.popped start all root,scan.kept,scan.lowKept,scan.own,scan.reached,scan.low_le,scan.attained⟩
    exact ⟨[],grown,rfl,closed,by simp,by simp⟩
  rw [finish_keep scan root]
  obtain ⟨x,deep,indexed,path⟩ := scan.attained (by have := scan.low_le; omega)
  refine ⟨fresh ++ [v],scan.toGrown,?_,closed,?_,?_⟩
  · simp [scan.stack]
  · intro u w i left step on indexed
    apply scan.floor u w i ?_ step on indexed
    rcases mem_append.mp left with above | last
    · exact .inl above
    · cases mem_singleton.mp last
      exact .inr ⟨rfl,all w step⟩
  intro u left
  rcases mem_append.mp left with above | last
  · rcases scan.home u above with back | down
    · exact ⟨x,deep,back.trans path⟩
    · exact down
  · cases mem_singleton.mp last
    exact ⟨x,deep,path⟩

end

end

end

def pending (vertices : Finset V) (s : Search V) : Nat := (vertices.filter fun u => s.indexes u = none).card

section
variable {parents : V → List V} {skip : V → Bool} {vertices : Finset V} {call : V → Search V → Search V}
variable {v w : V} {old cur s : Search V} {fresh seen todo : List V}

omit [DecidableEq V] in
theorem pending_le (more : ∀ u, old.indexes u ≠ none → cur.indexes u ≠ none) :
    pending vertices cur ≤ pending vertices old := by
  apply Finset.card_le_card
  intro u mem
  simp only [Finset.mem_filter] at mem ⊢
  refine ⟨mem.1,?_⟩
  by_contra visited
  exact more u visited mem.2

theorem pending_push (known : v ∈ vertices) (unvisited : s.indexes v = none) :
    pending vertices (s.push v) < pending vertices s := by
  apply Finset.card_lt_card
  refine Finset.ssubset_iff_subset_ne.mpr ⟨?_,?_⟩
  · intro u mem
    simp only [Finset.mem_filter] at mem ⊢
    refine ⟨mem.1,?_⟩
    by_cases same : u = v
    · rw [same,unvisited]
    · simpa [Search.push,same] using mem.2
  intro same
  have mem : v ∈ vertices.filter fun u => s.indexes u = none := Finset.mem_filter.mpr ⟨known,unvisited⟩
  rw [← same] at mem
  have hidden := (Finset.mem_filter.mp mem).2
  simp [Search.push] at hidden

def Serves (parents : V → List V) (skip : V → Bool) (vertices : Finset V) (n : Nat) (call : V → Search V → Search V) : Prop :=
  ∀ w s, w ∈ vertices → s.indexes w = none → Sound (Edge parents skip) s → pending vertices s ≤ n →
    ∃ fresh, Called (Edge parents skip) w s (call w s) fresh

section
variable (scan : Scanned (Edge parents skip) v old cur fresh seen)
include scan

theorem Scanned.relax (start : Sound (Edge parents skip) old)
    (unvisited : old.indexes v = none) (serves : Serves parents skip vertices n call) (parent : w ∈ parents v)
    (known : skip w = false → w ∈ vertices) (few : pending vertices cur ≤ n) :
    ∃ fresh, Scanned (Edge parents skip) v old (relax skip call v cur w) fresh (seen ++ [w]) := by
  unfold StrongConnect.relax
  split
  next skipped =>
    have apart : ¬ Edge parents skip v w := fun step => by simp [step.2] at skipped
    exact ⟨fresh,scan.pass (fun step => absurd step apart) (fun i step => absurd step apart)⟩
  rename_i wanted
  split
  next new =>
    obtain ⟨_,called⟩ := serves w cur (known (by simpa using wanted)) new scan.sound few
    exact ⟨_,scan.called start unvisited new called ⟨parent,by simpa using wanted⟩⟩
  rename_i i indexed
  have visited : cur.indexes w ≠ none := by simp [indexed]
  split
  next on =>
    have bounded : i < old.index → ∃ x ∈ old.stack, old.indexes x = some i ∧ Reach (Edge parents skip) v x := by
      intro less
      obtain ⟨deep,was⟩ := scan.earlier start on indexed less
      exact ⟨w,deep,was,.single ⟨parent,by simpa using wanted⟩⟩
    refine ⟨fresh,(scan.lower unvisited bounded).pass (fun _ => visited) ?_⟩
    intro j _ deep was
    have same := (scan.kept w j was).symm.trans indexed
    simp only [Option.some.injEq] at same
    rw [cur.lower_own]
    omega
  next off =>
    refine ⟨fresh,scan.pass (fun _ => visited) ?_⟩
    intro j _ deep _
    rw [scan.stack] at off
    exact absurd (mem_append_right _ (.tail _ deep)) off

theorem Scanned.pending_le (few : pending vertices (old.push v) ≤ n) : pending vertices cur ≤ n := by
  refine (StrongConnect.pending_le ?_).trans few
  intro u visited
  by_cases same : u = v
  · simp [same,scan.own]
  · apply scan.toGrown.visited
    simpa [Search.push,same] using visited

theorem Scanned.loop (start : Sound (Edge parents skip) old)
    (unvisited : old.indexes v = none) (serves : Serves parents skip vertices n call)
    (known : ∀ w ∈ todo, w ∈ parents v ∧ (skip w = false → w ∈ vertices)) (few : pending vertices (old.push v) ≤ n) :
    ∃ fresh, Scanned (Edge parents skip) v old (todo.foldl (StrongConnect.relax skip call v) cur) fresh (seen ++ todo) := by
  induction todo generalizing cur fresh seen with
  | nil => exact ⟨fresh,by simpa using scan⟩
  | cons w rest ih =>
    have this := known w mem_cons_self
    obtain ⟨_,next⟩ := scan.relax start unvisited serves this.1 this.2 (scan.pending_le few)
    have result := ih next (fun u listed => known u (.tail _ listed))
    simpa using result

end

section
variable (closed : ∀ u ∈ vertices, ∀ w, Edge parents skip u w → w ∈ vertices)
include closed

theorem loop_scanned (start : Sound (Edge parents skip) old)
    (known : v ∈ vertices) (unvisited : old.indexes v = none) (serves : Serves parents skip vertices n call)
    (few : pending vertices old ≤ n+1) :
    ∃ fresh, Scanned (Edge parents skip) v old ((parents v).foldl (relax skip call v) (old.push v)) fresh (parents v) := by
  have less := pending_push known unvisited
  have entered : ∀ w ∈ parents v, w ∈ parents v ∧ (skip w = false → w ∈ vertices) :=
    fun w listed => ⟨listed,fun wanted => closed v known w ⟨listed,wanted⟩⟩
  simpa using (Scanned.start start unvisited).loop start unvisited serves entered (by omega)

theorem strongConnect_serves (fuel : Nat) :
    Serves parents skip vertices fuel (fun w s => (strongConnect parents skip fuel w s).1) := by
  induction fuel with
  | zero =>
    intro w s known unvisited _ few
    have := pending_push known unvisited
    omega
  | succ fuel ih =>
    intro w s known unvisited sound few
    obtain ⟨_,scan⟩ := loop_scanned closed sound known unvisited ih few
    exact scan.finish sound (fun u step => step.1)

end

end

-- The depth-first walk inside a set of vertices, on the list of those found so far with
-- the last one first.
inductive Walk (parents : V → List V) (inside : V → Bool) : List V → List V → List V → Prop where
  | done : Walk parents inside [] found found
  | pass (known : inside w = false ∨ w ∈ found) (rest : Walk parents inside todo found result) :
      Walk parents inside (w :: todo) found result
  | visit (new : inside w = true) (unseen : w ∉ found) (deeper : Walk parents inside (parents w) (w :: found) between)
      (rest : Walk parents inside todo between result) : Walk parents inside (w :: todo) found result

omit [DecidableEq V] in
theorem Walk.unique {parents : V → List V} {inside : V → Bool} (first : Walk parents inside todo got a)
    (second : Walk parents inside todo got b) : a = b := by
  induction first generalizing b with
  | done =>
    cases second
    rfl
  | pass known _ ih =>
    cases second with
    | pass _ rest => exact ih rest
    | visit new unseen =>
      rcases known with out | seen
      · simp [out] at new
      · exact absurd seen unseen
  | visit new unseen _ _ ihDeeper ihRest =>
    cases second with
    | pass known =>
      rcases known with out | seen
      · simp [out] at new
      · exact absurd seen unseen
    | visit _ _ deeper rest =>
      cases ihDeeper deeper
      exact ihRest rest

section
variable {parents : V → List V} {skip inside : V → Bool} {vertices : Finset V} {call : V → Search V → Search V}
variable {a v w : V} {old cur s : Search V} {fresh seen todo : List V}

def Component (parents : V → List V) (skip : V → Bool) (a : V) (inside : V → Bool) : Prop :=
  ∀ u, inside u = true ↔ Reach (Edge parents skip) a u ∧ Reach (Edge parents skip) u a

omit [DecidableEq V] in
theorem Component.on (component : Component parents skip a inside) (sound : Sound (Edge parents skip) s) (on : a ∈ s.stack)
    (mem : inside u = true) (visited : s.indexes u ≠ none) : u ∈ s.stack := by
  by_contra off
  exact (sound.finished_reach visited off ((component u).mp mem).2).2 on

omit [DecidableEq V] in
theorem Component.outside (component : Component parents skip a inside) (sound : Sound (Edge parents skip) cur)
    (on : a ∈ cur.stack) (out : inside w = false) (path : Reach (Edge parents skip) a w)
    (called : Called (Edge parents skip) w cur after above) : above.filter inside = [] := by
  apply List.filter_eq_nil_iff.mpr
  intro u left mem
  have after : u ∈ above ++ cur.stack := List.mem_append_left _ left
  have fresh : u ∉ cur.stack := by
    intro below
    have ordered := called.sound.ordered
    rw [called.stack] at ordered
    obtain ⟨i,indexed⟩ := called.sound.placed u (by rw [called.stack]; exact after)
    have := (pairwise_append.mp ordered).2.2 u left u below i i indexed indexed
    omega
  have unvisited : cur.indexes u = none := by
    by_contra visited
    exact fresh (component.on sound on mem visited)
  have got : Reach (Edge parents skip) w u :=
    called.reached u unvisited (called.sound.visited (by rw [called.stack]; exact after))
  have : inside w = true := (component w).mpr ⟨path,got.trans ((component u).mp mem).2⟩
  simp [this] at out

theorem relax_skip (skipped : skip w = true) : relax skip call v cur w = cur := by
  simp [relax,skipped]

theorem relax_new (wanted : skip w = false) (new : cur.indexes w = none) :
    (relax skip call v cur w).stack = (call w cur).stack := by
  simp [relax,wanted,new,Search.lower]

theorem relax_visited (visited : cur.indexes w = some i) : (relax skip call v cur w).stack = cur.stack := by
  unfold relax
  rw [visited]
  split
  · rfl
  · dsimp only
    split <;> rfl

def Walks (parents : V → List V) (skip inside : V → Bool) (vertices : Finset V) (a : V) (n : Nat)
    (call : V → Search V → Search V) : Prop :=
  ∀ w s, w ∈ vertices → s.indexes w = none → Sound (Edge parents skip) s → pending vertices s ≤ n → a ∈ s.stack →
    inside w = true → Walk parents inside (parents w) (w :: s.stack.filter inside) ((call w s).stack.filter inside)

theorem Scanned.walk (scan : Scanned (Edge parents skip) v old cur fresh seen) (start : Sound (Edge parents skip) old)
    (unvisited : old.indexes v = none) (serves : Serves parents skip vertices n call)
    (walks : Walks parents skip inside vertices a n call) (component : Component parents skip a inside)
    (wanted : ∀ u, inside u = true → skip u = false) (on : a ∈ v :: old.stack) (path : Reach (Edge parents skip) a v)
    (known : ∀ w ∈ todo, w ∈ parents v ∧ (skip w = false → w ∈ vertices)) (few : pending vertices (old.push v) ≤ n) :
    Walk parents inside todo (cur.stack.filter inside)
      ((todo.foldl (StrongConnect.relax skip call v) cur).stack.filter inside) := by
  induction todo generalizing cur fresh seen with
  | nil => exact .done
  | cons w rest ih =>
    have this := known w mem_cons_self
    have left := scan.pending_le few
    obtain ⟨_,next⟩ := scan.relax start unvisited serves this.1 this.2 left
    have result := ih next (fun u listed => known u (.tail _ listed))
    have onCur : a ∈ cur.stack := by rw [scan.stack]; exact mem_append_right _ on
    rw [List.foldl_cons]
    -- What the loop does with w is what the walk does with it.
    cases indexed : cur.indexes w with
    | some i =>
      rw [relax_visited indexed] at result
      refine .pass ?_ result
      cases mem : inside w with
      | false => exact .inl rfl
      | true => exact .inr (List.mem_filter.mpr ⟨component.on scan.sound onCur mem (by simp [indexed]),mem⟩)
    | none =>
      cases mem : inside w with
      | false =>
        refine .pass (.inl mem) ?_
        cases skipped : skip w with
        | true =>
          rw [relax_skip skipped] at result ⊢
          exact result
        | false =>
          obtain ⟨_,called⟩ := serves w cur (this.2 skipped) indexed scan.sound left
          have empty := component.outside scan.sound onCur mem (path.tail ⟨this.1,skipped⟩) called
          rw [relax_new skipped indexed,called.stack,List.filter_append,empty,List.nil_append] at result
          exact result
      | true =>
        rw [relax_new (wanted w mem) indexed] at result
        refine .visit mem ?_ (walks w cur (this.2 (wanted w mem)) indexed scan.sound left onCur mem) result
        intro got
        exact scan.sound.visited (List.mem_filter.mp got).1 indexed

theorem strongConnect_walks (closed : ∀ u ∈ vertices, ∀ w, Edge parents skip u w → w ∈ vertices) (component : Component parents skip a inside)
    (wanted : ∀ u, inside u = true → skip u = false) (fuel : Nat) :
    Walks parents skip inside vertices a fuel (fun w s => (strongConnect parents skip fuel w s).1) := by
  induction fuel with
  | zero =>
    intro w s known unvisited _ few
    have := pending_push known unvisited
    omega
  | succ fuel ih =>
    intro w s known unvisited sound few on mem
    have serves : Serves parents skip vertices fuel _ := strongConnect_serves closed fuel
    obtain ⟨_,scan⟩ := loop_scanned closed sound known unvisited serves few
    have less := pending_push known unvisited
    have entered : ∀ u ∈ parents w, u ∈ parents w ∧ (skip u = false → u ∈ vertices) :=
      fun u listed => ⟨listed,fun wanted => closed w known u ⟨listed,wanted⟩⟩
    have walk := (Scanned.start sound unvisited).walk sound unvisited serves ih component wanted
      (.tail _ on) ((component w).mp mem).1 entered (by omega)
    have first : (s.push w).stack.filter inside = w :: s.stack.filter inside := by
      simp [Search.push,mem]
    rw [first] at walk
    -- A member of the component is never the root of a component while a is on the stack.
    have stays := scan.stays sound (fun u step => step.1) unvisited ((component w).mp mem).2 on
    simp only [strongConnect,finish_keep scan stays]
    exact walk

end

section
variable {parents : V → List V} {skip : V → Bool} {vertices : Finset V} {fuel : Nat} {a : V}

section
variable (parents : V → List V) (skip : V → Bool) (fuel : Nat) (a : V)

def search : List V :=
  (strongConnect parents skip fuel a Search.empty).2

structure Region (vertices : Finset V) : Prop where
  known : a ∈ vertices
  closed : ∀ u ∈ vertices, ∀ w, Edge parents skip u w → w ∈ vertices
  fits : vertices.card ≤ fuel

end

omit [DecidableEq V] in
theorem Region.reach (region : Region parents skip fuel a vertices) (path : Reach (Edge parents skip) a u) : u ∈ vertices := by
  induction path with
  | refl => exact region.known
  | tail _ step ih => exact region.closed _ ih _ step

theorem search_scanned (region : Region parents skip fuel a vertices) :
    ∃ n cur fresh, pending vertices (Search.empty : Search V) ≤ n+1 ∧
      cur = (parents a).foldl (relax skip (fun w s => (strongConnect parents skip n w s).1) a) (Search.empty.push a) ∧
      Scanned (Edge parents skip) a Search.empty cur fresh (parents a) ∧ search parents skip fuel a = fresh ++ [a] := by
  have some := Finset.card_pos.mpr ⟨a,region.known⟩
  obtain ⟨n,count⟩ : ∃ n, fuel = n+1 := Nat.exists_eq_succ_of_ne_zero (by have := region.fits; omega)
  have few : pending vertices (Search.empty : Search V) ≤ n+1 := by
    rw [← count]
    exact (Finset.card_filter_le _ _).trans region.fits
  have serves : Serves parents skip vertices n _ := strongConnect_serves region.closed n
  obtain ⟨fresh,scan⟩ := loop_scanned region.closed Sound.empty region.known rfl serves few
  refine ⟨n,_,fresh,few,rfl,scan,?_⟩
  have root := Nat.le_zero.mp scan.low_le
  simp only [search,count,strongConnect,finish_pop scan root]

def Linked (parents : V → List V) (a u : V) : Prop :=
  Reach (fun x y => y ∈ parents x) a u ∧ Reach (fun x y => y ∈ parents x) u a

omit [DecidableEq V] in
theorem Linked.symm (linked : Linked parents a u) : Linked parents u a := ⟨linked.2,linked.1⟩

omit [DecidableEq V] in
theorem linked_path (whole : ∀ u, Linked parents a u → skip u = false) (path : Reach (fun x y => y ∈ parents x) x y)
    (first : Linked parents a x) (last : Linked parents a y) : Reach (Edge parents skip) x y := by
  induction path using Relation.ReflTransGen.head_induction_on with
  | refl => exact .refl
  | head step rest ih =>
    have middle : Linked parents a _ := ⟨first.1.tail step,rest.trans last.2⟩
    exact (ih middle).head ⟨step,whole _ middle⟩

omit [DecidableEq V] in
theorem edge_path (path : Reach (Edge parents skip) x y) : Reach (fun x y => y ∈ parents x) x y :=
  Relation.ReflTransGen.mono (fun _ _ step => step.1) _ _ path

omit [DecidableEq V] in
theorem linked_iff (whole : ∀ u, Linked parents a u → skip u = false) :
    Linked parents a u ↔ Reach (Edge parents skip) a u ∧ Reach (Edge parents skip) u a := by
  refine ⟨?_,?_⟩
  · intro linked
    exact ⟨linked_path whole linked.1 ⟨.refl,.refl⟩ linked,linked_path whole linked.2 linked ⟨.refl,.refl⟩⟩
  · rintro ⟨down,back⟩
    exact ⟨edge_path down,edge_path back⟩

section
variable (region : Region parents skip fuel a vertices)
include region

theorem search_mem :
    u ∈ search parents skip fuel a ↔ Reach (Edge parents skip) a u ∧ Reach (Edge parents skip) u a := by
  obtain ⟨_,cur,fresh,_,_,scan,result⟩ := search_scanned region
  have stack : cur.stack = fresh ++ [a] := scan.stack
  rw [result]
  refine ⟨?_,?_⟩
  · intro listed
    rcases mem_append.mp listed with above | last
    · have visited : cur.indexes u ≠ none := scan.sound.visited (by rw [stack]; exact listed)
      refine ⟨scan.reached u rfl visited,?_⟩
      rcases scan.home u above with back | ⟨x,deep,_⟩
      · exact back
      · cases deep
    · cases mem_singleton.mp last
      exact ⟨.refl,.refl⟩
  rintro ⟨down,back⟩
  have visited : cur.indexes u ≠ none := by
    induction down with
    | refl => simp [scan.own]
    | tail _ step ih =>
      rename_i x y _
      have before := ih (back.head step)
      by_cases same : x = a
      · subst same
        exact scan.scanned y step.1 step
      · exact scan.finished x same rfl before y step
  by_contra off
  rw [← stack] at off
  apply (scan.sound.finished_reach visited off back).2
  rw [stack]
  exact mem_append_right _ mem_cons_self

theorem search_nodup : (search parents skip fuel a).Nodup := by
  obtain ⟨_,_,_,_,_,scan,result⟩ := search_scanned region
  have stack := scan.stack.trans result.symm
  rw [← stack]
  refine scan.sound.ordered.imp_of_mem ?_
  intro u w on _ order same
  obtain ⟨i,indexed⟩ := scan.sound.placed u on
  exact Nat.lt_irrefl i (order i i indexed (same ▸ indexed))

theorem search_last :
    ∃ before, search parents skip fuel a = before ++ [a] := by
  obtain ⟨_,_,fresh,_,_,_,result⟩ := search_scanned region
  exact ⟨fresh,result⟩

theorem search_walk
    (component : Component parents skip a inside) (wanted : ∀ u, inside u = true → skip u = false) :
    Walk parents inside (parents a) [a] (search parents skip fuel a) := by
  obtain ⟨n,cur,_,_,shape,scan,result⟩ := search_scanned region
  have less := pending_push region.known (rfl : (Search.empty : Search V).indexes a = none)
  have serves : Serves parents skip vertices n _ := strongConnect_serves region.closed n
  have entered : ∀ u ∈ parents a, u ∈ parents a ∧ (skip u = false → u ∈ vertices) :=
    fun u listed => ⟨listed,fun wanted => region.closed a region.known u ⟨listed,wanted⟩⟩
  have walk := (Scanned.start Sound.empty rfl).walk Sound.empty rfl serves (strongConnect_walks region.closed component wanted n)
    component wanted mem_cons_self .refl entered (by omega)
  have first : (Search.empty.push a).stack.filter inside = [a] := by
    have : inside a = true := (component a).mpr ⟨.refl,.refl⟩
    simp [Search.push,Search.empty,this]
  have all : ((search parents skip fuel a).filter inside) = search parents skip fuel a := by
    apply List.filter_eq_self.mpr
    intro u listed
    exact (component u).mpr ((search_mem region).mp listed)
  have stack : cur.stack = search parents skip fuel a := scan.stack.trans result.symm
  rw [first,← shape,stack,all] at walk
  exact walk

-- The order of a component depends on the vertex the search started from and on
-- nothing else: neither on what was known before nor on what else there is.
theorem search_unique {skip' : V → Bool} (region' : Region parents skip' fuel' a vertices')
    (whole : ∀ u, Linked parents a u → skip u = false) (whole' : ∀ u, Linked parents a u → skip' u = false) :
    search parents skip fuel a = search parents skip' fuel' a := by
  have mem : ∀ u, decide (u ∈ search parents skip fuel a) = true ↔ Linked parents a u := by
    intro u
    rw [decide_eq_true_iff,search_mem region,linked_iff whole]
  have first := search_walk region (fun u => (mem u).trans (linked_iff whole)) (fun u inside => whole u ((mem u).mp inside))
  have second := search_walk region' (fun u => (mem u).trans (linked_iff whole')) (fun u inside => whole' u ((mem u).mp inside))
  exact first.unique second

theorem search_path (first : x ∈ search parents skip fuel a)
    (last : y ∈ search parents skip fuel a) : Reach (fun u w => w ∈ parents u ∧ w ∈ search parents skip fuel a) x y := by
  have stays : ∀ x y, Reach (Edge parents skip) x y → x ∈ search parents skip fuel a → y ∈ search parents skip fuel a →
      Reach (fun u w => w ∈ parents u ∧ w ∈ search parents skip fuel a) x y := by
    intro x y path first last
    induction path using Relation.ReflTransGen.head_induction_on with
    | refl => exact .refl
    | head step rest ih =>
      have reached := (search_mem region).mp first
      have back := (search_mem region).mp last
      have middle := (search_mem region).mpr ⟨reached.1.tail step,rest.trans back.2⟩
      exact (ih middle).head ⟨step.1,middle⟩
  have start : a ∈ search parents skip fuel a := (search_mem region).mpr ⟨.refl,.refl⟩
  exact (stays x a ((search_mem region).mp first).2 first start).trans (stays a y ((search_mem region).mp last).1 start last)

end

end

end DbExp.StrongConnect
