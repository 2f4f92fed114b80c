import Mathlib.Data.List.Nodup

namespace DbExp.LinkedList
open Function List

-- Items linked in lists through one table of next pointers. A list starts at a place of
-- its own; the other places are those of the items.
section
variable {ρ ι : Type} {node : ι → ρ} {next next' : ρ → Option ι}

def Path (node : ι → ρ) (next : ρ → Option ι) : ρ → List ι → Option ι → Prop
  | r,[],o => next r = o
  | r,x :: xs,o => next r = some x ∧ Path node next (node x) xs o

def lastNode (node : ι → ρ) (r : ρ) (xs : List ι) : ρ := xs.getLast?.elim r node

theorem lastNode_cons (r : ρ) (x : ι) (xs : List ι) : lastNode node r (x :: xs) = lastNode node (node x) xs := by
  cases xs with
  | nil => rfl
  | cons y ys => simp [lastNode,List.getLast?_cons_cons,List.getLast?_eq_some_getLast (cons_ne_nil y ys)]

theorem lastNode_mem (r : ρ) (xs : List ι) : lastNode node r xs ∈ r :: xs.map node := by
  induction xs generalizing r with
  | nil => simp [lastNode]
  | cons x xs ih =>
    rw [lastNode_cons]
    exact mem_cons_of_mem r (ih (node x))

theorem path_append : Path node next r (xs ++ x :: ys) o ↔ Path node next r xs (some x) ∧ Path node next (node x) ys o := by
  induction xs generalizing r with
  | nil => rfl
  | cons y rest ih =>
    simp only [cons_append,Path,ih]
    tauto

theorem Path.enter (path : Path node next a xs o) (start : next' r = next a) (same : ∀ y ∈ xs, next' (node y) = next (node y)) :
    Path node next' r xs o := by
  induction xs generalizing a r with
  | nil => exact start.trans path
  | cons x xs ih =>
    refine ⟨start.trans path.1,ih path.2 (same x (by simp)) ?_⟩
    exact fun y mem => same y (mem_cons_of_mem x mem)

theorem Path.redirect [DecidableEq ρ] (path : Path node next r xs o) (once : (r :: xs.map node).Nodup) (o' : Option ι) :
    Path node (update next (lastNode node r xs) o') r xs o' := by
  induction xs generalizing r with
  | nil => exact update_self _ _ _
  | cons x xs ih =>
    rw [lastNode_cons]
    obtain ⟨fresh,rest⟩ := nodup_cons.mp once
    refine ⟨?_,ih path.2 rest⟩
    rw [update_of_ne]
    · exact path.1
    · rintro rfl
      exact fresh (lastNode_mem _ _)

end

section
variable {ρ ι η : Type}

structure Places (node : ι → ρ) (start : η → ρ) : Prop where
  items : node.Injective
  heads : start.Injective
  apart : ∀ h x, start h ≠ node x

structure Lists (node : ι → ρ) (start : η → ρ) (next : ρ → Option ι) (lists : η → List ι) : Prop where
  path : ∀ h, Path node next (start h) (lists h) none
  once : ∀ h, (lists h).Nodup
  apart : ∀ h h' x, x ∈ lists h → x ∈ lists h' → h = h'

variable {node : ι → ρ} {start : η → ρ} {next : ρ → Option ι} {lists : η → List ι} {h g : η} {xs : List ι}

theorem Places.nodup (places : Places node start) (h : η) (once : xs.Nodup) : (start h :: xs.map node).Nodup := by
  refine nodup_cons.mpr ⟨?_,once.map places.items⟩
  intro mem
  obtain ⟨x,_,same⟩ := mem_map.mp mem
  exact places.apart h x same.symm

theorem Places.ne (places : Places node start) (mem : y ∈ xs) (absent : x ∉ xs) : node y ≠ node x := by
  intro same
  rw [places.items same] at mem
  exact absent mem

theorem Lists.last_other (places : Places node start) (all : Lists node start next lists) (other : h ≠ g) (sub : ∀ x ∈ xs, x ∈ lists g) :
    start h ≠ lastNode node (start g) xs ∧ ∀ x ∈ lists h, node x ≠ lastNode node (start g) xs := by
  have place : lastNode node (start g) xs ∈ start g :: xs.map node := lastNode_mem (start g) xs
  refine ⟨?_,?_⟩
  · intro same
    rw [← same] at place
    rcases mem_cons.mp place with head | item
    · exact other (places.heads head)
    · obtain ⟨x,_,same⟩ := mem_map.mp item
      exact places.apart h x same.symm
  intro x mem same
  rw [← same] at place
  rcases mem_cons.mp place with head | item
  · exact places.apart g x head.symm
  · obtain ⟨_,inside,same⟩ := mem_map.mp item
    rw [places.items same] at inside
    exact other (all.apart h g x mem (sub x inside))

variable [DecidableEq η]

-- One item goes from the list of `h` to that of `g`; the other lists keep their places.
theorem Lists.move (all : Lists node start next lists) (other : h ≠ g) (taken : lists h ~ x :: xs) (given : ys ~ x :: lists g)
    (first : Path node next' (start h) xs none) (second : Path node next' (start g) ys none)
    (kept : ∀ f, f ≠ h → f ≠ g → next' (start f) = next (start f) ∧ ∀ y ∈ lists f, next' (node y) = next (node y)) :
    Lists node start next' (update (update lists h xs) g ys) := by
  obtain ⟨fresh,once⟩ := nodup_cons.mp (taken.nodup_iff.mp (all.once h))
  have mine : x ∈ lists h := taken.mem_iff.mpr mem_cons_self
  have away : ∀ f, f ≠ h → x ∉ lists f := fun f different mem => different (all.apart f h x mem mine)
  have each : ∀ f, Path node next' (start f) (update (update lists h xs) g ys f) none ∧ (update (update lists h xs) g ys f).Nodup ∧
      ∀ y, y ∈ update (update lists h xs) g ys f ↔ y = x ∧ f = g ∨ y ≠ x ∧ y ∈ lists f := by
    intro f
    by_cases isG : f = g
    · subst isG
      rw [update_self]
      refine ⟨second,given.nodup_iff.mpr (nodup_cons.mpr ⟨away f other.symm,all.once f⟩),fun y => ?_⟩
      rw [given.mem_iff,mem_cons]
      grind
    rw [update_of_ne isG]
    by_cases isH : f = h
    · subst isH
      rw [update_self]
      refine ⟨first,once,fun y => ?_⟩
      rw [taken.mem_iff,mem_cons]
      grind
    · rw [update_of_ne isH]
      obtain ⟨head,items⟩ := kept f isH isG
      exact ⟨(all.path f).enter head items,all.once f,fun y => by grind⟩
  refine ⟨fun f => (each f).1,fun f => (each f).2.1,?_⟩
  intro f e y mem mem'
  rcases ((each f).2.2 y).mp mem with ⟨rfl,rfl⟩ | ⟨different,old⟩
  · rcases ((each e).2.2 y).mp mem' with ⟨_,rfl⟩ | ⟨different,_⟩
    · rfl
    · exact absurd rfl different
  · rcases ((each e).2.2 y).mp mem' with ⟨same,_⟩ | ⟨_,old'⟩
    · exact absurd same different
    · exact all.apart f e y old old'

variable [DecidableEq ρ]

section
variable (places : Places node start) (all : Lists node start next lists) (other : h ≠ g)
include places all other

theorem Lists.moveToEnd (first : lists h = x :: rest) :
    Lists node start (update (update (update next (start h) (next (node x))) (node x) none)
      (lastNode node (start g) (lists g)) (some x)) (update (update lists h rest) g (lists g ++ [x])) := by
  have onceH := all.once h
  rw [first] at onceH
  have mine : x ∈ lists h := by simp [first]
  have away : ∀ f, f ≠ h → x ∉ lists f := fun f different mem => different (all.apart f h x mem mine)
  generalize ending : lastNode node (start g) (lists g) = last
  have lastOther : ∀ f, f ≠ g → start f ≠ last ∧ ∀ y ∈ lists f, node y ≠ last := by
    intro f different
    rw [← ending]
    exact all.last_other places different (fun _ => id)
  refine all.move other (.of_eq first) (perm_append_singleton x _) ?_ ?_ ?_
  · have path := all.path h
    rw [first] at path
    refine path.2.enter ?_ ?_
    · rw [update_of_ne (lastOther h other).1,update_of_ne (places.apart h x),update_self]
    · intro y mem
      rw [update_of_ne ((lastOther h other).2 y (by simp [first,mem])),
        update_of_ne (places.ne mem (nodup_cons.mp onceH).1),update_of_ne (places.apart h y).symm]
  · refine path_append.mpr ⟨?_,?_⟩
    · rw [← ending]
      refine Path.redirect (o := none) ?_ (places.nodup g (all.once g)) (some x)
      refine (all.path g).enter ?_ ?_
      · rw [update_of_ne (places.apart g x),update_of_ne (fun same => other (places.heads same).symm)]
      · intro y mem
        rw [update_of_ne (places.ne mem (away g other.symm)),update_of_ne (places.apart h y).symm]
    · change update _ _ _ _ = _
      rw [update_of_ne ((lastOther h other).2 x mine),update_self]
  intro f isH isG
  refine ⟨?_,?_⟩
  · rw [update_of_ne (lastOther f isG).1,update_of_ne (places.apart f x),
      update_of_ne (fun same => isH (places.heads same))]
  · intro y mem
    rw [update_of_ne ((lastOther f isG).2 y mem),update_of_ne (places.ne mem (away f isH)),
      update_of_ne (places.apart h y).symm]

theorem Lists.moveToFront (final : lists h = ys ++ [x]) :
    Lists node start (update (update (update next (lastNode node (start h) ys) none) (node x) (next (start g)))
      (start g) (some x)) (update (update lists h ys) g (x :: lists g)) := by
  have taken : lists h ~ x :: ys := by
    rw [final]
    exact perm_append_singleton x ys
  obtain ⟨fresh,onceY⟩ := nodup_cons.mp (taken.nodup_iff.mp (all.once h))
  have mine : x ∈ lists h := by simp [final]
  have away : ∀ f, f ≠ h → x ∉ lists f := fun f different mem => different (all.apart f h x mem mine)
  generalize ending : lastNode node (start h) ys = last
  have lastOther : ∀ f, f ≠ h → start f ≠ last ∧ ∀ y ∈ lists f, node y ≠ last := by
    intro f different
    rw [← ending]
    exact all.last_other places different (fun y mem => by simp [final,mem])
  refine all.move other taken (.refl _) ?_ ⟨update_self _ _ _,(all.path g).enter ?_ ?_⟩ ?_
  · have path := all.path h
    rw [final,path_append] at path
    have turned := path.1.redirect (places.nodup h onceY) none
    rw [ending] at turned
    refine turned.enter ?_ ?_
    · rw [update_of_ne (fun same => other (places.heads same)),update_of_ne (places.apart h x)]
    · intro y mem
      rw [update_of_ne (places.apart g y).symm,update_of_ne (places.ne mem fresh)]
  · rw [update_of_ne (places.apart g x).symm,update_self]
  · intro y mem
    rw [update_of_ne (places.apart g y).symm,update_of_ne (places.ne mem (away g other.symm)),
      update_of_ne ((lastOther g other.symm).2 y mem)]
  intro f isH isG
  refine ⟨?_,?_⟩
  · rw [update_of_ne (fun same => isG (places.heads same)),update_of_ne (places.apart f x),
      update_of_ne (lastOther f isH).1]
  · intro y mem
    rw [update_of_ne (places.apart g y).symm,update_of_ne (places.ne mem (away f isH)),
      update_of_ne ((lastOther f isH).2 y mem)]

end

end

-- Items that also point back: the first of a chain to what is before it.
section
variable {ι : Type} {prev next prev' next' : ι → Option ι} {xs ys : List ι} {before before' after after' : Option ι}

def Chain (prev next : ι → Option ι) : Option ι → List ι → Option ι → Prop
  | _,[],_ => True
  | before,x :: xs,after => prev x = before ∧ next x = xs.head?.or after ∧ Chain prev next (some x) xs after

theorem chain_append : Chain prev next before (xs ++ ys) after ↔
    Chain prev next before xs (ys.head?.or after) ∧ Chain prev next (xs.getLast?.or before) ys after := by
  induction xs generalizing before with
  | nil => simp [Chain]
  | cons x xs ih =>
    have last : (x :: xs).getLast?.or before = xs.getLast?.or (some x) := by
      rw [getLast?_cons]
      cases xs.getLast? <;> rfl
    rw [cons_append,last]
    simp only [Chain,ih,head?_append,Option.or_assoc,and_assoc]

section
variable (chain : Chain prev next before xs after)
include chain

theorem Chain.congr (same : ∀ x ∈ xs, prev' x = prev x ∧ next' x = next x) :
    Chain prev' next' before xs after := by
  induction xs generalizing before with
  | nil => trivial
  | cons x xs ih =>
    obtain ⟨back,forth⟩ := same x mem_cons_self
    exact ⟨back.trans chain.1,forth.trans chain.2.1,ih chain.2.2 fun y mem => same y (mem_cons_of_mem x mem)⟩

theorem Chain.enter (once : xs.Nodup) (first : ∀ x ∈ xs.head?, prev' x = before')
    (same : ∀ x ∈ xs, next' x = next x ∧ (some x ≠ xs.head? → prev' x = prev x)) : Chain prev' next' before' xs after := by
  cases xs with
  | nil => trivial
  | cons x xs =>
    refine ⟨first x rfl,(same x mem_cons_self).1.trans chain.2.1,chain.2.2.congr fun y mem => ?_⟩
    obtain ⟨forth,back⟩ := same y (mem_cons_of_mem x mem)
    refine ⟨back ?_,forth⟩
    rintro ⟨⟩
    exact (nodup_cons.mp once).1 mem

theorem Chain.leave (once : xs.Nodup) (last : ∀ x ∈ xs.getLast?, next' x = after')
    (same : ∀ x ∈ xs, prev' x = prev x ∧ (some x ≠ xs.getLast? → next' x = next x)) : Chain prev' next' before xs after' := by
  induction xs generalizing before with
  | nil => trivial
  | cons x xs ih =>
    obtain ⟨fresh,once⟩ := nodup_cons.mp once
    cases xs with
    | nil => exact ⟨(same x mem_cons_self).1.trans chain.1,last x rfl,trivial⟩
    | cons y ys =>
      rw [getLast?_cons_cons] at last same
      refine ⟨(same x mem_cons_self).1.trans chain.1,((same x mem_cons_self).2 ?_).trans chain.2.1,ih chain.2.2 once last ?_⟩
      · intro final
        exact fresh (mem_of_getLast? final.symm)
      · exact fun z mem => same z (mem_cons_of_mem x mem)

end

theorem Chain.push (chain : Chain prev next none xs none) (once : xs.Nodup) (own : prev' x = none ∧ next' x = xs.head?)
    (first : ∀ y ∈ xs.head?, prev' y = some x) (same : ∀ y ∈ xs, next' y = next y ∧ (some y ≠ xs.head? → prev' y = prev y)) :
    Chain prev' next' none (x :: xs) none :=
  ⟨own.1,by rw [own.2,Option.or_none],chain.enter once first same⟩

theorem Chain.ends (chain : Chain prev next none (xs ++ x :: ys) none) : prev x = xs.getLast? ∧ next x = ys.head? := by
  obtain ⟨_,back,forth,_⟩ := chain_append.mp chain
  rw [Option.or_none] at back forth
  exact ⟨back,forth⟩

theorem Chain.take [DecidableEq ι] (chain : Chain prev next none (xs ++ x :: ys) none) (once : (xs ++ x :: ys).Nodup)
    (back : ∀ y ∈ xs ++ ys, prev' y = if some y = ys.head? then xs.getLast? else prev y)
    (forth : ∀ y ∈ xs ++ ys, next' y = if some y = xs.getLast? then ys.head? else next y) : Chain prev' next' none (xs ++ ys) none := by
  obtain ⟨left,_,_,right⟩ := chain_append.mp chain
  obtain ⟨onceX,onceY,apart⟩ := nodup_append'.mp once
  replace onceY := (nodup_cons.mp onceY).2
  have apart : ∀ y ∈ xs, y ∉ ys := fun y mem mem' => apart mem (mem_cons_of_mem x mem')
  refine chain_append.mpr ⟨left.leave onceX (fun y last => ?_) fun y mem => ⟨?_,fun other => ?_⟩,
    right.enter onceY (fun y first => ?_) fun y mem => ⟨?_,fun other => ?_⟩⟩
  · rw [forth y (mem_append_left ys (mem_of_getLast? last)),if_pos last.symm,Option.or_none]
  · rw [back y (mem_append_left ys mem),if_neg]
    exact fun first => apart y mem (mem_of_mem_head? first.symm)
  · rw [forth y (mem_append_left ys mem),if_neg other]
  · rw [back y (mem_append_right xs (mem_of_mem_head? first)),if_pos first.symm,Option.or_none]
  · rw [forth y (mem_append_right xs mem),if_neg]
    exact fun last => apart y (mem_of_getLast? last.symm) mem
  · rw [back y (mem_append_right xs mem),if_neg other]

end

end DbExp.LinkedList
