import DbExp.Foundation.LinkedList
import DbExp.Foundation.Tiling
import DbExp.Mica.Store

namespace DbExp.Mica.Store
open Function List
open LinkedList Tiling

-- A chunk is held while an allocation or a deallocation has it in hand: it is in no list
-- and its tags say nothing.
inductive Status where
  | free
  | occupied
  | held
  deriving DecidableEq

abbrev Chunk := Block Status

def Tagged (t : Store) (b : Chunk) : Prop :=
  t.data b.start = tagVec b.size (b.status = .occupied) ∧ t.data (b.start+b.size-1) = tagVec b.size (b.status = .occupied)

-- The free chunks of each class, as the words behind their first tags link them.
structure FreeLists (t : Store) (chunks : List Chunk) (free : Nat → List Nat) : Prop where
  listed : ∀ cl s, s ∈ free cl ↔ ∃ b ∈ chunks, b.status = .free ∧ b.start = s ∧ sizeToClassRounddown b.size = cl
  once : ∀ cl, (free cl).Nodup
  heads : ∀ cl, t.freeHead cl = (free cl).head?
  chained : ∀ cl, Chain t.prevChunk t.nextChunk none (free cl) none

structure Heap (c : Config) (t : Store) (chunks : List Chunk) : Prop where
  tiled : Tiled 0 c.size chunks
  large : ∀ b ∈ chunks, minSize ≤ b.size
  tagged : ∀ b ∈ chunks, b.status ≠ .held → Tagged t b
  lists : ∃ free, FreeLists t chunks free

def Kept (t t' : Store) (b : Chunk) : Prop := ∀ p, b.start ≤ p → p < b.start+b.size → t'.data p = t.data p

variable {c : Config} {t t' : Store} {chunks xs ys ys' zs : List Chunk} {a b : Chunk} {free : Nat → List Nat}

theorem Kept.trans (first : Kept t t' b) (second : Kept t' t'' b) : Kept t t'' b :=
  fun p low high => (second p low high).trans (first p low high)

section
variable (heap : Heap c t chunks)
include heap

theorem Heap.start_apart (one : a ∈ chunks) (other : b ∈ chunks) :
    a = b ∨ a.start+4 ≤ b.start ∧ a.start+a.size ≤ b.start ∨ b.start+4 ≤ a.start ∧ b.start+b.size ≤ a.start := by
  have := heap.large a one
  have := heap.large b other
  simp only [minSize] at *
  rcases heap.tiled.apart one other with same | before | after
  · exact .inl same
  · exact .inr (.inl (by omega))
  · exact .inr (.inr (by omega))

section
variable (lists : FreeLists t chunks free)
include lists

theorem FreeLists.not_listed (mem : b ∈ chunks) (status : b.status ≠ .free) (cl : Nat) :
    b.start ∉ free cl := by
  intro listed
  obtain ⟨_,other,empty,start,_⟩ := (lists.listed cl b.start).mp listed
  rw [heap.tiled.unique other mem start] at empty
  exact status empty

theorem FreeLists.apart (one : s ∈ free cl) (other : s ∈ free cl') : cl = cl' := by
  obtain ⟨a,mem,_,start,rfl⟩ := (lists.listed cl s).mp one
  obtain ⟨b,mem',_,start',rfl⟩ := (lists.listed cl' s).mp other
  rw [heap.tiled.unique mem mem' (start.trans start'.symm)]

theorem FreeLists.far (listed : s ∈ free cl) (mem : a ∈ chunks) :
    a.start = s ∧ a.status = .free ∨ s+4 ≤ a.start ∨ a.start+4 ≤ s ∧ a.start+a.size ≤ s := by
  obtain ⟨b,other,empty,rfl,_⟩ := (lists.listed cl s).mp listed
  rcases heap.start_apart mem other with rfl | before | after
  · exact .inl ⟨rfl,empty⟩
  · exact .inr (.inr before)
  · exact .inr (.inl after.1)

theorem FreeLists.near (listed : s ∈ free cl) (listed' : s' ∈ free cl') :
    s = s' ∨ s+4 ≤ s' ∨ s'+4 ≤ s := by
  obtain ⟨b,mem,_,rfl,_⟩ := (lists.listed cl s).mp listed
  have := lists.far heap listed' mem
  omega

end

end

theorem Heap.outside (heap : Heap c t (xs ++ ys ++ zs)) (inside : a ∈ ys) (other : b ∈ xs ∨ b ∈ zs) :
    0 < b.size ∧ (b.start+b.size ≤ a.start ∨ a.start+a.size ≤ b.start) := by
  rcases other with left | right
  · have order := (append_assoc xs ys zs ▸ heap.tiled).before left (mem_append_left zs inside)
    have size := (heap.tiled.bounds (b := b) (by simp [left])).2.1
    exact ⟨size,.inl order⟩
  · have order := heap.tiled.before (mem_append_right xs inside) right
    have size := (heap.tiled.bounds (b := b) (by simp [right])).2.1
    exact ⟨size,.inr order⟩

theorem Heap.change (heap : Heap c t (xs ++ ys ++ zs)) (free' : Nat → List Nat)
    (again : ∀ m n, Tiled m n ys → Tiled m n ys') (large : ∀ b ∈ ys', minSize ≤ b.size)
    (frame : ∀ b, b ∈ xs ∨ b ∈ zs → t'.data b.start = t.data b.start ∧ t'.data (b.start+b.size-1) = t.data (b.start+b.size-1))
    (tagged : ∀ b ∈ ys', b.status ≠ .held → Tagged t' b) (lists : FreeLists t (xs ++ ys ++ zs) free)
    (listed : ∀ cl s, s ∈ free' cl ↔ (s ∈ free cl ∧ ∀ b ∈ ys, b.start ≠ s) ∨
      ∃ b ∈ ys', b.status = .free ∧ b.start = s ∧ sizeToClassRounddown b.size = cl)
    (once : ∀ cl, (free' cl).Nodup) (heads : ∀ cl, t'.freeHead cl = (free' cl).head?)
    (chained : ∀ cl, Chain t'.prevChunk t'.nextChunk none (free' cl) none) : Heap c t' (xs ++ ys' ++ zs) := by
  refine ⟨heap.tiled.replace again,?_,?_,free',?_,once,heads,chained⟩
  · intro b mem
    simp only [mem_append] at mem
    rcases mem with (left | middle) | right
    · exact heap.large b (by simp [left])
    · exact large b middle
    · exact heap.large b (by simp [right])
  · intro b mem status
    simp only [mem_append] at mem
    have kept : ∀ b, b ∈ xs ∨ b ∈ zs → b.status ≠ .held → Tagged t' b := by
      intro b outside status
      have old := heap.tagged b (by simp only [mem_append]; tauto) status
      obtain ⟨first,last⟩ := frame b outside
      unfold Tagged
      rw [first,last]
      exact old
    rcases mem with (left | middle) | right
    · exact kept b (.inl left) status
    · exact tagged b middle status
    · exact kept b (.inr right) status
  intro cl s
  rw [listed,lists.listed]
  constructor
  · rintro (⟨⟨b,mem,empty,start,fits⟩,outside⟩ | ⟨b,mem,rest⟩)
    · refine ⟨b,?_,empty,start,fits⟩
      simp only [mem_append] at mem ⊢
      tauto
    · exact ⟨b,by simp [mem],rest⟩
  rintro ⟨b,mem,empty,start,fits⟩
  simp only [mem_append] at mem
  have kept : b ∈ xs ∨ b ∈ zs → ∀ a ∈ ys, a.start ≠ s := by
    intro outside a inside same
    have := heap.outside inside outside
    have := (heap.tiled.bounds (b := a) (by simp [inside])).2.1
    omega
  rcases mem with (left | middle) | right
  · exact .inl ⟨⟨b,by simp [left],empty,start,fits⟩,kept (.inl left)⟩
  · exact .inr ⟨b,middle,empty,start,fits⟩
  · exact .inl ⟨⟨b,by simp [right],empty,start,fits⟩,kept (.inr right)⟩

-- What is done to chunks that are in no list.
theorem Heap.rework (heap : Heap c t (xs ++ ys ++ zs)) (again : ∀ m n, Tiled m n ys → Tiled m n ys') (large : ∀ b ∈ ys', minSize ≤ b.size)
    (busy : ∀ b ∈ ys, b.status ≠ .free) (busy' : ∀ b ∈ ys', b.status ≠ .free) (heads : t'.freeHead = t.freeHead)
    (tagged : ∀ b ∈ ys', b.status ≠ .held → Tagged t' b) (frame : ∀ b, b ∈ xs ∨ b ∈ zs → Kept t t' b) : Heap c t' (xs ++ ys' ++ zs) := by
  obtain ⟨free,lists⟩ := heap.lists
  refine heap.change free again large (fun b other => ?_) tagged lists (fun cl s => ?_) lists.once (heads ▸ lists.heads) (fun cl => ?_)
  · have size := (heap.tiled.bounds (b := b) (by simp only [mem_append]; tauto)).2.1
    exact ⟨frame b other _ (by omega) (by omega),frame b other _ (by omega) (by omega)⟩
  · constructor
    · intro listed
      refine .inl ⟨listed,?_⟩
      rintro b mem rfl
      exact lists.not_listed heap (by simp [mem]) (busy b mem) cl listed
    · rintro (⟨listed,_⟩ | ⟨b,mem,empty,_⟩)
      · exact listed
      · exact absurd empty (busy' b mem)
  · refine (lists.chained cl).congr fun s listed => ?_
    obtain ⟨b,mem,empty,rfl,_⟩ := (lists.listed cl s).mp listed
    have size : 4 ≤ b.size := heap.large b mem
    have other : b ∈ xs ∨ b ∈ zs := by
      simp only [mem_append] at mem
      rcases mem with (left | middle) | right
      · exact .inl left
      · exact absurd empty (busy b middle)
      · exact .inr right
    unfold prevChunk nextChunk
    rw [frame b other (b.start+1) (by omega) (by omega),frame b other (b.start+2) (by omega) (by omega)]
    exact ⟨rfl,rfl⟩

theorem data_setTags (t : Store) (start size : Nat) (occupied : Bool) (first : p ≠ start) (last : p ≠ start+size-1) :
    (t.setTags start size occupied).data p = t.data p := by
  simp [setTags,store,Memory.write,first,last]

theorem tagged_setTags (t : Store) (b : Chunk) (large : minSize ≤ b.size) : Tagged (t.setTags b.start b.size (b.status = .occupied)) b := by
  simp only [minSize] at large
  have apart : b.start ≠ b.start+b.size-1 := by omega
  simp [Tagged,setTags,store,Memory.write,apart]

theorem ofWord_toWord (x : Option Nat) : ofWord (toWord x) = x := by
  cases x <;> simp [ofWord,toWord]

section
variable (t : Store) (s y : Nat) (x : Option Nat)

theorem data_setPrevChunk (other : p ≠ s+1) : (t.setPrevChunk s x).data p = t.data p := update_of_ne other _ _

theorem data_setNextChunk (other : p ≠ s+2) : (t.setNextChunk s x).data p = t.data p := update_of_ne other _ _

theorem prevChunk_setPrevChunk : (t.setPrevChunk s x).prevChunk y = if y = s then x else t.prevChunk y := by
  by_cases same : y = s
  · simp [same,prevChunk,setPrevChunk,store,Memory.write,ofWord_toWord]
  · simp [same,prevChunk,setPrevChunk,store,Memory.write]

theorem nextChunk_setNextChunk : (t.setNextChunk s x).nextChunk y = if y = s then x else t.nextChunk y := by
  by_cases same : y = s
  · simp [same,nextChunk,setNextChunk,store,Memory.write,ofWord_toWord]
  · simp [same,nextChunk,setNextChunk,store,Memory.write]

theorem prevChunk_setNextChunk (apart : y = s ∨ y+4 ≤ s ∨ s+4 ≤ y) : (t.setNextChunk s x).prevChunk y = t.prevChunk y :=
  congrArg ofWord (data_setNextChunk t s x (by omega))

theorem nextChunk_setPrevChunk (apart : y = s ∨ y+4 ≤ s ∨ s+4 ≤ y) : (t.setPrevChunk s x).nextChunk y = t.nextChunk y :=
  congrArg ofWord (data_setPrevChunk t s x (by omega))

end

section
variable (t : Store) (start size y : Nat)

theorem links_insertFreeChunk (large : 4 ≤ size) (own : y = start ∨ y+4 ≤ start ∨ start+size ≤ y)
    (apart : ∀ s ∈ t.freeHead (sizeToClassRounddown size), y = s ∨ y+4 ≤ s ∨ s+4 ≤ y) :
    (t.insertFreeChunk start size).prevChunk y =
        (if some y = t.freeHead (sizeToClassRounddown size) then some start else if y = start then none else t.prevChunk y) ∧
      (t.insertFreeChunk start size).nextChunk y = if y = start then t.freeHead (sizeToClassRounddown size) else t.nextChunk y := by
  have tags : ∀ p, p ≠ start → p ≠ start+size-1 → ofWord ((t.setTags start size false).data p) = ofWord (t.data p) :=
    fun p first last => congrArg ofWord (data_setTags t start size false first last)
  have prev : (t.setTags start size false).prevChunk y = t.prevChunk y := tags (y+1) (by omega) (by omega)
  have next : (t.setTags start size false).nextChunk y = t.nextChunk y := tags (y+2) (by omega) (by omega)
  have own' : y = start ∨ y+4 ≤ start ∨ start+4 ≤ y := by omega
  let t1 := ((t.setTags start size false).setPrevChunk start none).setNextChunk start (t.freeHead (sizeToClassRounddown size))
  have first : t1.prevChunk y = if y = start then none else t.prevChunk y := by
    rw [prevChunk_setNextChunk _ _ _ _ own',prevChunk_setPrevChunk,prev]
  have second : t1.nextChunk y = if y = start then t.freeHead (sizeToClassRounddown size) else t.nextChunk y := by
    rw [nextChunk_setNextChunk,nextChunk_setPrevChunk _ _ _ _ own',next]
  rw [← first,← second]
  unfold insertFreeChunk
  dsimp only
  cases head : t.freeHead (sizeToClassRounddown size) with
  | none => exact ⟨by simp [t1,head,prevChunk],by simp [t1,head,nextChunk]⟩
  | some h =>
    have there := prevChunk_setPrevChunk t1 h y (some start)
    have here := nextChunk_setPrevChunk t1 h y (some start) (apart h head)
    simp only [Option.some.injEq]
    rw [← there,← here]
    simp only [t1,head]
    exact ⟨rfl,rfl⟩

theorem data_insertFreeChunk (own : y ≠ start+1 ∧ y ≠ start+2) (apart : ∀ s ∈ t.freeHead (sizeToClassRounddown size), y ≠ s+1) :
    (t.insertFreeChunk start size).data y = (t.setTags start size false).data y := by
  unfold insertFreeChunk
  dsimp only
  split
  · rw [data_setNextChunk _ _ _ own.2,data_setPrevChunk _ _ _ own.1]
  next h head => rw [data_setPrevChunk _ _ _ (apart h head),data_setNextChunk _ _ _ own.2,data_setPrevChunk _ _ _ own.1]

theorem freeHead_insertFreeChunk :
    (t.insertFreeChunk start size).freeHead = update t.freeHead (sizeToClassRounddown size) (some start) := by
  unfold insertFreeChunk
  dsimp only
  split <;> rfl

variable {t start} {prev next : Option Nat} (back : t.prevChunk start = prev) (forth : t.nextChunk start = next)
include back forth

theorem links_removeFreeChunk (apart : ∀ s, s ∈ prev ∨ s ∈ next → y = s ∨ y+4 ≤ s ∨ s+4 ≤ y) :
    (t.removeFreeChunkFromFreeList start size).prevChunk y = (if some y = next then prev else t.prevChunk y) ∧
      (t.removeFreeChunkFromFreeList start size).nextChunk y = if some y = prev then next else t.nextChunk y := by
  unfold removeFreeChunkFromFreeList
  rw [back,forth]
  cases prev with
  | none =>
    cases next with
    | none => simp [prevChunk,nextChunk]
    | some n =>
      dsimp only
      rw [prevChunk_setPrevChunk,nextChunk_setPrevChunk _ _ _ _ (apart n (.inr rfl))]
      simp [prevChunk,nextChunk]
  | some p =>
    cases next with
    | none =>
      dsimp only
      rw [prevChunk_setNextChunk _ _ _ _ (apart p (.inl rfl)),nextChunk_setNextChunk]
      simp
    | some n =>
      dsimp only
      rw [prevChunk_setPrevChunk,nextChunk_setPrevChunk _ _ _ _ (apart n (.inr rfl)),
        prevChunk_setNextChunk _ _ _ _ (apart p (.inl rfl)),nextChunk_setNextChunk]
      simp

theorem data_removeFreeChunk (apart : (∀ s ∈ prev, y ≠ s+2) ∧ ∀ s ∈ next, y ≠ s+1) :
    (t.removeFreeChunkFromFreeList start size).data y = t.data y := by
  unfold removeFreeChunkFromFreeList
  rw [back,forth]
  cases prev with
  | none =>
    cases next with
    | none => rfl
    | some n => exact data_setPrevChunk _ _ _ (apart.2 n rfl)
  | some p =>
    cases next with
    | none => exact data_setNextChunk _ _ _ (apart.1 p rfl)
    | some n => exact (data_setPrevChunk _ _ _ (apart.2 n rfl)).trans (data_setNextChunk _ _ _ (apart.1 p rfl))

theorem freeHead_removeFreeChunk : (t.removeFreeChunkFromFreeList start size).freeHead =
    if prev = none then update t.freeHead (sizeToClassRounddown size) next else t.freeHead := by
  subst back forth
  unfold removeFreeChunkFromFreeList
  dsimp only
  split <;> split <;> simp [*] <;> rfl

end

theorem Heap.middle (heap : Heap c t (xs ++ [b] ++ zs)) : minSize ≤ b.size := heap.large b (by simp)

-- One chunk enters or leaves the list of its class. Only words of free chunks between
-- their tags are written besides its own.
theorem Heap.relist (heap : Heap c t (xs ++ [b] ++ zs)) (list : List Nat) (lists : FreeLists t (xs ++ [b] ++ zs) free) {status : Status}
    (own : sizeToClassRounddown b.size = cl) (listed : ∀ s, s ∈ list ↔ s ∈ free cl ∧ b.start ≠ s ∨ status = .free ∧ b.start = s)
    (once : list.Nodup) (heads : t'.freeHead = update t.freeHead cl list.head?) (chain : Chain t'.prevChunk t'.nextChunk none list none)
    (others : ∀ cl' y, cl' ≠ cl → y ∈ free cl' → t'.prevChunk y = t.prevChunk y ∧ t'.nextChunk y = t.nextChunk y)
    (tagged : status ≠ .held → Tagged t' { b with status := status })
    (data : ∀ a, a ∈ xs ∨ a ∈ zs → ∀ p, a.start ≤ p → p < a.start+a.size → (a.status = .free → p = a.start ∨ p+1 = a.start+a.size) →
      t'.data p = t.data p) :
    Heap c t' (xs ++ [{ b with status := status }] ++ zs) ∧ ∀ a, a ∈ xs ∨ a ∈ zs → a.status ≠ .free → Kept t t' a := by
  refine ⟨heap.change (update free cl list) (fun m n tiled => tiled) (forall_mem_singleton.mpr heap.middle) ?_
    (forall_mem_singleton.mpr tagged) lists ?_ ?_ ?_ ?_,fun a other kind p low high => data a other p low high fun empty => absurd empty kind⟩
  · intro a other
    have size : 4 ≤ a.size := heap.large a (by simp only [mem_append]; tauto)
    exact ⟨data a other _ (by omega) (by omega) (by omega),data a other _ (by omega) (by omega) (by omega)⟩
  all_goals intro cl'; by_cases same : cl' = cl
  · subst same
    simp [listed,own]
  · intro s
    simp only [update_of_ne same,mem_singleton,exists_eq_left,forall_eq,own,Ne.symm same,and_false,or_false]
    refine ⟨fun there => ⟨there,?_⟩,fun both => both.1⟩
    rintro rfl
    obtain ⟨a,mem,_,start,rfl⟩ := (lists.listed cl' b.start).mp there
    rw [heap.tiled.unique mem (by simp) start] at same
    exact same own
  · rw [same,update_self]
    exact once
  · rw [update_of_ne same]
    exact lists.once cl'
  · rw [heads,same,update_self,update_self]
  · rw [heads,update_of_ne same,update_of_ne same,lists.heads]
  · rw [same,update_self]
    exact chain
  · rw [update_of_ne same]
    exact (lists.chained cl').congr fun y there => others cl' y same there

theorem Heap.remove (heap : Heap c t (xs ++ [b] ++ zs)) (empty : b.status = .free) :
    Heap c (t.removeFreeChunkFromFreeList b.start b.size) (xs ++ [{ b with status := .held }] ++ zs) ∧
      ∀ a, a ∈ xs ∨ a ∈ zs → a.status ≠ .free → Kept t (t.removeFreeChunkFromFreeList b.start b.size) a := by
  obtain ⟨free,lists⟩ := heap.lists
  have mine : b.start ∈ free (sizeToClassRounddown b.size) := (lists.listed _ _).mpr ⟨b,by simp,empty,rfl,rfl⟩
  have heads := freeHead_removeFreeChunk b.size (rfl : t.prevChunk b.start = _) rfl
  generalize own : sizeToClassRounddown b.size = cl at mine heads
  obtain ⟨front,back,shape⟩ := append_of_mem mine
  have chain := lists.chained cl
  have once := lists.once cl
  have head := lists.heads cl
  rw [shape] at chain once head
  obtain ⟨before,after⟩ := chain.ends
  rw [before,after] at heads
  have near : ∀ s, s ∈ front.getLast? ∨ s ∈ back.head? → s ∈ free cl := by
    rw [shape]
    rintro s (last | first)
    · exact mem_append_left _ (mem_of_getLast? last)
    · exact mem_append_right _ (mem_cons_of_mem _ (mem_of_mem_head? first))
  have links : ∀ cl' y, y ∈ free cl' → _ := fun cl' y listed =>
    links_removeFreeChunk b.size y before after fun s mem => lists.near heap listed (near s mem)
  obtain ⟨fresh,once'⟩ := nodup_cons.mp (nodup_middle.mp once)
  have left : ∀ y, y ∈ front ++ back ↔ y ∈ free cl ∧ b.start ≠ y := by
    intro y
    simp only [shape,mem_append,mem_cons] at fresh ⊢
    grind
  refine heap.relist (front ++ back) lists own (by simpa using left) once' ?_
    (chain.take once (fun y mem => (links cl y ((left y).mp mem).1).1) fun y mem => (links cl y ((left y).mp mem).1).2) ?_
    (fun held => absurd rfl held) ?_
  · rw [heads]
    cases front with
    | nil => rfl
    | cons f fs =>
      rw [if_neg (by simp),eq_comm,update_eq_self_iff,head]
      rfl
  · intro cl' y other listed
    obtain ⟨first,second⟩ := links cl' y listed
    have away : ∀ x : Option Nat, (∀ s ∈ x, s ∈ free cl) → some y ≠ x := by
      rintro x mem rfl
      exact other (lists.apart heap listed (mem y rfl))
    rw [first,second,if_neg (away _ fun s mem => near s (.inr mem)),if_neg (away _ fun s mem => near s (.inl mem))]
    exact ⟨rfl,rfl⟩
  · intro a other p low high outer
    have inside : a ∈ xs ++ [b] ++ zs := by
      simp only [mem_append]
      tauto
    have : 4 ≤ a.size := heap.large a inside
    refine data_removeFreeChunk b.size p before after ⟨fun s last => ?_,fun s first => ?_⟩
    · have := lists.far heap (near s (.inl last)) inside
      grind
    · have := lists.far heap (near s (.inr first)) inside
      grind

-- What the functions on the lists assert: the first chunk of a list has none before it,
-- and a chunk that has none before it is the first.
theorem Heap.list_ends (heap : Heap c t chunks) : (∀ cl h, t.freeHead cl = some h → t.prevChunk h = none) ∧
    ∀ b ∈ chunks, b.status = .free → t.prevChunk b.start = none → t.freeHead (sizeToClassRounddown b.size) = some b.start := by
  obtain ⟨free,lists⟩ := heap.lists
  constructor
  · intro cl h head
    have chain := lists.chained cl
    obtain ⟨rest,shape⟩ := head?_eq_some_iff.mp ((lists.heads cl).symm.trans head)
    rw [shape] at chain
    exact chain.1
  · intro b mem empty first
    obtain ⟨front,back,shape⟩ := append_of_mem ((lists.listed _ _).mpr ⟨b,mem,empty,rfl,rfl⟩)
    have chain := lists.chained (sizeToClassRounddown b.size)
    rw [shape] at chain
    have alone : front = [] := getLast?_eq_none_iff.mp (chain.ends.1.symm.trans first)
    rw [lists.heads,shape,alone]
    rfl

theorem Heap.recut (heap : Heap c t (xs ++ ys ++ zs)) (busy : ∀ b ∈ ys, b.status ≠ .free)
    (again : ∀ m n, Tiled m n ys → Tiled m n ys') (new : ∀ b ∈ ys', minSize ≤ b.size ∧ b.status = .held) : Heap c t (xs ++ ys' ++ zs) :=
  heap.rework again (fun b mem => (new b mem).1) busy (fun b mem => by simp [(new b mem).2]) rfl
    (fun b mem status => absurd (new b mem).2 status) fun _ _ _ _ _ => rfl

section
variable (heap : Heap c t (xs ++ [b] ++ zs))
include heap

theorem Heap.kept_setTags (occupied : Bool) (other : a ∈ xs ∨ a ∈ zs) : Kept t (t.setTags b.start b.size occupied) a := by
  have := heap.outside (mem_singleton_self b) other
  have large : 4 ≤ b.size := heap.middle
  exact fun p low high => data_setTags t _ _ _ (by omega) (by omega)

theorem Heap.occupy (held : b.status = .held) :
    Heap c (t.setTags b.start b.size true) (xs ++ [{ b with status := .occupied }] ++ zs) := by
  refine heap.rework (fun m n tiled => tiled) (forall_mem_singleton.mpr heap.middle) (by simp [held]) (by simp) rfl ?_
    fun a other => heap.kept_setTags true other
  intro a mem _
  rw [mem_singleton.mp mem]
  exact tagged_setTags t { b with status := .occupied } heap.middle

theorem Heap.insert (held : b.status = .held) :
    Heap c (t.insertFreeChunk b.start b.size) (xs ++ [{ b with status := .free }] ++ zs) ∧
      ∀ a, a ∈ xs ∨ a ∈ zs → a.status ≠ .free → Kept t (t.insertFreeChunk b.start b.size) a := by
  obtain ⟨free,lists⟩ := heap.lists
  have absent : ∀ cl, b.start ∉ free cl := lists.not_listed heap (by simp) (by rw [held]; simp)
  have large : 4 ≤ b.size := heap.middle
  have heads := freeHead_insertFreeChunk t b.start b.size
  have links := fun y => links_insertFreeChunk t b.start b.size y large
  have tags : ∀ y, y ≠ b.start+1 ∧ y ≠ b.start+2 → _ → _ := fun y => data_insertFreeChunk t b.start b.size y
  generalize own : sizeToClassRounddown b.size = cl at heads links tags
  rw [lists.heads cl] at links tags
  have near : ∀ s ∈ (free cl).head?, s ∈ free cl := fun s => mem_of_mem_head?
  have far : ∀ cl' y, y ∈ free cl' → y+4 ≤ b.start ∨ b.start+b.size ≤ y := by
    intro cl' y listed
    have := lists.far heap listed (show b ∈ xs ++ [b] ++ zs by simp)
    grind
  obtain ⟨first,second⟩ := links b.start (.inl rfl) fun s mem => by have := far cl s (near s mem); omega
  rw [if_neg fun same => absent cl (near _ same.symm),if_pos rfl] at first
  rw [if_pos rfl] at second
  replace links : ∀ cl' y, y ∈ free cl' → _ := fun cl' y listed =>
    links y (.inr (far cl' y listed)) fun s mem => lists.near heap listed (near s mem)
  have fresh : ∀ cl' y, y ∈ free cl' → y ≠ b.start := by
    rintro cl' _ listed rfl
    exact absent cl' listed
  refine heap.relist (b.start :: free cl) lists own ?_ (nodup_cons.mpr ⟨absent cl,lists.once cl⟩) heads ?_ ?_ ?_ ?_
  · intro s
    have := absent cl
    simp only [mem_cons,true_and]
    grind
  · refine (lists.chained cl).push (lists.once cl) ⟨first,second⟩ (fun y head => ?_) fun y listed => ?_
    · rw [(links cl y (near y head)).1,if_pos head.symm]
    · obtain ⟨back,forth⟩ := links cl y listed
      rw [back,forth,if_neg (fresh cl y listed),if_neg (fresh cl y listed)]
      exact ⟨rfl,fun later => if_neg later⟩
  · intro cl' y other listed
    obtain ⟨back,forth⟩ := links cl' y listed
    rw [back,forth,if_neg (fresh cl' y listed),if_neg (fresh cl' y listed),
      if_neg fun head => other (lists.apart heap listed (near y head.symm))]
    exact ⟨rfl,rfl⟩
  · intro _
    have tagged := tagged_setTags t { b with status := .free } heap.middle
    unfold Tagged at tagged ⊢
    dsimp only at tagged ⊢
    rw [tags _ (by omega) fun s head => ?_,tags _ (by omega) fun s head => ?_]
    · exact tagged
    all_goals
      have := far cl s (near s head)
      omega
  · intro a other p low high outer
    have apart := heap.outside (mem_singleton_self b) other
    have inside : a ∈ xs ++ [b] ++ zs := by
      simp only [mem_append]
      tauto
    have : 4 ≤ a.size := heap.large a inside
    rw [tags p (by omega) fun s head => ?_]
    · exact heap.kept_setTags false other p low high
    · have := lists.far heap (near s head) inside
      grind

end

theorem tagSize_tagVec (occupied : Bool) (small : size < 2^63) : tagSize (tagVec size occupied) = size := by
  cases occupied <;> simp only [tagSize,tagVec,if_true,Bool.false_eq_true,if_false] <;> omega

theorem tagOccupied_tagVec (occupied : Bool) (small : size < 2^63) : tagOccupied (tagVec size occupied) = occupied := by
  cases occupied
  · simpa [tagOccupied,tagVec] using small
  · simp [tagOccupied,tagVec]

theorem Heap.small (heap : Heap c t chunks) (mem : b ∈ chunks) : b.size < 2^63 := by
  have := heap.tiled.bounds mem
  have := c.small
  omega

theorem Heap.write (heap : Heap c t chunks) (mem : b ∈ chunks) (busy : b.status ≠ .free) (low : b.start < pos)
    (high : pos+ws.length < b.start+b.size) : Heap c (t.store pos ws) chunks ∧ ∀ a ∈ chunks, a ≠ b → Kept t (t.store pos ws) a := by
  have others : ∀ a ∈ chunks, a ≠ b → Kept t (t.store pos ws) a := by
    intro a other different p first last
    have := (heap.tiled.apart other mem).resolve_left different
    exact Memory.write_other (by omega)
  refine ⟨?_,others⟩
  obtain ⟨xs,zs,rfl⟩ := append_of_mem mem
  rw [append_cons] at heap ⊢
  have size : 4 ≤ b.size := heap.middle
  refine heap.rework (fun m n tiled => tiled) (forall_mem_singleton.mpr heap.middle) (forall_mem_singleton.mpr busy)
    (forall_mem_singleton.mpr busy) rfl ?_ fun a other => others a (by simp only [mem_append,mem_cons]; tauto) ?_
  · intro a one status
    rw [mem_singleton.mp one] at status ⊢
    obtain ⟨first,last⟩ := heap.tagged b (by simp) status
    exact ⟨(Memory.write_other (by omega)).trans first,(Memory.write_other (by omega)).trans last⟩
  · rintro rfl
    have := heap.outside (mem_singleton_self a) other
    omega

def Settled (chunks : List Chunk) : Prop := ∀ b ∈ chunks, b.status ≠ .held

theorem Heap.head {minimum : Nat} (heap : Heap c t chunks) (head : t.headChunk minimum = some start) :
    ∃ b ∈ chunks, b.status = .free ∧ b.start = start ∧ tagSize (t.data start) = b.size := by
  obtain ⟨free,lists⟩ := heap.lists
  obtain ⟨cl,_,got⟩ := exists_of_findSome?_eq_some head
  have listed : start ∈ free cl := by
    split at got
    · exact mem_of_mem_head? ((lists.heads cl).symm.trans got)
    · cases got
  obtain ⟨b,mem,empty,first,_⟩ := (lists.listed cl start).mp listed
  refine ⟨b,mem,empty,first,?_⟩
  rw [← first,(heap.tagged b mem (by rw [empty]; simp)).1,tagSize_tagVec _ (heap.small mem)]

structure Beside (t t' : Store) : Prop where
  slots : t'.slots = t.slots
  next : t'.next = t.next
  freeExtra : t'.freeExtra = t.freeExtra

theorem Beside.trans (one : Beside t t') (other : Beside t' t'') : Beside t t'' :=
  ⟨other.slots.trans one.slots,other.next.trans one.next,other.freeExtra.trans one.freeExtra⟩

theorem beside_insert (t : Store) (start size : Nat) : Beside t (t.insertFreeChunk start size) := by
  unfold insertFreeChunk
  dsimp only
  split <;> exact ⟨rfl,rfl,rfl⟩

theorem beside_remove (t : Store) (start size : Nat) : Beside t (t.removeFreeChunkFromFreeList start size) := by
  unfold removeFreeChunkFromFreeList
  dsimp only
  split <;> split <;> exact ⟨rfl,rfl,rfl⟩

theorem allocate_none (head : t.headChunk (n+2) = none) : t.allocate n = some .insufficientSpace := by
  simp [allocate,removeFreeChunkFromHead,head]

theorem allocate_small (head : t.headChunk (n+2) = some start) (small : tagSize (t.data start) < n+2) : t.allocate n = none := by
  simp [allocate,removeFreeChunkFromHead,head,small]

def cut (t : Store) (start size n : Nat) : Store :=
  if minSize ≤ size-(n+2) then (t.insertFreeChunk (start+(n+2)) (size-(n+2))).setTags start (n+2) true else t.setTags start size true

theorem allocate_some (head : t.headChunk (n+2) = some start) (room : n+2 ≤ tagSize (t.data start)) :
    t.allocate n = some (.chunk (start+1,((t.removeFreeChunkFromFreeList start (tagSize (t.data start))).cut start
      (tagSize (t.data start)) n).store (start+1) [n])) := by
  simp only [allocate,removeFreeChunkFromHead,head,if_neg (Nat.not_lt.mpr room),Option.map_some,cut,decide_eq_true_eq]
  split <;> rfl

theorem beside_cut (t : Store) (start size n : Nat) : Beside t (t.cut start size n) := by
  unfold cut
  split
  · exact (beside_insert t _ _).trans ⟨rfl,rfl,rfl⟩
  · exact ⟨rfl,rfl,rfl⟩

theorem Heap.cut (heap : Heap c t (xs ++ [b] ++ zs)) (held : b.status = .held) (room : n+2 ≤ b.size) (two : 2 ≤ n) :
    ∃ ys size, Heap c (t.cut b.start b.size n) (xs ++ (⟨b.start,size,.occupied⟩ :: ys) ++ zs) ∧ n+2 ≤ size ∧
      (∀ a ∈ ys, a.status = .free ∧ b.start < a.start ∧ a.start+a.size = b.start+b.size) ∧
      ∀ a, a ∈ xs ∨ a ∈ zs → a.status ≠ .free → Kept t (t.cut b.start b.size n) a := by
  have size : 4 ≤ b.size := heap.middle
  unfold Store.cut
  split
  next rest =>
    simp only [minSize] at rest
    have split : Heap c t (xs ++ [⟨b.start,n+2,.held⟩,⟨b.start+(n+2),b.size-(n+2),.held⟩] ++ zs) := heap.recut (by simp [held]) (by
      intro l m tiled
      simp only [Tiled] at tiled ⊢
      omega) (by
      intro a mem
      simp only [mem_cons,not_mem_nil,or_false] at mem
      rcases mem with rfl | rfl
      · exact ⟨by simp only [minSize]; omega,rfl⟩
      · exact ⟨rest,rfl⟩)
    rw [show xs ++ [⟨b.start,n+2,.held⟩,⟨b.start+(n+2),b.size-(n+2),.held⟩] ++ zs =
      (xs ++ [⟨b.start,n+2,.held⟩]) ++ [⟨b.start+(n+2),b.size-(n+2),.held⟩] ++ zs by simp] at split
    obtain ⟨listed,kept⟩ := split.insert rfl
    rw [append_assoc _ _ zs] at listed
    have occupied := listed.occupy rfl
    refine ⟨[⟨b.start+(n+2),b.size-(n+2),.free⟩],n+2,?_,Nat.le_refl _,by simp; omega,?_⟩
    · simpa using occupied
    · intro a other kind
      refine (kept a ?_ kind).trans (listed.kept_setTags true ?_)
      · exact other.imp_left (mem_append_left _)
      · exact other.imp_right (mem_append_right _)
  · exact ⟨[],b.size,heap.occupy held,room,by simp,fun a other _ => heap.kept_setTags true other⟩

-- No two free chunks lie side by side.
def Coalesced (chunks : List Chunk) : Prop :=
  ∀ a ∈ chunks, a.status = .free → ∀ b ∈ chunks, b.status = .free → a.start+a.size ≠ b.start

theorem Heap.allocate (heap : Heap c t chunks) (settled : Settled chunks) (head : t.headChunk (n+2) = some start)
    (room : n+2 ≤ tagSize (t.data start)) (two : 2 ≤ n) :
    ∃ t' chunks' size, t.allocate n = some (.chunk (start+1,t')) ∧ Heap c t' chunks' ∧ Settled chunks' ∧
      ⟨start,size,.occupied⟩ ∈ chunks' ∧ n+2 ≤ size ∧ t'.data (start+1) = n ∧ Beside t t' ∧
      (∀ b ∈ chunks, b.status = .occupied → b ∈ chunks' ∧ b.start ≠ start ∧ Kept t t' b) ∧
      (∀ b ∈ chunks', b.status = .occupied → b.start = start ∨ b ∈ chunks) ∧ (Coalesced chunks → Coalesced chunks') := by
  obtain ⟨b,mem,free,rfl,size⟩ := heap.head head
  rw [size] at room
  obtain ⟨xs,zs,rfl⟩ := append_of_mem mem
  rw [append_cons] at heap
  obtain ⟨removed,kept'⟩ := heap.remove free
  obtain ⟨ys,size',cut,fits,rest,kept⟩ := removed.cut rfl room two
  dsimp only at rest
  have inside : (⟨b.start,size',.occupied⟩ : Chunk) ∈ xs ++ (⟨b.start,size',.occupied⟩ :: ys) ++ zs := by simp
  have short : b.start+1+[n].length < b.start+size' := by
    rw [length_singleton]
    omega
  obtain ⟨written,others⟩ := cut.write inside (by simp) (Nat.lt_succ_self b.start) short
  refine ⟨_,xs ++ (⟨b.start,size',.occupied⟩ :: ys) ++ zs,size',allocate_some head (by rw [size]; exact room),?_⟩
  rw [size]
  have parts : ∀ a, a ∈ xs ++ (⟨b.start,size',.occupied⟩ :: ys) ++ zs ↔ a = ⟨b.start,size',.occupied⟩ ∨ a ∈ ys ∨ a ∈ xs ∨ a ∈ zs := by
    simp only [mem_append,mem_cons]
    tauto
  have whole : ∀ a, a ∈ xs ∨ a ∈ zs → a ∈ xs ++ b :: zs := by
    simp only [mem_append,mem_cons]
    tauto
  refine ⟨written,?_,inside,fits,?_,?_,?_,?_,?_⟩
  · intro a mem
    rcases (parts a).mp mem with rfl | new | old
    · simp
    · rw [(rest a new).1]
      simp
    · exact settled a (whole a old)
  · simp [store,Memory.write]
  · exact (beside_remove t _ _).trans ((beside_cut _ _ _ _).trans ⟨rfl,rfl,rfl⟩)
  · intro a mem occupied
    have outside : a ∈ xs ∨ a ∈ zs := by
      simp only [mem_append,mem_cons] at mem
      rcases mem with left | rfl | right
      · exact .inl left
      · rw [free] at occupied
        cases occupied
      · exact .inr right
    have away := heap.outside (mem_singleton_self b) outside
    have stays := (parts a).mpr (.inr (.inr outside))
    have large : 4 ≤ b.size := heap.middle
    have apart : a.start ≠ b.start := by omega
    refine ⟨stays,apart,?_⟩
    have busy : a.status ≠ .free := by simp [occupied]
    exact ((kept' a outside busy).trans (kept a outside busy)).trans (others a stays (by rintro rfl; exact apart rfl))
  · intro a mem occupied
    rcases (parts a).mp mem with rfl | new | old
    · exact .inl rfl
    · rw [(rest a new).1] at occupied
      cases occupied
    · exact .inr (whole a old)
  -- The rest of a chunk that was cut ends where the chunk did, and begins inside it.
  intro apart a one empty d two empty'
  rcases (parts a).mp one with rfl | new | old
  · cases empty
  · rcases (parts d).mp two with rfl | new' | old'
    · cases empty'
    · have := rest a new
      have := rest d new'
      have := written.tiled.bounds two
      omega
    · rw [(rest a new).2.2]
      exact apart b mem free d (whole d old') empty'
  rcases (parts d).mp two with rfl | new' | old'
  · cases empty'
  · have := rest d new'
    have := heap.outside (mem_singleton_self b) old
    omega
  · exact apart a (whole a old) empty d (whole d old') empty'

theorem Heap.merge (heap : Heap c t (xs ++ [a,b] ++ zs)) (left : a.status = .held) (right : b.status = .held) :
    Heap c t (xs ++ [⟨a.start,a.size+b.size,.held⟩] ++ zs) := by
  refine heap.recut (by simp [left,right]) ?_ ?_
  · intro m n tiled
    simp only [Tiled] at tiled ⊢
    omega
  · intro d mem
    rw [mem_singleton.mp mem]
    exact ⟨Nat.le_trans (heap.large a (by simp)) (Nat.le_add_right _ _),rfl⟩

-- A chunk in hand has taken in its neighbour on one side, where it was free.
structure Joined (t t' : Store) (d : Chunk) (old new other : List Chunk) : Prop where
  held : d.status = .held
  settled : Settled new
  beside : Beside t t'
  kept : ∀ a, a ∈ old ∨ a ∈ other → a.status = .occupied → Kept t t' a
  stays : ∀ a ∈ old, a.status = .occupied → a ∈ new
  sub : new ⊆ old

theorem Joined.refl (held : d.status = .held) (settled : Settled xs) : Joined t t d xs xs zs :=
  ⟨held,settled,⟨rfl,rfl,rfl⟩,fun _ _ _ _ _ _ => rfl,fun _ mem _ => mem,Subset.refl _⟩

theorem Joined.absorb (held : d.status = .held) (settled : Settled ys) (free : a.status = .free) (parts : ∀ x, x ∈ ys ↔ x = a ∨ x ∈ ys')
    (beside : Beside t t') (kept : ∀ x, x ∈ ys' ∨ x ∈ zs → x.status ≠ .free → Kept t t' x) : Joined t t' d ys ys' zs := by
  have stays : ∀ x ∈ ys, x.status = .occupied → x ∈ ys' := by
    intro x mem occupied
    refine ((parts x).mp mem).resolve_left ?_
    rintro rfl
    cases occupied.symm.trans free
  refine ⟨held,fun x mem => settled x ((parts x).mpr (.inr mem)),beside,fun x other occupied => ?_,stays,fun x mem => (parts x).mpr (.inr mem)⟩
  exact kept x (other.imp_left fun old => stays x old occupied) (by simp [occupied])

theorem Heap.coalesceLeft (heap : Heap c t (xs ++ [b] ++ zs)) (settled : Settled xs) (held : b.status = .held) :
    ∃ xs' d t', t.coalesceLeft b.start b.size = (d.start,d.size,t') ∧ Heap c t' (xs' ++ [d] ++ zs) ∧ Joined t t' d xs xs' zs ∧
      b.start+b.size = d.start+d.size ∧ (Coalesced xs → ∀ a ∈ xs', a.status = .free → a.start+a.size ≠ d.start) := by
  unfold Store.coalesceLeft
  rcases eq_nil_or_concat xs with rfl | ⟨front,a,rfl⟩
  · have first : b.start = 0 := heap.tiled.1
    exact ⟨[],b,t,by simp [first],heap,.refl held settled,rfl,fun _ => by simp⟩
  rw [concat_eq_append] at *
  have adjacent : a.start+a.size = b.start := by
    have tiled := heap.tiled
    rw [append_assoc,append_assoc] at tiled
    exact tiled.adjacent
  have large : 4 ≤ a.size := heap.large a (by simp)
  have status := settled a (by simp)
  have tags := (heap.tagged a (by simp) status).2
  rw [show a.start+a.size-1 = b.start-1 by omega] at tags
  have small := heap.small (b := a) (by simp)
  cases kind : a.status with
  | held => exact absurd kind status
  | occupied =>
    refine ⟨front ++ [a],b,t,?_,heap,.refl held settled,rfl,fun _ d mem free => ?_⟩
    · rw [tags,kind,tagOccupied_tagVec _ small]
      simp
    rcases mem_append.mp mem with before | last
    · have shape : Tiled 0 c.size (front ++ a :: b :: zs) := by simpa using heap.tiled
      have := shape.before before mem_cons_self
      omega
    · rw [mem_singleton.mp last,kind] at free
      cases free
  | free =>
    rw [append_assoc (front ++ [a])] at heap
    obtain ⟨removed,kept⟩ := heap.remove kind
    have joined : Heap c (t.removeFreeChunkFromFreeList a.start a.size) (front ++ [{ a with status := .held },b] ++ zs) := by
      simpa using removed
    refine ⟨front,⟨a.start,a.size+b.size,.held⟩,_,?_,joined.merge rfl held,.absorb rfl settled kind (by simp [or_comm])
      (beside_remove t _ _) (fun d other => kept d (other.imp_right (mem_append_right _))),?_,
      fun apart d mem free => apart d (by simp [mem]) free a (by simp) kind⟩
    · rw [tags,kind,tagOccupied_tagVec _ small,tagSize_tagVec _ small]
      have before : b.start ≠ 0 := by omega
      have start : b.start-a.size = a.start := by omega
      simp [before,start,Nat.add_comm b.size]
    · dsimp only
      omega

theorem Heap.coalesceRight (heap : Heap c t (xs ++ [b] ++ zs)) (settled : Settled zs) (held : b.status = .held) :
    ∃ zs' d t', t.coalesceRight c b.start b.size = (d.start,d.size,t') ∧ Heap c t' (xs ++ [d] ++ zs') ∧ Joined t t' d zs zs' xs ∧
      b.start = d.start ∧ (Coalesced zs → ∀ a ∈ zs', a.status = .free → d.start+d.size ≠ a.start) := by
  unfold Store.coalesceRight
  cases zs with
  | nil =>
    have last : b.start+b.size = c.size := by
      have tiled := heap.tiled
      rw [append_nil] at tiled
      exact tiled.last
    exact ⟨[],b,t,by simp [last],heap,.refl held settled,rfl,fun _ => by simp⟩
  | cons a back =>
    have adjacent : b.start+b.size = a.start := by
      have tiled := heap.tiled
      rw [append_assoc] at tiled
      exact tiled.adjacent
    have bounds := heap.tiled.bounds (b := a) (by simp)
    have status := settled a (by simp)
    have tags := (heap.tagged a (by simp) status).1
    rw [← adjacent] at tags
    have small := heap.small (b := a) (by simp)
    have inside : a.start ≠ c.size := by omega
    cases kind : a.status with
    | held => exact absurd kind status
    | occupied =>
      refine ⟨a :: back,b,t,?_,heap,.refl held settled,rfl,fun _ d mem free start => ?_⟩
      · rw [tags,kind,tagOccupied_tagVec _ small]
        simp
      · rw [heap.tiled.unique (b := a) (by simp [mem]) (by simp) (start.symm.trans adjacent),kind] at free
        cases free
    | free =>
      rw [append_cons] at heap
      obtain ⟨removed,kept⟩ := heap.remove kind
      have joined : Heap c (t.removeFreeChunkFromFreeList a.start a.size) (xs ++ [b,{ a with status := .held }] ++ back) := by
        simpa using removed
      refine ⟨back,⟨b.start,b.size+a.size,.held⟩,_,?_,joined.merge held rfl,.absorb rfl settled kind (by simp)
        (beside_remove t _ _) (fun d other => kept d (other.symm.imp_left (mem_append_left _))),rfl,fun apart d mem free => ?_⟩
      · rw [tags,kind,tagOccupied_tagVec _ small,tagSize_tagVec _ small]
        simp [inside,adjacent]
      · have := apart a (by simp) kind d (by simp [mem]) free
        dsimp only
        omega

theorem Heap.deallocate (heap : Heap c t chunks) (settled : Settled chunks) (mem : b ∈ chunks) (occupied : b.status = .occupied) :
    ∃ chunks', Heap c (t.deallocate c (b.start+1)) chunks' ∧ Settled chunks' ∧ Beside t (t.deallocate c (b.start+1)) ∧
      (∀ a ∈ chunks, a.status = .occupied → a ≠ b → a ∈ chunks' ∧ Kept t (t.deallocate c (b.start+1)) a) ∧
      (∀ a ∈ chunks', a.status = .occupied → a ∈ chunks ∧ a.start ≠ b.start) ∧ (Coalesced chunks → Coalesced chunks') := by
  have size : tagSize (t.data b.start) = b.size := by
    rw [(heap.tagged b mem (settled b mem)).1,tagSize_tagVec _ (heap.small mem)]
  obtain ⟨xs,zs,rfl⟩ := append_of_mem mem
  rw [append_cons] at heap
  have taken : Heap c t (xs ++ [{ b with status := .held }] ++ zs) := by
    refine heap.recut (by simp [occupied]) (fun _ _ tiled => tiled) ?_
    intro a mem
    rw [mem_singleton.mp mem]
    exact ⟨heap.middle,rfl⟩
  obtain ⟨xs',d,_,left,heap1,one,_,left1⟩ := taken.coalesceLeft (fun a mem => settled a (by simp [mem])) rfl
  obtain ⟨zs',e,t2,right,heap2,two,start,right2⟩ := heap1.coalesceRight (fun a mem => settled a (by simp [mem])) one.held
  have result : t.deallocate c (b.start+1) = t2.insertFreeChunk e.start e.size := by
    simp only [Store.deallocate,Nat.add_sub_cancel,size]
    rw [left]
    rw [right]
  obtain ⟨done,kept⟩ := heap2.insert two.held
  rw [result]
  refine ⟨_,done,?_,?_,?_,?_,?_⟩
  · intro a mem
    simp only [mem_append,mem_singleton] at mem
    rcases mem with (old | rfl) | old
    · exact one.settled a old
    · simp
    · exact two.settled a old
  · exact (one.beside.trans two.beside).trans (beside_insert t2 _ _)
  · intro a mem kind other
    have outside : a ∈ xs ∨ a ∈ zs := by
      simp only [mem_append,mem_cons] at mem
      tauto
    have first : a ∈ xs' ∨ a ∈ zs := outside.imp_left fun old => one.stays a old kind
    have second : a ∈ xs' ∨ a ∈ zs' := first.imp_right fun old => two.stays a old kind
    refine ⟨by simp only [mem_append]; tauto,?_⟩
    exact ((one.kept a outside kind).trans (two.kept a first.symm kind)).trans (kept a second (by simp [kind]))
  · intro a mem kind
    simp only [mem_append,mem_singleton] at mem
    have outside : a ∈ xs ∨ a ∈ zs := by
      rcases mem with (old | rfl) | old
      · exact .inl (one.sub old)
      · cases kind
      · exact .inr (two.sub old)
    have := heap.outside (mem_singleton_self b) outside
    have large : 4 ≤ b.size := heap.middle
    exact ⟨by simp only [mem_append,mem_cons]; tauto,by omega⟩
  -- The new free chunk has no free neighbour left; two old ones lie as they did.
  intro apart
  have large : 4 ≤ e.size := heap2.middle
  have low : ∀ a ∈ xs', a.start+a.size ≤ e.start := fun a mem =>
    (append_assoc xs' [e] zs' ▸ heap2.tiled).before mem (by simp)
  have high : ∀ a ∈ zs', e.start+e.size ≤ a.start := fun a mem => heap2.tiled.before (by simp) mem
  have old : ∀ a, a ∈ xs' ∨ a ∈ zs' → a ∈ xs ++ b :: zs := by
    rintro a (mem | mem)
    · simp [one.sub mem]
    · simp [two.sub mem]
  replace left1 := left1 fun a mem free d other => apart a (by simp [mem]) free d (by simp [other])
  replace right2 := right2 fun a mem free d other => apart a (by simp [mem]) free d (by simp [other])
  rw [start] at left1
  intro a mem free a' mem' free'
  have sizes := heap2.large
  simp only [mem_append,mem_singleton,minSize] at mem mem' sizes
  rcases mem with (first | rfl) | first <;> rcases mem' with (second | rfl) | second
  · exact apart a (old a (.inl first)) free a' (old a' (.inl second)) free'
  · exact left1 a first free
  · exact apart a (old a (.inl first)) free a' (old a' (.inr second)) free'
  · have := low a' second
    dsimp only
    omega
  · dsimp only
    omega
  · exact right2 a' second free'
  · exact apart a (old a (.inr first)) free a' (old a' (.inl second)) free'
  · have := high a first
    dsimp only
    omega
  · exact apart a (old a (.inr first)) free a' (old a' (.inr second)) free'

end DbExp.Mica.Store
