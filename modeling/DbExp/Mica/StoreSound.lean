import DbExp.Mica.StoreHeap
import Mathlib.Data.List.Perm.Subperm

namespace DbExp.Mica.Store
open Function List
open LinkedList

variable {c : Config} {t t' : Store} {map map' : Key → Option Value} {chunks chunks' : List Chunk} {lists : Option Nat → List Nat}
  {k : Key} {v : Value}

def links (t : Store) : Option Ref → Option Nat
  | none => t.freeExtra
  | some r => t.next r

def node (x : Nat) : Option Ref := some (.extra x)

def root (h : Option Nat) : Option Ref := h.map .main

theorem places : Places node root := by
  refine ⟨?_,?_,?_⟩
  · intro x y same
    cases same
    rfl
  · intro h g same
    cases h <;> cases g <;> cases same <;> rfl
  · intro h x same
    cases h <;> cases same

structure Linked (c : Config) (t : Store) (lists : Option Nat → List Nat) : Prop where
  all : Lists node root (links t) lists
  bound : ∀ h x, x ∈ lists h → 1 ≤ x ∧ x ≤ c.numExtra

theorem Linked.length_le (linked : Linked c t lists) (h : Option Nat) : (lists h).length ≤ c.numExtra := by
  have sub : lists h ⊆ List.range' 1 c.numExtra := by
    intro x mem
    have := linked.bound h x mem
    rw [mem_range'_1]
    omega
  have := (subperm_of_subset (linked.all.once h) sub).length_le
  rwa [length_range'] at this

theorem follow_path (path : Path node (links t) (some r) xs none) (enough : xs.length ≤ fuel) : t.follow fuel (t.next r) = xs := by
  induction xs generalizing r fuel with
  | nil =>
    have last : t.next r = none := path
    rw [last]
    cases fuel <;> rfl
  | cons x xs ih =>
    have here : t.next r = some x := path.1
    rw [length_cons] at enough
    obtain ⟨fuel,rfl⟩ : ∃ m, fuel = m+1 := ⟨fuel-1,by omega⟩
    rw [here,follow,ih path.2 (by omega)]

def refs (lists : Option Nat → List Nat) (b : Nat) : List Ref := .main b :: (lists (some b)).map .extra

theorem Linked.follow_eq (linked : Linked c t lists) (b : Nat) : t.follow c.numExtra (t.next (.main b)) = lists (some b) :=
  follow_path (linked.all.path (some b)) (linked.length_le (some b))

theorem Linked.chain_eq (linked : Linked c t lists) (b : Nat) : t.chain c b = refs lists b := by
  rw [chain,linked.follow_eq]
  rfl

theorem Linked.refs_unique (linked : Linked c t lists) (one : r ∈ refs lists b) (other : r ∈ refs lists b') : b = b' := by
  cases r with
  | main d =>
    simp only [refs,mem_cons,Ref.main.injEq,mem_map,reduceCtorEq,and_false,exists_false,or_false] at one other
    exact one.symm.trans other
  | extra x =>
    simp only [refs,mem_cons,mem_map,Ref.extra.injEq,exists_eq_right,reduceCtorEq,false_or] at one other
    exact Option.some.inj (linked.all.apart (some b) (some b') x one other)

structure Item (c : Config) (t : Store) (chunks : List Chunk) (offset : Nat) (k : Key) (v : Value) : Prop where
  content : Holding t.data c.hash offset k v
  fits : itemWords k.length v.length ≤ t.data offset
  room : ∃ b ∈ chunks, b.status = .occupied ∧ offset = b.start+1 ∧ t.data offset+2 ≤ b.size

structure Sound (c : Config) (t : Store) (map : Key → Option Value) (chunks : List Chunk) (lists : Option Nat → List Nat) : Prop where
  heap : Heap c t chunks
  settled : Settled chunks
  linked : Linked c t lists
  used : ∀ r i e, t.slots r i = some e → i < itemsPerBucket ∧
    ∃ k v, r ∈ refs lists (c.bucketIndex k) ∧ Item c t chunks e.offset k v ∧ e.tag = c.tag k ∧ map k = some v
  found : ∀ k v, map k = some v → ∃ r i e, t.slots r i = some e ∧ Holding t.data c.hash e.offset k v
  single : ∀ r i e r' i' e' k v v', t.slots r i = some e → t.slots r' i' = some e' →
    Holding t.data c.hash e.offset k v → Holding t.data c.hash e'.offset k v' → r = r' ∧ i = i'

theorem Item.keep (item : Item c t chunks offset k v)
    (keep : ∀ b ∈ chunks, b.status = .occupied → offset = b.start+1 → b ∈ chunks' ∧ Kept t t' b) : Item c t' chunks' offset k v := by
  obtain ⟨content,fits,b,mem,occupied,place,room⟩ := item
  obtain ⟨stays,kept⟩ := keep b mem occupied place
  have header : t'.data offset = t.data offset := kept offset (by omega) (by omega)
  refine ⟨content.congr ?_,header ▸ fits,b,stays,occupied,place,header ▸ room⟩
  intro i less
  exact kept _ (by omega) (by omega)

theorem Linked.same (linked : Linked c t lists) (next : t'.next = t.next) (freeExtra : t'.freeExtra = t.freeExtra) : Linked c t' lists := by
  have same : links t' = links t := by
    funext r
    cases r with
    | none => exact freeExtra
    | some r => exact congrFun next r
  refine ⟨?_,linked.bound⟩
  rw [same]
  exact linked.all

theorem setSlot_own (t : Store) (r : Ref) (i : Nat) (x : Option Entry) : (t.setSlot r i x).slots r i = x := by
  simp [setSlot]

theorem setSlot_other (t : Store) (x : Option Entry) (other : r' = r → i' ≠ i) : (t.setSlot r i x).slots r' i' = t.slots r' i' :=
  Memory.entry_other other

theorem setSlot_cases (used : (t.setSlot r i x).slots r' i' = some e) :
    (r' = r ∧ i' = i ∧ x = some e) ∨ ((r' = r → i' ≠ i) ∧ t.slots r' i' = some e) := Memory.entry_cases used

theorem Heap.beside (heap : Heap c t chunks) (data : t'.data = t.data) (heads : t'.freeHead = t.freeHead) : Heap c t' chunks := by
  obtain ⟨free,lists⟩ := heap.lists
  refine ⟨heap.tiled,heap.large,fun b mem status => ?_,free,lists.listed,lists.once,heads ▸ lists.heads,fun cl => ?_⟩
  · unfold Tagged
    rw [data]
    exact heap.tagged b mem status
  · unfold prevChunk nextChunk
    rw [data]
    exact lists.chained cl

theorem Item.beside (item : Item c t chunks offset k v) (data : t'.data = t.data) : Item c t' chunks offset k v := by
  obtain ⟨content,fits,room⟩ := item
  refine ⟨?_,?_,?_⟩ <;> rw [data]
  · exact content
  · exact fits
  · exact room

def Turn (c : Config) (t : Store) (map : Key → Option Value) (r : Ref) (i : Nat) (k : Key) : Prop :=
  (map k = none ∧ t.slots r i = none) ∨ ∃ e v, t.slots r i = some e ∧ Holding t.data c.hash e.offset k v

theorem Turn.own (turn : Turn c t map r i k) (slot : t.slots r i = some e) : ∃ v, Holding t.data c.hash e.offset k v := by
  rcases turn with ⟨_,empty⟩ | ⟨_,v',slot',holding⟩
  · rw [slot] at empty
    cases empty
  · rw [slot,Option.some.injEq] at slot'
    exact ⟨v',slot' ▸ holding⟩

theorem lastNode_root (b : Nat) (xs : List Nat) : lastNode node (root (some b)) xs = some (lastRef (.main b) xs) := by
  unfold lastRef lastNode
  cases xs.getLast? <;> rfl

section
variable (sound : Sound c t map chunks lists)
include sound

theorem Sound.memory (heap : Heap c t' chunks') (settled : Settled chunks') (beside : Beside t t')
    (keep : ∀ r i e, t.slots r i = some e → ∀ b ∈ chunks, b.status = .occupied → e.offset = b.start+1 → b ∈ chunks' ∧ Kept t t' b) :
    Sound c t' map chunks' lists ∧
      ∀ r i e k v, t.slots r i = some e → Holding t.data c.hash e.offset k v → Holding t'.data c.hash e.offset k v := by
  have forth : ∀ r i e k v, t.slots r i = some e → Holding t.data c.hash e.offset k v → Holding t'.data c.hash e.offset k v := by
    intro r i e k v slot holding
    obtain ⟨_,k',v',_,item,_⟩ := sound.used r i e slot
    obtain ⟨rfl,rfl⟩ := holding.unique item.content
    exact (item.keep (keep r i e slot)).content
  have back : ∀ r i e k v, t.slots r i = some e → Holding t'.data c.hash e.offset k v → Holding t.data c.hash e.offset k v := by
    intro r i e k v slot holding
    obtain ⟨_,k',v',_,item,_⟩ := sound.used r i e slot
    obtain ⟨rfl,rfl⟩ := holding.unique (item.keep (keep r i e slot)).content
    exact item.content
  refine ⟨⟨heap,settled,sound.linked.same beside.next beside.freeExtra,?_,?_,?_⟩,forth⟩
  · rw [beside.slots]
    intro r i e slot
    obtain ⟨inside,k,v,chain,item,rest⟩ := sound.used r i e slot
    exact ⟨inside,k,v,chain,item.keep (keep r i e slot),rest⟩
  · rw [beside.slots]
    intro k v known
    obtain ⟨r,i,e,slot,holding⟩ := sound.found k v known
    exact ⟨r,i,e,slot,forth r i e k v slot holding⟩
  · rw [beside.slots]
    intro r i e r' i' e' k v v' slot slot' one other
    exact sound.single r i e r' i' e' k v v' slot slot' (back r i e k v slot one) (back r' i' e' k v' slot' other)

theorem Sound.alone (turn : Turn c t map r i k) (slot : t.slots r' i' = some e)
    (holding : Holding t.data c.hash e.offset k v) : r' = r ∧ i' = i := by
  rcases turn with ⟨absent,_⟩ | ⟨e',v',slot',holding'⟩
  · obtain ⟨_,_,v',_,item,_,known⟩ := sound.used r' i' e slot
    rw [← (holding.unique item.content).1,absent] at known
    cases known
  · exact sound.single r' i' e r i e' k v v' slot slot' holding holding'

theorem Sound.place (item : Item c t chunks offset k v) (chain : r ∈ refs lists (c.bucketIndex k))
    (inside : i < itemsPerBucket) (turn : Turn c t map r i k) :
    Sound c (t.setSlot r i (some ⟨c.tag k,offset⟩)) (update map k (some v)) chunks lists := by
  -- The key of an entry in another slot is another one.
  have differ : ∀ r' i' e k' v', (r' = r → i' ≠ i) → t.slots r' i' = some e → Holding t.data c.hash e.offset k' v' → k' ≠ k := by
    rintro r' i' e k' v' other slot holding rfl
    have := sound.alone turn slot holding
    exact other this.1 this.2
  refine ⟨sound.heap.beside rfl rfl,sound.settled,sound.linked.same rfl rfl,?_,?_,?_⟩
  · intro r' i' e slot
    rcases setSlot_cases slot with ⟨rfl,rfl,new⟩ | ⟨other,old⟩
    · cases new
      exact ⟨inside,k,v,chain,item.beside rfl,rfl,update_self _ _ _⟩
    obtain ⟨less,k',v',chain',item',tag,known⟩ := sound.used r' i' e old
    refine ⟨less,k',v',chain',item'.beside rfl,tag,?_⟩
    rw [update_of_ne (differ r' i' e k' v' other old item'.content)]
    exact known
  · intro k' v' known
    by_cases same : k' = k
    · subst same
      rw [update_self,Option.some.injEq] at known
      subst known
      exact ⟨r,i,_,setSlot_own _ _ _ _,item.content⟩
    rw [update_of_ne same] at known
    obtain ⟨r',i',e,slot,holding⟩ := sound.found k' v' known
    refine ⟨r',i',e,?_,holding⟩
    rw [setSlot_other]
    · exact slot
    · rintro rfl rfl
      obtain ⟨_,mine⟩ := turn.own slot
      exact same (holding.unique mine).1
  intro r1 i1 e1 r2 i2 e2 k' v1 v2 slot1 slot2 one other
  rcases setSlot_cases slot1 with ⟨rfl,rfl,new1⟩ | ⟨away1,old1⟩ <;> rcases setSlot_cases slot2 with ⟨rfl,rfl,new2⟩ | ⟨away2,old2⟩
  · exact ⟨rfl,rfl⟩
  · cases new1
    have keys := (Holding.unique one item.content).1
    exact absurd keys (differ r2 i2 e2 k' v2 away2 old2 other)
  · cases new2
    have keys := (Holding.unique other item.content).1
    exact absurd keys (differ r1 i1 e1 k' v1 away1 old1 one)
  · exact sound.single r1 i1 e1 r2 i2 e2 k' v1 v2 old1 old2 one other

theorem Sound.clear (slot : t.slots r i = some e) (holding : Holding t.data c.hash e.offset k v) :
    Sound c (t.setSlot r i none) (update map k none) chunks lists ∧
      ∀ r' i' e' v', (t.setSlot r i none).slots r' i' = some e' → ¬ Holding t.data c.hash e'.offset k v' := by
  have gone : ∀ r' i' e' v', (t.setSlot r i none).slots r' i' = some e' → ¬ Holding t.data c.hash e'.offset k v' := by
    intro r' i' e' v' left mine
    rcases setSlot_cases left with ⟨_,_,new⟩ | ⟨other,old⟩
    · cases new
    · have := sound.single r' i' e' r i e k v' v old slot mine holding
      exact other this.1 this.2
  have was : ∀ r' i' e', (t.setSlot r i none).slots r' i' = some e' → t.slots r' i' = some e' := by
    intro r' i' e' left
    rcases setSlot_cases left with ⟨_,_,new⟩ | ⟨_,old⟩
    · cases new
    · exact old
  refine ⟨⟨sound.heap.beside rfl rfl,sound.settled,sound.linked.same rfl rfl,?_,?_,?_⟩,gone⟩
  · intro r' i' e' left
    obtain ⟨less,k',v',chain,item,tag,known⟩ := sound.used r' i' e' (was r' i' e' left)
    refine ⟨less,k',v',chain,item.beside rfl,tag,?_⟩
    rw [update_of_ne]
    · exact known
    · rintro rfl
      exact gone r' i' e' v' left item.content
  · intro k' v' known
    by_cases same : k' = k
    · subst same
      rw [update_self] at known
      cases known
    rw [update_of_ne same] at known
    obtain ⟨r',i',e',old,mine⟩ := sound.found k' v' known
    refine ⟨r',i',e',?_,mine⟩
    rw [setSlot_other]
    · exact old
    rintro rfl rfl
    rw [slot,Option.some.injEq] at old
    subst old
    exact same (mine.unique holding).1
  · intro r1 i1 e1 r2 i2 e2 k' v1 v2 slot1 slot2
    exact sound.single r1 i1 e1 r2 i2 e2 k' v1 v2 (was r1 i1 e1 slot1) (was r2 i2 e2 slot2)

theorem Sound.move (slot : t.slots r' j = some e) (empty : t.slots r i = none)
    (chain : ∀ b, r' ∈ refs lists b → r ∈ refs lists b) (inside : i < itemsPerBucket) :
    Sound c ((t.setSlot r i (some e)).setSlot r' j none) map chunks lists := by
  obtain ⟨_,k,v,home,item,tag,known⟩ := sound.used r' j e slot
  have cleared := (sound.clear slot item.content).1
  have apart : r = r' → i ≠ j := by
    rintro rfl rfl
    rw [slot] at empty
    cases empty
  have placed := cleared.place (item.beside rfl) (chain _ home) inside
    (.inl ⟨update_self _ _ _,(setSlot_other t none apart).trans empty⟩)
  have entry : (⟨c.tag k,e.offset⟩ : Entry) = e := by
    rw [← tag]
  have restored : update (update map k none) k (some v) = map := by
    rw [update_idem,← known,update_eq_self]
  have commute : (t.setSlot r i (some e)).setSlot r' j none = (t.setSlot r' j none).setSlot r i (some e) := by
    unfold setSlot
    congr 1
    funext r1 i1
    by_cases same : r = r'
    · subst same
      have := apart rfl
      by_cases here : r1 = r
      · subst here
        simp only [update_self]
        rw [update_comm this]
      · simp [here]
    · simp only [update_of_ne same,update_of_ne (Ne.symm same)]
      rw [update_comm same]
  rw [commute]
  rw [entry,restored] at placed
  exact placed

theorem Sound.relink (linked : Linked c t' lists') (data : t'.data = t.data) (heads : t'.freeHead = t.freeHead)
    (slots : t'.slots = t.slots) (chains : ∀ r i e b, t.slots r i = some e → r ∈ refs lists b → r ∈ refs lists' b) :
    Sound c t' map chunks lists' := by
  refine ⟨sound.heap.beside data heads,sound.settled,linked,?_,?_,?_⟩
  · rw [slots]
    intro r i e slot
    obtain ⟨less,k,v,chain,item,rest⟩ := sound.used r i e slot
    exact ⟨less,k,v,chains r i e _ slot chain,item.beside data,rest⟩
  · rw [slots,data]
    exact sound.found
  · rw [slots,data]
    exact sound.single

theorem Sound.allocExtraBucket (b : Nat)
    (taken : t.allocExtraBucket (lastRef (.main b) (lists (some b))) = some (x,t')) :
    ∃ lists', Sound c t' map chunks lists' ∧ .extra x ∈ refs lists' b ∧ ∀ i, t'.slots (.extra x) i = none := by
  obtain ⟨y,head,same⟩ := Option.map_eq_some_iff.mp taken
  cases same
  obtain ⟨rest,spare⟩ : ∃ rest, lists none = x :: rest := by
    have path := sound.linked.all.path none
    cases shape : lists none with
    | nil =>
      rw [shape] at path
      exact absurd (path.symm.trans head) (by simp)
    | cons y rest =>
      rw [shape] at path
      have : some y = some x := path.1.symm.trans head
      cases this
      exact ⟨rest,rfl⟩
  have mine : x ∈ lists none := by simp [spare]
  have moved := sound.linked.all.moveToEnd places (show (none : Option Nat) ≠ some b by simp) spare
  refine ⟨update (update lists none rest) (some b) (lists (some b) ++ [x]),sound.relink ⟨?_,?_⟩ rfl rfl rfl ?_,?_,?_⟩
  · convert moved using 1
    rw [lastNode_root]
    funext r
    cases r with
    | none => simp [links,setNext,node,root]
    | some r => simp [links,setNext,node,root,update_apply]
  · intro h y mem
    by_cases isB : h = some b
    · subst isB
      rw [update_self] at mem
      rcases mem_append.mp mem with old | new
      · exact sound.linked.bound _ y old
      · rw [mem_singleton.mp new]
        exact sound.linked.bound none x mine
    rw [update_of_ne isB] at mem
    by_cases isNone : h = none
    · subst isNone
      rw [update_self] at mem
      exact sound.linked.bound none y (by simp [spare,mem])
    · rw [update_of_ne isNone] at mem
      exact sound.linked.bound h y mem
  · intro r i e d _ mem
    by_cases same : d = b
    · subst same
      simp only [refs,update_self,mem_cons,map_append,mem_append] at mem ⊢
      tauto
    · simpa [refs,same] using mem
  · simp [refs]
  intro i
  rw [Option.eq_none_iff_forall_ne_some]
  intro e slot
  obtain ⟨_,_,_,chain,_⟩ := sound.used (.extra x) i e slot
  simp only [refs,mem_cons,mem_map,Ref.extra.injEq,exists_eq_right,reduceCtorEq,false_or] at chain
  have := sound.linked.all.apart _ _ x chain mine
  cases this

theorem Sound.freeExtraBucket (last : lists (some b) = ys ++ [x])
    (empty : ∀ i, t.slots (.extra x) i = none) :
    ∃ lists', Sound c (t.freeExtraBucket (lastRef (.main b) ys) x) map chunks lists' := by
  have mine : x ∈ lists (some b) := by simp [last]
  have moved := sound.linked.all.moveToFront places (show some b ≠ none by simp) last
  refine ⟨update (update lists (some b) ys) none (x :: lists none),sound.relink ⟨?_,?_⟩ rfl rfl rfl ?_⟩
  · convert moved using 1
    rw [lastNode_root]
    funext r
    cases r with
    | none => simp [links,Store.freeExtraBucket,root]
    | some r => simp [links,Store.freeExtraBucket,setNext,node,root,update_apply]
  · intro h y mem
    by_cases isNone : h = none
    · subst isNone
      rw [update_self] at mem
      rcases mem_cons.mp mem with rfl | old
      · exact sound.linked.bound _ y mine
      · exact sound.linked.bound none y old
    rw [update_of_ne isNone] at mem
    by_cases isB : h = some b
    · subst isB
      rw [update_self] at mem
      exact sound.linked.bound (some b) y (by simp [last,mem])
    · rw [update_of_ne isB] at mem
      exact sound.linked.bound h y mem
  intro r i e d slot mem
  by_cases same : d = b
  · subst same
    have other : r ≠ .extra x := by
      rintro rfl
      rw [empty i] at slot
      cases slot
    simp only [refs,last,mem_cons,map_append,map_singleton,mem_append,not_mem_nil,or_false] at mem
    simp only [refs,ne_eq,reduceCtorEq,not_false_eq_true,update_of_ne,update_self,mem_cons]
    tauto
  · simpa [refs,same] using mem

end

end DbExp.Mica.Store
