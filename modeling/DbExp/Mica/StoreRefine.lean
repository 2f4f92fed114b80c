import DbExp.Mica.StoreSound

namespace DbExp.Mica.Store
open Function List
open Option (map_some map_none map_eq_some_iff mem_def)
open LinkedList

variable {c : Config} {t t' : Store} {map : Key → Option Value} {chunks : List Chunk} {lists : Option Nat → List Nat} {k : Key} {v : Value}

theorem findItemIndex_some (got : t.findItemIndex c k = some (r,i,e)) : r ∈ t.chain c (c.bucketIndex k) ∧ i < itemsPerBucket ∧
    t.slots r i = some e ∧ e.tag = c.tag k ∧ holdsKey t.data c.hash e.offset k = true := by
  obtain ⟨_,chain,inner⟩ := exists_of_findSome?_eq_some got
  obtain ⟨_,found,same⟩ := map_eq_some_iff.mp inner
  cases same
  exact ⟨chain,findInBucket_some found⟩

theorem setSlot_same (t : Store) (same : t.slots r i = x) : t.setSlot r i x = t := by
  subst same
  simp [setSlot]

theorem setSlot_again (t : Store) (r : Ref) (i : Nat) (x y : Option Entry) : (t.setSlot r i x).setSlot r i y = t.setSlot r i y := by
  simp [setSlot]

theorem setItemValue_eq (item : Item c t chunks offset k v) (v' : Value) (expire : Nat) : t.setItemValue offset v' expire =
    (t.store (offset+1) [lengthsWord k.length v'.length expire]).store (offset+3+k.words.length) v'.words := by
  simp only [setItemValue,Mica.setItemValue,item.content.keyLength_eq,k.whole]

theorem Item.setItemValue (item : Item c t chunks offset k v) (heap : Heap c t chunks) (fits : itemWords k.length v'.length ≤ t.data offset)
    (expire : Nat) : Heap c (t.setItemValue offset v' expire) chunks ∧ Item c (t.setItemValue offset v' expire) chunks offset k v' ∧
      ∀ b ∈ chunks, b.start+1 ≠ offset → Kept t (t.setItemValue offset v' expire) b := by
  rw [setItemValue_eq item]
  have size := itemWords_eq k v'
  obtain ⟨content,_,b,mem,occupied,rfl,room⟩ := item
  have short : b.start+1+1+[lengthsWord k.length v'.length expire].length < b.start+b.size := by
    rw [length_singleton]
    omega
  obtain ⟨first,kept⟩ := heap.write mem (by simp [occupied]) (by omega) short
  have short' : b.start+1+3+k.words.length+v'.words.length < b.start+b.size := by omega
  obtain ⟨second,kept'⟩ := first.write mem (by simp [occupied]) (by omega) short'
  generalize middle : t.store (b.start+1+1) [lengthsWord k.length v'.length expire] = t1 at *
  have old : ∀ p, p < b.start+1+1 ∨ b.start+1+2 ≤ p → t1.data p = t.data p := by
    intro p away
    rw [← middle]
    exact Memory.write_other (by rw [length_singleton]; omega)
  have lengths : t1.data (b.start+1+1) = lengthsWord k.length v'.length expire := by
    rw [← middle]
    exact update_self _ _ _
  have before : ∀ p, p < b.start+1+3+k.words.length → (t1.store (b.start+1+3+k.words.length) v'.words).data p = t1.data p :=
    fun p less => Memory.write_other (.inl less)
  have header : (t1.store (b.start+1+3+k.words.length) v'.words).data (b.start+1) = t.data (b.start+1) := by
    rw [before _ (by omega),old _ (by omega)]
  obtain ⟨_,hash,key,_⟩ := holding_iff.mp content
  refine ⟨second,⟨holding_iff.mpr ⟨⟨expire,?_⟩,?_,?_,?_⟩,?_,b,mem,occupied,rfl,?_⟩,?_⟩
  · rw [before _ (by omega),lengths]
  · rw [before _ (by omega),old _ (by omega),hash]
  · refine Eq.trans (Memory.readAll_congr ?_) key
    intro j less
    rw [before _ (by omega),old _ (by omega)]
  · exact Memory.readAll_write t1.data _ _
  · rw [header]
    exact fits
  · rw [header]
    exact room
  intro a other away
  have different : a ≠ b := by
    rintro rfl
    exact away rfl
  exact (kept a other different).trans (kept' a other different)

theorem lastRef_append (r : Ref) (xs ys : List Nat) : lastRef r (xs ++ ys) = lastRef (lastRef r xs) ys := by
  rcases eq_nil_or_concat ys with rfl | ⟨_,_,rfl⟩
  · rw [append_nil]
    rfl
  · simp [lastRef]

theorem Linked.behind (linked : Linked c t lists) (chain : r ∈ refs lists b) :
    ∃ front, lists (some b) = front ++ t.follow c.numExtra (t.next r) ∧ lastRef (.main b) front = r := by
  have path := linked.all.path (some b)
  rcases mem_cons.mp chain with rfl | extra
  · exact ⟨[],by rw [linked.follow_eq,nil_append],rfl⟩
  obtain ⟨x,mem,rfl⟩ := mem_map.mp extra
  obtain ⟨xs,ys,shape⟩ := append_of_mem mem
  rw [shape,path_append] at path
  have short : ys.length ≤ c.numExtra := by
    have := linked.length_le (some b)
    rw [shape,length_append,length_cons] at this
    omega
  refine ⟨xs ++ [x],?_,?_⟩
  · rw [follow_path path.2 short,shape]
    simp
  · simp [lastRef]

theorem Linked.behind_ne (linked : Linked c t lists) (chain : r ∈ refs lists b) (mem : x ∈ t.follow c.numExtra (t.next r)) :
    r ≠ .extra x := by
  rintro rfl
  obtain ⟨front,shape,last⟩ := linked.behind chain
  have once := linked.all.once (some b)
  rcases eq_nil_or_concat front with rfl | ⟨before,y,rfl⟩
  · cases last
  have same : y = x := by simpa [lastRef] using last
  subst same
  rw [shape,concat_eq_append] at once
  exact (nodup_append'.mp once).2.2 (show y ∈ before ++ [y] by simp) mem

def Filled (c : Config) (t : Store) (r : Ref) (garbage : Nat) : Prop :=
  ∀ x ∈ (t.follow c.numExtra (t.next r)).getLast?, (∃ j < itemsPerBucket, (t.slots (.extra x) j).isSome = true) ∨ garbage < itemsPerBucket

theorem follow_setSlot (t : Store) (fuel : Nat) (x : Option Nat) : (t.setSlot r i e).follow fuel x = t.follow fuel x := by
  induction fuel generalizing x with
  | zero => rfl
  | succ fuel ih =>
    cases x with
    | none => rfl
    | some x => exact congrArg _ (ih _)

section
variable (sound : Sound c t map chunks lists)
include sound

theorem Sound.located (got : t.findItemIndex c k = some (r,i,e)) :
    ∃ v, Item c t chunks e.offset k v ∧ map k = some v ∧ r ∈ refs lists (c.bucketIndex k) ∧ i < itemsPerBucket ∧
      t.slots r i = some e ∧ e.tag = c.tag k := by
  obtain ⟨chain,inside,slot,tag,held⟩ := findItemIndex_some got
  obtain ⟨_,_,v,_,item,_,known⟩ := sound.used r i e slot
  have same := item.content.key_eq held
  subst same
  rw [sound.linked.chain_eq] at chain
  exact ⟨v,item,known,chain,inside,slot,tag⟩

theorem Sound.absent (missing : t.findItemIndex c k = none) : map k = none := by
  rw [Option.eq_none_iff_forall_ne_some]
  intro v known
  obtain ⟨r,i,e,slot,holding⟩ := sound.found k v known
  obtain ⟨inside,_,_,chain,item,tag,_⟩ := sound.used r i e slot
  obtain ⟨rfl,rfl⟩ := holding.unique item.content
  rw [← sound.linked.chain_eq] at chain
  have inner := Option.map_eq_none_iff.mp (List.findSome?_eq_none_iff.mp missing r chain)
  have here := List.findSome?_eq_none_iff.mp inner i (mem_range.mpr inside)
  rw [slot,Option.bind_some,if_pos (by simp [tag,Config.tag,holding.holdsKey_eq])] at here
  cases here

theorem Sound.get (k : Key) : (t.get c k).map (Option.map Prod.fst) = if ∀ v ∈ map k, v.length ≤ 1500 then some (map k) else none := by
  unfold Store.get
  cases got : t.findItemIndex c k with
  | none => simp [sound.absent got]
  | some x =>
    obtain ⟨_,item,known,_⟩ := sound.located got
    simp only [item.content.readValue_eq,known,mem_def,Option.some.injEq,forall_eq']
    split
    next long => rw [if_neg (Nat.not_le.mpr long),map_none]
    next short => rw [if_pos (Nat.le_of_not_lt short),map_some,map_some]

theorem Sound.test (k : Key) : t.test c k = (map k).isSome := by
  unfold Store.test
  cases got : t.findItemIndex c k with
  | none =>
    rw [sound.absent got]
    rfl
  | some x =>
    obtain ⟨_,_,known,_⟩ := sound.located got
    rw [known]
    rfl

theorem Sound.rewrite (got : t.findItemIndex c k = some (r,i,e))
    (fits : itemWords k.length v'.length ≤ t.data e.offset) (expire : Nat) :
    Sound c (t.setItemValue e.offset v' expire) (update map k (some v')) chunks lists := by
  obtain ⟨v,item,_,chain,inside,slot,tag⟩ := sound.located got
  obtain ⟨cleared,gone⟩ := sound.clear slot item.content
  have there : Item c (t.setSlot r i none) chunks e.offset k v := item.beside rfl
  obtain ⟨heap,item',kept⟩ := there.setItemValue cleared.heap fits expire
  obtain ⟨changed,_⟩ := cleared.memory heap cleared.settled ⟨rfl,rfl,rfl⟩ (by
    intro r' i' e' left b mem _ place
    refine ⟨mem,kept b mem ?_⟩
    rw [← place]
    intro same
    exact gone r' i' e' v left (same ▸ item.content))
  have placed := changed.place item' chain inside (.inl ⟨update_self _ _ _,setSlot_own t r i none⟩)
  have entry : (⟨c.tag k,e.offset⟩ : Entry) = e := by rw [← tag]
  rw [entry,update_idem] at placed
  have restored : ((t.setSlot r i none).setItemValue e.offset v' expire).setSlot r i (some e) = t.setItemValue e.offset v' expire := by
    change ((t.setItemValue e.offset v' expire).setSlot r i none).setSlot r i (some e) = _
    rw [setSlot_again]
    exact setSlot_same _ slot
  rwa [restored] at placed

omit sound in
theorem Turn.memory (turn : Turn c t map r i k) (slots : t'.slots = t.slots)
    (forth : ∀ r i e k v, t.slots r i = some e → Holding t.data c.hash e.offset k v → Holding t'.data c.hash e.offset k v) :
    Turn c t' map r i k := by
  rcases turn with ⟨absent,empty⟩ | ⟨e,v,slot,holding⟩
  · exact .inl ⟨absent,slots ▸ empty⟩
  · exact .inr ⟨e,v,slots ▸ slot,forth r i e k v slot holding⟩

theorem Sound.allocate (turn : Turn c t map r i k)
    (head : t.headChunk (itemWords k.length v.length+2) = some start) (room : itemWords k.length v.length+2 ≤ tagSize (t.data start))
    (expire : Nat) :
    ∃ t1 chunks', t.allocate (itemWords k.length v.length) = some (.chunk (start+1,t1)) ∧
      Sound c (t1.setItem c (start+1) k v expire) map chunks' lists ∧ Item c (t1.setItem c (start+1) k v expire) chunks' (start+1) k v ∧
      Turn c (t1.setItem c (start+1) k v expire) map r i k ∧ t1.slots = t.slots ∧ (∀ r i e, t.slots r i = some e → e.offset ≠ start+1) ∧
      ∀ b ∈ chunks', b.status = .occupied → b.start = start ∨ b ∈ chunks := by
  have two : 2 ≤ itemWords k.length v.length := by
    simp only [itemWords]
    omega
  obtain ⟨t1,chunks',size,done,heap1,settled1,inside,fits,header,beside,stays,only,_⟩ := sound.heap.allocate sound.settled head room two
  obtain ⟨sound1,forth1⟩ := sound.memory heap1 settled1 beside (by
    intro _ _ _ _ b mem occupied _
    obtain ⟨there,_,kept⟩ := stays b mem occupied
    exact ⟨there,kept⟩)
  have away : ∀ r i e, t.slots r i = some e → e.offset ≠ start+1 := by
    intro r' i' e slot
    obtain ⟨_,_,_,_,⟨_,_,b,mem,occupied,place,_⟩,_⟩ := sound.used r' i' e slot
    have := (stays b mem occupied).2.1
    omega
  have length := length_record c.hash k v expire
  have short : start+1+1+(record c.hash k v expire).length < start+size := by omega
  obtain ⟨heap2,kept2⟩ := heap1.write inside (by simp) (Nat.lt_add_of_pos_right (by decide : 0 < 2)) short
  obtain ⟨sound2,forth2⟩ := sound1.memory heap2 settled1 ⟨rfl,rfl,rfl⟩ (by
    intro r' i' e slot b mem _ place
    refine ⟨mem,kept2 b mem ?_⟩
    rintro rfl
    rw [beside.slots] at slot
    exact away r' i' e slot place)
  refine ⟨t1,chunks',done,sound2,⟨⟨expire,?_⟩,?_,_,inside,rfl,rfl,?_⟩,(turn.memory beside.slots forth1).memory rfl forth2,beside.slots,away,
    only⟩
  · have written := Memory.readAll_write t1.data (start+1+1) (record c.hash k v expire)
    rw [← length,Nat.add_sub_cancel]
    exact written
  · exact Nat.le_of_eq (Eq.trans header.symm (Memory.write_other (.inl (Nat.lt_succ_self _))).symm)
  have same : (t1.setItem c (start+1) k v expire).data (start+1) = itemWords k.length v.length :=
    (Memory.write_other (.inl (Nat.lt_succ_self _))).trans header
  rw [same]
  exact fits

-- No chunk is occupied that no entry of a bucket points to.
def Tight (t : Store) (chunks : List Chunk) : Prop :=
  ∀ b ∈ chunks, b.status = .occupied → ∃ r i e, t.slots r i = some e ∧ e.offset = b.start+1

omit sound in
theorem Tight.replace (tight : Tight t chunks) (r : Ref) (i : Nat) (slots : t'.slots = (t.setSlot r i (some ⟨tag,start+1⟩)).slots)
    (only : ∀ b ∈ chunks', b.status = .occupied → b.start = start ∨ b ∈ chunks ∧ ∀ e, t.slots r i = some e → e.offset ≠ b.start+1) :
    Tight t' chunks' := by
  intro b mem occupied
  rw [slots]
  rcases only b mem occupied with rfl | ⟨old,kept⟩
  · exact ⟨r,i,_,setSlot_own t r i _,rfl⟩
  obtain ⟨r',i',e,slot,place⟩ := tight b old occupied
  refine ⟨r',i',e,?_,place⟩
  rw [setSlot_other t _ fun _ same => ?_]
  · exact slot
  · subst_vars
    exact kept e slot place

theorem Sound.insert (chain : r ∈ refs lists (c.bucketIndex k)) (inside : i < itemsPerBucket)
    (turn : Turn c t map r i k)
    (room : ∀ start ∈ t.headChunk (itemWords k.length v.length+2), itemWords k.length v.length+2 ≤ tagSize (t.data start)) (expire : Nat) :
    ∃ done t' chunks', t.insert c r i k v expire ((t.slots r i).map Entry.offset) = some (done,t') ∧
      (done = true ∨ t.headChunk (itemWords k.length v.length+2) = none) ∧
      Sound c t' (if done then update map k (some v) else map) chunks' lists ∧ (Tight t chunks → Tight t' chunks') := by
  cases head : t.headChunk (itemWords k.length v.length+2) with
  | none =>
    refine ⟨false,t,chunks,?_,.inr rfl,sound,id⟩
    simp only [Store.insert,allocate_none head,map_some]
  | some start =>
    obtain ⟨t1,chunks1,done,sound1,item,turn1,slots,away,only⟩ := sound.allocate turn head (room start head) expire
    have placed := sound1.place item chain inside turn1
    generalize written : t1.setItem c (start+1) k v expire = t2 at *
    have slots2 : t2.slots = t.slots := by
      rw [← written]
      exact slots
    have placed_slots : (t2.setSlot r i (some ⟨c.tag k,start+1⟩)).slots = (t.setSlot r i (some ⟨c.tag k,start+1⟩)).slots := by
      simp only [setSlot,slots2]
    cases old : t.slots r i with
    | none =>
      refine ⟨true,t2.setSlot r i (some ⟨c.tag k,start+1⟩),chunks1,?_,.inl rfl,placed,fun tight => ?_⟩
      · simp only [Store.insert,done,map_some,map_none,written]
      · exact tight.replace r i placed_slots fun b mem occupied => (only b mem occupied).imp_right fun old => ⟨old,by simp [*]⟩
    | some e =>
      -- The chunk of the old item belongs to no entry any more.
      obtain ⟨_,_,_,_,item',_⟩ := sound1.used r i e (slots2 ▸ old)
      obtain ⟨_,mine⟩ := turn1.own (slots2 ▸ old)
      obtain ⟨rfl,rfl⟩ := mine.unique item'.content
      obtain ⟨_,_,b,mem,occupied,place,_⟩ := item'
      obtain ⟨chunks',heap,settled,beside,kept,left,_⟩ := placed.heap.deallocate placed.settled mem occupied
      obtain ⟨freed,_⟩ := placed.memory heap settled beside (by
        intro r1 i1 e1 slot1 a member1 occupied1 place1
        refine kept a member1 occupied1 ?_
        rintro rfl
        rcases setSlot_cases slot1 with ⟨rfl,rfl,new⟩ | ⟨other,there⟩
        · cases new
          exact away r1 i1 e old (place.trans place1.symm)
        · have shared : e1.offset = e.offset := place1.trans place.symm
          have := sound1.alone turn1 there (shared ▸ mine)
          exact other this.1 this.2)
      refine ⟨true,_,chunks',?_,.inl rfl,freed,fun tight => ?_⟩
      · simp only [Store.insert,done,map_some,written,place]
      refine tight.replace r i (beside.slots.trans placed_slots) fun a mem occupied => ?_
      obtain ⟨old,_⟩ := left a mem occupied
      refine (only a old occupied).imp_right fun older => ⟨older,fun e' slot => ?_⟩
      cases slot.symm.trans ‹t.slots r i = some e›
      omega

theorem Sound.findEmpty (b : Nat) (got : t.findEmpty c b = some (r,i,t')) :
    ∃ lists', Sound c t' map chunks lists' ∧ r ∈ refs lists' b ∧ i < itemsPerBucket ∧ t'.slots r i = none := by
  unfold Store.findEmpty at got
  split at got
  next r' i' first =>
    cases got
    obtain ⟨r',chain,inner⟩ := exists_of_findSome?_eq_some first
    obtain ⟨i',listed,same⟩ := map_eq_some_iff.mp inner
    cases same
    rw [sound.linked.chain_eq] at chain
    have empty := List.find?_some listed
    exact ⟨lists,sound,chain,mem_range.mp (mem_of_find?_eq_some listed),Option.isNone_iff_eq_none.mp empty⟩
  · obtain ⟨⟨_,_⟩,taken,same⟩ := map_eq_some_iff.mp got
    cases same
    rw [sound.linked.follow_eq] at taken
    obtain ⟨lists',linked,chain,empty⟩ := sound.allocExtraBucket b taken
    exact ⟨lists',linked,chain,by decide,empty 0⟩

omit sound in
theorem findEmpty_memory (got : t.findEmpty c b = some (r,i,t')) : t'.data = t.data ∧ t'.slots = t.slots ∧
    ∀ minimum, t'.headChunk minimum = t.headChunk minimum := by
  unfold Store.findEmpty at got
  split at got
  · cases got
    exact ⟨rfl,rfl,fun _ => rfl⟩
  obtain ⟨⟨_,_⟩,taken,same⟩ := map_eq_some_iff.mp got
  cases same
  obtain ⟨_,_,parts⟩ := map_eq_some_iff.mp taken
  cases parts
  exact ⟨rfl,rfl,fun _ => rfl⟩

theorem Sound.fillHole (chain : r ∈ refs lists b) (inside : i < itemsPerBucket)
    (empty : t.slots r i = none) (filled : Filled c t r garbage) :
    ∃ t' lists', t.fillHole c r i garbage = some t' ∧ Sound c t' map chunks lists' := by
  obtain ⟨front,shape,last⟩ := sound.linked.behind chain
  have ahead : ∀ x ∈ t.follow c.numExtra (t.next r), r ≠ .extra x := fun x => sound.linked.behind_ne chain
  unfold Filled at filled
  unfold Store.fillHole
  generalize t.follow c.numExtra (t.next r) = rest at *
  rcases eq_nil_or_concat rest with rfl | ⟨middle,x,rfl⟩
  · exact ⟨t,lists,rfl,sound⟩
  rw [concat_eq_append] at *
  simp only [List.getLast?_append,List.getLast?_singleton,Option.some_or,mem_def,Option.some.injEq,forall_eq',
    dropLast_concat] at filled ⊢
  have final : lists (some b) = (front ++ middle) ++ [x] := by rw [shape,append_assoc]
  have prev : lastRef r middle = lastRef (.main b) (front ++ middle) := by rw [lastRef_append,last]
  have mine : x ∈ lists (some b) := by simp [final]
  have other : r ≠ .extra x := ahead x (by simp)
  rw [prev]
  have outside : ∀ j, itemsPerBucket ≤ j → t.slots (.extra x) j = none := by
    intro j large
    rw [Option.eq_none_iff_forall_ne_some]
    intro e slot
    exact absurd (sound.used _ j e slot).1 (Nat.not_lt.mpr large)
  cases items : (List.range itemsPerBucket).filter fun j => (t.slots (.extra x) j).isSome with
  | nil =>
    have bare : ∀ j, t.slots (.extra x) j = none := by
      intro j
      by_cases less : j < itemsPerBucket
      · have := filter_eq_nil_iff.mp items j (mem_range.mpr less)
        simpa using this
      · exact outside j (Nat.le_of_not_lt less)
    have small : garbage < itemsPerBucket := by
      rcases filled with ⟨j,_,there⟩ | small
      · rw [bare j] at there
        cases there
      · exact small
    obtain ⟨lists',freed⟩ := sound.freeExtraBucket final bare
    refine ⟨_,lists',?_,freed⟩
    simp only [headD_nil,small,if_true,bare,length_nil,Nat.zero_le]
    rw [setSlot_same t empty,setSlot_same t (bare garbage)]
  | cons m later =>
    have listed : m ∈ (List.range itemsPerBucket).filter fun j => (t.slots (.extra x) j).isSome := by simp [items]
    obtain ⟨range,there⟩ := mem_filter.mp listed
    have less := mem_range.mp range
    obtain ⟨e,slot⟩ := Option.isSome_iff_exists.mp there
    have home : ∀ d, .extra x ∈ refs lists d → r ∈ refs lists d := by
      intro d mem
      have same := sound.linked.refs_unique mem (show .extra x ∈ refs lists b by simp [refs,mine])
      rw [same]
      exact chain
    have moved := sound.move slot empty home inside
    simp only [headD_cons,less,if_true,slot]
    split
    next few =>
      have alone : later = [] := by
        rw [length_cons] at few
        exact eq_nil_of_length_eq_zero (by omega)
      subst alone
      obtain ⟨lists',freed⟩ := moved.freeExtraBucket final (by
        intro j
        by_cases same : j = m
        · rw [same]
          exact setSlot_own _ _ _ _
        rw [setSlot_other _ _ (fun _ => same),setSlot_other _ _ (fun ref => absurd ref.symm other)]
        by_cases small : j < itemsPerBucket
        · rw [← Option.not_isSome_iff_eq_none]
          intro there
          have : j ∈ (List.range itemsPerBucket).filter fun j => (t.slots (.extra x) j).isSome :=
            mem_filter.mpr ⟨mem_range.mpr small,there⟩
          rw [items,mem_singleton] at this
          exact same this
        · exact outside j (Nat.le_of_not_lt small))
      exact ⟨_,lists',rfl,freed⟩
    · exact ⟨_,lists,rfl,moved⟩

theorem Sound.filled_clear (chain : r ∈ refs lists b) (i garbage : Nat) :
    Filled c (t.setSlot r i none) r garbage ↔ Filled c t r garbage := by
  have same : ∀ x ∈ (t.follow c.numExtra (t.next r)).getLast?, (t.setSlot r i none).slots (.extra x) = t.slots (.extra x) := by
    intro x last
    have other := sound.linked.behind_ne chain (mem_of_getLast? last)
    exact update_of_ne (Ne.symm other) _ _
  have behind : (t.setSlot r i none).follow c.numExtra ((t.setSlot r i none).next r) = t.follow c.numExtra (t.next r) := follow_setSlot t _ _
  unfold Filled
  rw [behind]
  constructor
  · intro filled x last
    rw [← same x last]
    exact filled x last
  · intro filled x last
    rw [same x last]
    exact filled x last

omit sound in
theorem fillHole_none (unfilled : ¬ Filled c t r garbage) : t.fillHole c r i garbage = none := by
  unfold Filled at unfilled
  push Not at unfilled
  obtain ⟨x,last,bare,large⟩ := unfilled
  have items : (List.range itemsPerBucket).filter (fun j => (t.slots (.extra x) j).isSome) = [] := by
    rw [filter_eq_nil_iff]
    intro j range there
    exact bare j (mem_range.mp range) there
  unfold Store.fillHole
  rw [mem_def.mp last]
  simp only [items,headD_nil,if_neg (show ¬ garbage < itemsPerBucket by omega)]

def allocates (c : Config) (t : Store) (k : Key) (v : Value) (overwrite : Bool) : Bool :=
  match t.findItemIndex c k with
  | some (_,_,e) => overwrite && decide (t.data e.offset < itemWords k.length v.length)
  | none => (t.findEmpty c (c.bucketIndex k)).isSome

-- What the code relies on at each call: the chunk that an allocation is cut from is large
-- enough, the value that a get reads is not longer than the code expects of any value, and
-- the last bucket of the chain that a delete shortens is not empty, unless an index that
-- was never set happens to be one of the bucket.
def Careful (c : Config) (s : Session) : Action → Prop
  | .set k v _ overwrite => allocates c s.store k v overwrite = true →
      ∀ start ∈ s.store.headChunk (itemWords k.length v.length+2), itemWords k.length v.length+2 ≤ tagSize (s.store.data start)
  | .delete k garbage => ∀ x ∈ s.store.findItemIndex c k, Filled c s.store x.1 garbage
  | .get k => ∀ v ∈ s.map k, v.length ≤ 1500
  | .test _ => True

def LacksSpace (c : Config) (t : Store) (k : Key) (v : Value) : Prop :=
  (t.findItemIndex c k = none ∧ t.findEmpty c (c.bucketIndex k) = none) ∨ t.headChunk (itemWords k.length v.length+2) = none

def Agrees (c : Config) (s : Session) : Action → Prop
  | .set k v expire overwrite => ∃ done t, s.store.set c k v expire overwrite = some (done,t) ∧
      if (s.map k).isSome ∧ overwrite = false then done = false else done = true ∨ LacksSpace c s.store k v
  | .get k => (s.store.get c k).map (Option.map Prod.fst) = some (s.map k)
  | .test k => s.store.test c k = (s.map k).isSome
  | .delete k garbage => ∃ t, s.store.delete c k garbage = some ((s.map k).isSome,t)

theorem Sound.set (room : allocates c t k v overwrite = true →
      ∀ start ∈ t.headChunk (itemWords k.length v.length+2), itemWords k.length v.length+2 ≤ tagSize (t.data start)) (expire : Nat) :
    ∃ done t' chunks' lists', t.set c k v expire overwrite = some (done,t') ∧
      (if (map k).isSome ∧ overwrite = false then done = false else done = true ∨ LacksSpace c t k v) ∧
      Sound c t' (if done then update map k (some v) else map) chunks' lists' ∧ (Tight t chunks → Tight t' chunks') := by
  unfold Store.set
  cases got : t.findItemIndex c k with
  | some x =>
    obtain ⟨r,i,e⟩ := x
    obtain ⟨v',item,known,chain,inside,slot,_⟩ := sound.located got
    simp only [known,Option.isSome_some,true_and]
    cases overwrite with
    | false => exact ⟨false,t,chunks,lists,rfl,rfl,sound,id⟩
    | true =>
      simp only [Bool.not_true,Bool.false_eq_true,if_false,Bool.true_eq_false]
      split
      next fits =>
        exact ⟨true,_,chunks,lists,rfl,.inl rfl,sound.rewrite got fits expire,id⟩
      obtain ⟨done,t',chunks',inserted,space,kept⟩ := sound.insert chain inside (.inr ⟨e,v',slot,item.content⟩)
        (room (by simp [allocates,got]; omega)) expire
      rw [slot] at inserted
      exact ⟨done,t',chunks',lists,inserted,space.imp_right .inr,kept⟩
  | none =>
    have absent := sound.absent got
    simp only [absent,Option.isSome_none,Bool.false_eq_true,false_and,if_false]
    cases empty : t.findEmpty c (c.bucketIndex k) with
    | none => exact ⟨false,t,chunks,lists,rfl,.inr (.inl ⟨got,empty⟩),sound,id⟩
    | some x =>
      obtain ⟨r,i,_⟩ := x
      obtain ⟨lists1,sound1,chain,inside,slot⟩ := sound.findEmpty _ empty
      obtain ⟨data,slots,head⟩ := findEmpty_memory empty
      obtain ⟨done,t',chunks',inserted,space,kept⟩ := sound1.insert chain inside (.inl ⟨absent,slot⟩) (by
        rw [head,data]
        exact room (by simp [allocates,got,empty])) expire
      rw [slot] at inserted
      rw [head] at space
      unfold Tight at kept ⊢
      rw [slots] at kept
      exact ⟨done,t',chunks',lists1,inserted,space.imp_right .inr,kept⟩

theorem Sound.delete (filled : ∀ x ∈ t.findItemIndex c k, Filled c t x.1 garbage) :
    ∃ t' lists', t.delete c k garbage = some ((map k).isSome,t') ∧
      Sound c t' (if (map k).isSome then update map k none else map) chunks lists' := by
  unfold Store.delete
  cases got : t.findItemIndex c k with
  | none =>
    rw [sound.absent got]
    exact ⟨t,lists,rfl,sound⟩
  | some x =>
    obtain ⟨r,i,e⟩ := x
    obtain ⟨_,item,known,chain,inside,slot,_⟩ := sound.located got
    obtain ⟨cleared,_⟩ := sound.clear slot item.content
    obtain ⟨t',lists',done,kept⟩ := cleared.fillHole chain inside (setSlot_own t r i none)
      ((sound.filled_clear chain i garbage).mpr (filled (r,i,e) got))
    rw [known]
    exact ⟨t',lists',by simp [done],kept⟩

end

theorem path_spare (c : Config) (j : Nat) (inside : j < c.numExtra) :
    Path node (links (initial c)) (some (.extra (c.numExtra-j))) (List.range' (c.numExtra-j+1) j) none := by
  induction j with
  | zero =>
    change (if c.numExtra-0 < c.numExtra then some (c.numExtra-0+1) else none) = none
    simp
  | succ j ih =>
    have later := ih (by omega)
    rw [List.range'_succ,show c.numExtra-(j+1)+1 = c.numExtra-j by omega]
    refine ⟨?_,later⟩
    change (if c.numExtra-(j+1) < c.numExtra then some (c.numExtra-(j+1)+1) else none) = _
    rw [if_pos (by omega),show c.numExtra-(j+1)+1 = c.numExtra-j by omega]

theorem linked_initial (c : Config) : Linked c (initial c) fun h => h.elim (List.range' 1 c.numExtra) fun _ => [] := by
  refine ⟨⟨?_,?_,?_⟩,?_⟩
  · intro h
    cases h with
    | none =>
      by_cases nothing : c.numExtra = 0
      · rw [nothing]
        change (if c.numExtra = 0 then none else some 1) = none
        rw [if_pos nothing]
      obtain ⟨n,size⟩ : ∃ n, c.numExtra = n+1 := ⟨c.numExtra-1,by omega⟩
      have path := path_spare c n (by omega)
      rw [size,Nat.add_sub_cancel_left] at path
      rw [size,List.range'_succ]
      refine ⟨?_,path⟩
      change (if c.numExtra = 0 then none else some 1) = some 1
      rw [if_neg nothing]
    | some b => exact rfl
  · intro h
    cases h with
    | none => exact nodup_range'
    | some b => exact nodup_nil
  · intro h g x one other
    cases h <;> cases g <;> simp at one other ⊢
  intro h x mem
  cases h with
  | none =>
    have := mem_range'_1.mp mem
    omega
  | some b => cases mem

theorem sound_initial (c : Config) : ∃ lists, Sound c (initial c) (fun _ => none) [⟨0,c.size,.free⟩] lists := by
  have whole : Heap c (blank c) ([] ++ [⟨0,c.size,.held⟩] ++ []) := by
    have enough := c.enough
    refine ⟨⟨rfl,Nat.lt_of_lt_of_le (by decide) enough,Nat.zero_add _⟩,?_,?_,fun _ => [],?_,fun _ => nodup_nil,fun _ => rfl,fun _ => trivial⟩
    · simpa [minSize] using enough
    · simp
    · simp
  have heap := (whole.insert rfl).1
  refine ⟨_,heap,?_,linked_initial c,?_,?_,?_⟩
  · simp [Settled]
  all_goals intros; contradiction

def Good (c : Config) (s : Session) : Prop := ∃ chunks lists, Sound c s.store s.map chunks lists

theorem good_step (good : Good c s) (careful : Careful c s a) (taken : step c s a = some s') : Good c s' := by
  obtain ⟨chunks,lists,sound⟩ := good
  cases a with
  | get k =>
    obtain ⟨_,_,rfl⟩ := map_eq_some_iff.mp taken
    exact ⟨chunks,lists,sound⟩
  | test k =>
    cases taken
    exact ⟨chunks,lists,sound⟩
  | set k v expire overwrite =>
    obtain ⟨_,t',chunks',lists',result,_,kept,_⟩ := sound.set careful expire
    simp only [step,result,map_some,Option.some.injEq] at taken
    subst taken
    exact ⟨chunks',lists',kept⟩
  | delete k garbage =>
    obtain ⟨t',lists',result,kept⟩ := sound.delete careful
    simp only [step,result,map_some,Option.some.injEq] at taken
    subst taken
    exact ⟨chunks,lists',kept⟩

theorem good_of_reached (reached : (table c).Reached (Careful c) s) : Good c s := by
  refine Machine.Reached.invariant (Good c) (show Good c (table c).initial from ⟨_,sound_initial c⟩) ?_ reached
  intro s a s' _ good careful taken
  exact good_step good careful taken

theorem set_undefined (asks : allocates c t k v overwrite = true) (head : t.headChunk (itemWords k.length v.length+2) = some start)
    (small : tagSize (t.data start) < itemWords k.length v.length+2) (expire : Nat) : t.set c k v expire overwrite = none := by
  unfold allocates at asks
  unfold Store.set
  cases got : t.findItemIndex c k with
  | some x =>
    obtain ⟨r,i,_⟩ := x
    simp only [got,Bool.and_eq_true,decide_eq_true_eq] at asks
    simp only [asks.1,Bool.not_true,Bool.false_eq_true,if_false,if_neg (Nat.not_le.mpr asks.2),Store.insert,allocate_small head small,
      map_none]
  | none =>
    rw [got] at asks
    obtain ⟨⟨r,i,_⟩,empty⟩ := Option.isSome_iff_exists.mp asks
    obtain ⟨data,_,same⟩ := findEmpty_memory empty
    simp only [empty,Store.insert,allocate_small ((same _).trans head) (data ▸ small),map_none]

theorem agrees_iff_careful (c : Config) (a : Action) (reached : (table c).Reached (Careful c) s) : Agrees c s a ↔ Careful c s a := by
  obtain ⟨_,_,sound⟩ := good_of_reached reached
  cases a with
  | get k =>
    have answer := sound.get k
    split at answer
    next short => exact ⟨fun _ => short,fun _ => answer⟩
    next long => exact ⟨fun agrees => (nomatch answer.symm.trans agrees),fun short => absurd short long⟩
  | test k => exact ⟨fun _ => trivial,fun _ => sound.test k⟩
  | set k v expire overwrite =>
    constructor
    · rintro ⟨done,t,result,_⟩ asks _ head
      by_contra small
      rw [set_undefined asks head (Nat.lt_of_not_le small) expire] at result
      cases result
    · intro careful
      obtain ⟨done,t,_,_,result,answer,_⟩ := sound.set careful expire
      exact ⟨done,t,result,answer⟩
  | delete k garbage =>
    constructor
    · rintro ⟨t,result⟩ ⟨_,i,_⟩ found
      by_contra unfilled
      obtain ⟨_,_,_,chain,_⟩ := sound.located found
      rw [mem_def] at found
      rw [← sound.filled_clear chain i garbage] at unfilled
      simp only [Store.delete,found,fillHole_none unfilled,map_none] at result
      cases result
    · intro careful
      obtain ⟨t,_,result,_⟩ := sound.delete careful
      exact ⟨t,result⟩

instance (c : Config) (t : Store) (r : Ref) (garbage : Nat) : Decidable (Filled c t r garbage) := by
  unfold Filled; infer_instance

instance (c : Config) (s : Session) (a : Action) : Decidable (Careful c s a) := by
  unfold Careful; split <;> infer_instance

-- Sixteen buckets and one extra bucket, a memory of 4096 words; keys are of one word, and
-- small ones share a bucket.
def smallConfig : Config where
  logBuckets := 4
  numExtra := 1
  size := 4096
  hash k := k.words.headD 0
  enough := by decide
  small := by decide

def longValue (n : Nat) (short : n ≤ 131071) : Value := ⟨8*n,List.replicate n n,by rw [length_replicate]; omega,by omega⟩

def fillBucket : List Action := (List.range 8).map fun n => .set (wordKey (n+1)) (longValue 1 (by decide)) 0 true

-- Eight keys in one bucket: the first is deleted, and the eighth takes its slot.
theorem agrees_iff_careful_moved : ∃ s, (table smallConfig).Reached (Careful smallConfig) s ∧
    Agrees smallConfig s (.delete (wordKey 8) 7) ∧ s.store.test smallConfig (wordKey 8) = true := by
  obtain ⟨s,reached,careful,there⟩ := Machine.reached_of_run (table smallConfig) (Careful smallConfig)
    (fun s => Careful smallConfig s (.delete (wordKey 8) 7) ∧ s.store.test smallConfig (wordKey 8) = true)
    (fillBucket ++ [.delete (wordKey 1) 7]) (by decide +kernel)
  exact ⟨s,reached,(agrees_iff_careful smallConfig _ reached).mpr careful,there⟩

-- The eighth key is deleted and leaves its bucket empty in the chain; deleting the first
-- then takes an item at an index that was never set. And after a large item was moved to
-- make room for its new value, its old chunk is the first of the last class, and a larger
-- item is cut from it. Last, a value of 1504 bytes is set and asked for.
theorem calls_undefined : (∃ s, (table smallConfig).Reached Machine.anyStep s ∧ ¬ Agrees smallConfig s (.delete (wordKey 1) 7)) ∧
    (∃ s, (table smallConfig).Reached Machine.anyStep s ∧ ¬ Agrees smallConfig s (.set (wordKey 3) (longValue 120 (by decide)) 0 true)) ∧
    ∃ s, (table smallConfig).Reached Machine.anyStep s ∧ ¬ Agrees smallConfig s (.get (wordKey 1)) := by
  refine ⟨?_,?_,?_⟩
  · obtain ⟨s,reached,seen⟩ := Machine.reached_of_run (table smallConfig) Machine.anyStep
      (fun s => (s.store.delete smallConfig (wordKey 1) 7).isNone) (fillBucket ++ [.delete (wordKey 8) 7]) (by decide +kernel)
    refine ⟨s,reached,?_⟩
    rintro ⟨t,result⟩
    rw [result] at seen
    cases seen
  · obtain ⟨s,reached,seen⟩ := Machine.reached_of_run (table smallConfig) Machine.anyStep
      (fun s => (s.store.set smallConfig (wordKey 3) (longValue 120 (by decide)) 0 true).isNone)
      [.set (wordKey 1) (longValue 40 (by decide)) 0 true,.set (wordKey 2) (longValue 1 (by decide)) 0 true,
        .set (wordKey 1) (longValue 60 (by decide)) 0 true] (by decide +kernel)
    refine ⟨s,reached,?_⟩
    rintro ⟨_,t,result,_⟩
    rw [result] at seen
    cases seen
  · obtain ⟨s,reached,seen⟩ := Machine.reached_of_run (table smallConfig) Machine.anyStep
      (fun s => (s.store.get smallConfig (wordKey 1)).isNone) [.set (wordKey 1) (longValue 188 (by decide)) 0 true] (by decide +kernel)
    refine ⟨s,reached,fun result => ?_⟩
    rw [Agrees,Option.isNone_iff_eq_none.mp seen] at result
    cases result

end DbExp.Mica.Store
