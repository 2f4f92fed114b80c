import DbExp.Mica.StoreRefine

namespace DbExp.Mica.Store
open Function List

variable {c : Config} {t : Store} {map : Key → Option Value} {chunks : List Chunk} {lists : Option Nat → List Nat} {k : Key} {v : Value}

def Refers (c : Config) (t : Store) (k : Key) (offset : Nat) : Prop :=
  ∃ r ∈ t.chain c (c.bucketIndex k), ∃ i < itemsPerBucket, ∃ e, t.slots r i = some e ∧ e.offset = offset ∧ holdsKey t.data c.hash offset k = true

-- The occupied chunks are those that the bucket chains refer to, and a stored key has one.
def Accounted (c : Config) (s : Session) : Prop :=
  ∃ chunks, Heap c s.store chunks ∧ Settled chunks ∧ (∀ b ∈ chunks, b.status = .occupied ↔ ∃ k, Refers c s.store k (b.start+1)) ∧
    ∀ k, if (s.map k).isSome then ∃! offset, Refers c s.store k offset else ∀ offset, ¬ Refers c s.store k offset

def Keeps (c : Config) (s : Session) : Action → Prop
  | .delete k _ => s.store.findItemIndex c k = none
  | .get _ => True
  | a => Careful c s a

section
variable (sound : Sound c t map chunks lists)
include sound

theorem Sound.refers : Refers c t k offset ↔ ∃ r i e v, t.slots r i = some e ∧ e.offset = offset ∧ Item c t chunks offset k v ∧ map k = some v := by
  constructor
  · rintro ⟨r,_,i,_,e,slot,rfl,held⟩
    obtain ⟨_,k',v,_,item,_,known⟩ := sound.used r i e slot
    obtain rfl := item.content.key_eq held
    exact ⟨r,i,e,v,slot,rfl,item,known⟩
  rintro ⟨r,i,e,v,slot,rfl,item,_⟩
  obtain ⟨inside,k',_,chain,item',_⟩ := sound.used r i e slot
  obtain ⟨rfl,rfl⟩ := item.content.unique item'.content
  exact ⟨r,sound.linked.chain_eq _ ▸ chain,i,inside,e,slot,rfl,item.content.holdsKey_eq⟩

theorem Sound.accounted (tight : Tight t chunks) : Accounted c ⟨t,map⟩ := by
  refine ⟨chunks,sound.heap,sound.settled,fun b mem => ⟨fun occupied => ?_,?_⟩,fun k => ?_⟩
  · obtain ⟨r,i,e,slot,place⟩ := tight b mem occupied
    obtain ⟨_,k,v,_,item,_,known⟩ := sound.used r i e slot
    exact ⟨k,sound.refers.mpr ⟨r,i,e,v,slot,place,place ▸ item,known⟩⟩
  · rintro ⟨k,refers⟩
    obtain ⟨_,_,_,_,_,_,⟨_,_,_,mem',occupied,place,_⟩,_⟩ := sound.refers.mp refers
    rw [sound.heap.tiled.unique mem mem' (by omega)]
    exact occupied
  split
  next stored =>
    obtain ⟨v,known⟩ := Option.isSome_iff_exists.mp stored
    obtain ⟨r,i,e,slot,holding⟩ := sound.found k v known
    obtain ⟨_,_,_,_,item,_⟩ := sound.used r i e slot
    obtain ⟨rfl,rfl⟩ := holding.unique item.content
    refine ⟨e.offset,sound.refers.mpr ⟨r,i,e,v,slot,rfl,item,known⟩,fun offset refers => ?_⟩
    obtain ⟨r',i',e',v',slot',rfl,item',_⟩ := sound.refers.mp refers
    obtain ⟨rfl,rfl⟩ := sound.single r i e r' i' e' k v v' slot slot' holding item'.content
    cases slot.symm.trans slot'
    rfl
  · intro offset refers
    obtain ⟨_,_,_,_,_,_,_,known⟩ := sound.refers.mp refers
    simp_all

end

theorem accounted_of_keeps (c : Config) (reached : (table c).Reached (Keeps c) s) : Accounted c s := by
  have kept : ∃ chunks lists, Sound c s.store s.map chunks lists ∧ Tight s.store chunks := by
    refine Machine.Reached.invariant (fun s => ∃ chunks lists, Sound c s.store s.map chunks lists ∧ Tight s.store chunks) ?_ ?_ reached
    · obtain ⟨lists,sound⟩ := sound_initial c
      exact ⟨_,lists,sound,by simp [Tight]⟩
    rintro s a _ _ ⟨chunks,lists,sound,tight⟩ keeps taken
    cases a with
    | get k =>
      obtain ⟨_,_,rfl⟩ := Option.map_eq_some_iff.mp taken
      exact ⟨chunks,lists,sound,tight⟩
    | test k =>
      cases taken
      exact ⟨chunks,lists,sound,tight⟩
    | set k v expire overwrite =>
      obtain ⟨_,_,chunks',lists',result,_,kept,close⟩ := sound.set keeps expire
      simp only [table,step,result,Option.map_some,Option.some.injEq] at taken
      subst taken
      exact ⟨chunks',lists',kept,close tight⟩
    | delete k garbage =>
      have missing : s.store.findItemIndex c k = none := keeps
      simp only [table,step,delete,missing,Option.map_some,Option.some.injEq] at taken
      subst taken
      exact ⟨chunks,lists,sound,tight⟩
  obtain ⟨chunks,lists,sound,tight⟩ := kept
  exact sound.accounted tight

instance (c : Config) (s : Session) (a : Action) : Decidable (Keeps c s a) := by
  unfold Keeps; rcases a with ⟨⟩ <;> infer_instance

theorem accounted_of_keeps_enlarged : ∃ s, (table smallConfig).Reached (Keeps smallConfig) s ∧ Accounted smallConfig s ∧
    s.store.test smallConfig (wordKey 1) = true := by
  obtain ⟨s,reached,seen⟩ := Machine.reached_of_run (table smallConfig) (Keeps smallConfig)
    (fun s => s.store.test smallConfig (wordKey 1))
    [.set (wordKey 1) (longValue 1 (by decide)) 0 true,.set (wordKey 1) (longValue 2 (by decide)) 0 true,.delete (wordKey 2) 7] (by decide +kernel)
  exact ⟨s,reached,accounted_of_keeps smallConfig reached,seen⟩

theorem tiled_unique (one : Tiling.Tiled p q xs) (other : Tiling.Tiled p q ys)
    (tagged : ∀ b : Chunk, b ∈ xs ∨ b ∈ ys → b.status ≠ .held ∧ b.size < 2^63 ∧ Tagged t b) : xs = ys := by
  induction xs generalizing p ys with
  | nil =>
    cases ys with
    | nil => rfl
    | cons d ys =>
      have := other.2.2.le
      have := other.2.1
      have : p = q := one
      omega
  | cons b xs ih =>
    cases ys with
    | nil =>
      have := one.2.2.le
      have := one.2.1
      have : p = q := other
      omega
    | cons d ys =>
      obtain ⟨settled,small,tag,_⟩ := tagged b (by simp)
      obtain ⟨settled',small',tag',_⟩ := tagged d (by simp)
      have start : b.start = d.start := one.1.trans other.1.symm
      rw [← start,tag] at tag'
      have size := congrArg tagSize tag'
      have kind := congrArg tagOccupied tag'
      rw [tagSize_tagVec _ small,tagSize_tagVec _ small'] at size
      rw [tagOccupied_tagVec _ small,tagOccupied_tagVec _ small',decide_eq_decide] at kind
      have same : b = d := by
        rcases b with ⟨_,_,_ | _ | _⟩ <;> rcases d with ⟨_,_,_ | _ | _⟩ <;> simp_all
      subst same
      rw [ih one.2.2 other.2.2 fun a mem => tagged a (by simp only [mem_cons]; tauto)]

theorem Heap.unique (one : Heap c t xs) (settled : Settled xs) (other : Heap c t ys) (settled' : Settled ys) : xs = ys := by
  refine tiled_unique (t := t) one.tiled other.tiled ?_
  rintro b (mem | mem)
  · exact ⟨settled b mem,one.small mem,one.tagged b mem (settled b mem)⟩
  · exact ⟨settled' b mem,other.small mem,other.tagged b mem (settled' b mem)⟩

theorem fillHole_data (filled : t.fillHole c r i garbage = some t') : t'.data = t.data := by
  unfold fillHole at filled
  split at filled
  · cases filled
    rfl
  · dsimp only at filled
    split at filled
    · cases filled
      split <;> rfl
    · cases filled

-- A delete that finds its key leaves the chunk of the item occupied.
theorem delete_unaccounted (good : Good c s) (found : (s.store.findItemIndex c k).isSome = true)
    (taken : step c s (.delete k garbage) = some s') (careful : Careful c s (.delete k garbage)) : s'.map k = none ∧ ¬ Accounted c s' := by
  obtain ⟨chunks,lists,sound⟩ := good
  obtain ⟨⟨r,i,e⟩,located⟩ := Option.isSome_iff_exists.mp found
  obtain ⟨v,item,known,_⟩ := sound.located located
  obtain ⟨t',lists',result,kept⟩ := sound.delete careful
  rw [known] at result kept
  have data : t'.data = s.store.data := by
    simp only [delete,located] at result
    obtain ⟨_,filled,same⟩ := Option.map_eq_some_iff.mp result
    cases same
    exact fillHole_data (t := s.store.setSlot r i none) filled
  simp only [step,result,Option.map_some,Option.isSome_some,if_true,Option.some.injEq] at taken kept
  subst taken
  refine ⟨update_self _ _ _,?_⟩
  rintro ⟨chunks',heap,settled,occupied,_⟩
  cases heap.unique settled kept.heap kept.settled
  obtain ⟨content,_,b,mem,kind,place,_⟩ := item
  obtain ⟨_,refers⟩ := (occupied b mem).mp kind
  obtain ⟨_,_,_,_,_,_,item',known'⟩ := kept.refers.mp refers
  rw [← place] at item'
  obtain ⟨rfl,_⟩ := Holding.unique (data ▸ content) item'.content
  cases (update_self k none s.map).symm.trans known'

theorem deleted_chunk_occupied : ∃ s, (table smallConfig).Reached (Careful smallConfig) s ∧
    s.map (wordKey 1) = none ∧ ¬ Accounted smallConfig s := by
  obtain ⟨s,reached,found,careful,defined⟩ := Machine.reached_of_run (table smallConfig) (Careful smallConfig)
    (fun s => (s.store.findItemIndex smallConfig (wordKey 1)).isSome = true ∧ Careful smallConfig s (.delete (wordKey 1) 7) ∧
      (s.store.delete smallConfig (wordKey 1) 7).isSome = true) [.set (wordKey 1) (longValue 1 (by decide)) 0 true] (by decide +kernel)
  obtain ⟨⟨_,_⟩,result⟩ := Option.isSome_iff_exists.mp defined
  have taken := congrArg (Option.map fun x => (⟨x.2,if x.1 then update s.map (wordKey 1) none else s.map⟩ : Session)) result
  exact ⟨_,reached.step careful taken,delete_unaccounted (good_of_reached reached) found taken careful⟩

-- The allocator alone. Sizes are asked for in bytes and rounded up to words.
structure Arena where
  store : Store
  live : Nat → Option Nat := fun _ => none

inductive Request where
  | allocate (bytes : Nat)
  | deallocate (offset : Nat)

section
variable (c : Config)

def Arena.Accepts (s : Arena) : Request → Prop
  | .allocate bytes => 16 ≤ bytes ∧ bytes ≤ 8*c.size
  | .deallocate offset => (s.live offset).isSome = true

instance (s : Arena) (a : Request) : Decidable (s.Accepts c a) := by
  unfold Arena.Accepts; split <;> infer_instance

def Arena.step (s : Arena) (a : Request) : Option Arena :=
  if s.Accepts c a then
    match a with
    | .allocate bytes => (s.store.allocate ((bytes+7)/8)).map fun
      | .insufficientSpace => s
      | .chunk (offset,t) => ⟨t,update s.live offset (some bytes)⟩
    | .deallocate offset => some ⟨s.store.deallocate c offset,update s.live offset none⟩
  else none

def arena : Machine Arena Request := ⟨{ store := initial c },Arena.step c⟩

-- The memory is cut into chunks with their tags and lists, two neighbours are not both
-- free, and the occupied chunks are those of the live items.
def Arena.Intact (s : Arena) : Prop :=
  ∃ chunks, Heap c s.store chunks ∧ Settled chunks ∧ Coalesced chunks ∧
    (∀ offset bytes, s.live offset = some bytes → ∃ b ∈ chunks, b.status = .occupied ∧ offset = b.start+1 ∧ bytes+16 ≤ 8*b.size) ∧
    (∀ b ∈ chunks, b.status = .occupied → (s.live (b.start+1)).isSome = true) ∧
    ∀ o n o' n', s.live o = some n → s.live o' = some n' → o = o' ∨ 8*o+n ≤ 8*o' ∨ 8*o'+n' ≤ 8*o

end

def Arena.Fits (s : Arena) : Request → Prop
  | .allocate bytes => ∀ start ∈ s.store.headChunk ((bytes+7)/8+2), (bytes+7)/8+2 ≤ tagSize (s.store.data start)
  | .deallocate _ => True

theorem Arena.intact_of_chunks (heap : Heap c s.store chunks) (settled : Settled chunks) (apart : Coalesced chunks)
    (live : ∀ offset bytes, s.live offset = some bytes → ∃ b ∈ chunks, b.status = .occupied ∧ offset = b.start+1 ∧ bytes+16 ≤ 8*b.size)
    (only : ∀ b ∈ chunks, b.status = .occupied → (s.live (b.start+1)).isSome = true) : Arena.Intact c s := by
  refine ⟨chunks,heap,settled,apart,live,only,fun o n o' n' one other => ?_⟩
  obtain ⟨_,mem,_,rfl,_⟩ := live o n one
  obtain ⟨b,mem',_,rfl,_⟩ := live o' n' other
  rcases heap.tiled.apart mem mem' with rfl | _ | _ <;> omega

theorem Arena.Intact.step (intact : Arena.Intact c s) (fits : s.Fits a) (accepts : s.Accepts c a) :
    ∃ s', Arena.step c s a = some s' ∧ Arena.Intact c s' := by
  unfold Arena.step
  rw [if_pos accepts]
  obtain ⟨chunks,heap,settled,apart,live,only,disjoint⟩ := intact
  cases a with
  | allocate bytes =>
    cases head : s.store.headChunk ((bytes+7)/8+2) with
    | none => exact ⟨s,by simp [allocate_none head],chunks,heap,settled,apart,live,only,disjoint⟩
    | some start =>
      have enough : 16 ≤ bytes := accepts.1
      obtain ⟨_,chunks',_,done,heap',settled',inside,_,_,_,stays,new,apart'⟩ := heap.allocate settled head (fits start head) (by omega)
      refine ⟨_,by simp [done]; rfl,Arena.intact_of_chunks heap' settled' (apart' apart) ?_ ?_⟩
      · intro offset n known
        by_cases same : offset = start+1
        · subst same
          cases (update_self ..).symm.trans known
          exact ⟨_,inside,rfl,rfl,by dsimp only; omega⟩
        obtain ⟨b,mem,occupied,rfl,large⟩ := live offset n (by simpa [same] using known)
        exact ⟨b,(stays b mem occupied).1,occupied,rfl,large⟩
      intro b mem occupied
      by_cases same : b.start = start
      · simp [same]
      simpa [same] using only b ((new b mem occupied).resolve_left same) occupied
  | deallocate offset =>
    obtain ⟨n,known⟩ := Option.isSome_iff_exists.mp accepts
    obtain ⟨b,mem,occupied,rfl,_⟩ := live offset n known
    obtain ⟨chunks',heap',settled',_,stays,left,apart'⟩ := heap.deallocate settled mem occupied
    refine ⟨_,rfl,Arena.intact_of_chunks heap' settled' (apart' apart) ?_ ?_⟩
    · intro offset n known
      by_cases same : offset = b.start+1
      · subst same
        cases (update_self ..).symm.trans known
      obtain ⟨a,mem',occupied',rfl,large⟩ := live offset n (by simpa [same] using known)
      exact ⟨a,(stays a mem' occupied' (by rintro rfl; exact same rfl)).1,occupied',rfl,large⟩
    · intro a mem' occupied'
      obtain ⟨old,other⟩ := left a mem' occupied'
      simpa [other] using only a old occupied'

theorem intact_iff_fits (c : Config) (reached : (arena c).Reached Arena.Fits s) : s.Intact c ∧
    ∀ a, s.Accepts c a → ((∃ s', s.step c a = some s' ∧ s'.Intact c) ↔ s.Fits a) := by
  have intact : s.Intact c := by
    refine Machine.Reached.invariant (Arena.Intact c) ?_ ?_ reached
    · obtain ⟨_,sound⟩ := sound_initial c
      have apart : Coalesced [⟨0,c.size,.free⟩] := by
        have := c.enough
        simp [Coalesced]
        omega
      exact Arena.intact_of_chunks sound.heap sound.settled apart nofun (by simp)
    intro s a s' _ intact fits taken
    have accepts : s.Accepts c a := by
      by_contra refused
      simp [arena,Arena.step,refused] at taken
    obtain ⟨_,done,kept⟩ := intact.step fits accepts
    cases done.symm.trans taken
    exact kept
  refine ⟨intact,fun a accepts => ⟨?_,fun fits => intact.step fits accepts⟩⟩
  rintro ⟨s',taken,_⟩
  cases a with
  | deallocate offset => trivial
  | allocate bytes =>
    intro start head
    by_contra small
    simp [Arena.step,accepts,allocate_small head (Nat.lt_of_not_le small)] at taken

instance (s : Arena) (a : Request) : Decidable (s.Fits a) := by
  unfold Arena.Fits; split <;> infer_instance

theorem intact_iff_fits_freed : ∃ s, (arena smallConfig).Reached Arena.Fits s ∧ s.live 1 = none ∧ s.Intact smallConfig ∧
    ∃ s', s.step smallConfig (.allocate 300) = some s' ∧ s'.Intact smallConfig := by
  obtain ⟨s,reached,freed,accepts,fits⟩ := Machine.reached_of_run (arena smallConfig) Arena.Fits
    (fun s => s.live 1 = none ∧ s.Accepts smallConfig (.allocate 300) ∧ s.Fits (.allocate 300))
    [.allocate 320,.allocate 17,.deallocate 1] (by decide +kernel)
  obtain ⟨intact,serves⟩ := intact_iff_fits smallConfig reached
  exact ⟨s,reached,freed,intact,(serves _ accepts).mpr fits⟩

-- The first chunk of the last class has 42 words, and 102 are asked for.
theorem small_chunk_taken : ∃ s, (arena smallConfig).Reached Machine.anyStep s ∧ s.Accepts smallConfig (.allocate 800) ∧
    ¬ ∃ s', s.step smallConfig (.allocate 800) = some s' ∧ s'.Intact smallConfig := by
  obtain ⟨s,reached,accepts,undefined⟩ := Machine.reached_of_run (arena smallConfig) Machine.anyStep
    (fun s => s.Accepts smallConfig (.allocate 800) ∧ (s.step smallConfig (.allocate 800)).isNone = true)
    [.allocate 320,.allocate 17,.deallocate 1] (by decide +kernel)
  refine ⟨s,reached,accepts,?_⟩
  rintro ⟨s',taken,_⟩
  rw [taken] at undefined
  cases undefined

end DbExp.Mica.Store
