import DbExp.Mica.CacheSafety

namespace DbExp.Mica.Cache
open Function List
open Option (map_eq_some_iff)
variable {c : Config} {t t' : Cache} {last last' : Key → Option Value} {pos : Nat → Nat → Nat} {mark : Nat} {k : Key} {v : Value}

theorem itemWords_le (c : Config) (key : m ≤ 255) (value : n ≤ 1048575) : itemWords m n ≤ c.size := by
  have enough : 2^18 ≤ c.size := Nat.pow_le_pow_right (by decide) c.large
  simp only [itemWords]
  omega

theorem pushTail_parts (pushed : t.pushTail c n = some (start,t')) :
    start = t.tail % wrap ∧ t'.tail = t.tail+n ∧ t'.slots = t.slots ∧ t'.data = (t.store c t.tail [n]).data := by
  obtain ⟨_,_,same⟩ := map_eq_some_iff.mp pushed
  cases same
  exact ⟨rfl,rfl,rfl,rfl⟩

theorem same_of_data (data : t'.data = t.data) (q m : Nat) : Same c t t' q m := by
  simp only [Same,words,data]

theorem same_store (t : Cache) (apart : Ring.Apart c.size q m p ws.length) : Same c t (t.store c p ws) q m :=
  Ring.readAll_write_other apart

theorem words_store (t : Cache) (p : Nat) (small : ws.length ≤ c.size) : (t.store c p ws).words c p ws.length = ws :=
  Ring.readAll_write small

theorem words_add (t : Cache) (p m n : Nat) : t.words c p (m+n) = t.words c p m ++ t.words c (p+m) n :=
  Ring.readAll_add _ _ _ _ _

theorem Same.trans (first : Same c t t' q m) (second : Same c t' t'' q m) : Same c t t'' q m :=
  Eq.trans second first

theorem frame_push (data : t'.data = (t.store c t.tail [n]).data) (some : 0 < n) (ends : q+m ≤ t.tail) (near : t.tail+n ≤ q+c.size) :
    Same c t t' q m := by
  refine (same_store t (.inl ⟨ends,?_⟩)).trans (same_of_data data q m)
  rw [length_singleton]
  omega

theorem tail_cleanup (t : Cache) (a b : Nat) : (t.cleanupBucket c a b).tail = t.tail := (cleanupLoop_sub _ _ _ _).2.1

section
variable (sound : Sound c t last pos t.tail)
include sound

theorem Sound.append (pushed : t.pushTail c (itemWords k.length v.length) = some (start,t1))
    (brief : c.logBuckets = 0 → t.tail+c.size < wrap) (tail : t'.tail = t1.tail) (slots : t'.slots = t1.slots)
    (frame : ∀ q m, q+m ≤ t.tail → t.tail+itemWords k.length v.length ≤ q+c.size → Same c t1 t' q m)
    (written : ∃ expire, t'.words c t.tail (itemWords k.length v.length) = itemWords k.length v.length :: record c.hash k v expire)
    (slot : i < itemsPerBucket) (alone : ∀ j e, t.slots (c.bucketIndex k) j = some e → e.tag = c.tag k → j = i)
    (known : last' k = some v) (others : ∀ k', k' ≠ k → last' k' = last k') :
    ∃ pos, Sound c ((t'.setSlot (c.bucketIndex k) i (some ⟨c.tag k,start⟩)).cleanupBucket c start t1.tail) last' pos
      ((t'.setSlot (c.bucketIndex k) i (some ⟨c.tag k,start⟩)).cleanupBucket c start t1.tail).tail := by
  obtain ⟨rfl,grew,kept,data⟩ := pushTail_parts pushed
  have small := itemWords_le c k.short v.short
  have positive := itemWords_pos k.length v.length
  obtain ⟨expire,content⟩ := written
  obtain ⟨rest,whole⟩ : ∃ rest, itemWords k.length v.length = rest+1 := ⟨_,(Nat.sub_add_cancel positive).symm⟩
  have header : t'.word c t.tail = itemWords k.length v.length ∧
      t'.words c (t.tail+1) (itemWords k.length v.length-1) = record c.hash k v expire := by
    rw [whole] at content ⊢
    simp only [words,Ring.readAll_succ,List.cons.injEq] at content
    exact content
  have item : Item c t' t.tail k v := by
    refine ⟨⟨expire,header.2⟩,?_,?_⟩
    · rw [header.1]
    · rw [header.1,tail,grew]
  obtain ⟨grown,ended⟩ := sound.grow (tail.trans grew) small (slots.trans kept) (by
    intro single
    omega) (fun q m ends near => (frame_push data positive ends near).trans (frame q m ends near))
  rw [← kept,← slots] at alone
  have placed := grown.place item slot ended le_rfl alone known others
  rw [← tail,tail_cleanup]
  exact ⟨_,placed.cleanup⟩

theorem Sound.insert (brief : c.logBuckets = 0 → t.tail+c.size < wrap) (slot : i < itemsPerBucket)
    (alone : ∀ j e, t.slots (c.bucketIndex k) j = some e → e.tag = c.tag k → j = i)
    (taken : t.insert c i k v expire = some t') :
    ∃ pos, Sound c t' (update last k (some v)) pos t'.tail := by
  obtain ⟨⟨_,t1⟩,pushed,rfl⟩ := map_eq_some_iff.mp taken
  obtain ⟨rfl,_,_,data⟩ := pushTail_parts pushed
  have small := itemWords_le c k.short v.short
  have length := length_record c.hash k v expire
  have stored : t1.setItem c (t.tail % wrap) k v expire = t1.store c (t.tail+1) (record c.hash k v expire) := store_mod t1 t.tail 1 _
  have header : (t1.store c (t.tail+1) (record c.hash k v expire)).words c t.tail 1 = [itemWords k.length v.length] := by
    have first : t1.words c t.tail 1 = [itemWords k.length v.length] := by
      simp only [words,data]
      exact words_store t t.tail (size_pos c)
    have kept : Same c t1 (t1.store c (t.tail+1) (record c.hash k v expire)) t.tail 1 := same_store t1 (.inl ⟨by omega,by omega⟩)
    exact Eq.trans kept first
  have content : (t1.store c (t.tail+1) (record c.hash k v expire)).words c t.tail (itemWords k.length v.length) =
      itemWords k.length v.length :: record c.hash k v expire := by
    have rest : (t1.store c (t.tail+1) (record c.hash k v expire)).words c (t.tail+1) (record c.hash k v expire).length = record c.hash k v expire :=
      words_store t1 (t.tail+1) (by omega)
    calc _ = (t1.store c (t.tail+1) (record c.hash k v expire)).words c t.tail (1+(record c.hash k v expire).length) := by
          rw [Nat.add_comm 1,length]
      _ = [itemWords k.length v.length] ++ record c.hash k v expire := by
          rw [← header]
          exact (words_add _ _ _ _).trans (congrArg _ rest)
  change ∃ pos, Sound c (((t1.setItem c (t.tail % wrap) k v expire).setSlot _ i _).cleanupBucket c _ t1.tail) _ pos
    (((t1.setItem c (t.tail % wrap) k v expire).setSlot _ i _).cleanupBucket c _ t1.tail).tail
  rw [stored]
  refine sound.append pushed brief rfl rfl ?_ ⟨expire,content⟩ slot alone (update_self k (some v) last)
    (fun k' other => update_of_ne other _ _)
  intro q m ends near
  exact same_store t1 (.inl ⟨by omega,by omega⟩)

theorem Sound.moveToHead (brief : c.logBuckets = 0 → t.tail+c.size < wrap)
    (used : t.slots (c.bucketIndex k) i = some e) (tag : e.tag = c.tag k) (item : Item c t (pos (c.bucketIndex k) i) k v)
    (known : last k = some v) (snug : t.word c (pos (c.bucketIndex k) i) = itemWords k.length v.length)
    (taken : t.moveToHead c (c.bucketIndex k) i e (itemWords k.length v.length) = some t') :
    ∃ pos, Sound c t' last pos t'.tail := by
  obtain ⟨⟨_,t1⟩,pushed,rfl⟩ := map_eq_some_iff.mp taken
  obtain ⟨rfl,grew,kept,data⟩ := pushTail_parts pushed
  have small := itemWords_le c k.short v.short
  have positive := itemWords_pos k.length v.length
  have grown := (sound.grow grew small kept (by
    intro single
    omega) (fun q m ends near => frame_push data positive ends near)).1
  dsimp only
  split
  next valid =>
    rw [grown.aged.isValid_iff (kept ▸ used)] at valid
    obtain ⟨place,_⟩ := sound.offset _ _ e used
    obtain ⟨⟨expire,content⟩,_,ends⟩ := item
    generalize pos (c.bucketIndex k) i = q at *
    have stored : t1.store c (t.tail % wrap) (t1.words c e.offset (itemWords k.length v.length)) =
        t1.store c t.tail (t1.words c q (itemWords k.length v.length)) := by
      rw [place]
      exact (store_mod t1 t.tail 0 _).trans (congrArg _ (words_mod t1 q 0 _))
    have copied : t1.words c q (itemWords k.length v.length) = itemWords k.length v.length :: record c.hash k v expire := by
      refine Eq.trans (frame_push data positive (by omega) (by omega)) ?_
      rw [← content]
      nth_rewrite 1 [← Nat.sub_add_cancel positive]
      rw [words,Ring.readAll_succ,← snug]
      rfl
    have length := length_record c.hash k v expire
    have written : (t1.store c t.tail (itemWords k.length v.length :: record c.hash k v expire)).words c t.tail (itemWords k.length v.length) =
        itemWords k.length v.length :: record c.hash k v expire := by
      nth_rewrite 2 [← length]
      exact words_store t1 t.tail (by rw [length_cons]; omega)
    rw [stored,copied,tag]
    refine sound.append pushed brief rfl rfl ?_ ⟨expire,written⟩ (sound.inside _ _ e used).2 ?_ known (fun _ _ => rfl)
    · intro q m ends near
      exact same_store t1 (.inl ⟨ends,by rw [length_cons]; omega⟩)
    · intro j e' used' same
      exact sound.tags _ j e' i e used' used (same.trans tag.symm)
  · rw [tail_cleanup]
    exact ⟨pos,grown.cleanup⟩

end

theorem Item.holding (item : Item c t q k v) : Holding (t.word c) c.hash (q % wrap) k v := by
  refine item.content.congr fun i _ => ?_
  rw [Nat.add_assoc,Nat.add_assoc,word_mod]

theorem Sound.found (sound : Sound c t last pos mark) (got : t.findItemIndex c k = some (i,e)) (valid : t.isValid c e.offset = true) :
    ∃ v, Item c t (pos (c.bucketIndex k) i) k v ∧ last k = some v ∧ readValue (t.word c) e.offset = v := by
  obtain ⟨_,used,_,held⟩ := findInBucket_some got
  obtain ⟨place,_⟩ := sound.offset _ _ e used
  obtain ⟨_,v,item,_,_,known⟩ := sound.holds _ _ e used ((sound.aged.isValid_iff used).mp valid)
  rw [place] at held
  have same := item.holding.key_eq held
  subst same
  rw [place]
  exact ⟨v,item,known,item.holding.readValue_eq⟩

theorem Item.setItemValue (item : Item c t q k v) (fits : itemWords k.length v'.length ≤ t.word c q) (near : t.tail ≤ q+c.size) :
    Item c (t.setItemValue c (q % wrap) v' expire) q k v' ∧ (t.setItemValue c (q % wrap) v' expire).word c q = t.word c q ∧
      ∀ q' m, t.tail ≤ q'+c.size → q'+m ≤ t.tail → q'+m ≤ q ∨ q+t.word c q ≤ q' → Same c t (t.setItemValue c (q % wrap) v' expire) q' m := by
  have stored : t.setItemValue c (q % wrap) v' expire =
      (t.store c (q+1) [lengthsWord k.length v'.length expire]).store c (q+3+k.words.length) v'.words := by
    simp only [Cache.setItemValue,Mica.setItemValue,item.holding.keyLength_eq,store_mod,Nat.add_assoc,k.whole]
  have ends := item.ends
  have size : itemWords k.length v'.length = 3+k.words.length+v'.words.length := by
    simp only [itemWords,k.whole,v'.whole]
  rw [stored]
  generalize middle : t.store c (q+1) [lengthsWord k.length v'.length expire] = t1
  have first : ∀ q' m, Ring.Apart c.size q' m (q+1) 1 → Same c t t1 q' m := by
    intro q' m apart
    rw [← middle]
    exact same_store t apart
  have room : (t1.store c (q+3+k.words.length) v'.words).word c q = t.word c q :=
    ((first q 1 (.inl ⟨by omega,by omega⟩)).trans (same_store t1 (.inl ⟨by omega,by omega⟩))).word Nat.one_pos
  refine ⟨⟨?_,?_,?_⟩,room,?_⟩
  · have lengths : (t1.store c (q+3+k.words.length) v'.words).word c (q+1) = lengthsWord k.length v'.length expire := by
      have kept : Same c t1 (t1.store c (q+3+k.words.length) v'.words) (q+1) 1 := same_store t1 (.inl ⟨by omega,by omega⟩)
      have written : t1.words c (q+1) 1 = [lengthsWord k.length v'.length expire] := by
        rw [← middle]
        exact words_store t (q+1) (size_pos c)
      rw [kept.word Nat.one_pos]
      rw [words_one] at written
      exact head_eq_of_cons_eq written
    have kept : ∀ q' m, q+2 ≤ q' → q'+m ≤ q+3+k.words.length → Same c t (t1.store c (q+3+k.words.length) v'.words) q' m := by
      intro q' m after before
      exact (first _ _ (.inr ⟨by omega,by omega⟩)).trans (same_store t1 (.inl ⟨by omega,by omega⟩))
    obtain ⟨_,hash,key,_⟩ := holding_iff.mp item.content
    refine holding_iff.mpr ⟨⟨expire,lengths⟩,?_,?_,words_store t1 _ (by omega)⟩
    · rw [(kept (q+2) 1 (by omega) (by omega)).word Nat.one_pos,hash]
    · exact Eq.trans (kept (q+3) k.words.length (by omega) (by omega)) key
  · rw [room]
    exact fits
  · rw [room]
    exact ends.trans (Nat.le_of_eq (by rw [← middle]; rfl))
  intro q' m near' ends' outside
  rcases outside with before | after
  · exact (first _ _ (.inl ⟨by omega,by omega⟩)).trans (same_store t1 (.inl ⟨by omega,by omega⟩))
  · exact (first _ _ (.inr ⟨by omega,by omega⟩)).trans (same_store t1 (.inr ⟨by omega,by omega⟩))

theorem Sound.alone (sound : Sound c t last pos mark) (used : t.slots (c.bucketIndex k) i = some e) (tag : e.tag = c.tag k) :
    ∀ j e', t.slots (c.bucketIndex k) j = some e' → e'.tag = c.tag k → j = i :=
  fun j e' used' same => sound.tags _ j e' i e used' used (same.trans tag.symm)

theorem findEmptyOrOldest_lt (t : Cache) (b : Nat) : t.findEmptyOrOldest b < itemsPerBucket := by
  unfold findEmptyOrOldest
  split
  next i got =>
    exact mem_range.mp (mem_of_find?_eq_some got)
  refine List.foldlRecOn (List.range itemsPerBucket) _ (motive := fun (best : Nat × Nat) => best.1 < itemsPerBucket) (by decide) ?_
  intro best less i listed
  have inside := mem_range.mp listed
  split
  · split
    · exact inside
    · exact less
  · exact less

theorem Sound.slot (sound : Sound c t last pos mark) (k : Key) (chosen : (match t.findSameTag c k with
      | some i => i
      | none => t.findEmptyOrOldest (c.bucketIndex k)) = i) :
    i < itemsPerBucket ∧ ∀ j e, t.slots (c.bucketIndex k) j = some e → e.tag = c.tag k → j = i := by
  split at chosen
  next i' got =>
    subst chosen
    have taken := List.find?_some got
    obtain ⟨e,used,tag⟩ := (Option.any_eq_true _ _).mp taken
    exact ⟨mem_range.mp (mem_of_find?_eq_some got),sound.alone used (eq_of_beq tag)⟩
  next none =>
    refine ⟨chosen ▸ findEmptyOrOldest_lt t _,?_⟩
    intro j e used tag
    have clear := List.find?_eq_none.mp none j (mem_range.mpr (sound.inside _ j e used).2)
    simp [used,tag] at clear

theorem Sound.set (sound : Sound c t last pos t.tail) (brief : c.logBuckets = 0 → t.tail+c.size < wrap)
    (taken : t.set c k v expire true = some (done,t')) :
    done = true ∧ ∃ pos, Sound c t' (update last k (some v)) pos t'.tail := by
  unfold Cache.set at taken
  split at taken
  next i e got =>
    obtain ⟨slot,used,tag,_⟩ := findInBucket_some got
    simp only [Bool.not_true,Bool.false_eq_true,if_false] at taken
    split at taken
    next inPlace =>
      simp only [Bool.and_eq_true,decide_eq_true_eq] at inPlace
      obtain ⟨valid,fits⟩ := inPlace
      cases taken
      obtain ⟨place,_⟩ := sound.offset _ _ e used
      obtain ⟨_,item,_⟩ := sound.found got valid
      rw [place] at fits
      rw [sound.aged.isValid_iff used] at valid
      have room : t.word c (pos (c.bucketIndex k) i % wrap) = t.word c (pos (c.bucketIndex k) i) := word_mod t _ 0
      rw [place]
      obtain ⟨written,header,frame⟩ := item.setItemValue (room ▸ fits) valid
      exact ⟨rfl,pos,sound.rewrite used tag valid rfl rfl written header frame (update_self k (some v) last)
        (fun k' other => update_of_ne other _ _)⟩
    · obtain ⟨t1,inserted,same⟩ := map_eq_some_iff.mp taken
      cases same
      exact ⟨rfl,sound.insert brief slot (sound.alone used tag) inserted⟩
  · obtain ⟨t1,inserted,same⟩ := map_eq_some_iff.mp taken
    cases same
    obtain ⟨slot,alone⟩ := sound.slot k rfl
    exact ⟨rfl,sound.insert brief slot alone inserted⟩

def Snug (c : Config) (t : Cache) (k : Key) : Prop :=
  ∀ x ∈ t.findItemIndex c k, t.isValid c x.2.offset = true → c.mthThreshold < 8*(t.distance x.2.offset % c.size) →
    t.word c x.2.offset = itemWords k.length (readValue (t.word c) x.2.offset).length

theorem Sound.get (sound : Sound c t last pos t.tail) (brief : c.logBuckets = 0 → t.tail+c.size < wrap)
    (snug : readonly = false → Snug c t k) (taken : t.get c k readonly = some (result,t')) :
    ∃ pos, Sound c t' last pos t'.tail := by
  unfold Cache.get at taken
  split at taken
  · cases taken
    exact ⟨pos,sound⟩
  rename_i i e located
  obtain ⟨_,used,tag,_⟩ := findInBucket_some located
  split at taken
  next valid =>
    obtain ⟨_,item,known,value⟩ := sound.found located valid
    split at taken
    next moves =>
      simp only [Bool.and_eq_true,Bool.not_eq_true',decide_eq_true_eq] at moves
      obtain ⟨_,moved,same⟩ := map_eq_some_iff.mp taken
      cases same
      obtain ⟨place,_⟩ := sound.offset _ _ e used
      have whole := snug moves.1 (i,e) located valid moves.2
      rw [value,place] at whole
      rw [value,place,item.holding.keyLength_eq] at moved
      exact sound.moveToHead brief used tag item known ((word_mod t _ 0).symm.trans whole) moved
    · cases taken
      exact ⟨pos,sound⟩
  · cases taken
    split
    · exact ⟨pos,sound⟩
    · exact ⟨pos,sound.clear _ _⟩

theorem get_found (got : t.get c k readonly = some (some (v,x),t')) :
    ∃ i e, t.findItemIndex c k = some (i,e) ∧ t.isValid c e.offset = true ∧ readValue (t.word c) e.offset = v := by
  unfold Cache.get at got
  split at got
  · cases got
  rename_i i e located
  split at got
  next valid =>
    refine ⟨i,e,located,valid,?_⟩
    split at got
    · obtain ⟨_,_,same⟩ := map_eq_some_iff.mp got
      cases same
      rfl
    · cases got
      rfl
  · cases got

theorem Sound.delete (sound : Sound c t last pos t.tail) (k : Key) :
    ∃ pos, Sound c (t.delete c k).2 (if (t.delete c k).1 then update last k none else last) pos (t.delete c k).2.tail := by
  unfold Cache.delete
  split
  · exact ⟨pos,sound⟩
  rename_i i e located
  obtain ⟨_,used,tag,_⟩ := findInBucket_some located
  refine ⟨pos,(sound.clear (c.bucketIndex k) i).relast ?_⟩
  intro b j e' k' v left bucket tag' known
  rw [if_pos rfl,update_of_ne]
  · exact known
  rintro rfl
  subst bucket
  by_cases same : j = i
  · rw [same,setSlot_own] at left
    cases left
  · rw [setSlot_other t none (fun _ => same)] at left
    exact same (sound.alone used tag j e' left tag'.symm)

-- What the code relies on at each call. With a single bucket the table is never swept,
-- and an entry that was left behind comes round with the offsets.
def Careful (c : Config) (s : Session) : Action → Prop
  | .set _ _ _ => c.logBuckets = 0 → s.cache.tail+c.size < wrap
  | .get k readonly => (c.logBuckets = 0 → s.cache.tail+c.size < wrap) ∧ (readonly = false → Snug c s.cache k)
  | .delete _ => True

theorem sound_initial (c : Config) : Sound c {} (fun _ => none) (fun _ _ => 0) 0 := by
  refine ⟨⟨⟨le_rfl,Nat.zero_le _⟩,?_,?_,?_,fun _ => by decide⟩,?_,?_,?_⟩
  all_goals intros; contradiction

theorem sound_step (sound : ∃ pos, Sound c s.cache s.last pos s.cache.tail) (careful : Careful c s a) (taken : step c s a = some s') :
    ∃ pos, Sound c s'.cache s'.last pos s'.cache.tail := by
  obtain ⟨pos,sound⟩ := sound
  cases a with
  | set k v expire =>
    obtain ⟨⟨_,t⟩,set,rfl⟩ := map_eq_some_iff.mp taken
    obtain ⟨rfl,kept⟩ := sound.set careful set
    exact kept
  | get k readonly =>
    obtain ⟨⟨_,t⟩,got,rfl⟩ := map_eq_some_iff.mp taken
    exact sound.get careful.1 careful.2 got
  | delete k =>
    cases taken
    exact sound.delete k

theorem get_last_of_careful (c : Config) (k : Key) (readonly : Bool) (reached : (cache c).Reached (Careful c) s)
    (got : s.cache.get c k readonly = some (some (v,x),t')) : s.last k = some v := by
  obtain ⟨pos,sound⟩ : ∃ pos, Sound c s.cache s.last pos s.cache.tail := by
    refine Machine.Reached.invariant (fun s => ∃ pos, Sound c s.cache s.last pos s.cache.tail) ⟨_,sound_initial c⟩ ?_ reached
    intro s a s' _ sound careful taken
    exact sound_step sound careful taken
  obtain ⟨_,_,located,valid,rfl⟩ := get_found got
  obtain ⟨v,_,known,value⟩ := sound.found located valid
  rw [value]
  exact known

instance (c : Config) (t : Cache) (k : Key) : Decidable (Snug c t k) := by unfold Snug; infer_instance

instance (c : Config) (s : Session) (a : Action) : Decidable (Careful c s a) := by
  unfold Careful; split <;> infer_instance

-- Two buckets, a log of two megabytes, and every get moves its item; the hash of a key is
-- its first word.
def smallConfig : Config where
  logBuckets := 1
  logSize := 18
  mthThreshold := 0
  hash k := k.words.headD 0
  fewBuckets := by decide
  large := by decide
  small := by decide

def wordValue (n : Nat) : Value := ⟨8,[n],rfl,by decide⟩

theorem get_last_of_careful_moved : ∃ s, (cache smallConfig).Reached (Careful smallConfig) s ∧
    ∃ t, s.cache.get smallConfig (wordKey 1) true = some (some (wordValue 6,0),t) ∧ s.last (wordKey 1) = some (wordValue 6) := by
  obtain ⟨s,reached,seen⟩ := Machine.reached_of_run (cache smallConfig) (Careful smallConfig)
    (fun s => (s.cache.get smallConfig (wordKey 1) true).map Prod.fst = some (some (wordValue 6,0)))
    [.set (wordKey 1) (wordValue 5) 0,.set (wordKey 2) (wordValue 7) 0,.get (wordKey 1) false,.set (wordKey 1) (wordValue 6) 0]
    (by decide +kernel)
  obtain ⟨⟨_,t⟩,got,same⟩ := map_eq_some_iff.mp seen
  subst same
  exact ⟨s,reached,t,got,get_last_of_careful smallConfig (wordKey 1) true reached got⟩

-- A value of six words shrinks in place to one, its item is moved with the old size in
-- its header, and the next value of six words is written over the item that follows.
theorem get_foreign_value : ∃ s, (cache smallConfig).Reached Machine.anyStep s ∧
    ∃ t, s.cache.get smallConfig (wordKey 2) true = some (some (wordValue 9,0),t) ∧ s.last (wordKey 2) = some (wordValue 7) := by
  obtain ⟨s,reached,found,known⟩ := Machine.reached_of_run (cache smallConfig) Machine.anyStep
    (fun s => (s.cache.get smallConfig (wordKey 2) true).map Prod.fst = some (some (wordValue 9,0)) ∧
      s.last (wordKey 2) = some (wordValue 7))
    [.set (wordKey 1) ⟨48,[1,2,3,4,5,6],rfl,by decide⟩ 0,.set (wordKey 1) (wordValue 5) 0,.get (wordKey 1) false,
      .set (wordKey 2) (wordValue 7) 0,.set (wordKey 1) ⟨48,[1,5,lengthsWord 8 8 0,2,2,9],rfl,by decide⟩ 0]
    (by decide +kernel)
  obtain ⟨⟨_,t⟩,got,same⟩ := map_eq_some_iff.mp found
  subst same
  exact ⟨s,reached,t,got,known⟩

end DbExp.Mica.Cache
