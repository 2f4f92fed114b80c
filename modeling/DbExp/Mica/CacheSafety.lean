import DbExp.Mica.Cache
import Mathlib.Tactic.Ring

namespace DbExp.Mica.Cache
open Function
open Nat (two_pow_pos add_mod mod_lt zero_le mod_eq_of_lt)
variable {c : Config}

theorem size_dvd_wrap (c : Config) : c.size ∣ wrap := Nat.pow_dvd_pow 2 (by have := c.small; omega)

theorem size_pos (c : Config) : 0 < c.size := two_pow_pos _

theorem numBuckets_pos (c : Config) : 0 < c.numBuckets := two_pow_pos _

theorem size_le (c : Config) : 4*c.size ≤ wrap := by
  have bound : c.size ≤ 2^43 := Nat.pow_le_pow_right (by decide) c.small
  simp only [wrap]
  omega

theorem sweep (c : Config) : 2*(c.numBuckets*2^c.rshift) = wrap := by
  have exponent : c.logBuckets+c.rshift = 44 := by
    have := c.fewBuckets
    simp only [Config.rshift]
    omega
  rw [Config.numBuckets,← Nat.pow_add,exponent]
  rfl

theorem word_mod (t : Cache) (pos j : Nat) : t.word c (pos % wrap+j) = t.word c (pos+j) := by
  have cell : (pos % wrap+j) % c.size = (pos+j) % c.size := by
    rw [add_mod,Nat.mod_mod_of_dvd _ (size_dvd_wrap c),← add_mod]
  simp only [word,Ring.read,cell]

theorem words_mod (t : Cache) (pos j n : Nat) : t.words c (pos % wrap+j) n = t.words c (pos+j) n := by
  apply Ring.readAll_mod
  rw [add_mod,Nat.mod_mod_of_dvd _ (size_dvd_wrap c),← add_mod]

theorem store_mod (t : Cache) (pos j : Nat) (ws : List Nat) : t.store c (pos % wrap+j) ws = t.store c (pos+j) ws := by
  unfold store
  congr 1
  apply Ring.write_mod
  rw [add_mod,Nat.mod_mod_of_dvd _ (size_dvd_wrap c),← add_mod]

section
variable (c : Config) (t : Cache)

structure Item (pos : Nat) (k : Key) (v : Value) : Prop where
  content : Holding (t.word c) c.hash pos k v
  fits : itemWords k.length v.length ≤ t.word c pos
  ends : pos+t.word c pos ≤ t.tail

-- For every entry its position in the log. An entry whose item was overwritten is taken
-- out before its offset comes round again. The sweep is complete up to the mark; with a
-- single bucket there is none.
structure Aged (pos : Nat → Nat → Nat) (mark : Nat) : Prop where
  marked : mark ≤ t.tail ∧ t.tail ≤ mark+c.size
  inside : ∀ b i e, t.slots b i = some e → b < c.numBuckets ∧ i < itemsPerBucket
  offset : ∀ b i e, t.slots b i = some e → e.offset = pos b i % wrap ∧ pos b i ≤ t.tail
  swept : 1 ≤ c.logBuckets → ∀ b i e, t.slots b i = some e → ∀ y, y*2^c.rshift ≤ mark →
    y % c.numBuckets = (b+1) % c.numBuckets → y*2^c.rshift ≤ pos b i+c.size
  brief : c.logBuckets = 0 → t.tail < wrap

-- An entry whose item was not overwritten has the last value of a key of the bucket.
structure Sound (last : Key → Option Value) (pos : Nat → Nat → Nat) (mark : Nat) : Prop extends aged : Aged c t pos mark where
  holds : ∀ b i e, t.slots b i = some e → t.tail ≤ pos b i+c.size →
    ∃ k v, Item c t (pos b i) k v ∧ c.bucketIndex k = b ∧ c.tag k = e.tag ∧ last k = some v
  apart : ∀ b i e b' i' e', t.slots b i = some e → t.slots b' i' = some e' → t.tail ≤ pos b i+c.size → t.tail ≤ pos b' i'+c.size →
    (b = b' → i ≠ i') → pos b i+t.word c (pos b i) ≤ pos b' i' ∨ pos b' i'+t.word c (pos b' i') ≤ pos b i
  tags : ∀ b i e i' e', t.slots b i = some e → t.slots b i' = some e' → e.tag = e'.tag → i = i'

end

section
variable {t t' : Cache} {last last' : Key → Option Value} {pos : Nat → Nat → Nat} {mark : Nat}

theorem exists_last_round (n r q : Nat) (less : r < n) (far : n ≤ q) : ∃ y, y ≤ q ∧ q < y+n ∧ y % n = r := by
  have := Nat.div_add_mod (q-r) n
  have := mod_lt (q-r) (Nat.lt_of_le_of_lt (zero_le _) less)
  refine ⟨r+n*((q-r)/n),by omega,by omega,?_⟩
  rw [Nat.add_mul_mod_self_left,mod_eq_of_lt less]

theorem setSlot_own (t : Cache) (b i : Nat) (x : Option Entry) : (t.setSlot b i x).slots b i = x := by
  simp [setSlot]

theorem setSlot_other (t : Cache) (x : Option Entry) (other : b' = b → i' ≠ i) :
    (t.setSlot b i x).slots b' i' = t.slots b' i' := Memory.entry_other other

theorem setSlot_cases (used : (t.setSlot b i x).slots b' i' = some e) :
    (b' = b ∧ i' = i ∧ x = some e) ∨ ((b' = b → i' ≠ i) ∧ t.slots b' i' = some e) := Memory.entry_cases used

theorem words_one (t : Cache) (q : Nat) : t.words c q 1 = [t.word c q] := by
  simp [words,word,Ring.readAll]

def Same (c : Config) (t t' : Cache) (q m : Nat) : Prop := t'.words c q m = t.words c q m

theorem Same.word (same : Same c t t' q m) (some : 0 < m) : t'.word c q = t.word c q := by
  obtain ⟨n,rfl⟩ : ∃ n, m = n+1 := ⟨m-1,by omega⟩
  simp only [Same,words,Ring.readAll_succ,List.cons.injEq] at same
  exact same.1

theorem Same.item (same : Same c t t' q (t.word c q)) (tail : t.tail ≤ t'.tail) (item : Item c t q k v) : Item c t' q k v := by
  obtain ⟨⟨expire,content⟩,fits,_⟩ := item
  have positive : 0 < itemWords k.length v.length := by
    simp only [itemWords]
    omega
  have header := Same.word same (by omega)
  refine ⟨⟨expire,?_⟩,header ▸ fits,?_⟩
  · rw [← content]
    obtain ⟨rest,whole⟩ : ∃ rest, t.word c q = 1+(itemWords k.length v.length-1)+rest := ⟨t.word c q-itemWords k.length v.length,by omega⟩
    unfold Same at same
    rw [whole] at same
    simp only [words,Ring.readAll_add] at same
    have outer := List.append_inj_left same (by simp)
    exact List.append_inj_right outer (by simp)
  · rw [header]
    omega

-- An entry is an old one at its old position, or a new one behind the mark.
theorem Aged.extend (aged : Aged c t pos mark) (tail : t.tail ≤ t'.tail ∧ t'.tail ≤ mark+c.size) (brief : c.logBuckets = 0 → t'.tail < wrap)
    (slots : ∀ b i e, t'.slots b i = some e → t.slots b i = some e ∧ pos' b i = pos b i ∨
      b < c.numBuckets ∧ i < itemsPerBucket ∧ e.offset = pos' b i % wrap ∧ mark ≤ pos' b i ∧ pos' b i ≤ t'.tail) : Aged c t' pos' mark := by
  refine ⟨⟨aged.marked.1.trans tail.1,tail.2⟩,fun b i e used => ?_,fun b i e used => ?_,fun several b i e used y before round => ?_,brief⟩ <;>
    rcases slots b i e used with ⟨old,same⟩ | ⟨bucket,slot,place,_,behind⟩
  · exact aged.inside b i e old
  · exact ⟨bucket,slot⟩
  · rw [same]
    exact (aged.offset b i e old).imp_right (·.trans tail.1)
  · exact ⟨place,behind⟩
  · rw [same]
    exact aged.swept several b i e old y before round
  · omega

theorem Aged.fewer (aged : Aged c t pos mark) (tail : t'.tail = t.tail) (sub : ∀ b i e, t'.slots b i = some e → t.slots b i = some e) :
    Aged c t' pos mark :=
  aged.extend (by rw [tail]; exact ⟨le_rfl,aged.marked.2⟩) (tail ▸ aged.brief) fun b i e used => .inl ⟨sub b i e used,rfl⟩

theorem Sound.grow (sound : Sound c t last pos t.tail) (tail : t'.tail = t.tail+n) (small : n ≤ c.size) (slots : t'.slots = t.slots)
    (brief : c.logBuckets = 0 → t'.tail < wrap)
    (frame : ∀ q m, q+m ≤ t.tail → t.tail+n ≤ q+c.size → Same c t t' q m) :
    Sound c t' last pos t.tail ∧
      ∀ b i e, t'.slots b i = some e → t'.tail ≤ pos b i+c.size → pos b i+t'.word c (pos b i) ≤ t.tail := by
  have still : ∀ b i e, t'.slots b i = some e → t'.tail ≤ pos b i+c.size →
      ∃ k v, Item c t (pos b i) k v ∧ Same c t t' (pos b i) (t.word c (pos b i)) ∧ c.bucketIndex k = b ∧ c.tag k = e.tag ∧ last k = some v := by
    intro b i e used valid
    rw [slots] at used
    obtain ⟨k,v,item,rest⟩ := sound.holds b i e used (by omega)
    exact ⟨k,v,item,frame _ _ item.ends (by omega),rest⟩
  have header : ∀ b i e, t'.slots b i = some e → t'.tail ≤ pos b i+c.size → t'.word c (pos b i) = t.word c (pos b i) := by
    intro b i e used valid
    obtain ⟨k,v,item,same,_⟩ := still b i e used valid
    refine same.word (Nat.lt_of_lt_of_le ?_ item.fits)
    simp only [itemWords]
    omega
  have aged : Aged c t' pos t.tail := sound.aged.extend (by omega) brief fun b i e used => .inl ⟨slots ▸ used,rfl⟩
  refine ⟨{ aged with holds := ?_, apart := ?_, tags := ?_ },?_⟩
  · intro b i e used valid
    obtain ⟨k,v,item,same,rest⟩ := still b i e used valid
    exact ⟨k,v,same.item (by omega) item,rest⟩
  · intro b i e b' i' e' used used' valid valid' other
    rw [header b i e used valid,header b' i' e' used' valid']
    rw [slots] at used used'
    exact sound.apart b i e b' i' e' used used' (by omega) (by omega) other
  · rw [slots]
    exact sound.tags
  intro b i e used valid
  obtain ⟨k,v,item,_⟩ := still b i e used valid
  rw [header b i e used valid]
  exact item.ends

theorem cleanOne_sub (t : Cache) (b : Nat) (used : (t.cleanOne c b).slots b' i = some e) :
    t.slots b' i = some e ∧ (b' = b → t.isValid c e.offset = true) := by
  unfold cleanOne at used
  by_cases same : b' = b
  · subst same
    simp only [update_self,Option.filter_eq_some_iff] at used
    exact ⟨used.1,fun _ => used.2⟩
  · exact ⟨by simpa [same] using used,fun bucket => absurd bucket same⟩

theorem cleanupLoop_sub (t : Cache) (stop fuel b : Nat) :
    (t.cleanupLoop c stop fuel b).data = t.data ∧ (t.cleanupLoop c stop fuel b).tail = t.tail ∧
      ∀ b' i e, (t.cleanupLoop c stop fuel b).slots b' i = some e → t.slots b' i = some e := by
  induction fuel generalizing t b with
  | zero => exact ⟨rfl,rfl,fun _ _ _ used => used⟩
  | succ fuel ih =>
    unfold cleanupLoop
    split
    · exact ⟨rfl,rfl,fun _ _ _ used => used⟩
    · obtain ⟨data,tail,sub⟩ := ih (t.cleanOne c b) ((b+1) % c.numBuckets)
      exact ⟨data,tail,fun b' i e used => (cleanOne_sub t b (sub b' i e used)).1⟩

theorem cleanupLoop_visits (t : Cache) (stop fuel b d : Nat) (enough : d ≤ fuel) (inside : b < c.numBuckets)
    (early : ∀ j < d, (b+j) % c.numBuckets ≠ stop) (j : Nat) (visited : j < d)
    (used : (t.cleanupLoop c stop fuel b).slots ((b+j) % c.numBuckets) i = some e) : t.isValid c e.offset = true := by
  induction fuel generalizing t b d j with
  | zero => omega
  | succ fuel ih =>
    have first : b ≠ stop := by
      have := early 0 (by omega)
      rwa [Nat.add_zero,mod_eq_of_lt inside] at this
    unfold cleanupLoop at used
    rw [if_neg first] at used
    cases j with
    | zero =>
      have here : (b+0) % c.numBuckets = b := mod_eq_of_lt inside
      rw [here] at used
      exact (cleanOne_sub t b ((cleanupLoop_sub _ _ _ _).2.2 _ _ _ used)).2 rfl
    | succ j =>
      have next : ∀ m, ((b+1) % c.numBuckets+m) % c.numBuckets = (b+(m+1)) % c.numBuckets := by
        intro m
        rw [Nat.mod_add_mod]
        congr 1
        omega
      rw [← next j] at used
      refine ih (t.cleanOne c b) _ (d-1) (by omega) (mod_lt _ (numBuckets_pos c)) ?_ j (by omega) used
      intro m less
      rw [next]
      exact early (m+1) (by omega)

theorem offset_bucket (c : Config) (tail : Nat) : tail % wrap / 2^c.rshift % c.numBuckets = tail / 2^c.rshift % c.numBuckets := by
  have range := sweep c
  have split : wrap = 2^c.rshift*(c.numBuckets*2) := by
    rw [← range]
    ring
  rw [split,Nat.mod_mul_right_div_self,Nat.mod_mul_right_mod]

section
variable (aged : Aged c t pos mark)
include aged

theorem Aged.near (used : t.slots b i = some e) : t.tail < pos b i+wrap := by
  have range := sweep c
  have small := size_le c
  have few := aged.marked.2
  have positive : 0 < 2^c.rshift := two_pow_pos _
  by_cases single : c.logBuckets = 0
  · exact Nat.lt_of_lt_of_le (aged.brief single) (Nat.le_add_left _ _)
  have several : 1 ≤ c.logBuckets := by omega
  have quotient : mark < (mark/2^c.rshift+1)*2^c.rshift := by
    have := Nat.lt_div_mul_add positive (a := mark)
    rw [Nat.add_mul,Nat.one_mul]
    exact this
  by_cases far : c.numBuckets ≤ mark/2^c.rshift
  · obtain ⟨y,before,recent,round⟩ := exists_last_round c.numBuckets ((b+1) % c.numBuckets) (mark/2^c.rshift)
      (mod_lt _ (numBuckets_pos c)) far
    have reached : y*2^c.rshift ≤ mark := (Nat.mul_le_mul_right _ before).trans (Nat.div_mul_le_self _ _)
    have bound := aged.swept several b i e used y reached round
    have last : (mark/2^c.rshift+1)*2^c.rshift ≤ y*2^c.rshift+c.numBuckets*2^c.rshift := by
      rw [← Nat.add_mul]
      exact Nat.mul_le_mul_right _ recent
    omega
  · have last : (mark/2^c.rshift+1)*2^c.rshift ≤ c.numBuckets*2^c.rshift :=
      Nat.mul_le_mul_right _ (Nat.lt_of_not_le far)
    omega

omit aged in
theorem distance_eq {start : Nat} (behind : start ≤ t.tail) (near : t.tail < start+wrap) :
    t.distance (start % wrap) = t.tail-start := by
  simp only [distance,wrap] at near ⊢
  omega

theorem Aged.isValid_iff (used : t.slots b i = some e) :
    t.isValid c e.offset = true ↔ t.tail ≤ pos b i+c.size := by
  obtain ⟨offset,behind⟩ := aged.offset b i e used
  simp only [isValid,decide_eq_true_eq]
  rw [offset,distance_eq behind (aged.near used)]
  omega

omit aged in
theorem crossed (c : Config) {old new : Nat} (several : 1 ≤ c.logBuckets) (near : new ≤ old+c.size) :
    new/2^c.rshift < old/2^c.rshift+c.numBuckets := by
  have range := sweep c
  have small := size_le c
  have positive : 0 < 2^c.rshift := two_pow_pos _
  have two : 2 ≤ c.numBuckets := by
    have : 2^1 ≤ 2^c.logBuckets := Nat.pow_le_pow_right (by decide) several
    exact this
  obtain ⟨half,even⟩ : ∃ half, c.numBuckets = 2*half := by
    refine ⟨2^(c.logBuckets-1),?_⟩
    rw [Config.numBuckets,← Nat.pow_succ']
    congr 1
    omega
  have bound : c.size ≤ half*2^c.rshift := by
    rw [even,Nat.mul_assoc] at range
    omega
  have most : new/2^c.rshift ≤ (old+half*2^c.rshift)/2^c.rshift := Nat.div_le_div_right (by omega)
  rw [Nat.add_mul_div_right _ _ positive] at most
  omega

omit aged in
theorem cleanup_visits (several : 1 ≤ c.logBuckets) (near : t.tail ≤ mark+c.size) (lower : mark/2^c.rshift < y)
    (upper : y ≤ t.tail/2^c.rshift)
    (used : (t.cleanupBucket c (mark % wrap) t.tail).slots ((y-1) % c.numBuckets) i = some e) : t.isValid c e.offset = true := by
  have few := crossed c several near
  unfold cleanupBucket at used
  rw [offset_bucket] at used
  generalize mark/2^c.rshift = q at *
  generalize t.tail/2^c.rshift = m at *
  have bucket : (q % c.numBuckets+(y-1-q)) % c.numBuckets = (y-1) % c.numBuckets := by
    rw [Nat.mod_add_mod]
    congr 1
    omega
  rw [← bucket] at used
  refine cleanupLoop_visits t _ _ _ (m-q) (by omega) (mod_lt _ (numBuckets_pos c)) ?_ (y-1-q) (by omega) used
  intro j less
  rw [Nat.mod_add_mod]
  exact Ring.cell_ne (by omega) (by omega)

theorem Aged.cleanup : Aged c (t.cleanupBucket c (mark % wrap) t.tail) pos t.tail := by
  obtain ⟨data,tail,sub⟩ : (t.cleanupBucket c (mark % wrap) t.tail).data = t.data ∧
      (t.cleanupBucket c (mark % wrap) t.tail).tail = t.tail ∧
      ∀ b i e, (t.cleanupBucket c (mark % wrap) t.tail).slots b i = some e → t.slots b i = some e := cleanupLoop_sub _ _ _ _
  have base := aged.fewer tail sub
  refine ⟨?_,base.inside,base.offset,?_,base.brief⟩
  · rw [tail]
    exact ⟨le_rfl,Nat.le_add_right _ _⟩
  intro several b i e used y reached round
  by_cases before : y*2^c.rshift ≤ mark
  · exact base.swept several b i e used y before round
  have positive : 0 < 2^c.rshift := two_pow_pos _
  have lower : mark/2^c.rshift < y := (Nat.div_lt_iff_lt_mul positive).mpr (Nat.lt_of_not_le before)
  have upper : y ≤ t.tail/2^c.rshift := (Nat.le_div_iff_mul_le positive).mpr reached
  have bucket : (y-1) % c.numBuckets = b := by
    have whole := (base.inside b i e used).1
    have same : (y-1+1) % c.numBuckets = (b+1) % c.numBuckets := by
      rw [Nat.sub_add_cancel (Nat.lt_of_le_of_lt (zero_le _) lower)]
      exact round
    have congruent : y-1 ≡ b [MOD c.numBuckets] := Nat.ModEq.add_right_cancel' 1 same
    rw [congruent,mod_eq_of_lt whole]
  have cleaned := used
  rw [← bucket] at cleaned
  have valid := cleanup_visits several aged.marked.2 lower upper cleaned
  exact reached.trans ((aged.isValid_iff (sub b i e used)).mp valid)

end

section
variable (sound : Sound c t last pos mark)
include sound

theorem Sound.fewer (data : t'.data = t.data) (tail : t'.tail = t.tail)
    (sub : ∀ b i e, t'.slots b i = some e → t.slots b i = some e) : Sound c t' last pos mark := by
  have words : ∀ q m, Same c t t' q m := by
    intro q m
    simp only [Same,Cache.words,data]
  have header : ∀ q, t'.word c q = t.word c q := fun q => (words q 1).word (by omega)
  refine { sound.aged.fewer tail sub with holds := ?_, apart := ?_, tags := ?_ }
  · intro b i e used valid
    rw [tail] at valid
    obtain ⟨k,v,item,rest⟩ := sound.holds b i e (sub b i e used) valid
    exact ⟨k,v,(words _ _).item (Nat.le_of_eq tail.symm) item,rest⟩
  · rw [tail]
    intro b i e b' i' e' used used' valid valid' other
    rw [header,header]
    exact sound.apart b i e b' i' e' (sub b i e used) (sub b' i' e' used') valid valid' other
  · exact fun b i e i' e' used used' => sound.tags b i e i' e' (sub b i e used) (sub b i' e' used')

theorem Sound.clear (b i : Nat) : Sound c (t.setSlot b i none) last pos mark := by
  refine sound.fewer rfl rfl ?_
  intro b' i' e used
  rcases setSlot_cases used with ⟨_,_,none⟩ | ⟨_,old⟩
  · cases none
  · exact old

theorem Sound.relast (kept : ∀ b i e k v, t.slots b i = some e → c.bucketIndex k = b → c.tag k = e.tag → last k = some v → last' k = some v) :
    Sound c t last' pos mark := by
  refine { sound with holds := ?_ }
  intro b i e used valid
  obtain ⟨k,v,item,bucket,tag,known⟩ := sound.holds b i e used valid
  exact ⟨k,v,item,bucket,tag,kept b i e k v used bucket tag known⟩

theorem Sound.place (item : Item c t start k v) (slot : i < itemsPerBucket)
    (ended : ∀ b i e, t.slots b i = some e → t.tail ≤ pos b i+c.size → pos b i+t.word c (pos b i) ≤ start)
    (recent : mark ≤ start) (alone : ∀ j e, t.slots (c.bucketIndex k) j = some e → e.tag = c.tag k → j = i)
    (known : last' k = some v) (others : ∀ k', k' ≠ k → last' k' = last k') :
    Sound c (t.setSlot (c.bucketIndex k) i (some ⟨c.tag k,start % wrap⟩)) last'
      (update pos (c.bucketIndex k) (update (pos (c.bucketIndex k)) i start)) mark := by
  generalize place : c.bucketIndex k = b at *
  generalize moved : update pos b (update (pos b) i start) = pos'
  have posOwn : pos' b i = start := by simp [← moved]
  have posOther : ∀ b' i', (b' = b → i' ≠ i) → pos' b' i' = pos b' i' := by
    intro b' i' other
    rw [← moved]
    exact Memory.entry_other other
  have aged : Aged c (t.setSlot b i (some ⟨c.tag k,start % wrap⟩)) pos' mark := by
    refine sound.aged.extend ⟨le_rfl,sound.marked.2⟩ sound.brief fun b' i' e used => ?_
    rcases setSlot_cases used with ⟨rfl,rfl,⟨⟩⟩ | ⟨other,old⟩
    · rw [posOwn]
      exact .inr ⟨place ▸ mod_lt _ (numBuckets_pos c),slot,rfl,recent,(Nat.le_add_right _ _).trans item.ends⟩
    · exact .inl ⟨old,posOther b' i' other⟩
  refine { aged with holds := ?_, apart := ?_, tags := ?_ }
  · intro b' i' e used valid
    rcases setSlot_cases used with ⟨rfl,rfl,⟨⟩⟩ | ⟨other,old⟩
    · rw [posOwn]
      exact ⟨k,v,⟨item.content,item.fits,item.ends⟩,place,rfl,known⟩
    rw [posOther b' i' other] at valid ⊢
    obtain ⟨k',v',item',bucket,tag,was⟩ := sound.holds b' i' e old valid
    refine ⟨k',v',⟨item'.content,item'.fits,item'.ends⟩,bucket,tag,?_⟩
    rw [others k' ?_]
    · exact was
    rintro rfl
    have bucket : b' = b := bucket.symm.trans place
    subst bucket
    exact other rfl (alone i' e old tag.symm)
  · intro b1 i1 e1 b2 i2 e2 used1 used2 valid1 valid2 different
    rcases setSlot_cases used1 with ⟨rfl,rfl,_⟩ | ⟨other1,old1⟩
    · rcases setSlot_cases used2 with ⟨rfl,rfl,_⟩ | ⟨other2,old2⟩
      · exact absurd rfl (different rfl)
      · rw [posOther b2 i2 other2] at valid2 ⊢
        rw [posOwn]
        exact .inr (ended b2 i2 e2 old2 valid2)
    rw [posOther b1 i1 other1] at valid1 ⊢
    rcases setSlot_cases used2 with ⟨rfl,rfl,_⟩ | ⟨other2,old2⟩
    · rw [posOwn]
      exact .inl (ended b1 i1 e1 old1 valid1)
    · rw [posOther b2 i2 other2] at valid2 ⊢
      exact sound.apart b1 i1 e1 b2 i2 e2 old1 old2 valid1 valid2 different
  intro b' i1 e1 i2 e2 used1 used2 same
  rcases setSlot_cases used1 with ⟨rfl,rfl,⟨⟩⟩ | ⟨other1,old1⟩
  · rcases setSlot_cases used2 with ⟨_,rfl,_⟩ | ⟨other2,old2⟩
    · rfl
    · exact absurd (alone i2 e2 old2 same.symm) (other2 rfl)
  · rcases setSlot_cases used2 with ⟨rfl,rfl,⟨⟩⟩ | ⟨other2,old2⟩
    · exact absurd (alone i1 e1 old1 same) (other1 rfl)
    · exact sound.tags b' i1 e1 i2 e2 old1 old2 same

theorem Sound.rewrite (used : t.slots (c.bucketIndex k) i = some e) (tag : e.tag = c.tag k)
    (valid : t.tail ≤ pos (c.bucketIndex k) i+c.size) (tail : t'.tail = t.tail) (slots : t'.slots = t.slots)
    (item : Item c t' (pos (c.bucketIndex k) i) k v)
    (room : t'.word c (pos (c.bucketIndex k) i) = t.word c (pos (c.bucketIndex k) i))
    (frame : ∀ q m, t.tail ≤ q+c.size → q+m ≤ t.tail → q+m ≤ pos (c.bucketIndex k) i ∨
      pos (c.bucketIndex k) i+t.word c (pos (c.bucketIndex k) i) ≤ q → Same c t t' q m)
    (known : last' k = some v) (others : ∀ k', k' ≠ k → last' k' = last k') : Sound c t' last' pos mark := by
  generalize place : c.bucketIndex k = b at *
  have still : ∀ b' i' e', t.slots b' i' = some e' → t.tail ≤ pos b' i'+c.size → (b' = b → i' ≠ i) →
      Same c t t' (pos b' i') (t.word c (pos b' i')) := by
    intro b' i' e' used' valid' other
    obtain ⟨k',v',item',_⟩ := sound.holds b' i' e' used' valid'
    exact frame _ _ valid' item'.ends (sound.apart b' i' e' b i e used' used valid' valid other)
  have header : ∀ b' i' e', t.slots b' i' = some e' → t.tail ≤ pos b' i'+c.size → t'.word c (pos b' i') = t.word c (pos b' i') := by
    intro b' i' e' used' valid'
    by_cases same : b' = b ∧ i' = i
    · rw [same.1,same.2]
      exact room
    obtain ⟨k',v',item',_⟩ := sound.holds b' i' e' used' valid'
    refine (still b' i' e' used' valid' (fun bucket slot => same ⟨bucket,slot⟩)).word (Nat.lt_of_lt_of_le ?_ item'.fits)
    simp only [itemWords]
    omega
  refine { sound.aged.fewer tail (fun b i e used => slots ▸ used) with holds := ?_, apart := ?_, tags := ?_ }
  · rw [slots,tail]
    intro b' i' e' used' valid'
    by_cases same : b' = b ∧ i' = i
    · rw [same.1,same.2] at used' ⊢
      rw [used,Option.some.injEq] at used'
      exact ⟨k,v,item,place,used' ▸ tag.symm,known⟩
    have other : b' = b → i' ≠ i := fun bucket slot => same ⟨bucket,slot⟩
    obtain ⟨k',v',item',bucket,tag',was⟩ := sound.holds b' i' e' used' valid'
    refine ⟨k',v',(still b' i' e' used' valid' other).item (Nat.le_of_eq tail.symm) item',bucket,tag',?_⟩
    rw [others k' ?_]
    · exact was
    rintro rfl
    have bucket : b' = b := bucket.symm.trans place
    subst bucket
    exact other rfl (sound.tags b' i' e' i e used' used (tag'.symm.trans tag.symm))
  · rw [slots,tail]
    intro b1 i1 e1 b2 i2 e2 used1 used2 valid1 valid2 different
    rw [header b1 i1 e1 used1 valid1,header b2 i2 e2 used2 valid2]
    exact sound.apart b1 i1 e1 b2 i2 e2 used1 used2 valid1 valid2 different
  · rw [slots]
    exact sound.tags

theorem Sound.cleanup :
    Sound c (t.cleanupBucket c (mark % wrap) t.tail) last pos t.tail := by
  obtain ⟨data,tail,sub⟩ := cleanupLoop_sub (c := c) t (t.tail / 2^c.rshift % c.numBuckets) c.numBuckets
    (mark % wrap / 2^c.rshift % c.numBuckets)
  exact { sound.fewer data tail sub with aged := sound.aged.cleanup }

end

end

end DbExp.Mica.Cache
