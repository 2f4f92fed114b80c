import DbExp.Aria.Bohm
import DbExp.Foundation.BitField

namespace DbExp.Bohm
open List
set_option linter.unusedSectionVars false
open Serial

section
variable {κ ν : Type} [DecidableEq κ] {b : Batch κ ν}

-- The database before the batch, and what the first `i` transactions make of it when
-- they run one at a time.
def Batch.start (b : Batch κ ν) (k : κ) : ν := ((b.rows k).head (b.chains k).some).value

def Batch.before (b : Batch κ ν) (i : Nat) : κ → ν := serial (b.txns.take i) b.start

theorem before_succ (here : b.txns[i]? = some t) : b.before (i+1) = execute t (b.before i) := by
  unfold Batch.before serial
  rw [take_add_one,here,foldl_append]
  rfl

theorem getTid_eq (epoch_fits : epoch < 2^32) (pos_fits : pos < 2^32) : getTid epoch pos = epoch * 2^32 + pos := by
  unfold getTid
  rw [← Nat.shiftLeft_add_eq_or_of_lt pos_fits,Nat.shiftLeft_eq]
  exact Nat.mod_eq_of_lt (by omega)

theorem tid_eq (b : Batch κ ν) (small : i < 2^32) : b.tid i = b.epoch * 2^32 + i := getTid_eq b.epoch_fits small

theorem epoch_pos (b : Batch κ ν) (k : κ) : 0 < b.epoch := by
  have chain := b.chains k
  have older := chain.older _ (head_mem chain.some)
  omega

theorem tid_lt (b : Batch κ ν) (less : j < i) (small : i < 2^32) : b.tid j < b.tid i := by
  rw [tid_eq b small,tid_eq b (Nat.lt_trans less small)]
  omega

theorem index_small (here : b.txns[i]? = some t) : i < 2^32 := by
  have bound := (List.getElem?_eq_some_iff.mp here).1
  have := b.size_fits
  omega

def Batch.writes (b : Batch κ ν) (i : Nat) (k : κ) : Prop := ∃ t, b.txns[i]? = some t ∧ k ∈ t.written

theorem before_unwritten (other : ¬ b.writes i k) : b.before (i+1) k = b.before i k := by
  cases here : b.txns[i]? with
  | none =>
    unfold Batch.before
    rw [take_add_one,here]
    simp
  | some t =>
    rw [before_succ here]
    exact execute_other fun writes => other ⟨t,here,writes⟩

open Classical in
noncomputable def placed (b : Batch κ ν) (k : κ) : Nat → List Nat
  | 0 => []
  | m+1 => if b.writes m k then m :: placed b k m else placed b k m

theorem mem_placed : j ∈ placed b k m ↔ j < m ∧ b.writes j k := by
  induction m with
  | zero => simp [placed]
  | succ m ih =>
    rw [placed]
    split
    next writes =>
      rw [mem_cons,ih]
      constructor
      · rintro (rfl | ⟨less,theirs⟩)
        · exact ⟨by omega,writes⟩
        · exact ⟨by omega,theirs⟩
      rintro ⟨less,theirs⟩
      by_cases same : j = m
      · exact .inl same
      · exact .inr ⟨by omega,theirs⟩
    next other =>
      rw [ih]
      constructor
      · rintro ⟨less,theirs⟩
        exact ⟨by omega,theirs⟩
      rintro ⟨less,theirs⟩
      refine ⟨?_,theirs⟩
      by_contra far
      obtain rfl : j = m := by omega
      exact other theirs

theorem placed_nodup (b : Batch κ ν) (k : κ) (m : Nat) : (placed b k m).Nodup := by
  induction m with
  | zero => exact nodup_nil
  | succ m ih =>
    rw [placed]
    split
    · refine nodup_cons.mpr ⟨fun mem => ?_,ih⟩
      have := (mem_placed.mp mem).1
      omega
    · exact ih

theorem placed_split (b : Batch κ ν) (k : κ) (less : i ≤ m) : ∃ above, placed b k m = above ++ placed b k i ∧ ∀ j ∈ above, i ≤ j := by
  induction m with
  | zero =>
    obtain rfl : i = 0 := by omega
    exact ⟨[],rfl,by simp⟩
  | succ m ih =>
    by_cases same : i = m+1
    · subst same; exact ⟨[],rfl,by simp⟩
    obtain ⟨above,split,bound⟩ := ih (by omega)
    rw [placed]
    split
    · refine ⟨m :: above,by rw [split]; rfl,?_⟩
      intro j mem
      rcases mem_cons.mp mem with rfl | later
      · omega
      · exact bound j later
    · exact ⟨above,split,bound⟩

theorem before_placed (b : Batch κ ν) (k : κ) (i : Nat) :
    (∃ j rest, placed b k i = j :: rest ∧ b.before i k = b.before (j+1) k) ∨ placed b k i = [] ∧ b.before i k = b.start k := by
  induction i with
  | zero => exact .inr ⟨rfl,rfl⟩
  | succ i ih =>
    rw [placed]
    split
    · exact .inl ⟨i,_,rfl,rfl⟩
    next other =>
      rw [before_unwritten other]
      exact ih

section
variable {rows : List (Row ν)}

theorem searchPrev_skip {above : List (Row ν)} (skip : ∀ r ∈ above, version ≤ r.version) :
    searchPrev (above ++ rows) version = searchPrev rows version := by
  unfold searchPrev
  rw [List.find?_append,List.find?_eq_none.mpr]
  · rfl
  · intro r mem
    have := skip r mem
    simp; omega

theorem searchPrev_head {r : Row ν} (less : r.version < version) : searchPrev (r :: rows) version = some r := by
  unfold searchPrev
  rw [List.find?_cons_of_pos (by simpa using less)]

theorem update_map {cell next : Nat → Row ν} (others : List (Row ν)) (value : ν) (indices : List Nat) (once : indices.Nodup)
    (mem : i ∈ indices) (apart : ∀ j ∈ indices, j ≠ i → (cell j).version ≠ (cell i).version)
    (mine : next i = ⟨(cell i).version,0,value⟩) (same : ∀ j ∈ indices, j ≠ i → next j = cell j) :
    update value (cell i).version (indices.map cell ++ others) = indices.map next ++ others := by
  induction indices with
  | nil => cases mem
  | cons j rest ih =>
    obtain ⟨fresh,once⟩ := nodup_cons.mp once
    rw [map_cons,map_cons,cons_append,cons_append,update]
    by_cases here : j = i
    · subst here
      have tail : rest.map next = rest.map cell := by
        apply map_congr_left
        intro l later
        exact same l (.tail _ later) (by rintro rfl; exact fresh later)
      rw [if_pos rfl,mine,tail]
    · rw [if_neg (apart j (by simp) here),same j (by simp) here,
        ih once ((mem_cons.mp mem).resolve_left (Ne.symm here)) (fun l later => apart l (.tail _ later))
          fun l later => same l (.tail _ later)]

theorem search_map {cell : Nat → Row ν} (others : List (Row ν)) (indices : List Nat) (mem : i ∈ indices)
    (apart : ∀ j ∈ indices, j ≠ i → (cell j).version ≠ (cell i).version) :
    search (indices.map cell ++ others) (cell i).version = some (cell i) := by
  unfold search
  induction indices with
  | nil => cases mem
  | cons j rest ih =>
    rw [map_cons,cons_append]
    by_cases here : j = i
    · subst here
      rw [List.find?_cons_of_pos (by simp)]
    · rw [List.find?_cons_of_neg (by simpa using apart j (by simp) here)]
      exact ih ((mem_cons.mp mem).resolve_left (Ne.symm here)) fun l later => apart l (.tail _ later)

theorem insert_newest (value : ν) (bound : ∀ r ∈ rows, r.version < version) :
    insert rows value version = some (⟨version,version,value⟩ :: rows) := by
  unfold insert
  split
  · rfl
  next head rest =>
    rw [if_pos (bound head (by simp))]

end

section
variable (b : Batch κ ν)

def holder (k : κ) (j : Nat) : Row ν := ⟨b.tid j,b.tid j,b.prepared j k⟩

theorem insertKeys_spec (i : Nat) (keys : List κ) (once : keys.Nodup) (rows : κ → List (Row ν))
    (bound : ∀ k ∈ keys, ∀ r ∈ rows k, r.version < b.tid i) :
    ∃ next, insertKeys b i keys rows = some next ∧ ∀ k, next k = if k ∈ keys then holder b k i :: rows k else rows k := by
  induction keys generalizing rows with
  | nil => exact ⟨rows,rfl,fun k => by simp⟩
  | cons key rest ih =>
    obtain ⟨fresh,once⟩ := nodup_cons.mp once
    have first := insert_newest (b.prepared i key) (bound key (by simp))
    have others : ∀ k ∈ rest, Function.update rows key (holder b key i :: rows key) k = rows k := by
      intro k later
      exact Function.update_of_ne (by rintro rfl; exact fresh later) _ _
    obtain ⟨next,done,shape⟩ := ih once (Function.update rows key (holder b key i :: rows key)) (by
      intro k later
      rw [others k later]
      exact bound k (.tail _ later))
    refine ⟨next,?_,?_⟩
    · unfold insertKeys at done ⊢
      rw [foldlM_cons,first]
      exact done
    intro k
    rw [shape k]
    by_cases same : k = key
    · subst same
      rw [if_neg fresh,if_pos (by simp),Function.update_self]
    · rw [Function.update_of_ne same]
      simp [same]

theorem holder_below (small : i < 2^32) : ∀ r ∈ (placed b k i).map (holder b k) ++ b.rows k, r.version < b.tid i := by
  intro r mem
  rcases mem_append.mp mem with new | old
  · obtain ⟨_,here,rfl⟩ := mem_map.mp new
    exact tid_lt b (mem_placed.mp here).1 small
  · have older := (b.chains k).older r old
    have mine := tid_eq b small
    omega

theorem insertWriteSets_from (done rest : List (Txn κ ν)) (whole : b.txns = done ++ rest) (rows : κ → List (Row ν))
    (shape : ∀ k, rows k = (placed b k done.length).map (holder b k) ++ b.rows k) :
    ∃ next, insertWriteSets b done.length rest rows = some next ∧
      ∀ k, next k = (placed b k b.txns.length).map (holder b k) ++ b.rows k := by
  induction rest generalizing done rows with
  | nil =>
    refine ⟨rows,rfl,?_⟩
    rw [whole,append_nil]
    exact shape
  | cons t rest ih =>
    have here : b.txns[done.length]? = some t := by rw [whole]; simp
    have writes : ∀ k, b.writes done.length k ↔ k ∈ t.written := by
      intro k
      unfold Batch.writes
      rw [here]
      simp
    obtain ⟨mid,inserted,after⟩ := insertKeys_spec b done.length t.written (b.once t (mem_of_getElem? here)) rows (by
      intro k _
      rw [shape k]
      exact holder_below b (index_small here))
    obtain ⟨next,path,final⟩ := ih (done ++ [t]) (by rw [whole]; simp) mid (by
      intro k
      rw [after k,shape k,length_append,length_singleton,placed]
      by_cases mine : k ∈ t.written
      · rw [if_pos mine,if_pos ((writes k).mpr mine)]; rfl
      · rw [if_neg mine,if_neg fun writer => mine ((writes k).mp writer)])
    refine ⟨next,?_,final⟩
    rw [insertWriteSets,inserted]
    simpa using path

theorem insertWriteSets_spec :
    ∃ rows, insertWriteSets b 0 b.txns b.rows = some rows ∧
      ∀ k, rows k = (placed b k b.txns.length).map (holder b k) ++ b.rows k :=
  insertWriteSets_from b [] b.txns rfl b.rows fun _ => rfl

end

end

open BitField (Word testBit_small set_bit get_eq)

-- BohmHelper.h: the documented layout has 32 bits for each field, the masks have 44 and 24.
def getEpoch : Word → Nat := BitField.get 32 44

def setEpoch : Word → Nat → Word := BitField.set 32 44

def getPos : Word → Nat := BitField.get 0 24

def setPos : Word → Nat → Word := BitField.set 0 24

def tidWord (epoch pos : Nat) : Word := .ofNat 64 (getTid epoch pos)

-- What the layout promises of an id. A READ_RESPONSE is handled at the place in the batch
-- that its id names.
structure TidFields (epoch pos : Nat) : Prop where
  gotEpoch : getEpoch (tidWord epoch pos) = epoch
  gotPos : getPos (tidWord epoch pos) = pos
  epochSet : ∀ e < 2^32, setEpoch (tidWord epoch pos) e = tidWord e pos
  posSet : ∀ p < 2^32, setPos (tidWord epoch pos) p = tidWord epoch p
  ordered : ∀ e < 2^32, ∀ p < 2^32, tidWord epoch pos < tidWord e p ↔ epoch < e ∨ epoch = e ∧ pos < p
  answered : ∀ (Txn : Type) (txns : List Txn), txns[getPos (tidWord epoch pos)]? = txns[pos]?

theorem tidWord_bit (pos_fits : pos < 2^32) (inside : i < 64) :
    (tidWord epoch pos).getLsbD i = if i < 32 then pos.testBit i else epoch.testBit (i - 32) := by
  unfold tidWord getTid
  rw [BitVec.getLsbD_ofNat,Nat.testBit_mod_two_pow,Nat.testBit_or,Nat.testBit_shiftLeft]
  split
  next low => simp [inside,show ¬ 32 ≤ i by omega]
  next high => simp [inside,show 32 ≤ i by omega,testBit_small pos_fits (by omega : 32 ≤ i)]

theorem tidFields_iff_small (epoch pos : Nat) (epoch_fits : epoch < 2^32) (pos_fits : pos < 2^32) :
    TidFields epoch pos ↔ pos < 2^24 := by
  have value {e p : Nat} (e_fits : e < 2^32) (p_fits : p < 2^32) : (tidWord e p).toNat = e * 2^32 + p := by
    rw [tidWord,BitVec.toNat_ofNat,getTid_eq e_fits p_fits]
    omega
  have found : getPos (tidWord epoch pos) = pos % 2^24 := by
    rw [getPos,get_eq,value epoch_fits pos_fits]
    omega
  refine ⟨fun fields => by have := fields.gotPos; omega,fun small => ?_⟩
  rw [Nat.mod_eq_of_lt small] at found
  refine ⟨?_,found,?_,?_,?_,fun _ _ => by rw [found]⟩
  · rw [getEpoch,get_eq,value epoch_fits pos_fits]
    omega
  · intro e fits
    apply BitVec.eq_of_getLsbD_eq
    intro i inside
    rw [setEpoch,set_bit,tidWord_bit pos_fits inside,tidWord_bit pos_fits inside]
    by_cases low : i < 32
    · simp [low,show ¬ 32 ≤ i by omega]
    · simp [low,inside,show 32 ≤ i by omega,show i < 32 + 44 by omega]
  · intro p fits
    apply BitVec.eq_of_getLsbD_eq
    intro i inside
    rw [setPos,set_bit,tidWord_bit pos_fits inside,tidWord_bit fits inside]
    by_cases low : i < 24
    · simp [low,inside,show i < 32 by omega]
    · simp [low,inside]
      split
      · simp [testBit_small small (by omega : 24 ≤ i)]
      · simp [testBit_small fits (by omega : 32 ≤ i)]
  · intro e e_fits p p_fits
    rw [BitVec.lt_def,value epoch_fits pos_fits,value e_fits p_fits]
    omega

theorem tidFields_iff_small_first : (1 < 2^32 ∧ 5 < 2^32) ∧ (TidFields 1 5 ↔ 5 < 2^24) :=
  ⟨by decide,tidFields_iff_small 1 5 (by decide) (by decide)⟩

theorem late_position_lost : ¬ TidFields 1 (2^24) := fun fields => absurd fields.gotPos (by decide)

end DbExp.Bohm
