import DbExp.Foundation.Memory

namespace DbExp.Mica

-- Keys and values as they are copied and compared: a length in bytes and the words of
-- eight bytes that hold them.
@[ext] structure Blob (limit : Nat) where
  length : Nat
  words : List Nat
  whole : words.length = (length+7)/8
  short : length ≤ limit
  deriving DecidableEq

theorem one_word_whole (n : Nat) : [n].length = (8+7)/8 := rfl

theorem one_word_short : 8 ≤ 255 := by decide

abbrev Key := Blob 255
abbrev Value := Blob 1048575

def wordKey (n : Nat) : Key := ⟨8,[n],one_word_whole n,one_word_short⟩

def calcBucketIndex (numBuckets keyHash : Nat) : Nat := keyHash / 2^16 % 2^32 % numBuckets

def calcTag (keyHash : Nat) : Nat := if keyHash % 2^16 = 0 then 1 else keyHash % 2^16

structure Entry where
  tag : Nat
  offset : Nat
  deriving DecidableEq

def lengthsWord (keyLength valueLength expire : Nat) : Nat := keyLength*2^24+valueLength+expire*2^32
def keyLength (w : Nat) : Nat := w % 2^32 / 2^24
def valueLength (w : Nat) : Nat := w % 2^24
def expireTime (w : Nat) : Nat := w / 2^32

def itemWords (keyLength valueLength : Nat) : Nat := 3+(keyLength+7)/8+(valueLength+7)/8

def record (hash : Key → Nat) (k : Key) (v : Value) (expire : Nat) : List Nat :=
  lengthsWord k.length v.length expire :: hash k :: (k.words ++ v.words)

def setItem (store : σ → Nat → List Nat → σ) (hash : Key → Nat) (t : σ) (offset : Nat) (k : Key) (v : Value) (expire : Nat) : σ :=
  store t (offset+1) (record hash k v expire)

def setItemValue (store : σ → Nat → List Nat → σ) (word : Nat → Nat) (t : σ) (offset : Nat) (v : Value) (expire : Nat) : σ :=
  let length := keyLength (word (offset+1))
  store (store t (offset+1) [lengthsWord length v.length expire]) (offset+3+(length+7)/8) v.words

section
variable (word : Nat → Nat) (hash : Key → Nat)

def holdsKey (offset : Nat) (k : Key) : Bool :=
  word (offset+2) == hash k && keyLength (word (offset+1)) == k.length && Memory.readAll word (offset+3) k.words.length == k.words

def findInBucket (slots : Nat → Option Entry) (n : Nat) (k : Key) : Option (Nat × Entry) :=
  (List.range n).findSome? fun i => (slots i).bind fun e =>
    if e.tag == calcTag (hash k) && holdsKey word hash e.offset k then some (i,e) else none

def readValue (offset : Nat) : Value :=
  let w := word (offset+1)
  let length := min (valueLength w) 1048575
  ⟨length,Memory.readAll word (offset+3+(keyLength w+7)/8) ((length+7)/8),Memory.length_readAll _ _ _,Nat.min_le_right _ _⟩

end

def Holding (word : Nat → Nat) (hash : Key → Nat) (pos : Nat) (k : Key) (v : Value) : Prop :=
  ∃ expire, Memory.readAll word (pos+1) (itemWords k.length v.length-1) = record hash k v expire

section
variable {word word' : Nat → Nat} {hash : Key → Nat} {pos : Nat} {k k' : Key} {v : Value}

theorem findInBucket_some (got : findInBucket word hash slots n k = some (i,e)) :
    i < n ∧ slots i = some e ∧ e.tag = calcTag (hash k) ∧ holdsKey word hash e.offset k = true := by
  obtain ⟨_,listed,bound⟩ := List.exists_of_findSome?_eq_some got
  obtain ⟨_,used,chosen⟩ := Option.bind_eq_some_iff.mp bound
  split at chosen
  next both =>
    cases chosen
    simp only [Bool.and_eq_true,beq_iff_eq] at both
    exact ⟨List.mem_range.mp listed,used,both⟩
  · cases chosen

theorem length_record (hash : Key → Nat) (k : Key) (v : Value) (expire : Nat) :
    (record hash k v expire).length+1 = itemWords k.length v.length := by
  simp only [record,itemWords,List.length_cons,List.length_append,k.whole,v.whole]
  omega

theorem itemWords_eq (k : Key) (v : Value) : itemWords k.length v.length = k.words.length+v.words.length+1+1+1 := by
  simp only [itemWords,k.whole,v.whole]
  omega

theorem itemWords_pos (a b : Nat) : 0 < itemWords a b := by
  simp only [itemWords]
  omega

theorem holding_iff : Holding word hash pos k v ↔ (∃ expire, word (pos+1) = lengthsWord k.length v.length expire) ∧
    word (pos+2) = hash k ∧ Memory.readAll word (pos+3) k.words.length = k.words ∧
      Memory.readAll word (pos+3+k.words.length) v.words.length = v.words := by
  simp only [Holding,itemWords_eq,Nat.add_sub_cancel,Memory.readAll_succ,Memory.readAll_add,record,List.cons.injEq]
  constructor
  · rintro ⟨expire,lengths,hash,rest⟩
    exact ⟨⟨expire,lengths⟩,hash,List.append_inj rest (Memory.length_readAll _ _ _)⟩
  · rintro ⟨⟨expire,lengths⟩,hash,key,value⟩
    exact ⟨expire,lengths,hash,congrArg₂ _ key value⟩

theorem keyLength_lengthsWord (k : Key) (v : Value) (expire : Nat) : keyLength (lengthsWord k.length v.length expire) = k.length := by
  have := k.short
  have := v.short
  simp only [keyLength,lengthsWord]
  omega

theorem valueLength_lengthsWord (k : Key) (v : Value) (expire : Nat) : valueLength (lengthsWord k.length v.length expire) = v.length := by
  have := v.short
  simp only [valueLength,lengthsWord]
  omega

section
variable (holding : Holding word hash pos k v)
include holding

theorem Holding.keyLength_eq : keyLength (word (pos+1)) = k.length := by
  obtain ⟨⟨_,lengths⟩,_⟩ := holding_iff.mp holding
  rw [lengths,keyLength_lengthsWord]

theorem Holding.readValue_eq : readValue word pos = v := by
  obtain ⟨⟨_,lengths⟩,_,_,value⟩ := holding_iff.mp holding
  have length : min (valueLength (word (pos+1))) 1048575 = v.length := by
    rw [lengths,valueLength_lengthsWord]
    exact Nat.min_eq_left v.short
  rw [k.whole,v.whole] at value
  apply Blob.ext
  · exact length
  · simp only [readValue,length,holding.keyLength_eq,value]

theorem Holding.holdsKey_eq : holdsKey word hash pos k = true := by
  obtain ⟨_,same,key,_⟩ := holding_iff.mp holding
  simp only [holdsKey,Bool.and_eq_true,beq_iff_eq]
  exact ⟨⟨same,holding.keyLength_eq⟩,key⟩

end

theorem Holding.key_eq (holding : Holding word hash pos k' v) (held : holdsKey word hash pos k = true) : k' = k := by
  simp only [holdsKey,Bool.and_eq_true,beq_iff_eq] at held
  obtain ⟨⟨_,length⟩,words⟩ := held
  rw [holding.keyLength_eq] at length
  have own := (holding_iff.mp holding).2.2.1
  have same : k'.words.length = k.words.length := by rw [k'.whole,k.whole,length]
  rw [same] at own
  exact Blob.ext length (own.symm.trans words)

theorem Holding.unique (one : Holding word hash pos k v) (other : Holding word hash pos k' v') : k = k' ∧ v = v' := by
  exact ⟨one.key_eq other.holdsKey_eq,one.readValue_eq.symm.trans other.readValue_eq⟩

theorem Holding.congr (holding : Holding word hash pos k v)
    (same : ∀ i < itemWords k.length v.length-1, word' (pos'+1+i) = word (pos+1+i)) : Holding word' hash pos' k v := by
  obtain ⟨expire,content⟩ := holding
  refine ⟨expire,Eq.trans (List.map_congr_left ?_) content⟩
  intro i listed
  exact same i (List.mem_range.mp listed)

end
end DbExp.Mica
