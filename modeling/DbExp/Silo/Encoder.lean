import DbExp.Foundation.Words

namespace DbExp.Silo.Encoder
open List

inductive Width where
  | w8
  | w16
  | w32
  | w64

def Width.bytes : Width → Nat
  | .w8 => 1
  | .w16 => 2
  | .w32 => 4
  | .w64 => 8

-- int8_t up to uint64_t, the types of a key's fields.
structure IntType where
  signed : Bool
  width : Width

abbrev IntType.Value (t : IntType) := BitVec (8 * t.width.bytes)

def IntType.toInt (t : IntType) (x : t.Value) : Int := if t.signed then x.toInt else x.toNat

def Key : List IntType → Type
  | [] => Unit
  | t :: fields => t.Value × Key fields

-- host_endian_trfm and big_endian_trfm on a little-endian host: types of one byte have
-- no specialisation and stay as they are.
def endianTrfm (w : Width) (n : Nat) : Nat :=
  match w with
  | .w8 => n
  | w => Words.read w.bytes (Words.write w.bytes n).reverse

def write : {fields : List IntType} → Key fields → List UInt8
  | [],_ => []
  | t :: _,(x,rest) => Words.write t.width.bytes (endianTrfm t.width x.toNat) ++ write rest

def read : (fields : List IntType) → List UInt8 → Key fields
  | [],_ => ()
  | t :: fields,buf => (.ofNat _ (endianTrfm t.width (Words.read t.width.bytes buf)),read fields (buf.drop t.width.bytes))

def memcmp : List UInt8 → List UInt8 → Ordering
  | x :: xs,y :: ys => (compare x.toNat y.toNat).then (memcmp xs ys)
  | _,_ => .eq

def varkeyLt (a b : List UInt8) : Prop := memcmp a b = .lt ∨ memcmp a b = .eq ∧ a.length < b.length

def varkeyLe (a b : List UInt8) : Prop := memcmp a b = .lt ∨ memcmp a b = .eq ∧ a.length ≤ b.length

def Key.compare : {fields : List IntType} → Key fields → Key fields → Ordering
  | [],_,_ => .eq
  | t :: _,(x,a),(y,b) => (Ord.compare (t.toInt x) (t.toInt y)).then (Key.compare a b)

-- Where the keys first differ, the field is unsigned or both values have one sign.
def SameSign : {fields : List IntType} → Key fields → Key fields → Prop
  | [],_,_ => True
  | t :: _,(x,a),(y,b) => if x = y then SameSign a b else t.signed = false ∨ (t.toInt x < 0 ↔ t.toInt y < 0)

theorem write_trfm (w : Width) (n : Nat) : Words.write w.bytes (endianTrfm w n) = (Words.write w.bytes n).reverse := by
  have swapped := Words.write_read (Words.write w.bytes n).reverse []
  rw [length_reverse,Words.length_write,append_nil] at swapped
  cases w with
  | w8 => rfl
  | w16 | w32 | w64 => exact swapped

theorem trfm_read (fits : n < 256 ^ w.bytes) (rest : List UInt8) :
    endianTrfm w (Words.read w.bytes (Words.write w.bytes (endianTrfm w n) ++ rest)) = n := by
  have again := Words.write_read (Words.write w.bytes n).reverse rest
  rw [length_reverse,Words.length_write] at again
  have back := Words.read_write_of_lt fits []
  rw [append_nil] at back
  rw [write_trfm]
  cases w with
  | w8 => exact Words.read_write_of_lt fits rest
  | w16 | w32 | w64 =>
    unfold endianTrfm
    dsimp only
    rw [again,reverse_reverse,back]

theorem memcmp_append (length : xs.length = ys.length) (as bs : List UInt8) :
    memcmp (xs ++ as) (ys ++ bs) = (memcmp xs ys).then (memcmp as bs) := by
  induction xs generalizing ys with
  | nil =>
    cases ys with
    | nil => rfl
    | cons y ys => cases length
  | cons x xs ih =>
    cases ys with
    | nil => cases length
    | cons y ys =>
      simp only [cons_append,memcmp]
      rw [ih (Nat.succ.inj length),Ordering.then_assoc]

theorem ordering_ext {a b : Ordering} (less : a = .lt ↔ b = .lt) (more : a = .gt ↔ b = .gt) : a = b := by
  cases a <;> cases b <;> simp_all

theorem memcmp_reverse (m n : Nat) (small : m < 256 ^ w) (less : n < 256 ^ w) :
    memcmp (Words.write w m).reverse (Words.write w n).reverse = compare m n := by
  induction w generalizing m n with
  | zero =>
    obtain rfl : m = n := by omega
    simp [Words.write,memcmp]
  | succ w ih =>
    rw [Nat.pow_succ] at small less
    have low : memcmp [UInt8.ofNat m] [UInt8.ofNat n] = compare (m % 256) (n % 256) := by
      simp only [memcmp,Ordering.then_eq,UInt8.toNat_ofNat']
    rw [Words.write,Words.write,reverse_cons,reverse_cons,memcmp_append (by simp),ih _ _ (by omega) (by omega),low]
    apply ordering_ext
    · rw [Ordering.then_eq_lt,compare_lt_iff_lt,compare_eq_iff_eq,compare_lt_iff_lt,compare_lt_iff_lt]
      omega
    · rw [Ordering.then_eq_gt,compare_gt_iff_gt,compare_eq_iff_eq,compare_gt_iff_gt,compare_gt_iff_gt]
      omega

section
variable {t : IntType}

theorem toNat_lt (x : t.Value) : x.toNat < 256 ^ t.width.bytes := by
  have below := x.isLt
  rwa [Nat.pow_mul] at below

theorem compare_alike {m n : Nat} {x y : Int} (distinct : m ≠ n) (apart : x ≠ y) :
    compare m n = compare x y ↔ (m < n ↔ x < y) := by
  rcases lt_or_gt_of_ne distinct with one | one <;> rcases lt_or_gt_of_ne apart with two | two
  · simp [compare_lt_iff_lt.mpr one,compare_lt_iff_lt.mpr two,one,two]
  · simp [compare_lt_iff_lt.mpr one,compare_gt_iff_gt.mpr two,one,two.le]
  · simp [compare_gt_iff_gt.mpr one,compare_lt_iff_lt.mpr two,one.le,two]
  · rw [compare_gt_iff_gt.mpr one,compare_gt_iff_gt.mpr two]
    exact iff_of_true rfl (iff_of_false one.not_gt two.not_gt)

theorem toInt_ne {x y : t.Value} (apart : x ≠ y) : t.toInt x ≠ t.toInt y := by
  unfold IntType.toInt
  split
  · exact fun same => apart (BitVec.eq_of_toInt_eq same)
  · exact fun same => apart (BitVec.eq_of_toNat_eq (by exact_mod_cast same))

theorem compare_toNat {x y : t.Value} (apart : x ≠ y) :
    compare x.toNat y.toNat = compare (t.toInt x) (t.toInt y) ↔ t.signed = false ∨ (t.toInt x < 0 ↔ t.toInt y < 0) := by
  rw [compare_alike (fun same => apart (BitVec.eq_of_toNat_eq same)) (toInt_ne apart)]
  unfold IntType.toInt
  cases t.signed with
  | true =>
    simp only [if_true,Bool.true_eq_false,false_or,BitVec.toInt_eq_toNat_cond]
    split <;> split <;> omega
  | false => simp

end

theorem length_write (a : Key fields) : (write a).length = (fields.map fun t => t.width.bytes).sum := by
  induction fields with
  | nil => rfl
  | cons t fields ih =>
    obtain ⟨_,rest⟩ := a
    simp [write,ih rest]

theorem read_write (a : Key fields) (rest : List UInt8) : read fields (write a ++ rest) = a := by
  induction fields with
  | nil => rfl
  | cons t fields ih =>
    obtain ⟨x,more⟩ := a
    rw [write,append_assoc,read,trfm_read (toNat_lt x),Words.drop_write,ih more,BitVec.ofNat_toNat,BitVec.setWidth_eq]

theorem memcmp_write_iff (a b : Key fields) : memcmp (write a) (write b) = a.compare b ↔ SameSign a b := by
  induction fields with
  | nil => exact ⟨fun _ => trivial,fun _ => rfl⟩
  | cons t fields ih =>
    obtain ⟨x,a⟩ := a
    obtain ⟨y,b⟩ := b
    rw [write,write,memcmp_append (by simp),write_trfm,write_trfm,memcmp_reverse _ _ (toNat_lt x) (toNat_lt y)]
    simp only [Key.compare,SameSign]
    by_cases same : x = y
    · rw [if_pos same,same,compare_eq_iff_eq.mpr rfl,compare_eq_iff_eq.mpr rfl]
      exact ih a b
    have decides : ∀ {m n : Ordering}, m ≠ .eq → m.then n = m := by
      intro m n
      cases m <;> simp
    rw [if_neg same,decides (compare_eq_iff_eq.not.mpr fun equal => same (BitVec.eq_of_toNat_eq equal)),
      decides (compare_eq_iff_eq.not.mpr (toInt_ne same))]
    exact compare_toNat same

-- Keys decode to themselves, and sort as their fields do exactly when they first differ
-- in a field where the sign bit does not tell them apart.
theorem keys_sort_iff_same_sign (fields : List IntType) (a b : Key fields) : read fields (write a) = a ∧
    ((varkeyLt (write a) (write b) ↔ a.compare b = .lt) ∧ (varkeyLe (write a) (write b) ↔ a.compare b ≠ .gt) ↔ SameSign a b) := by
  refine ⟨?_,?_⟩
  · have whole := read_write a []
    rwa [append_nil] at whole
  rw [← memcmp_write_iff]
  unfold varkeyLt varkeyLe
  rw [length_write,length_write]
  generalize memcmp (write a) (write b) = bytes
  generalize a.compare b = keys
  cases bytes <;> cases keys <;> simp

-- One int32_t field: -1 is written as four bytes 255 and sorts after 0.
def int32 : IntType := ⟨true,.w32⟩

theorem negative_sorts_last : ¬ ∀ (fields : List IntType) (a b : Key fields),
    varkeyLt (write a) (write b) ↔ a.compare b = .lt := by
  intro claimed
  have sorts := (claimed [int32] (-1,()) (0,())).mpr rfl
  unfold varkeyLt at sorts
  revert sorts
  decide +kernel

end DbExp.Silo.Encoder
