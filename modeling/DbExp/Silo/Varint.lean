import DbExp.Foundation.Memory
import Mathlib

namespace DbExp.Silo.Varint
open Memory

section
variable (buf : Nat → UInt8)

-- failsafe_read_uvint32_slow from its byte at `p` on, with `left` of its five unrolled bytes
-- to go: seven bits of each, the fifth shifted in whole. After the fifth the code falls
-- through to its exit whatever that byte was.
def readSlow (p nbytes shift result : Nat) : Nat → Option (Nat × Nat)
  | 0 => some (result,p)
  | left+1 =>
    if nbytes = 0 then none
    else
      let b := (buf p).toNat
      let result := result ||| (if left = 0 then b <<< 28 % 2^32 else (b &&& 0x7F) <<< shift)
      if b < 0x80 then some (result,p+1) else readSlow (p+1) (nbytes-1) (shift+7) result left

def failsafeReadUvint32 (p nbytes : Nat) : Option (Nat × Nat) :=
  if nbytes = 0 then none
  else if (buf p).toNat < 0x80 then some ((buf p).toNat,p+1)
  else readSlow buf p nbytes 0 0 5

-- `some 0` is the failure the code reports, `none` its ALWAYS_ASSERT(false).
def skipFrom (p nbytes taken : Nat) : Nat → Option Nat
  | 0 => none
  | left+1 =>
    if nbytes = 0 then some 0
    else if (buf p).toNat < 0x80 then some (taken+1)
    else skipFrom (p+1) (nbytes-1) (taken+1) left

def failsafeSkipUvint32 (p nbytes : Nat) : Option Nat := skipFrom buf p nbytes 0 5

-- The loop of write_uvint32; a 32-bit value is done after five bytes.
def writeLoop : Nat → Nat → List UInt8
  | 0,_ => []
  | rounds+1,value =>
    if 0x7F < value then UInt8.ofNat ((value &&& 0x7F) ||| 0x80) :: writeLoop rounds (value >>> 7)
    else [UInt8.ofNat (value &&& 0x7F)]

def writeUvint32 (value : Nat) : List UInt8 := writeLoop 5 value

def sizeUvint32 (value : Nat) : Nat :=
  if value ≤ 0x7F then 1
  else if value ≤ 0x7F <<< 7 ||| 0x7F then 2
  else if value ≤ 0x7F <<< 14 ||| 0x7F <<< 7 ||| 0x7F then 3
  else if value ≤ 0x7F <<< 21 ||| 0x7F <<< 14 ||| 0x7F <<< 7 ||| 0x7F then 4
  else 5

theorem low_bits (value : Nat) : value &&& 0x7F = value % 128 := Nat.and_two_pow_sub_one_eq_mod value 7

theorem last_byte (small : value ≤ 0x7F) : (UInt8.ofNat (value &&& 0x7F)).toNat = value := by
  rw [low_bits,UInt8.toNat_ofNat']
  omega

theorem inner_byte (value : Nat) : (UInt8.ofNat ((value &&& 0x7F) ||| 0x80)).toNat = value % 128 + 128 := by
  have joined : value % 128 ||| 0x80 = value % 128 + 128 := by
    rw [Nat.lor_comm]
    exact (Nat.two_pow_add_eq_or_of_lt (i := 7) (Nat.mod_lt value (by decide)) 1).symm.trans (Nat.add_comm _ _)
  rw [low_bits,joined,UInt8.toNat_ofNat']
  omega

theorem writeUvint32_length (fits : value < 2^32) : (writeUvint32 value).length = sizeUvint32 value := by
  simp only [writeUvint32,writeLoop,sizeUvint32,Nat.shiftRight_eq_div_pow,Nat.reduceShiftLeft,Nat.reduceOr]
  split_ifs <;> simp <;> omega

theorem or_shift (small : result < 2^shift) (b : Nat) : result ||| b <<< shift = result + b * 2^shift := by
  rw [Nat.lor_comm,← Nat.shiftLeft_add_eq_or_of_lt small,Nat.shiftLeft_eq,Nat.add_comm]

theorem slow_written (left shift value result p n taken : Nat) (total : shift + 7 * left = 35)
    (fits : result + value * 2^shift < 2^32) (small : result < 2^shift) (positive : 0 < left)
    (stands : readAll buf p (writeLoop left value).length = writeLoop left value) (room : (writeLoop left value).length ≤ n) :
    readSlow buf p n shift result left = some (result + value * 2^shift,p + (writeLoop left value).length) ∧
      skipFrom buf p n taken left = some (taken + (writeLoop left value).length) := by
  induction left generalizing shift value result p n taken with
  | zero => omega
  | succ left ih =>
    by_cases more : 0x7F < value
    · have again : left ≠ 0 := by
        rintro rfl
        obtain rfl : shift = 28 := by omega
        omega
      simp only [writeLoop,if_pos more,List.length_cons,readAll_succ,List.cons.injEq] at stands room ⊢
      obtain ⟨first,rest⟩ := stands
      have payload : (value % 128 + 128 &&& 0x7F) = value % 128 := by rw [low_bits]; omega
      have whole : result + value % 128 * 2^shift + value / 128 * 2^(shift+7) = result + value * 2^shift := by
        rw [pow_add]
        nth_rewrite 3 [← Nat.mod_add_div value 128]
        ring
      have next := ih (shift + 7) (value >>> 7) (result + value % 128 * 2^shift) (p+1) (n-1) (taken+1) (by omega)
        (by rw [Nat.shiftRight_eq_div_pow,whole]; exact fits)
        (by
          have := Nat.mul_le_mul_right (2^shift) (show value % 128 ≤ 127 by omega)
          rw [pow_add]
          omega) (by omega) rest (by omega)
      rw [Nat.shiftRight_eq_div_pow,whole] at next
      have present : n ≠ 0 := by omega
      have inner : ¬ value % 128 + 128 < 0x80 := by omega
      rw [readSlow,skipFrom,if_neg present,if_neg present,first,inner_byte]
      dsimp only
      rw [if_neg again,if_neg inner,if_neg inner,payload,or_shift small,next.1,next.2,Nat.shiftRight_eq_div_pow]
      simp only [Option.some.injEq,Prod.mk.injEq,true_and]
      omega
    simp only [writeLoop,if_neg more,List.length_singleton,readAll_succ,List.cons.injEq] at stands room ⊢
    have byte := last_byte (show value ≤ 0x7F by omega)
    have present : n ≠ 0 := by omega
    have last : value < 0x80 := by omega
    rw [readSlow,skipFrom,if_neg present,if_neg present,stands.1,byte]
    rw [if_pos last,if_pos last]
    refine ⟨?_,rfl⟩
    congr 2
    split
    · obtain rfl : shift = 28 := by omega
      rw [Nat.mod_eq_of_lt (by rw [Nat.shiftLeft_eq]; omega),or_shift small]
    · rw [low_bits,Nat.mod_eq_of_lt (by omega),or_shift small]

theorem failsafeReadUvint32_eq (p n : Nat) : failsafeReadUvint32 buf p n = readSlow buf p n 0 0 5 := by
  unfold failsafeReadUvint32
  by_cases small : (buf p).toNat < 0x80
  · rw [if_pos small,readSlow,if_pos small]
    simp [low_bits,Nat.mod_eq_of_lt small]
  · rw [if_neg small,readSlow]
    split <;> rfl

end

theorem read_written (fits : value < 2^32) (stands : readAll buf p (writeUvint32 value).length = writeUvint32 value)
    (room : sizeUvint32 value ≤ n) :
    failsafeReadUvint32 buf p n = some (value,p + sizeUvint32 value) ∧ failsafeSkipUvint32 buf p n = some (sizeUvint32 value) := by
  rw [← writeUvint32_length fits] at room ⊢
  rw [failsafeReadUvint32_eq]
  have both := slow_written buf 5 0 value 0 p n 0 rfl (by omega) (by decide) (by decide) stands room
  rw [Nat.pow_zero,Nat.mul_one,Nat.zero_add,Nat.zero_add] at both
  exact both

-- So many bytes, of at most `most`, of which the last alone has its continuation bit clear.
def IsForm (most : Nat) (buf : Nat → UInt8) (p k : Nat) : Prop :=
  0 < k ∧ k ≤ most ∧ (∀ i, i + 1 < k → 0x80 ≤ (buf (p+i)).toNat) ∧ (buf (p+k-1)).toNat < 0x80

def Continued (buf : Nat → UInt8) (p k : Nat) : Prop := ∀ i < k, 0x80 ≤ (buf (p+i)).toNat

theorem Continued.cons (here : 0x80 ≤ (buf p).toNat) (rest : Continued buf (p+1) k) : Continued buf p (k+1) := by
  intro i inside
  cases i with
  | zero => exact here
  | succ i => rw [show p + (i+1) = p+1+i by omega]; exact rest i (by omega)

theorem slow_cases (buf : Nat → UInt8) (p n shift result taken left : Nat) :
    (∃ k v, k ≤ n ∧ IsForm left buf p k ∧ readSlow buf p n shift result left = some (v,p+k) ∧
      skipFrom buf p n taken left = some (taken+k)) ∨
    (n < left ∧ Continued buf p n ∧ readSlow buf p n shift result left = none ∧ skipFrom buf p n taken left = some 0) ∨
    (left ≤ n ∧ Continued buf p left ∧ (∃ v, readSlow buf p n shift result left = some (v,p+left)) ∧
      skipFrom buf p n taken left = none) := by
  induction left generalizing p n shift result taken with
  | zero => exact .inr (.inr ⟨Nat.zero_le _,fun i inside => absurd inside (Nat.not_lt_zero i),⟨_,rfl⟩,rfl⟩)
  | succ left ih =>
    rw [readSlow,skipFrom]
    by_cases empty : n = 0
    · subst empty
      exact .inr (.inl ⟨by omega,fun i inside => absurd inside (Nat.not_lt_zero i),rfl,rfl⟩)
    rw [if_neg empty,if_neg empty]
    by_cases ends : (buf p).toNat < 0x80
    · rw [if_pos ends,if_pos ends]
      exact .inl ⟨1,_,by omega,⟨by omega,by omega,fun i more => by omega,by simpa using ends⟩,rfl,rfl⟩
    rw [if_neg ends,if_neg ends]
    rcases ih (p+1) (n-1) (shift+7) _ (taken+1) with ⟨k,v,inside,⟨_,_,inner,last⟩,read,skip⟩ |
        ⟨short,rest,read,skip⟩ | ⟨long,rest,⟨v,read⟩,skip⟩
    · refine .inl ⟨k+1,v,by omega,⟨by omega,by omega,?_,?_⟩,read.trans ?_,skip.trans ?_⟩
      · intro i more
        exact Continued.cons (k := k-1) (by omega) (fun j close => inner j (by omega)) i (by omega)
      · rw [show p + (k+1) - 1 = p+1+k-1 by omega]; exact last
      · rw [Nat.add_assoc,Nat.add_comm 1 k]
      · rw [Nat.add_assoc,Nat.add_comm 1 k]
    · have whole := rest.cons (by omega)
      rw [Nat.sub_add_cancel (by omega)] at whole
      exact .inr (.inl ⟨by omega,whole,read,skip⟩)
    · refine .inr (.inr ⟨by omega,rest.cons (by omega),⟨v,read.trans ?_⟩,skip⟩)
      rw [Nat.add_assoc,Nat.add_comm 1 left]

theorem IsForm.not_continued (form : IsForm most buf p k) (all : Continued buf p m) (inside : k ≤ m) : False := by
  obtain ⟨_,_⟩ := form
  have := all (k-1) (by omega)
  rw [show p + (k-1) = p+k-1 by omega] at this
  omega

-- No assertion trips, the two fail together or consume the same bytes, and they fail exactly
-- where no encoding form stands in the first n bytes.
def Agrees (buf : Nat → UInt8) (p n : Nat) : Prop :=
  ∃ k, failsafeSkipUvint32 buf p n = some k ∧ (failsafeReadUvint32 buf p n = none ↔ k = 0) ∧
    (∀ v q, failsafeReadUvint32 buf p n = some (v,q) → q = p + k) ∧
    (failsafeReadUvint32 buf p n = none ↔ ¬ ∃ m ≤ n, IsForm 5 buf p m)

-- Five bytes that all continue are the one input on which the decoders part: the reader
-- returns a value, the skipper stops the program.
theorem failsafe_agree_iff (buf : Nat → UInt8) (p n : Nat) :
    (Agrees buf p n ↔ ¬ (5 ≤ n ∧ Continued buf p 5)) ∧
    ∀ value, value < 2^32 → readAll buf p (writeUvint32 value).length = writeUvint32 value → sizeUvint32 value ≤ n →
      failsafeReadUvint32 buf p n = some (value,p + sizeUvint32 value) ∧
        failsafeSkipUvint32 buf p n = some (sizeUvint32 value) := by
  refine ⟨?_,fun value fits stands room => read_written fits stands room⟩
  unfold Agrees
  rw [failsafeReadUvint32_eq]
  rcases slow_cases buf p n 0 0 0 5 with ⟨k,v,inside,form,read,skip⟩ | ⟨_,all,read,skip⟩ | ⟨long,all,⟨v,read⟩,skip⟩
  · have apart : ¬ (5 ≤ n ∧ Continued buf p 5) := fun both => form.not_continued both.2 form.2.1
    refine iff_of_true ⟨k,skip.trans (by rw [Nat.zero_add]),?_⟩ apart
    rw [read]
    refine ⟨iff_of_false (by simp) (by have := form.1; omega),?_,iff_of_false (by simp) (not_not.mpr ⟨k,inside,form⟩)⟩
    rintro _ _ ⟨⟩
    rfl
  · refine iff_of_true ⟨0,skip,?_⟩ (by omega)
    rw [read]
    exact ⟨by simp,by simp,iff_of_true rfl fun ⟨m,most,form⟩ => form.not_continued all most⟩
  refine iff_of_false ?_ (not_not.mpr ⟨long,all⟩)
  rintro ⟨k,other,_⟩
  rw [failsafeSkipUvint32,skip] at other
  cases other

theorem failsafe_disagree : failsafeReadUvint32 (fun _ => 0xFF) 0 5 = some (0xFFFFFFFF,5) ∧
    failsafeSkipUvint32 (fun _ => 0xFF) 0 5 = none ∧ ¬ Agrees (fun _ => 0xFF) 0 5 := by
  refine ⟨by decide,by decide,?_⟩
  rintro ⟨_,skip,_⟩
  have tripped : failsafeSkipUvint32 (fun _ => 0xFF) 0 5 = none := by decide
  rw [tripped] at skip
  cases skip

theorem failsafe_agree_three_hundred : Agrees (fun i => if i = 0 then 0xAC else 0x02) 0 9 ∧
    failsafeReadUvint32 (fun i => if i = 0 then 0xAC else 0x02) 0 9 = some (300,2) := by
  have both := failsafe_agree_iff (fun i => if i = 0 then 0xAC else 0x02) 0 9
  refine ⟨both.1.mpr ?_,(both.2 300 (by decide) (by decide) (by decide)).1⟩
  rintro ⟨_,all⟩
  exact absurd (all 1 (by decide)) (by decide)

end DbExp.Silo.Varint
