import Mathlib.Tactic

namespace DbExp.BitField

-- A 64-bit word cut into fields of `width` bits at `offset`, read and written with
-- shifts and masks. A write ORs its argument in, so one that is too wide for its
-- field spills into the next.
abbrev Word := BitVec 64

def mask (width : Nat) : Word := BitVec.ofNat 64 (2^width - 1)

def get (offset width : Nat) (v : Word) : Nat := ((v >>> offset) &&& mask width).toNat

def set (offset width : Nat) (v : Word) (x : Nat) : Word :=
  (v &&& ~~~(mask width <<< offset)) ||| (BitVec.ofNat 64 x <<< offset)

theorem mask_bit (width i : Nat) : (mask width).getLsbD i = (decide (i < 64) && decide (i < width)) := by
  rw [mask,BitVec.getLsbD_ofNat,Nat.testBit_two_pow_sub_one]

theorem get_bit (offset width : Nat) (v : Word) (i : Nat) :
    (get offset width v).testBit i = (v.getLsbD (offset + i) && decide (i < width)) := by
  unfold get
  rw [BitVec.testBit_toNat,BitVec.getLsbD_and,BitVec.getLsbD_ushiftRight,mask_bit]
  by_cases inside : i < 64
  · simp [inside]
  · rw [BitVec.getLsbD_of_ge v (offset + i) (by omega)]
    simp

theorem get_eq (offset width : Nat) (v : Word) : get offset width v = v.toNat / 2^offset % 2^width := by
  apply Nat.eq_of_testBit_eq
  intro i
  rw [get_bit,Nat.testBit_mod_two_pow,Nat.testBit_div_two_pow,BitVec.testBit_toNat,Bool.and_comm,Nat.add_comm]

theorem set_bit (offset width : Nat) (v : Word) (x i : Nat) :
    (set offset width v x).getLsbD i =
      (v.getLsbD i && !(decide (offset ≤ i) && decide (i < offset + width)) ||
        decide (i < 64) && decide (offset ≤ i) && x.testBit (i - offset)) := by
  unfold set
  by_cases inside : i < 64
  · have shifted : i - offset < 64 := by omega
    rw [BitVec.getLsbD_or,BitVec.getLsbD_and,BitVec.getLsbD_not,BitVec.getLsbD_shiftLeft,BitVec.getLsbD_shiftLeft,
      mask_bit,BitVec.getLsbD_ofNat]
    by_cases before : i < offset
    · have early : ¬ offset ≤ i := by omega
      simp [inside,before,early]
    have late : offset ≤ i := by omega
    have same : (i - offset < width) = (i < offset + width) := by
      apply propext; omega
    simp [inside,before,late,shifted,same]
  · rw [BitVec.getLsbD_of_ge _ _ (by omega),BitVec.getLsbD_of_ge v i (by omega)]
    simp [inside]

theorem testBit_small (small : x < 2^width) (far : width ≤ i) : x.testBit i = false :=
  Nat.testBit_lt_two_pow (lt_of_lt_of_le small (Nat.pow_le_pow_right (by omega) far))

theorem get_set (small : x < 2^width) (fits : offset + width ≤ 64) : get offset width (set offset width v x) = x := by
  apply Nat.eq_of_testBit_eq
  intro i
  rw [get_bit,set_bit]
  by_cases inside : i < width
  · have word : offset + i < 64 := by omega
    simp [inside,word]
  · simp [inside,testBit_small small (by omega : width ≤ i)]

theorem get_set_apart (small : x < 2^width) (apart : other + breadth ≤ offset ∨ offset + width ≤ other) :
    get other breadth (set offset width v x) = get other breadth v := by
  apply Nat.eq_of_testBit_eq
  intro i
  rw [get_bit,get_bit,set_bit]
  by_cases inside : i < breadth
  · rcases apart with _ | _
    · have outside : ¬ offset ≤ other + i := by omega
      simp [outside]
    · have outside : ¬ other + i < offset + width := by omega
      rw [testBit_small small (by omega : width ≤ other + i - offset)]
      simp [outside]
  · simp [inside]

theorem get_zero (offset width : Nat) : get offset width 0 = 0 := by simp [get]

end DbExp.BitField
