import Mathlib.Data.Nat.Bitwise

namespace DbExp.Silo

-- A transaction id packs, from the low end, the core that made it, a number and the epoch of
-- the commit. The source's words have 64 bits, which hold every id up to epoch 2 ^ 31 (`makeTid_lt`,
-- `computeReadOnlyTid_lt`); here they are Nat.
def coreBits : Nat := 9

def nBitsNumber : Nat := 24

def coreMask : Nat := 2 ^ coreBits - 1

def numIdShift : Nat := coreBits

def maxNumId : Nat := 2 ^ nBitsNumber - 1

def epochShift : Nat := coreBits + nBitsNumber

def minTid : Nat := 0

def makeTid (core num epoch : Nat) : Nat := core ||| num <<< numIdShift ||| epoch <<< epochShift

def epochId (tid : Nat) : Nat := tid >>> epochShift

def toReadOnlyTick (multiplier epoch : Nat) : Nat := epoch / multiplier

def computeReadOnlyTid (multiplier globalTick : Nat) : Nat :=
  let b := globalTick / multiplier * multiplier
  if b = 0 then makeTid 0 0 0 else makeTid coreMask maxNumId (b - 1)

theorem makeTid_eq (fits : core ≤ coreMask) (small : num ≤ maxNumId) :
    makeTid core num epoch = epoch * 2 ^ 33 + num * 2 ^ 9 + core := by
  have coreLess : core < 2 ^ 9 := by simp only [coreMask,coreBits] at fits; omega
  have numLess : num < 2 ^ 24 := by simp only [maxNumId,nBitsNumber] at small; omega
  have low : core ||| num <<< 9 = num * 2 ^ 9 + core := by
    rw [Nat.or_comm,← Nat.shiftLeft_add_eq_or_of_lt coreLess,Nat.shiftLeft_eq]
  have lowLess : num * 2 ^ 9 + core < 2 ^ 33 := by omega
  show (core ||| num <<< 9) ||| epoch <<< 33 = _
  rw [low,Nat.or_comm,← Nat.shiftLeft_add_eq_or_of_lt lowLess,Nat.shiftLeft_eq]
  omega

theorem makeTid_lt (fits : core ≤ coreMask) (small : num ≤ maxNumId) (early : epoch < 2 ^ 31) : makeTid core num epoch < 2 ^ 64 := by
  rw [makeTid_eq fits small]
  simp only [coreMask,coreBits] at fits
  simp only [maxNumId,nBitsNumber] at small
  omega

theorem computeReadOnlyTid_lt (early : globalTick ≤ 2 ^ 31) : computeReadOnlyTid multiplier globalTick < 2 ^ 64 := by
  have below := Nat.div_mul_le_self globalTick multiplier
  dsimp only [computeReadOnlyTid]
  split
  · exact makeTid_lt (Nat.zero_le _) (Nat.zero_le _) (by decide)
  · exact makeTid_lt le_rfl le_rfl (by omega)

theorem epochId_eq (tid : Nat) : epochId tid = tid / 2 ^ 33 := Nat.shiftRight_eq_div_pow tid 33

theorem epochId_makeTid (fits : core ≤ coreMask) (small : num ≤ maxNumId) : epochId (makeTid core num epoch) = epoch := by
  rw [epochId_eq,makeTid_eq fits small]
  simp only [coreMask,coreBits] at fits
  simp only [maxNumId,nBitsNumber] at small
  omega

theorem le_makeTid (early : epochId tid ≤ epoch) : tid ≤ makeTid coreMask maxNumId epoch := by
  rw [makeTid_eq le_rfl le_rfl]
  rw [epochId_eq] at early
  simp only [coreMask,coreBits,maxNumId,nBitsNumber]
  omega

theorem le_computeReadOnlyTid (elapsed : toReadOnlyTick multiplier (epochId tid) < globalTick / multiplier) :
    tid ≤ computeReadOnlyTid multiplier globalTick := by
  have early : epochId tid < globalTick / multiplier * multiplier := by
    have positive : 0 < multiplier := by
      rcases Nat.eq_zero_or_pos multiplier with rfl | positive
      · simp at elapsed
      · exact positive
    exact (Nat.div_lt_iff_lt_mul positive).mp elapsed
  dsimp only [computeReadOnlyTid]
  split
  · omega
  · exact le_makeTid (by omega)

end DbExp.Silo
