import Mathlib.Data.Nat.Digits.Lemmas

namespace DbExp.Calvin.TxnIds

-- What an int holds of a sum or a product that is computed in it.
def wrap (x : Int) : Int := (x + 2^31) % 2^32 - 2^31

def maxBatchSize : Nat := 200

-- Sequencer::RunWriter of one node: the batch number in its loop, round by round.
def batchNumber (nodes thisNodeId : Nat) : Nat → Int
  | 0 => wrap thisNodeId
  | round+1 => wrap (batchNumber nodes thisNodeId round + nodes)

-- A transaction of a run: the node it was given its id at, the round of that node, and the offset.
structure Slot where
  node : Nat
  round : Nat
  offset : Nat

def Slot.batch (nodes : Nat) (x : Slot) : Nat := x.node + x.round * nodes

def Slot.In (nodes rounds : Nat) (x : Slot) : Prop := x.node < nodes ∧ x.round < rounds ∧ x.offset < maxBatchSize

def Slot.Before (nodes : Nat) (x y : Slot) : Prop :=
  x.batch nodes < y.batch nodes ∨ x.batch nodes = y.batch nodes ∧ x.offset < y.offset

def txnId (nodes : Nat) (x : Slot) : Int := wrap (wrap (batchNumber nodes x.node x.round * maxBatchSize) + x.offset)

-- IntToString: the sign and the decimal digits of an int.
def intToString (n : Int) : Bool × List Nat := (decide (wrap n < 0),Nat.digits 10 (wrap n).natAbs)

structure Identify (nodes rounds : Nat) : Prop where
  increasing : ∀ x y, Slot.In nodes rounds x → Slot.In nodes rounds y → Slot.Before nodes x y → txnId nodes x < txnId nodes y
  distinct : ∀ x y, Slot.In nodes rounds x → Slot.In nodes rounds y → txnId nodes x = txnId nodes y → x = y
  sentinel : ∀ x, Slot.In nodes rounds x → txnId nodes x ≠ -1
  channels : ∀ x y, Slot.In nodes rounds x → Slot.In nodes rounds y →
    intToString (txnId nodes x) = intToString (txnId nodes y) → x = y

theorem batchNumber_eq (nodes node round : Nat) : batchNumber nodes node round = wrap (node + round * nodes : Nat) := by
  induction round with
  | zero => simp [batchNumber]
  | succ round ih =>
    rw [batchNumber,ih,Nat.succ_mul]
    unfold wrap
    omega

theorem txnId_eq (nodes : Nat) (x : Slot) : txnId nodes x = wrap (x.batch nodes * maxBatchSize + x.offset : Nat) := by
  rw [txnId,batchNumber_eq,Slot.batch]
  generalize x.node + x.round * nodes = batch
  unfold wrap maxBatchSize
  omega

theorem Slot.In.batch_lt (inside : Slot.In nodes rounds x) : x.batch nodes < nodes * rounds := by
  obtain ⟨node,round,_⟩ := inside
  calc x.node + x.round * nodes < nodes + x.round * nodes := Nat.add_lt_add_right node _
    _ = (x.round + 1) * nodes := by rw [Nat.succ_mul,Nat.add_comm]
    _ ≤ rounds * nodes := Nat.mul_le_mul_right _ round
    _ = nodes * rounds := Nat.mul_comm ..

-- The node and the round are the remainder and the quotient of the batch number.
theorem Slot.In.eq_of_batch (left : Slot.In nodes rounds x) (right : Slot.In nodes rounds y)
    (batch : x.batch nodes = y.batch nodes) (offset : x.offset = y.offset) : x = y := by
  have node : x.node = y.node := by
    have same := congrArg (· % nodes) batch
    simpa [Slot.batch,Nat.mod_eq_of_lt left.1,Nat.mod_eq_of_lt right.1] using same
  have round : x.round = y.round := by
    unfold Slot.batch at batch
    rw [node] at batch
    exact Nat.eq_of_mul_eq_mul_right (Nat.zero_lt_of_lt left.1) (Nat.add_left_cancel batch)
  cases x
  cases y
  simp_all

theorem Slot.exists_batch (nodes rounds b o : Nat) (inside : b < nodes * rounds) (fits : o < maxBatchSize) :
    ∃ x : Slot, x.In nodes rounds ∧ x.batch nodes = b ∧ x.offset = o := by
  have positive : 0 < nodes := Nat.pos_of_mul_pos_right (Nat.zero_lt_of_lt inside)
  refine ⟨⟨b % nodes,b / nodes,o⟩,⟨Nat.mod_lt _ positive,Nat.div_lt_of_lt_mul inside,fits⟩,?_,rfl⟩
  rw [Slot.batch,Nat.mul_comm]
  exact Nat.mod_add_div b nodes

theorem intToString_injective (same : intToString m = intToString n) : wrap m = wrap n := by
  obtain ⟨sign,digits⟩ := Prod.mk.inj same
  have size := Nat.digits_inj_iff.mp digits
  rw [decide_eq_decide] at sign
  omega

-- The first id that an int does not hold is the one at offset 48 of batch 10737418.
theorem ids_identify_iff (nodes rounds : Nat) : Identify nodes rounds ↔ nodes * rounds * maxBatchSize ≤ 2^31 := by
  constructor
  · intro identify
    by_contra long
    unfold maxBatchSize at long
    obtain ⟨x,first,none,start⟩ := Slot.exists_batch nodes rounds 0 0 (by omega) (by decide)
    obtain ⟨y,late,batch,offset⟩ := Slot.exists_batch nodes rounds 10737418 48 (by omega) (by decide)
    have less := identify.increasing x y first late (.inl (by omega))
    rw [txnId_eq,txnId_eq,none,start,batch,offset] at less
    unfold wrap maxBatchSize at less
    omega
  intro short
  have plain : ∀ x, Slot.In nodes rounds x → txnId nodes x = (x.batch nodes * maxBatchSize + x.offset : Nat) := by
    intro x inside
    have below := inside.batch_lt
    have offset := inside.2.2
    rw [txnId_eq]
    unfold wrap maxBatchSize at *
    omega
  have distinct : ∀ x y, Slot.In nodes rounds x → Slot.In nodes rounds y → txnId nodes x = txnId nodes y → x = y := by
    intro x y left right same
    rw [plain x left,plain y right] at same
    have fits := left.2.2
    have fits' := right.2.2
    unfold maxBatchSize at *
    exact left.eq_of_batch right (by omega) (by omega)
  refine ⟨?_,distinct,?_,?_⟩
  · intro x y left right before
    rw [plain x left,plain y right]
    have fits := left.2.2
    unfold Slot.Before at before
    unfold maxBatchSize at *
    omega
  · intro x inside
    rw [plain x inside]
    omega
  intro x y left right same
  refine distinct x y left right ?_
  have held := intToString_injective same
  rw [txnId_eq,txnId_eq] at held ⊢
  unfold wrap at *
  omega

theorem ids_turn_negative : ¬ Identify 1 10737419 := by
  intro identify
  have less := identify.increasing ⟨0,0,0⟩ ⟨0,10737418,48⟩ (by simp [Slot.In,maxBatchSize]) (by simp [Slot.In,maxBatchSize])
    (.inl (by simp [Slot.batch]))
  rw [txnId_eq,txnId_eq] at less
  simp [Slot.batch,wrap,maxBatchSize] at less

end DbExp.Calvin.TxnIds
