import Mathlib

namespace DbExp.Words
open List

-- A number in so many bytes, the lowest first; what does not fit is cut off.
def write : Nat → Nat → List UInt8
  | 0,_ => []
  | width+1,n => UInt8.ofNat n :: write width (n / 256)

-- Bytes that are not there count as zeros.
def read : Nat → List UInt8 → Nat
  | 0,_ => 0
  | _+1,[] => 0
  | width+1,byte :: rest => byte.toNat + 256 * read width rest

@[simp] theorem length_write (width n : Nat) : (write width n).length = width := by
  induction width generalizing n with
  | zero => rfl
  | succ width ih => rw [write,length_cons,ih]

@[simp] theorem drop_write (width n : Nat) (rest : List UInt8) : (write width n ++ rest).drop width = rest := by
  rw [drop_append_of_le_length (by simp),drop_of_length_le (by simp),nil_append]

theorem read_write (width n : Nat) (rest : List UInt8) : read width (write width n ++ rest) = n % 256 ^ width := by
  induction width generalizing n with
  | zero => simp [read,Nat.mod_one]
  | succ width ih =>
    have lowest : (UInt8.ofNat n).toNat = n % 256 := UInt8.toNat_ofNat'
    rw [write,cons_append,read,ih,lowest,Nat.pow_succ',Nat.mod_mul]

theorem read_write_of_lt (fits : n < 256 ^ width) (rest : List UInt8) : read width (write width n ++ rest) = n := by
  rw [read_write,Nat.mod_eq_of_lt fits]

theorem write_read (bytes rest : List UInt8) : write bytes.length (read bytes.length (bytes ++ rest)) = bytes := by
  induction bytes with
  | nil => rfl
  | cons byte bytes ih =>
    have small := byte.toNat_lt
    rw [length_cons,cons_append,read,write,Nat.add_mul_div_left _ _ (by decide),Nat.div_eq_of_lt small,Nat.zero_add,ih]
    congr 1
    apply UInt8.toNat_inj.mp
    rw [UInt8.toNat_ofNat']
    omega

end DbExp.Words
