import Mathlib.Data.BitVec
import Mathlib.Tactic.Common

/-!
# Byte shift registers

A register of `n` bytes that is filled from below: byte zero is the newest.
-/

namespace CppHdl.ShiftRegister

variable {n : Nat}

def byteAt (x : BitVec (n * 8)) (i : Nat) : BitVec 8 := x.extractLsb' (i * 8) 8

def push (x : BitVec (n * 8)) (byte : BitVec 8) : BitVec (n * 8) := x <<< 8 ||| byte.setWidth (n * 8)

/-- The register after the bytes, newest first. -/
def load (bytes : List (BitVec 8)) : BitVec (n * 8) := bytes.foldr (fun byte x => push x byte) 0

@[simp] theorem load_nil : (load [] : BitVec (n * 8)) = 0 := rfl

@[simp] theorem load_cons (byte : BitVec 8) (bytes : List (BitVec 8)) :
    (load (byte :: bytes) : BitVec (n * 8)) = push (load bytes) byte := rfl

theorem byteAt_shiftLeft (x : BitVec (n * 8)) {i : Nat} (hi : i + 1 < n) :
    byteAt (x <<< 8) (i + 1) = byteAt x i := by
  apply BitVec.eq_of_getLsbD_eq
  intro bit hbit
  have hwidth : (i + 1) * 8 + bit < n * 8 := by omega
  have hge : ¬(i + 1) * 8 + bit < 8 := by omega
  have hsub : (i + 1) * 8 + bit - 8 = i * 8 + bit := by omega
  simp only [byteAt, BitVec.getLsbD_extractLsb', BitVec.getLsbD_shiftLeft, hbit, hwidth, hge, hsub,
    decide_true, decide_false, Bool.true_and, Bool.not_false]

theorem byteAt_push_zero (x : BitVec (n * 8)) (byte : BitVec 8) (hn : 0 < n) :
    byteAt (push x byte) 0 = byte := by
  apply BitVec.eq_of_getLsbD_eq
  intro bit hbit
  have hwidth : bit < n * 8 := by omega
  simp [byteAt, push, hbit, hwidth]

theorem byteAt_push_succ (x : BitVec (n * 8)) (byte : BitVec 8) {i : Nat} (hi : i + 1 < n) :
    byteAt (push x byte) (i + 1) = byteAt x i := by
  rw [← byteAt_shiftLeft x hi]
  apply BitVec.eq_of_getLsbD_eq
  intro bit hbit
  have hzero : byte.getLsbD ((i + 1) * 8 + bit) = false := BitVec.getLsbD_of_ge _ _ (by omega)
  simp [byteAt, push, hbit, hzero]

theorem byteAt_load (bytes : List (BitVec 8)) {i : Nat} (hi : i < n) :
    byteAt (load bytes : BitVec (n * 8)) i = bytes.getD i 0 := by
  induction bytes generalizing i with
  | nil => simp [byteAt]
  | cons byte bytes ih =>
    cases i with
    | zero => simpa using byteAt_push_zero _ _ hi
    | succ i =>
      rw [load_cons, byteAt_push_succ _ _ hi, ih (by omega)]
      simp

theorem byteAt_replace (x y : BitVec (n * 8)) {i k l : Nat} (hk : k < n) (hi : i < n) :
    byteAt (x &&& ~~~((255 : BitVec (n * 8)) <<< (k * 8)) |||
        (y >>> (l * 8) &&& 255) <<< (k * 8)) i =
      if i = k then byteAt y l else byteAt x i := by
  have hlow : ∀ bit, (255#(n * 8)).getLsbD bit = (decide (bit < n * 8) && decide (bit < 8)) := by
    intro bit
    rw [BitVec.getLsbD_ofNat]
    congr 1
    exact Nat.testBit_two_pow_sub_one 8 bit
  apply BitVec.eq_of_getLsbD_eq
  intro bit hbit
  have hwidth : i * 8 + bit < n * 8 := by omega
  simp only [byteAt, BitVec.ofNat_eq_ofNat, BitVec.getLsbD_extractLsb', BitVec.getLsbD_or,
    BitVec.getLsbD_and, BitVec.getLsbD_not, BitVec.getLsbD_shiftLeft, BitVec.getLsbD_ushiftRight,
    hlow, hbit, hwidth, decide_true, Bool.true_and]
  split
  · rename_i heq
    subst heq
    have hsub : i * 8 + bit - i * 8 = bit := by omega
    have hge : ¬i * 8 + bit < i * 8 := by omega
    simp [hsub, hge, hbit, show bit < n * 8 by omega]
  · rename_i hne
    have hout : i * 8 + bit < k * 8 ∨ ¬i * 8 + bit - k * 8 < 8 := by omega
    rcases hout with h | h <;> simp [h, hbit]

end CppHdl.ShiftRegister
