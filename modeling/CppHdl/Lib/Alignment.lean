import Mathlib.Data.BitVec

/-!
# Aligned addresses

An address space of words is cut into blocks of a power of two. The block of an
address is named by the address of its first byte, which clears the low bits;
blocks are spread over sets by the number of the block.
-/

namespace CppHdl

variable {w : Nat}

/-- Clearing the `k` low bits leads to the first address of the block. -/
theorem toNat_clearLow (a : BitVec w) {k : Nat} (hk : k ≤ w) :
    (a &&& ~~~BitVec.ofNat w (2 ^ k - 1)).toNat = a.toNat / 2 ^ k * 2 ^ k := by
  apply Nat.eq_of_testBit_eq
  intro j
  rw [Nat.testBit_mul_two_pow, ← BitVec.getLsbD]
  by_cases hkj : k ≤ j
  · -- above the cleared bits nothing changes
    rw [decide_eq_true hkj, Bool.true_and, Nat.testBit_div_two_pow, Nat.sub_add_cancel hkj]
    simp only [BitVec.getLsbD_and, BitVec.getLsbD_not, BitVec.getLsbD_ofNat,
      Nat.testBit_two_pow_sub_one, decide_eq_false (Nat.not_lt.mpr hkj), Bool.and_false,
      Bool.not_false, Bool.and_true]
    by_cases hjw : j < w
    · rw [decide_eq_true hjw, Bool.and_true]
      rfl
    · rw [decide_eq_false hjw, Bool.and_false]
      exact (Nat.testBit_lt_two_pow
        (lt_of_lt_of_le a.isLt (Nat.pow_le_pow_right (by decide) (Nat.not_lt.mp hjw)))).symm
  · rw [decide_eq_false hkj, Bool.false_and]
    have hjk : j < k := Nat.not_le.mp hkj
    simp only [BitVec.getLsbD_and, BitVec.getLsbD_not, BitVec.getLsbD_ofNat,
      Nat.testBit_two_pow_sub_one, decide_eq_true hjk, decide_eq_true (lt_of_lt_of_le hjk hk),
      Bool.and_true, Bool.not_true, Bool.and_false]

/-- The block is known by its place in the set and its set. -/
theorem div_eq_of_set_tag {a b block sets : Nat} (htag : a / (block * sets) = b / (block * sets))
    (hset : a / block % sets = b / block % sets) : a / block = b / block := by
  rw [← Nat.div_div_eq_div_mul, ← Nat.div_div_eq_div_mul] at htag
  rw [← Nat.div_add_mod (a / block) sets, ← Nat.div_add_mod (b / block) sets, htag, hset]

end CppHdl
