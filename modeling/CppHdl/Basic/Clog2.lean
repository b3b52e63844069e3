import Mathlib.Data.UInt
import Mathlib.Tactic.SplitIfs

/-!
# Widths of indices

`clog2` takes an `unsigned`: of a larger parameter it sees the low 32 bits. Up to
2^32 cells it is wide enough for an index.
-/

namespace CppHdl.Basic

/-- `flog2` of a number that is not zero; it does not terminate on zero. -/
def flog2 (x : UInt32) : Nat := x.toNat.log2

def clog2 (x : UInt32) : Nat := if x = 1 then 0 else flog2 (x - 1) + 1

theorem toNat_pred {n : Nat} (hpos : 0 < n) (h : n ≤ 2 ^ 32) :
    (UInt32.ofNat n - 1).toNat = n - 1 := by
  rw [UInt32.toNat_sub, UInt32.toNat_ofNat', UInt32.toNat_one]
  omega

/-- The indices of `n` cells fit. -/
theorem le_two_pow_clog2 {n : Nat} (hpos : 0 < n) (h : n ≤ 2 ^ 32) :
    n ≤ 2 ^ clog2 (UInt32.ofNat n) := by
  unfold clog2 flog2
  split_ifs with hone
  · have := congrArg UInt32.toNat hone
    rw [UInt32.toNat_ofNat', UInt32.toNat_one] at this
    omega
  · have hlog := @Nat.lt_log2_self (n - 1)
    rw [toNat_pred hpos h]
    omega

theorem clog2_le (x : UInt32) : clog2 x ≤ 32 := by
  unfold clog2 flog2
  split_ifs
  · exact Nat.zero_le _
  · rcases Nat.eq_zero_or_pos (x - 1).toNat with hzero | hpos
    · rw [hzero]
      decide
    · exact (Nat.log2_lt hpos.ne').mpr (UInt32.toNat_lt _)

/-- The indices of a power of two use all of the width. -/
theorem clog2_two_pow {k : Nat} (hk : k ≤ 32) : clog2 (UInt32.ofNat (2 ^ k)) = k := by
  have hpow : 2 ^ k ≤ 2 ^ 32 := Nat.pow_le_pow_right (by decide) hk
  unfold clog2 flog2
  rw [toNat_pred (Nat.two_pow_pos k) hpow]
  split_ifs with hone
  · have := congrArg UInt32.toNat hone
    rw [UInt32.toNat_ofNat', UInt32.toNat_one] at this
    have hle : 2 ^ k ≤ 1 := by
      generalize 2 ^ k = n at this hpow
      omega
    have hlt := @Nat.lt_two_pow_self k
    omega
  · rcases k with _ | k
    · exact absurd rfl hone
    · have hpos := @Nat.one_le_two_pow k
      have hlog : (2 ^ (k + 1) - 1).log2 = k :=
        (Nat.log2_eq_iff (by omega)).mpr ⟨by omega, by omega⟩
      rw [hlog]

end CppHdl.Basic
