import CppHdl.Analog.TrellisDecoder
import CppHdl.Lib.Circular
import CppHdl.Lib.PrefixAdder

/-!
# The comparisons of circular costs

The carry chains of the source compute the sign of a 21-bit difference: of two costs, or of
two candidates. A decoder with prepared differences computes the same sign from them.
-/

namespace CppHdl.Analog.Circular

section

variable (a b : BitVec 32)

theorem addMetric_eq : addMetric a b = (a + b) &&& 2097151 := by
  have hsum : (a ^^^ b) ^^^ ((PrefixAdder.shifts 5).foldl PrefixAdder.stage (a &&& b, a ^^^ b)).1 <<< 1 =
      a + b := PrefixAdder.xor_shiftLeft_eq (by decide)
  rw [← hsum]
  rfl

/-- A word without its bits above the circle. -/
abbrev cut (x : BitVec 32) : BitVec 21 := x.setWidth 21

theorem cut_add : cut (a + b) = cut a + cut b := BitVec.setWidth_add a b (by decide)

theorem cut_mask : cut (a &&& 2097151) = cut a := by
  apply BitVec.eq_of_toNat_eq
  have hmask : (a &&& 2097151).toNat = a.toNat % 2 ^ 21 := by
    rw [BitVec.toNat_and]
    exact Nat.and_two_pow_sub_one_eq_mod _ 21
  rw [BitVec.toNat_setWidth, BitVec.toNat_setWidth, hmask, Nat.mod_mod]

theorem cut_addMetric : cut (addMetric a b) = cut a + cut b := by
  rw [addMetric_eq, cut_mask, cut_add]

theorem bit_addMetric : (addMetric a b).getLsbD 20 = (cut a + cut b).msb := by
  rw [← cut_addMetric, cut, BitVec.msb_setWidth'']

end

theorem cut_setWidth {n : Nat} (x : BitVec n) : cut (x.setWidth 32) = x.setWidth 21 :=
  BitVec.setWidth_setWidth_of_le x (by decide)

theorem cut_neg (x : BitVec 32) : cut (-x) = -cut x := BitVec.setWidth_neg_of_le (by decide)

theorem cut_sub (x y : BitVec 32) : cut (x - y) = cut x - cut y := by
  rw [BitVec.sub_eq_add_neg, cut_add, cut_neg, BitVec.sub_eq_add_neg]

/-- A carry has no lowest bit, so that a one can be put there. -/
theorem shiftLeft_or_one (x : BitVec 32) : x <<< 1 ||| 1#32 = x <<< 1 + 1#32 := by
  refine (BitVec.add_eq_or_of_and_eq_zero _ _ ?_).symm
  apply BitVec.eq_of_getLsbD_eq
  intro i hi
  rw [BitVec.getLsbD_and, BitVec.getLsbD_shiftLeft]
  cases i <;> simp

/-- A carry-save stage with a one put in. -/
theorem compress_one (x y z : BitVec 32) :
    (compress x y z).1 + ((compress x y z).2 ||| 1#32) = x + y + z + 1#32 := by
  rw [PrefixAdder.carrySave x y z, BitVec.add_assoc]
  exact congrArg ((x ^^^ y ^^^ z) + ·) (shiftLeft_or_one _)

theorem not_eq (x : BitVec 32) : ~~~x = -x - 1#32 := by
  rw [BitVec.neg_eq_not_add, BitVec.add_sub_cancel]

section

variable (differenceIn : Nat → BitVec 21) (a b c d : BitVec 32) (s t : Fin 8) (v k : Bool)

/-- The comparison of sums is the sign of their difference. -/
theorem branchBetter_false : branchBetter false differenceIn a b c d s t v k =
    (v && (!k || (cut a + cut b - (cut c + cut d)).msb)) := by
  have htotal : a + b + ~~~c + 1#32 + ~~~d + 1#32 = a + b + -(c + d) := by
    rw [not_eq, not_eq]
    ring
  have hdef : branchBetter false differenceIn a b c d s t v k =
      let r := compress a b (~~~c)
      let r := compress r.1 (r.2 ||| 1#32) (~~~d)
      v && (!k || (addMetric r.1 (r.2 ||| 1#32)).getLsbD 20) := rfl
  rw [hdef]
  dsimp only
  rw [bit_addMetric, ← cut_add, compress_one, compress_one, htotal, cut_add, cut_add, cut_neg, cut_add,
    BitVec.sub_eq_add_neg]

theorem branchBetter_true (hdiff : differenceIn (differenceIndex s t) = cut b - cut d) :
    branchBetter true differenceIn a b c d s t v k = branchBetter false differenceIn a b c d s t v k := by
  have htotal : a + (differenceIn (differenceIndex s t)).setWidth 32 + ~~~c + 1#32 =
      a + (differenceIn (differenceIndex s t)).setWidth 32 + -c := by
    rw [not_eq]
    ring
  have hdef : branchBetter true differenceIn a b c d s t v k =
      let r := compress a ((differenceIn (differenceIndex s t)).setWidth 32) (~~~c)
      v && (!k || (addMetric r.1 (r.2 ||| 1#32)).getLsbD 20) := rfl
  rw [branchBetter_false, hdef]
  dsimp only
  rw [bit_addMetric, ← cut_add, compress_one, htotal, cut_add, cut_add, cut_neg, cut_setWidth,
    BitVec.setWidth_eq, hdiff]
  congr 3
  ring

end

/-- The comparison of costs is the sign of their difference. -/
theorem better_eq (x y : BitVec 21) (v k : Bool) :
    better (x.setWidth 32) (y.setWidth 32) v k = (v && (!k || (x - y).msb)) := by
  have hgroup : ∀ (z : BitVec 21) (n : Nat), (z.setWidth 32 >>> n &&& 31).toNat = z.toNat / 2 ^ n % 2 ^ 5 := by
    intro z n
    have hz := z.isLt
    rw [BitVec.toNat_and, BitVec.toNat_ushiftRight, BitVec.toNat_setWidth, Nat.mod_eq_of_lt (by omega),
      Nat.shiftRight_eq_div_pow]
    exact Nat.and_two_pow_sub_one_eq_mod _ 5
  have hlower : (List.range 4).foldl (fun lowerLess group =>
      decide (x.setWidth 32 >>> (group * 5) &&& 31 < y.setWidth 32 >>> (group * 5) &&& 31) ||
        (decide (x.setWidth 32 >>> (group * 5) &&& 31 = y.setWidth 32 >>> (group * 5) &&& 31) &&
          lowerLess)) false = CppHdl.Circular.lessDigits 5 x.toNat y.toNat 4 := by
    simp only [BitVec.lt_def, BitVec.toNat_eq, hgroup]
    rfl
  have htop : (x.setWidth 32 ^^^ y.setWidth 32).getLsbD 20 = (x.msb ^^ y.msb) := by
    rw [BitVec.getLsbD_xor, BitVec.getLsbD_setWidth, BitVec.getLsbD_setWidth, BitVec.msb_eq_getLsbD_last,
      BitVec.msb_eq_getLsbD_last]
    rfl
  unfold better
  rw [htop, hlower, CppHdl.Circular.lessDigits_eq, CppHdl.Circular.msb_sub_eq]

end CppHdl.Analog.Circular
