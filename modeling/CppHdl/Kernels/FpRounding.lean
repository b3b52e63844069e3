import CppHdl.Kernels.FpConvertBits
import CppHdl.Lib.FloatFormat

/-!
# Rounding between floating point formats

What `convert` returns for a finite number is the rounding to nearest even of its
exact value, with infinity above the largest finite code. Infinities and NaNs stay
so, and a number that a wider format holds comes back from it unchanged.
-/

namespace CppHdl.Kernels

/-- What the template admits. -/
structure FpFormat extends FloatFormat where
  width_le : toFloatFormat.width ≤ 64
  expWidth_le : expWidth ≤ 11
  mantWidth_le : mantWidth ≤ 52

theorem FpFormat.mantWidth_eq (f : FpFormat) : f.width - f.expWidth - 1 = f.mantWidth := by
  unfold FloatFormat.width
  omega

namespace FpFormatConversion

open FloatFormat

/-! ## The highest one -/

/-- `y` has a one wherever `x` has one among the `w` bits from there on. -/
def Smeared (x w y : Nat) : Prop := ∀ i, y.testBit i ↔ ∃ j < w, x.testBit (i + j)

theorem Smeared.double {x w y : Nat} (h : Smeared x w y) : Smeared x (w + w) (y ||| y >>> w) := by
  intro i
  rw [Nat.testBit_or, Nat.testBit_shiftRight, Bool.or_eq_true, h i, h (w + i)]
  constructor
  · rintro (⟨j, hj, hx⟩ | ⟨j, hj, hx⟩)
    · exact ⟨j, by omega, hx⟩
    · exact ⟨w + j, by omega, by rwa [show i + (w + j) = w + i + j by omega]⟩
  · rintro ⟨j, hj, hx⟩
    rcases Nat.lt_or_ge j w with hlow | hhigh
    · exact Or.inl ⟨j, hlow, hx⟩
    · exact Or.inr ⟨j - w, by omega, by rwa [show w + i + (j - w) = i + j by omega]⟩

/-- The shifts and ors leave the highest one. -/
theorem leadingOne_eq {m : Nat} (hm : m ≠ 0) (hlt : m < 2 ^ 64) : leadingOne m = 2 ^ m.log2 := by
  have hone : Smeared m 1 m := fun i =>
    ⟨fun h => ⟨0, Nat.one_pos, h⟩, fun ⟨j, hj, h⟩ => by
      obtain rfl : j = 0 := by omega
      exact h⟩
  obtain ⟨y, hy, hlead⟩ : ∃ y, Smeared m 64 y ∧ leadingOne m = y ^^^ y >>> 1 :=
    ⟨_, hone.double.double.double.double.double.double, rfl⟩
  have hbits : ∀ i, y.testBit i = decide (i ≤ m.log2) := fun i => by
    rw [Bool.eq_iff_iff, hy i, decide_eq_true_eq]
    constructor
    · rintro ⟨j, -, hj⟩
      have := (Nat.le_log2 hm).mpr (Nat.ge_two_pow_of_testBit hj)
      omega
    · intro hi
      have hlog := (Nat.log2_lt hm).mpr hlt
      exact ⟨m.log2 - i, by omega, by rw [Nat.add_sub_cancel' hi]; exact Nat.testBit_log2 hm⟩
  rw [hlead]
  apply Nat.eq_of_testBit_eq
  intro i
  rw [Nat.testBit_xor, Nat.testBit_shiftRight, hbits, hbits, Nat.testBit_two_pow]
  rcases Nat.lt_trichotomy i m.log2 with h | h | h
  · simp [h.le, h.ne', show 1 + i ≤ m.log2 by omega]
  · simp [h]
  · simp [h.ne, show ¬ i ≤ m.log2 by omega, show ¬ 1 + i ≤ m.log2 by omega]

theorem oneIndex_two_pow : ∀ k < 64, oneIndex (2 ^ k) = k := by decide +kernel

/-! ## The shifted significand -/

theorem retain_right {S k : Nat} (hk : k ≠ 0) (hlt : k < 64) :
    retain S k = roundDiv S (2 ^ k) := by
  obtain ⟨j, rfl⟩ := Nat.exists_eq_succ_of_ne_zero hk
  have hpred : ((j.succ : Nat) - 1 : Int).toNat = j := by omega
  have hpow : 2 ^ j.succ = 2 ^ j * 2 := Nat.pow_succ ..
  unfold retain roundDiv
  rw [if_neg (by omega), if_pos (by omega), hpred]
  simp only [Int.toNat_natCast, Nat.one_shiftLeft, Nat.and_two_pow_sub_one_eq_mod,
    Nat.shiftRight_eq_div_pow]
  have hup : (2 ^ j < S % 2 ^ j.succ ∨ S % 2 ^ j.succ = 2 ^ j ∧ S / 2 ^ j.succ % 2 = 1) ↔
      (2 ^ j.succ < 2 * (S % 2 ^ j.succ) ∨
        2 * (S % 2 ^ j.succ) = 2 ^ j.succ ∧ S / 2 ^ j.succ % 2 = 1) := by
    omega
  exact if_congr hup rfl rfl

theorem retain_far {S k : Nat} (hS : S < 2 ^ 63) (hk : 64 ≤ k) :
    retain S k = roundDiv S (2 ^ k) := by
  have hpow : 2 ^ 64 ≤ 2 ^ k := Nat.pow_le_pow_right (by decide) hk
  unfold retain roundDiv
  rw [if_neg (by omega), if_neg (by omega), Nat.mod_eq_of_lt (by omega),
    Nat.div_eq_of_lt (by omega), if_neg (by omega)]

theorem retain_spec {S : Nat} {shift : Int} (hS : S < 2 ^ 63)
    (hleft : ∀ k : Nat, shift = -k → S * 2 ^ k < 2 ^ 64) :
    NearestEven (Nat.cast : Nat → ℚ) (S * 2 ^ (-shift)) (retain S shift) := by
  rcases le_or_gt shift 0 with hsign | hsign
  · obtain ⟨k, rfl⟩ : ∃ k : Nat, shift = -k := ⟨(-shift).toNat, by omega⟩
    have hretain : retain S (-(k : Int)) = S * 2 ^ k := by
      unfold retain u64
      rw [if_pos (by omega), neg_neg, Int.toNat_natCast, Nat.shiftLeft_eq,
        Nat.mod_eq_of_lt (hleft k rfl)]
    have hvalue : (S : ℚ) * 2 ^ (- -(k : ℤ)) = (S * 2 ^ k : Nat) := by
      rw [neg_neg, zpow_natCast]
      push_cast
      rfl
    rw [hretain, hvalue]
    exact NearestEven.exact Nat.strictMono_cast _
  · obtain ⟨k, rfl⟩ := Int.eq_ofNat_of_zero_le hsign.le
    have hretain : retain S (k : Int) = roundDiv S (2 ^ k) := by
      rcases Nat.lt_or_ge k 64 with hlt | hge
      · exact retain_right (by omega) hlt
      · exact retain_far hS hge
    have hvalue : (S : ℚ) * 2 ^ (-(k : ℤ)) = S / (2 ^ k : Nat) := by
      rw [zpow_neg, zpow_natCast, div_eq_mul_inv]
      push_cast
      rfl
    rw [hretain, hvalue]
    exact nearestEven_div (Nat.two_pow_pos k)

/-! ## From the normalized significand on -/

/-- The end of `magnitude`. -/
def assemble (mantWidth outMantWidth outExpMax significand : Nat) (outputExponent : Int) : Nat :=
  if (outExpMax : Int) ≤ outputExponent then outExpMax <<< outMantWidth
  else
    let retained := retain significand ((mantWidth : Int) - outMantWidth +
      if outputExponent ≤ 0 then 1 - outputExponent else 0)
    let carried := ¬ outputExponent ≤ 0 ∧ 1 <<< (outMantWidth + 1) ≤ retained
    let rounded := if carried then retained >>> 1 else retained
    let exponent : Int :=
      if outputExponent ≤ 0 then if 1 <<< outMantWidth ≤ retained then 1 else 0
      else if carried then outputExponent + 1 else outputExponent
    if (outExpMax : Int) ≤ exponent then outExpMax <<< outMantWidth
    else exponent.toNat <<< outMantWidth ||| (rounded &&& (1 <<< outMantWidth - 1))

section Assemble

variable {ms md expMax S : Nat} {oe : Int}

/-- Below the normal numbers the retained bits are the code. -/
theorem assemble_small (hexp : 0 < expMax) (hoe : oe ≤ 0)
    (hle : retain S (ms - md + (1 - oe)) ≤ 2 ^ md) :
    assemble ms md expMax S oe = min (retain S (ms - md + (1 - oe))) (expMax * 2 ^ md) := by
  have hpos := Nat.two_pow_pos md
  have hone := Nat.le_mul_of_pos_left (2 ^ md) hexp
  unfold assemble
  simp only [hoe, if_true, not_true_eq_false, false_and, if_false, Nat.one_shiftLeft,
    Nat.and_two_pow_sub_one_eq_mod]
  generalize retain S (ms - md + (1 - oe)) = R at hle ⊢
  rw [if_neg (by omega), Nat.min_eq_left (hle.trans hone)]
  by_cases hfull : 2 ^ md ≤ R
  · obtain rfl : R = 2 ^ md := le_antisymm hle hfull
    rw [if_pos le_rfl, Nat.mod_self, Nat.or_zero, Nat.shiftLeft_eq, Nat.shiftLeft_eq]
    split_ifs with hinf
    · obtain rfl : expMax = 1 := by omega
      rw [Nat.one_mul]
    · exact Nat.one_mul _
  · rw [if_neg hfull, if_neg (by omega), Nat.mod_eq_of_lt (not_le.mp hfull)]
    rw [fields_or (not_le.mp hfull), Int.toNat_zero, Nat.zero_mul, Nat.zero_add]

/-- A carry out of the significand steps into the next exponent. -/
theorem assemble_normal {k : Nat} (hlo : 2 ^ md ≤ retain S (ms - md : Int))
    (hhi : retain S (ms - md : Int) ≤ 2 ^ md * 2) :
    assemble ms md expMax S (k + 1 : Nat) =
      min (k * 2 ^ md + retain S (ms - md : Int)) (expMax * 2 ^ md) := by
  have hpos := Nat.two_pow_pos md
  have hoe : ¬ ((k + 1 : Nat) : Int) ≤ 0 := by omega
  unfold assemble
  simp only [hoe, not_false_eq_true, true_and, if_false, Nat.one_shiftLeft,
    Nat.and_two_pow_sub_one_eq_mod, add_zero, Nat.pow_succ, Nat.shiftLeft_eq expMax]
  generalize retain S (ms - md : Int) = R at hlo hhi ⊢
  by_cases hover : expMax ≤ k + 1
  · have hbig : expMax * 2 ^ md ≤ k * 2 ^ md + R :=
      (Nat.mul_le_mul_right _ hover).trans (by rw [Nat.succ_mul]; omega)
    rw [if_pos (by omega), Nat.min_eq_right hbig]
  rw [if_neg (by omega)]
  by_cases hcarry : 2 ^ md * 2 ≤ R
  · obtain rfl : R = 2 ^ md * 2 := le_antisymm hhi hcarry
    have hcode : k * 2 ^ md + 2 ^ md * 2 = (k + 2) * 2 ^ md := by ring
    simp only [if_pos, le_refl, hcode]
    split_ifs with hinf
    · exact (Nat.min_eq_right (Nat.mul_le_mul_right _ (by omega))).symm
    · rw [Nat.min_eq_left (Nat.mul_le_mul_right _ (by omega)), Nat.shiftRight_eq_div_pow,
        Nat.pow_one, Nat.mul_div_cancel _ (by decide), Nat.mod_self, Nat.or_zero, Nat.shiftLeft_eq]
      rfl
  · obtain ⟨r, rfl⟩ := Nat.exists_eq_add_of_le hlo
    have hr : r < 2 ^ md := by omega
    have hcode : k * 2 ^ md + (2 ^ md + r) = (k + 1) * 2 ^ md + r := by ring
    have hfits : (k + 1) * 2 ^ md + r ≤ expMax * 2 ^ md :=
      le_trans (by rw [Nat.succ_mul (k + 1)]; omega)
        (Nat.mul_le_mul_right _ (by omega : (k + 1).succ ≤ expMax))
    rw [if_neg hcarry, if_neg hcarry, if_neg (by omega), hcode, Nat.min_eq_left hfits,
      Nat.add_mod_left, Nat.mod_eq_of_lt hr]
    exact fields_or hr

variable {d : FpFormat}

/-- The shift loses no bit to the left. -/
theorem retain_nearest (hS' : S < 2 ^ (ms + 1)) (hms : ms ≤ 52) {shift : Int}
    (hshift : (ms : Int) - d.mantWidth ≤ shift) :
    NearestEven (Nat.cast : Nat → ℚ) (S * 2 ^ (-shift)) (retain S shift) := by
  have hmd : d.mantWidth ≤ 52 := d.mantWidth_le
  have hbits : ∀ n ≤ 53, S < 2 ^ n → S < 2 ^ 63 := fun n hn h =>
    h.trans_le (Nat.pow_le_pow_right (by decide) (by omega))
  refine retain_spec (hbits (ms + 1) (by omega) hS') fun k hk => ?_
  calc S * 2 ^ k < 2 ^ (ms + 1) * 2 ^ k := Nat.mul_lt_mul_of_pos_right hS' (Nat.two_pow_pos k)
    _ = 2 ^ (ms + 1 + k) := (Nat.pow_add ..).symm
    _ ≤ 2 ^ 64 := Nat.pow_le_pow_right (by decide) (by omega)

/-- A significand among the powers of two. -/
theorem shifted_bounds (hS : 2 ^ ms ≤ S) (hS' : S < 2 ^ (ms + 1)) (t : Int) :
    (2 : ℚ) ^ (ms + t : ℤ) ≤ S * 2 ^ t ∧ (S : ℚ) * 2 ^ t ≤ 2 ^ (ms + 1 + t : ℤ) := by
  have hlo : (2 : ℚ) ^ (ms : ℤ) ≤ S := by
    rw [zpow_natCast]
    exact_mod_cast hS
  have hhi : (S : ℚ) ≤ 2 ^ (ms + 1 : ℤ) := by
    rw [show (ms + 1 : ℤ) = (ms + 1 : Nat) by push_cast; rfl, zpow_natCast]
    exact_mod_cast hS'.le
  have hpos : (0 : ℚ) < 2 ^ t := zpow_pos two_pos _
  rw [zpow_add₀ two_ne_zero, zpow_add₀ two_ne_zero]
  exact ⟨mul_le_mul_of_nonneg_right hlo hpos.le, mul_le_mul_of_nonneg_right hhi hpos.le⟩

/-- What is put together is the number rounded to nearest even. -/
theorem assemble_rounded (hS : 2 ^ ms ≤ S) (hS' : S < 2 ^ (ms + 1)) (hms : ms ≤ 52) :
    d.Rounded (S * 2 ^ (oe - d.bias - ms : ℤ)) (assemble ms d.mantWidth d.expMax S oe) := by
  have hexp : 0 < d.expMax := by
    rw [FloatFormat.expMax_eq]
    omega
  have hnonneg : ∀ t : ℤ, (0 : ℚ) ≤ S * 2 ^ t := fun t =>
    mul_nonneg (Nat.cast_nonneg S) (zpow_pos two_pos t).le
  rcases le_or_gt oe 0 with hsign | hsign
  · have hnear := retain_nearest hS' hms (by omega : (ms : Int) - d.mantWidth ≤
      ms - d.mantWidth + (1 - oe))
    have htop : (S : ℚ) * 2 ^ (-(ms - d.mantWidth + (1 - oe)) : ℤ) ≤ 2 ^ d.mantWidth := by
      refine (shifted_bounds hS hS' _).2.trans ?_
      rw [← zpow_natCast]
      exact zpow_le_zpow_right₀ one_le_two (by omega)
    have hle := hnear.le (k := 2 ^ d.mantWidth) Nat.strictMono_cast (by push_cast; exact htop)
    have hround := nearestEven_value (f := d.toFloatFormat) hnear (hnonneg _) (Or.inl rfl)
      (htop.trans (pow_le_pow_right₀ one_le_two (Nat.le_succ _)))
    rw [Nat.zero_mul, Nat.zero_add] at hround
    refine ⟨_, ?_, assemble_small hexp hsign hle⟩
    convert hround using 1
    unfold unit
    rw [pow_zero, mul_one, mul_assoc, ← zpow_add₀ two_ne_zero]
    congr 2
    ring
  · obtain ⟨k, rfl⟩ : ∃ k : Nat, oe = (k + 1 : Nat) := ⟨(oe - 1).toNat, by omega⟩
    have hnear := retain_nearest hS' hms (le_refl ((ms : Int) - d.mantWidth))
    obtain ⟨hbottom, htop⟩ := shifted_bounds hS hS' (-(ms - d.mantWidth))
    rw [show (ms + -(ms - d.mantWidth) : ℤ) = d.mantWidth by ring, zpow_natCast] at hbottom
    rw [show (ms + 1 + -(ms - d.mantWidth) : ℤ) = (d.mantWidth + 1 : Nat) by push_cast; ring,
      zpow_natCast] at htop
    have hlo := hnear.ge (k := 2 ^ d.mantWidth) Nat.strictMono_cast (by push_cast; exact hbottom)
    have hhi := hnear.le (k := 2 ^ (d.mantWidth + 1)) Nat.strictMono_cast (by push_cast; exact htop)
    have hround := nearestEven_value (c := k) hnear (hnonneg _) (Or.inr hbottom) htop
    refine ⟨_, ?_, assemble_normal hlo hhi⟩
    convert hround using 1
    unfold unit
    rw [mul_assoc, mul_assoc, ← zpow_natCast, ← zpow_add₀ two_ne_zero, ← zpow_add₀ two_ne_zero]
    congr 2
    push_cast
    ring

end Assemble

/-! ## The fields -/

variable (s d : FpFormat)

/-- The exponent and the significand from which `magnitude` goes on. -/
def normalized (E : Nat) : Nat × Int :=
  let e := E / 2 ^ s.mantWidth
  let m := E % 2 ^ s.mantWidth
  let n := if e ≠ 0 then 0 else s.mantWidth - oneIndex (leadingOne m)
  (if e ≠ 0 then m ||| 1 <<< s.mantWidth else u64 (m <<< n),
    (if e ≠ 0 then e else 1 : Nat) - (s.bias : Nat) + (d.bias : Nat) - n)

theorem magnitude_eq (v : Nat) (keep : Bool) :
    magnitude v s.width s.expWidth d.width d.expWidth true keep =
      if s.code v / 2 ^ s.mantWidth = s.expMax then d.expMax <<< d.mantWidth |||
        payload (s.code v % 2 ^ s.mantWidth) s.mantWidth d.mantWidth keep
      else if s.code v = 0 then 0
      else assemble s.mantWidth d.mantWidth d.expMax (normalized s d (s.code v)).1
        (normalized s d (s.code v)).2 := by
  obtain ⟨hexponent, hmantissa⟩ := s.fields v
  have hzero : s.code v = 0 ↔ s.code v / 2 ^ s.mantWidth = 0 ∧ s.code v % 2 ^ s.mantWidth = 0 := by
    constructor
    · intro h
      rw [h, Nat.zero_div, Nat.zero_mod]
      exact ⟨rfl, rfl⟩
    · rintro ⟨hdiv, hmod⟩
      rw [← Nat.div_add_mod (s.code v) (2 ^ s.mantWidth), hdiv, hmod, Nat.mul_zero]
  unfold magnitude assemble normalized expMax bias
  simp only [FpFormat.mantWidth_eq, Nat.one_shiftLeft, hexponent, hmantissa, not_true_eq_false,
    or_false, and_false, if_false, hzero]

variable {s d}

/-- A subnormal significand is shifted until its highest one is in front. -/
theorem shifted_subnormal {m k : Nat} (hm : m ≠ 0) (hlt : m < 2 ^ k) (hk : k ≤ 52) :
    oneIndex (leadingOne m) < k ∧ 2 ^ k ≤ m * 2 ^ (k - oneIndex (leadingOne m)) ∧
      m * 2 ^ (k - oneIndex (leadingOne m)) < 2 ^ (k + 1) := by
  have hlog : m.log2 < k := (Nat.log2_lt hm).mpr hlt
  have hword : m < 2 ^ 64 := hlt.trans_le (Nat.pow_le_pow_right (by decide) (by omega))
  rw [leadingOne_eq hm hword, oneIndex_two_pow _ (by omega)]
  exact ⟨hlog, shift_bounds hm (hlt.trans (Nat.pow_lt_pow_right one_lt_two (Nat.lt_succ_self k)))⟩

theorem normalized_spec {E : Nat} (hE : E ≠ 0) :
    2 ^ s.mantWidth ≤ (normalized s d E).1 ∧ (normalized s d E).1 < 2 ^ (s.mantWidth + 1) ∧
      s.value E = (normalized s d E).1 * 2 ^ ((normalized s d E).2 - d.bias - s.mantWidth : ℤ) := by
  have hpos := Nat.two_pow_pos s.mantWidth
  have hms : s.mantWidth ≤ 52 := s.mantWidth_le
  have hrest : E % 2 ^ s.mantWidth < 2 ^ s.mantWidth := Nat.mod_lt _ hpos
  unfold normalized value
  dsimp only
  by_cases hsub : E / 2 ^ s.mantWidth = 0
  · have hm : E % 2 ^ s.mantWidth ≠ 0 := by
      rw [Nat.mod_eq_of_lt ((Nat.div_eq_zero_iff_lt hpos).mp hsub)]
      exact hE
    obtain ⟨hindex, hlo, hhi⟩ := shifted_subnormal hm hrest hms
    generalize E % 2 ^ s.mantWidth = m at hlo hhi hindex ⊢
    generalize oneIndex (leadingOne m) = L at hlo hhi hindex ⊢
    have hword : m * 2 ^ (s.mantWidth - L) < 2 ^ 64 :=
      hhi.trans_le (Nat.pow_le_pow_right (by decide) (by omega))
    simp only [hsub, ne_eq, not_true_eq_false, if_false, if_true, u64, Nat.shiftLeft_eq,
      Nat.mod_eq_of_lt hword]
    refine ⟨hlo, hhi, ?_⟩
    push_cast
    rw [mul_assoc, ← zpow_natCast, ← zpow_add₀ two_ne_zero, Nat.cast_sub hindex.le]
    congr 2
    ring
  · generalize E % 2 ^ s.mantWidth = m at hrest ⊢
    have hor : m ||| 1 <<< s.mantWidth = 2 ^ s.mantWidth + m := by
      rw [Nat.one_shiftLeft, Nat.or_comm, hidden_or hrest]
    simp only [hsub, ne_eq, not_false_eq_true, if_false, if_true, hor]
    refine ⟨Nat.le_add_right _ _, by rw [Nat.pow_succ]; omega, ?_⟩
    congr 2
    push_cast
    ring

/-! ## The special codes -/

theorem payload_lt {m : Nat} (hm : m < 2 ^ s.mantWidth) (keep : Bool) :
    payload m s.mantWidth d.mantWidth keep < 2 ^ d.mantWidth := by
  have hone : 1 < 2 ^ d.mantWidth := Nat.one_lt_two_pow d.mantWidth_pos.ne'
  have hmoved : (if s.mantWidth ≤ d.mantWidth then u64 (m <<< (d.mantWidth - s.mantWidth))
      else m >>> (s.mantWidth - d.mantWidth)) < 2 ^ d.mantWidth := by
    split_ifs with hle
    · refine (Nat.mod_le _ _).trans_lt ?_
      calc m <<< (d.mantWidth - s.mantWidth) = m * 2 ^ (d.mantWidth - s.mantWidth) :=
            Nat.shiftLeft_eq ..
        _ < 2 ^ s.mantWidth * 2 ^ (d.mantWidth - s.mantWidth) :=
            Nat.mul_lt_mul_of_pos_right hm (Nat.two_pow_pos _)
        _ = 2 ^ d.mantWidth := by rw [← Nat.pow_add, Nat.add_sub_cancel' hle]
    · rw [Nat.shiftRight_eq_div_pow, Nat.div_lt_iff_lt_mul (Nat.two_pow_pos _), ← Nat.pow_add,
        Nat.add_sub_cancel' (by omega)]
      exact hm
  unfold payload
  dsimp only
  generalize (if s.mantWidth ≤ d.mantWidth then u64 (m <<< (d.mantWidth - s.mantWidth))
    else m >>> (s.mantWidth - d.mantWidth)) = moved at hmoved ⊢
  split_ifs
  · exact hone
  · exact hmoved
  · exact hone
  · exact Nat.two_pow_pos _

theorem payload_pos {m : Nat} (hne : m ≠ 0) (keep : Bool) :
    0 < payload m s.mantWidth d.mantWidth keep := by
  unfold payload
  dsimp only
  generalize (if s.mantWidth ≤ d.mantWidth then u64 (m <<< (d.mantWidth - s.mantWidth))
    else m >>> (s.mantWidth - d.mantWidth)) = moved
  rw [if_pos hne]
  split_ifs <;> omega

/-- The result of `magnitude` for every class of codes. -/
theorem magnitude_spec (s d : FpFormat) (v : Nat) (keep : Bool) :
    let r := magnitude v s.width s.expWidth d.width d.expWidth true keep
    (s.code v < s.infinity → d.Rounded (s.value (s.code v)) r) ∧
      (s.infinity ≤ s.code v → r = d.infinity +
        payload (s.code v % 2 ^ s.mantWidth) s.mantWidth d.mantWidth keep) := by
  intro r
  have heq := magnitude_eq s d v keep
  refine ⟨fun hfinite => ?_, fun hspecial => ?_⟩
  · rw [if_neg (fun h => absurd (infinity_le_iff.mp h) (not_le.mpr hfinite))] at heq
    by_cases hzero : s.code v = 0
    · rw [if_pos hzero] at heq
      refine ⟨0, ?_, by rw [Nat.zero_min]; exact heq⟩
      have hvalue : ∀ f : FpFormat, f.value 0 = 0 := fun f => by simp [value]
      rw [hzero, hvalue, ← hvalue d]
      exact NearestEven.exact value_strictMono 0
    · rw [if_neg hzero] at heq
      obtain ⟨hlo, hhi, hvalue⟩ := normalized_spec (d := d) hzero
      rw [hvalue, show r = _ from heq]
      exact assemble_rounded hlo hhi s.mantWidth_le
  · rw [if_pos (infinity_le_iff.mpr hspecial)] at heq
    rw [show r = _ from heq]
    exact fields_or (payload_lt (Nat.mod_lt _ (Nat.two_pow_pos s.mantWidth)) keep)

/-! ## Whole words -/

theorem magnitude_lt (s d : FpFormat) (v : Nat) (keep : Bool) :
    magnitude v s.width s.expWidth d.width d.expWidth true keep < 2 ^ (d.width - 1) := by
  obtain ⟨hfinite, hspecial⟩ := magnitude_spec s d v keep
  rcases Nat.lt_or_ge (s.code v) s.infinity with h | h
  · obtain ⟨n, -, hn⟩ := hfinite h
    rw [hn]
    exact (Nat.min_le_right _ _).trans_lt (infinity_add_lt (Nat.two_pow_pos _))
  · rw [hspecial h]
    exact infinity_add_lt (payload_lt (Nat.mod_lt _ (Nat.two_pow_pos s.mantWidth)) keep)

/-- The sign of the source and the magnitude. -/
theorem convert_eq (s d : FpFormat) (v : Nat) (keep : Bool) :
    let r := convert v s.width s.expWidth d.width d.expWidth true keep
    r < 2 ^ d.width ∧ d.negative r = s.negative v ∧
      d.code r = magnitude v s.width s.expWidth d.width d.expWidth true keep := by
  intro r
  have hlt := magnitude_lt s d v keep
  have hr : r = 2 ^ (d.width - 1) * (s.negative v).toNat +
      magnitude v s.width s.expWidth d.width d.expWidth true keep := by
    have hsign : v >>> (s.width - 1) &&& 1 = (s.negative v).toNat := by
      unfold negative
      rw [Nat.toNat_testBit, Nat.and_one_is_mod, Nat.shiftRight_eq_div_pow]
    unfold r convert
    dsimp only
    rw [hsign, Nat.shiftLeft_eq, Nat.mul_comm (Bool.toNat _), ← Nat.two_pow_add_eq_or_of_lt hlt]
  have hbool : (s.negative v).toNat < 2 := Bool.toNat_lt _
  rw [hr]
  refine ⟨?_, ?_, ?_⟩
  · rw [d.width_eq, Nat.pow_succ, ← d.width_eq]
    nlinarith
  · unfold negative
    rw [Nat.testBit_two_pow_mul_add _ hlt, if_neg (lt_irrefl _), Nat.sub_self]
    cases v.testBit (s.width - 1) <;> rfl
  · unfold code
    rw [Nat.mul_add_mod, Nat.mod_eq_of_lt hlt]

/-! ## There and back -/

/-- A payload comes back when both conversions preserve it, and as 1 otherwise. -/
theorem payload_payload {s d : FpFormat} (hmant : s.mantWidth ≤ d.mantWidth) {m : Nat}
    (hm : m < 2 ^ s.mantWidth) (hne : m ≠ 0) (keep keep' : Bool) :
    payload (payload m s.mantWidth d.mantWidth keep) d.mantWidth s.mantWidth keep' =
      if keep ∧ keep' then m else 1 := by
  have hmd : d.mantWidth ≤ 52 := d.mantWidth_le
  have hword : ∀ p < 2 ^ d.mantWidth, u64 p = p := fun p hp =>
    Nat.mod_eq_of_lt (hp.trans_le (Nat.pow_le_pow_right (by decide) (by omega)))
  have hscaled : m * 2 ^ (d.mantWidth - s.mantWidth) < 2 ^ d.mantWidth := by
    calc m * 2 ^ (d.mantWidth - s.mantWidth)
        < 2 ^ s.mantWidth * 2 ^ (d.mantWidth - s.mantWidth) :=
          Nat.mul_lt_mul_of_pos_right hm (Nat.two_pow_pos _)
      _ = 2 ^ d.mantWidth := by rw [← Nat.pow_add, Nat.add_sub_cancel' hmant]
  have hup : payload m s.mantWidth d.mantWidth keep =
      if keep then m * 2 ^ (d.mantWidth - s.mantWidth) else 1 := by
    unfold payload
    cases keep with
    | false => simp [hne]
    | true => simp [hne, hmant, Nat.shiftLeft_eq, hword _ hscaled]
  have hdown : ∀ p < 2 ^ d.mantWidth, p ≠ 0 → payload p d.mantWidth s.mantWidth keep' =
      if keep' then max (p / 2 ^ (d.mantWidth - s.mantWidth)) 1 else 1 := fun p hp hp' => by
    have hmoved : (if d.mantWidth ≤ s.mantWidth then u64 (p <<< (s.mantWidth - d.mantWidth))
        else p >>> (d.mantWidth - s.mantWidth)) = p / 2 ^ (d.mantWidth - s.mantWidth) := by
      split_ifs with hle
      · rw [Nat.sub_eq_zero_of_le hmant, Nat.sub_eq_zero_of_le hle, Nat.shiftLeft_zero, hword p hp,
          Nat.pow_zero, Nat.div_one]
      · exact Nat.shiftRight_eq_div_pow ..
    unfold payload
    dsimp only
    rw [hmoved]
    cases keep' with
    | false => simp [hp']
    | true =>
        rw [if_pos ⟨rfl, hp'⟩, if_pos rfl]
        split_ifs <;> omega
  have hpos := Nat.two_pow_pos (d.mantWidth - s.mantWidth)
  rw [hup]
  cases keep with
  | false =>
      have hone : 1 < 2 ^ d.mantWidth := Nat.one_lt_two_pow d.mantWidth_pos.ne'
      have hdiv : 1 / 2 ^ (d.mantWidth - s.mantWidth) ≤ 1 := Nat.div_le_self ..
      simp only [Bool.false_eq_true, if_false, false_and]
      rw [hdown 1 hone Nat.one_ne_zero]
      split_ifs <;> omega
  | true =>
      rw [if_pos rfl, hdown _ hscaled (Nat.mul_ne_zero hne hpos.ne'), Nat.mul_div_cancel _ hpos]
      simp only [true_and]
      split_ifs <;> omega

theorem convert_widens {s d : FpFormat} (hexp : s.expWidth ≤ d.expWidth)
    (hmant : s.mantWidth ≤ d.mantWidth) {v : Nat} (keep : Bool) (hV : s.code v < s.infinity) :
    let r := convert v s.width s.expWidth d.width d.expWidth true keep
    d.code r < d.infinity ∧ d.value (d.code r) = s.value (s.code v) := by
  intro r
  obtain ⟨-, -, hcode⟩ := convert_eq s d v keep
  obtain ⟨n, hn, hr⟩ := (magnitude_spec s d v keep).1 hV
  rw [← hcode] at hr
  obtain ⟨E, hE, hvalue⟩ := exists_wide hexp hmant hV
  rw [← hvalue] at hn
  have hcodeE : d.code r = E := by
    rw [show d.code r = _ from hr, hn.unique value_strictMono (NearestEven.exact value_strictMono E),
      Nat.min_eq_left hE.le]
  rw [hcodeE]
  exact ⟨hE, hvalue⟩

/-- Widening, then narrowing. -/
theorem convert_back {s d : FpFormat} (hexp : s.expWidth ≤ d.expWidth)
    (hmant : s.mantWidth ≤ d.mantWidth) {v : Nat} (hv : v < 2 ^ s.width) (keep keep' : Bool) :
    convert (convert v s.width s.expWidth d.width d.expWidth true keep)
        d.width d.expWidth s.width s.expWidth true keep' = v ↔
      (s.infinity < s.code v → s.code v = s.infinity + 1 ∨ keep = true ∧ keep' = true) := by
  obtain ⟨-, hsign, hcode⟩ := convert_eq s d v keep
  obtain ⟨-, hspecial⟩ := magnitude_spec s d v keep
  have hfinite := convert_widens (v := v) hexp hmant keep
  dsimp only at hfinite
  generalize convert v s.width s.expWidth d.width d.expWidth true keep = w at hsign hcode hfinite ⊢
  obtain ⟨hlt, hsign', hcode'⟩ := convert_eq d s w keep'
  obtain ⟨hfinite', hspecial'⟩ := magnitude_spec d s w keep'
  generalize convert w d.width d.expWidth s.width s.expWidth true keep' = r at hlt hsign' hcode' ⊢
  rw [← hcode] at hspecial
  rw [← hcode'] at hfinite' hspecial'
  -- the sign has come back, so the code decides
  have hsame : r = v ↔ s.code r = s.code v := by
    refine ⟨fun h => by rw [h], fun h => ?_⟩
    rw [word_eq hlt, word_eq hv, hsign', hsign, h]
  rw [hsame]
  rcases Nat.lt_or_ge (s.code v) s.infinity with hV | hV
  · obtain ⟨hw, hvalue⟩ := hfinite hV
    obtain ⟨n, hn, hr⟩ := hfinite' hw
    rw [hvalue] at hn
    rw [hn.unique value_strictMono (NearestEven.exact value_strictMono _), Nat.min_eq_left hV.le] at hr
    exact ⟨fun _ h => absurd h hV.asymm, fun _ => hr⟩
  · have hdiv := Nat.div_add_mod' (s.code v) (2 ^ s.mantWidth)
    have hrest := Nat.mod_lt (s.code v) (Nat.two_pow_pos s.mantWidth)
    rw [infinity_le_iff.mpr hV] at hdiv
    have hw := hspecial hV
    generalize s.code v % 2 ^ s.mantWidth = m at hdiv hrest hw
    have hback := hspecial' (by omega)
    have hpayload : s.code r = s.infinity + payload (payload m s.mantWidth d.mantWidth keep)
        d.mantWidth s.mantWidth keep' := by
      have hfits : payload m s.mantWidth d.mantWidth keep < 2 ^ d.mantWidth := payload_lt hrest keep
      rw [hback, hw]
      unfold infinity
      rw [Nat.mul_comm d.expMax, Nat.mul_add_mod, Nat.mod_eq_of_lt hfits]
    have hcodeV : s.code v = s.infinity + m := hdiv.symm
    rw [hpayload, hcodeV]
    by_cases hne : m = 0
    · rw [hne]
      refine ⟨fun _ h => absurd h (lt_irrefl _), fun _ => ?_⟩
      cases keep <;> cases keep' <;> rfl
    · rw [payload_payload hmant hrest hne]
      split_ifs with hkeep
      · exact ⟨fun _ _ => Or.inr hkeep, fun _ => rfl⟩
      · constructor
        · intro h _
          exact Or.inl h.symm
        · intro h
          rcases h (by omega) with h | h
          · exact h.symm
          · exact absurd h hkeep

/-- Conversion between any two formats with subnormals preserved: rounding to nearest
even with the sign of the source. Widening, then narrowing changes only a NaN, and
only where its payload is not preserved. -/
theorem convert_rounds (s d : FpFormat) (keep : Bool) :
    (∀ v : Nat,
      let r := convert v s.width s.expWidth d.width d.expWidth true keep
      r < 2 ^ d.width ∧ d.negative r = s.negative v ∧
        (s.code v < s.infinity → d.Rounded (s.value (s.code v)) (d.code r)) ∧
        (s.code v = s.infinity → d.code r = d.infinity) ∧
        (s.infinity < s.code v → d.infinity < d.code r)) ∧
      (s.expWidth ≤ d.expWidth → s.mantWidth ≤ d.mantWidth → ∀ v < 2 ^ s.width, ∀ keep' : Bool,
        (convert (convert v s.width s.expWidth d.width d.expWidth true keep)
            d.width d.expWidth s.width s.expWidth true keep' = v ↔
          (s.infinity < s.code v →
            s.code v = s.infinity + 1 ∨ keep = true ∧ keep' = true))) := by
  refine ⟨fun v => ?_, fun hexp hmant v hv keep' => convert_back hexp hmant hv keep keep'⟩
  obtain ⟨hlt, hsign, hcode⟩ := convert_eq s d v keep
  obtain ⟨hfinite, hspecial⟩ := magnitude_spec s d v keep
  rw [← hcode] at hfinite hspecial
  -- the mantissa of a special code tells a NaN from infinity
  have hrest : s.infinity ≤ s.code v →
      s.code v = s.infinity + s.code v % 2 ^ s.mantWidth := fun h => by
    have hdiv := Nat.div_add_mod' (s.code v) (2 ^ s.mantWidth)
    rw [infinity_le_iff.mpr h] at hdiv
    exact hdiv.symm
  refine ⟨hlt, hsign, hfinite, fun h => ?_, fun h => ?_⟩
  · have hzero : s.code v % 2 ^ s.mantWidth = 0 := by
      have := hrest h.ge
      omega
    rw [hspecial h.ge, hzero]
    cases keep <;> rfl
  · have hne : s.code v % 2 ^ s.mantWidth ≠ 0 := by
      have := hrest h.le
      omega
    rw [hspecial h.le]
    exact Nat.lt_add_of_pos_right (payload_pos hne keep)

end FpFormatConversion

/-! ## FP16 and FP32 -/

def FpFormat.half : FpFormat := ⟨⟨5, 10, by decide, by decide⟩, by decide, by decide, by decide⟩

def FpFormat.single : FpFormat :=
  ⟨⟨8, 23, Nat.zero_lt_succ _, Nat.zero_lt_succ _⟩, by decide, by decide, by decide⟩

namespace FpFormatConversion

/-- The least subnormal number of FP16, and back. -/
theorem convert_rounds_half :
    convert (convert 0x8001 16 5 32 8 true true) 32 8 16 5 true true = 0x8001 :=
  ((convert_rounds .half .single true).2 (by decide) (by decide) 0x8001 (by decide) true).mpr
    fun _ => Or.inr ⟨rfl, rfl⟩

/-- The quiet NaN of FP16 comes back with the payload 1. -/
theorem not_convert_back : ¬ ∀ (s d : FpFormat) (keep : Bool), s.expWidth ≤ d.expWidth →
    s.mantWidth ≤ d.mantWidth → ∀ v < 2 ^ s.width,
      convert (convert v s.width s.expWidth d.width d.expWidth true keep)
        d.width d.expWidth s.width s.expWidth true keep = v := fun h =>
  absurd (h .half .single false (by decide) (by decide) 0x7e00 (by decide)) (by decide +kernel)

end FpFormatConversion

end CppHdl.Kernels
