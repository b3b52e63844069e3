import CppHdl.Lib.NearestEven
import Mathlib.Algebra.Order.Field.Power
import Mathlib.Algebra.Order.Field.Rat
import Mathlib.Data.Nat.Bitwise

/-!
# Binary floating point formats

A word is a sign, an exponent and a mantissa. Exponent and mantissa together are a
code that counts the numbers of the format from zero over the subnormals up to
infinity, so that rounding is a matter of codes.
-/

namespace CppHdl

structure FloatFormat where
  expWidth : Nat
  mantWidth : Nat
  expWidth_pos : 0 < expWidth
  mantWidth_pos : 0 < mantWidth

namespace FloatFormat

variable (f : FloatFormat)

def width : Nat := f.mantWidth + f.expWidth + 1

def expMax : Nat := 2 ^ f.expWidth - 1

def bias : Nat := 2 ^ (f.expWidth - 1) - 1

def negative (bits : Nat) : Bool := bits.testBit (f.width - 1)

/-- Exponent and mantissa of a word. -/
def code (bits : Nat) : Nat := bits % 2 ^ (f.width - 1)

/-- The code of infinity: all ones, then zeros. -/
def infinity : Nat := f.expMax * 2 ^ f.mantWidth

/-- The number of a code. Codes from `infinity` on go on counting. -/
def value (E : Nat) : ℚ :=
  if E / 2 ^ f.mantWidth = 0 then
    (E % 2 ^ f.mantWidth : Nat) * 2 ^ (1 - f.bias - f.mantWidth : ℤ)
  else
    (2 ^ f.mantWidth + E % 2 ^ f.mantWidth : Nat) *
      2 ^ ((E / 2 ^ f.mantWidth : Nat) - f.bias - f.mantWidth : ℤ)

/-- The number of a word without regard to infinities. -/
def number (v : Nat) : ℚ :=
  if f.negative v then -f.value (f.code v) else f.value (f.code v)

/-- A word with the code of `x` rounded to nearest even: infinity where the rounded
number is too large. -/
def Rounded (x : ℚ) (E : Nat) : Prop :=
  ∃ n, NearestEven f.value x n ∧ E = min n f.infinity

/-- Rounding as though exponents had no bounds: the first `mantWidth + 1` bits of `x`
are kept. A result below the normal numbers is flushed to zero, one above the finite
numbers becomes infinity. -/
def Flushed (x : ℚ) (E : Nat) : Prop :=
  ∃ (e : ℤ) (M : Nat), 2 ^ f.mantWidth ≤ x / 2 ^ e ∧ x / 2 ^ e < 2 ^ (f.mantWidth + 1) ∧
    NearestEven Nat.cast (x / 2 ^ e) M ∧
    if M * 2 ^ e < f.value (2 ^ f.mantWidth) then E = 0
    else if f.value f.infinity ≤ M * 2 ^ e then E = f.infinity
    else f.value E = M * 2 ^ e

/-- The code of a rounded significand `R` with the exponent field `oe`. -/
def flushCode (oe : ℤ) (R : Nat) : Nat :=
  if (oe - 1) * 2 ^ f.mantWidth + R < 2 ^ f.mantWidth then 0
  else min ((oe - 1) * 2 ^ f.mantWidth + R : ℤ).toNat f.infinity

/-- The code of `S` eighths of the last place at the exponent field `e`. -/
def sumCode (e S : Nat) : Nat :=
  if 2 ^ (f.mantWidth + 4) ≤ S then f.flushCode (e + 1) (roundDiv (jam S 1) 8)
  else f.flushCode (e - (f.mantWidth + 3 - S.log2 : Nat))
    (roundDiv (S * 2 ^ (f.mantWidth + 3 - S.log2)) 8)

/-- The sum of two normal numbers in eighths of the last place of the first, whose
exponent is not below that of the second. -/
def alignedSum (a b : Nat) : Nat :=
  let aa := (2 ^ f.mantWidth + f.code a % 2 ^ f.mantWidth) * 8
  let bb := jam ((2 ^ f.mantWidth + f.code b % 2 ^ f.mantWidth) * 8)
    (f.code a / 2 ^ f.mantWidth - f.code b / 2 ^ f.mantWidth)
  if f.negative a = f.negative b then aa + bb else aa - bb

/-- The number of a word where subnormal operands count as zeros. -/
def operand (v : Nat) : ℚ := if f.code v < 2 ^ f.mantWidth then 0 else f.number v

/-- The sum of two normal numbers, the first with the larger code. -/
def orderedSum (a b : Nat) : Nat :=
  if f.alignedSum a b = 0 then 0
  else (f.negative a).toNat * 2 ^ (f.width - 1) +
    f.sumCode (f.code a / 2 ^ f.mantWidth) (f.alignedSum a b)

/-- The sum is no number: an operand is none, or both are infinite with opposite signs. -/
abbrev NanSum (a b : Nat) : Prop :=
  f.infinity < f.code a ∨ f.infinity < f.code b ∨
    f.code a = f.infinity ∧ f.code b = f.infinity ∧ f.negative a ≠ f.negative b

/-- The sum of two words where subnormal operands count as zeros. -/
def sumWord (nan a b : Nat) : Nat :=
  if f.NanSum a b then nan
  else if f.code a = f.infinity then a
  else if f.code b = f.infinity then b
  else if f.code a < 2 ^ f.mantWidth ∧ f.code b < 2 ^ f.mantWidth then
    (f.negative a && f.negative b).toNat * 2 ^ (f.width - 1)
  else if f.code a < 2 ^ f.mantWidth then b
  else if f.code b < 2 ^ f.mantWidth then a
  else if f.code a < f.code b then f.orderedSum b a
  else f.orderedSum a b

variable {f}

theorem width_pred : f.width - 1 = f.mantWidth + f.expWidth := rfl

theorem width_eq (f : FloatFormat) : f.width = f.width - 1 + 1 := rfl

theorem expMax_eq : f.expMax = 2 * f.bias + 1 := by
  have hpos := Nat.two_pow_pos (f.expWidth - 1)
  have hsucc : 2 ^ f.expWidth = 2 ^ (f.expWidth - 1) * 2 := by
    rw [← Nat.pow_succ, Nat.succ_eq_add_one, Nat.sub_add_cancel f.expWidth_pos]
  unfold expMax bias
  omega

def unit (f : FloatFormat) : ℚ := 2 ^ (1 - f.bias - f.mantWidth : ℤ)

theorem unit_pos : 0 < f.unit := zpow_pos two_pos _

theorem value_eq (E : Nat) : f.value E = steps f.mantWidth E * f.unit := by
  have hpos := Nat.two_pow_pos f.mantWidth
  unfold value steps unit
  by_cases hlow : E < 2 ^ f.mantWidth
  · rw [if_pos hlow, if_pos (Nat.div_eq_of_lt hlow), Nat.mod_eq_of_lt hlow]
  · have hturn : E / 2 ^ f.mantWidth ≠ 0 := by
      rw [Ne, Nat.div_eq_zero_iff_lt hpos]
      exact hlow
    rw [if_neg hlow, if_neg hturn]
    obtain ⟨c, hc⟩ := Nat.exists_eq_succ_of_ne_zero hturn
    rw [hc, Nat.succ_eq_add_one, Nat.add_sub_cancel, Nat.cast_mul, Nat.cast_pow, Nat.cast_ofNat,
      mul_assoc, ← zpow_natCast, ← zpow_add₀ two_ne_zero]
    congr 2
    push_cast
    ring

theorem value_strictMono : StrictMono f.value := by
  intro E E' h
  rw [value_eq, value_eq]
  exact mul_lt_mul_of_pos_right (Nat.cast_lt.mpr (steps_strictMono _ h)) unit_pos

/-- Rounding the significand rounds the number. -/
theorem nearestEven_value {y : ℚ} {c R : Nat} (h : NearestEven Nat.cast y R) (hy : 0 ≤ y)
    (hc : c = 0 ∨ 2 ^ f.mantWidth ≤ y) (hy' : y ≤ 2 ^ (f.mantWidth + 1)) :
    NearestEven f.value (y * 2 ^ c * f.unit) (c * 2 ^ f.mantWidth + R) := by
  have hvalue : f.value = fun E => (steps f.mantWidth E : ℚ) * f.unit := funext value_eq
  rw [hvalue]
  exact (h.steps f.mantWidth_pos hy hc hy').scale unit_pos

theorem value_turn {c R : Nat} (hc : c = 0 ∨ 2 ^ f.mantWidth ≤ R)
    (hR : R ≤ 2 ^ (f.mantWidth + 1)) :
    f.value (c * 2 ^ f.mantWidth + R) = R * 2 ^ (c + 1 - f.bias - f.mantWidth : ℤ) := by
  rw [value_eq, steps_add hc hR, Nat.cast_mul, Nat.cast_pow, Nat.cast_ofNat, mul_assoc,
    ← zpow_natCast, unit, ← zpow_add₀ two_ne_zero]
  congr 2
  ring

theorem value_of_fields {E : Nat} (hE : E / 2 ^ f.mantWidth ≠ 0) :
    f.value E = (2 ^ f.mantWidth + E % 2 ^ f.mantWidth : Nat) *
      2 ^ ((E / 2 ^ f.mantWidth : Nat) - f.bias - f.mantWidth : ℤ) := by
  unfold value
  rw [if_neg hE]

theorem value_normal (f : FloatFormat) : f.value (2 ^ f.mantWidth) = 2 ^ (1 - f.bias : ℤ) := by
  have h := @value_turn f 0 (2 ^ f.mantWidth) (Or.inl rfl) (Nat.pow_le_pow_right two_pos (by omega))
  rw [Nat.zero_mul, Nat.zero_add] at h
  rw [h, Nat.cast_pow, Nat.cast_ofNat, ← zpow_natCast, ← zpow_add₀ two_ne_zero]
  congr 1
  push_cast
  ring

theorem normal_le_infinity (f : FloatFormat) : 2 ^ f.mantWidth ≤ f.infinity := by
  have hexp := f.expMax_eq
  exact Nat.le_mul_of_pos_left _ (by omega)

theorem flushed_of_nearest {y : ℚ} {R : Nat} {oe : ℤ} (h : NearestEven Nat.cast y R)
    (hy : 2 ^ f.mantWidth ≤ y) (hy' : y < 2 ^ (f.mantWidth + 1)) :
    f.Flushed (y * 2 ^ (oe - f.bias - f.mantWidth : ℤ)) (f.flushCode oe R) := by
  generalize hE : f.flushCode oe R = E
  replace hE := hE.symm
  unfold flushCode at hE
  have hpos := Nat.two_pow_pos f.mantWidth
  have hlo : 2 ^ f.mantWidth ≤ R := h.ge Nat.strictMono_cast (by push_cast; exact hy)
  have hhi : R ≤ 2 ^ (f.mantWidth + 1) := h.le Nat.strictMono_cast (by push_cast; exact hy'.le)
  have hscale : (0 : ℚ) < 2 ^ (oe - f.bias - f.mantWidth : ℤ) := zpow_pos two_pos _
  have hcancel := mul_div_cancel_right₀ y hscale.ne'
  refine ⟨oe - f.bias - f.mantWidth, R, by rwa [hcancel], by rwa [hcancel], by rwa [hcancel], ?_⟩
  rcases le_or_gt 1 oe with hoe | hoe
  · -- a normal number, or infinity
    obtain ⟨k, rfl⟩ : ∃ k : Nat, oe = k + 1 := ⟨(oe - 1).toNat, by omega⟩
    have hvalue := value_turn (c := k) (Or.inr hlo) hhi
    have hcode : ((k + 1 : ℤ) - 1) * 2 ^ f.mantWidth + R = (k * 2 ^ f.mantWidth + R : Nat) := by
      push_cast
      ring
    rw [hcode, Int.toNat_natCast] at hE
    have hnormal : 2 ^ f.mantWidth ≤ k * 2 ^ f.mantWidth + R := hlo.trans (Nat.le_add_left _ _)
    rw [if_neg (by exact_mod_cast not_lt.mpr hnormal)] at hE
    rw [← hvalue, if_neg (not_lt.mpr (value_strictMono.monotone hnormal))]
    split_ifs with hinf
    · rw [hE, Nat.min_eq_right (value_strictMono.le_iff_le.mp hinf)]
    · rw [hE, Nat.min_eq_left (value_strictMono.le_iff_le.mp (not_le.mp hinf).le)]
  · have hpow : (2 : ℚ) ^ (f.mantWidth + 1) * 2 ^ (oe - f.bias - f.mantWidth : ℤ) =
        2 ^ (oe + (1 - f.bias) : ℤ) := by
      rw [← zpow_natCast, ← zpow_add₀ two_ne_zero]
      congr 1
      push_cast
      ring
    rw [value_normal]
    by_cases hcarry : oe = 0 ∧ R = 2 ^ (f.mantWidth + 1)
    · -- the least normal number, by a carry
      obtain ⟨rfl, rfl⟩ := hcarry
      have hcode : ((0 : ℤ) - 1) * 2 ^ f.mantWidth + ((2 ^ (f.mantWidth + 1) : Nat) : ℤ) =
          (2 ^ f.mantWidth : Nat) := by
        push_cast
        ring
      have hmin := Nat.min_eq_left f.normal_le_infinity
      rw [hcode, Int.toNat_natCast, hmin, if_neg (by push_cast; exact lt_irrefl _)] at hE
      push_cast at hE ⊢
      rw [hpow, zero_add, ← value_normal, if_neg (lt_irrefl _), hE]
      split_ifs with hinf
      · exact le_antisymm f.normal_le_infinity (value_strictMono.le_iff_le.mp hinf)
      · rfl
    · have hcases : oe ≤ -1 ∨ oe = 0 ∧ R < 2 ^ (f.mantWidth + 1) := by omega
      have hless : (R : ℚ) * 2 ^ (oe - f.bias - f.mantWidth : ℤ) < 2 ^ (1 - f.bias : ℤ) := by
        have hR : (R : ℚ) ≤ 2 ^ (f.mantWidth + 1) := by exact_mod_cast hhi
        rcases hcases with hlow | ⟨rfl, hR'⟩
        · calc (R : ℚ) * 2 ^ (oe - f.bias - f.mantWidth : ℤ)
              ≤ 2 ^ (f.mantWidth + 1) * 2 ^ (oe - f.bias - f.mantWidth : ℤ) :=
                mul_le_mul_of_nonneg_right hR hscale.le
            _ = 2 ^ (oe + (1 - f.bias) : ℤ) := hpow
            _ < 2 ^ (1 - f.bias : ℤ) := zpow_lt_zpow_right₀ one_lt_two (by omega)
        · calc (R : ℚ) * 2 ^ ((0 : ℤ) - f.bias - f.mantWidth : ℤ)
              < 2 ^ (f.mantWidth + 1) * 2 ^ ((0 : ℤ) - f.bias - f.mantWidth : ℤ) :=
                mul_lt_mul_of_pos_right (by exact_mod_cast hR') hscale
            _ = 2 ^ (1 - f.bias : ℤ) := by rw [hpow, zero_add]
      have hcode : (oe - 1) * 2 ^ f.mantWidth + R < (2 ^ f.mantWidth : ℤ) := by
        have hP : (0 : ℤ) < 2 ^ f.mantWidth := by positivity
        rcases hcases with hlow | ⟨rfl, hR'⟩
        · have hR : (R : ℤ) ≤ 2 ^ f.mantWidth * 2 := by
            rw [← pow_succ]
            exact_mod_cast hhi
          nlinarith
        · have hR : (R : ℤ) < 2 ^ f.mantWidth * 2 := by
            rw [← pow_succ]
            exact_mod_cast hR'
          linarith
      rw [if_pos hless, hE, if_pos hcode]

theorem Flushed.le {x : ℚ} {E : Nat} (h : f.Flushed x E) : E ≤ f.infinity := by
  obtain ⟨e, M, -, -, -, h⟩ := h
  split_ifs at h with hlow hhigh
  · exact h.trans_le (Nat.zero_le _)
  · exact h.le
  · exact (value_strictMono.lt_iff_lt.mp (h.trans_lt (not_le.mp hhigh))).le

theorem code_of_fields {e : ℤ} {r : Nat} (hr : r < 2 ^ f.mantWidth) :
    (if e * 2 ^ f.mantWidth + r < 2 ^ f.mantWidth then 0
      else min (e * 2 ^ f.mantWidth + r : ℤ).toNat f.infinity) =
        if f.expMax ≤ e then f.infinity else if e ≤ 0 then 0
        else e.toNat * 2 ^ f.mantWidth + r := by
  have hP : (0 : ℤ) < 2 ^ f.mantWidth := by positivity
  have hr' : (r : ℤ) < 2 ^ f.mantWidth := by exact_mod_cast hr
  rcases le_or_gt e 0 with hsign | hsign
  · have hlow : e * 2 ^ f.mantWidth + r < (2 ^ f.mantWidth : ℤ) := by nlinarith
    have hexp := f.expMax_eq
    rw [if_pos hlow, if_neg (by omega), if_pos hsign]
  · obtain ⟨k, rfl⟩ := Int.eq_ofNat_of_zero_le hsign.le
    have hcode : (k : ℤ) * 2 ^ f.mantWidth + r = (k * 2 ^ f.mantWidth + r : Nat) := by
      push_cast
      rfl
    have hnormal : 2 ^ f.mantWidth ≤ k * 2 ^ f.mantWidth + r :=
      (Nat.le_mul_of_pos_left _ (by omega)).trans (Nat.le_add_right _ _)
    rw [hcode, if_neg (by exact_mod_cast not_lt.mpr hnormal), Int.toNat_natCast, Int.toNat_natCast,
      if_neg (not_le.mpr hsign)]
    split_ifs with hover
    · have hover' : f.expMax ≤ k := by exact_mod_cast hover
      exact Nat.min_eq_right ((Nat.mul_le_mul_right _ hover').trans (Nat.le_add_right _ _))
    · have hunder : k + 1 ≤ f.expMax := by exact_mod_cast not_le.mp hover
      have hfits := Nat.mul_le_mul_right (2 ^ f.mantWidth) hunder
      rw [Nat.succ_mul] at hfits
      exact Nat.min_eq_left ((Nat.add_le_add_left hr.le _).trans hfits)

/-- A carry out of the significand goes into the exponent. -/
theorem flushCode_eq {oe : ℤ} {R : Nat} (hlo : 2 ^ f.mantWidth ≤ R)
    (hhi : R ≤ 2 ^ (f.mantWidth + 1)) :
    let carried := 2 ^ (f.mantWidth + 1) ≤ R
    let e := if carried then oe + 1 else oe
    f.flushCode oe R = if f.expMax ≤ e then f.infinity else if e ≤ 0 then 0
      else e.toNat * 2 ^ f.mantWidth + (if carried then R / 2 else R) % 2 ^ f.mantWidth := by
  intro carried e
  have hpos := Nat.two_pow_pos f.mantWidth
  have hrest : (if carried then R / 2 else R) % 2 ^ f.mantWidth < 2 ^ f.mantWidth :=
    Nat.mod_lt _ hpos
  rw [← code_of_fields hrest]
  unfold flushCode
  have hcode : (oe - 1) * 2 ^ f.mantWidth + R = e * 2 ^ f.mantWidth +
      ((if carried then R / 2 else R) % 2 ^ f.mantWidth : Nat) := by
    unfold e
    split_ifs with hc
    · obtain rfl : R = 2 ^ (f.mantWidth + 1) := le_antisymm hhi hc
      rw [Nat.pow_succ, Nat.mul_div_cancel _ two_pos, Nat.mod_self]
      push_cast
      ring
    · obtain ⟨r, rfl⟩ := Nat.exists_eq_add_of_le hlo
      have hr : r < 2 ^ f.mantWidth := by
        have := not_le.mp hc
        rw [Nat.pow_succ] at this
        omega
      rw [Nat.add_mod_left, Nat.mod_eq_of_lt hr]
      push_cast
      ring
  rw [hcode]

theorem roundDiv_eight {N : Nat} (hlo : 2 ^ (f.mantWidth + 3) ≤ N)
    (hhi : N < 2 ^ (f.mantWidth + 4)) :
    2 ^ f.mantWidth ≤ roundDiv N 8 ∧ roundDiv N 8 ≤ 2 ^ (f.mantWidth + 1) := by
  rw [Nat.pow_add] at hlo hhi
  rw [Nat.pow_succ]
  unfold roundDiv
  split_ifs <;> omega

theorem flushCode_le (oe : ℤ) (R : Nat) : f.flushCode oe R ≤ f.infinity := by
  unfold flushCode
  split_ifs
  · exact Nat.zero_le _
  · exact Nat.min_le_right _ _

theorem sumCode_le (e S : Nat) : f.sumCode e S ≤ f.infinity := by
  unfold sumCode
  split_ifs <;> exact flushCode_le _ _

/-- The shift that puts the highest one in front. -/
theorem sumCode_shifted {e S k : Nat} (hlo : 2 ^ (f.mantWidth + 3) ≤ S * 2 ^ k)
    (hhi : S * 2 ^ k < 2 ^ (f.mantWidth + 4)) :
    f.sumCode e S = f.flushCode (e - k) (roundDiv (S * 2 ^ k) 8) := by
  have hpos := Nat.two_pow_pos k
  have hS : S ≠ 0 := fun h => by
    rw [h, Nat.zero_mul] at hlo
    exact absurd (Nat.two_pow_pos (f.mantWidth + 3)) (not_lt.mpr hlo)
  have hk : k ≤ f.mantWidth + 3 := by
    have hlt := (Nat.le_mul_of_pos_left (2 ^ k) (Nat.pos_of_ne_zero hS)).trans_lt hhi
    have := (Nat.pow_lt_pow_iff_right one_lt_two).mp hlt
    omega
  have hlog : S.log2 = f.mantWidth + 3 - k := by
    have hsplit : ∀ n, k ≤ n → 2 ^ n = 2 ^ (n - k) * 2 ^ k := fun n hn => by
      rw [← Nat.pow_add, Nat.sub_add_cancel hn]
    rw [hsplit (f.mantWidth + 3) hk] at hlo
    rw [hsplit (f.mantWidth + 4) (by omega)] at hhi
    have hle := (Nat.le_log2 hS).mpr (Nat.le_of_mul_le_mul_right hlo hpos)
    have hlt := (Nat.log2_lt hS).mpr (Nat.lt_of_mul_lt_mul_right hhi)
    omega
  have hsmall : ¬ 2 ^ (f.mantWidth + 4) ≤ S :=
    not_le.mpr ((Nat.le_mul_of_pos_right S hpos).trans_lt hhi)
  unfold sumCode
  rw [if_neg hsmall, hlog, Nat.sub_sub_self hk]

theorem significand_bounds (f : FloatFormat) (v : Nat) :
    2 ^ (f.mantWidth + 3) ≤ (2 ^ f.mantWidth + f.code v % 2 ^ f.mantWidth) * 8 ∧
      (2 ^ f.mantWidth + f.code v % 2 ^ f.mantWidth) * 8 < 2 ^ (f.mantWidth + 4) := by
  have hrest := Nat.mod_lt (f.code v) (Nat.two_pow_pos f.mantWidth)
  rw [Nat.pow_add, Nat.pow_add]
  omega

theorem alignedSum_lt (f : FloatFormat) (a b : Nat) : f.alignedSum a b < 2 ^ (f.mantWidth + 5) := by
  obtain ⟨-, ha⟩ := f.significand_bounds a
  obtain ⟨-, hb⟩ := f.significand_bounds b
  have heven : 2 ∣ 2 ^ (f.mantWidth + 4) := dvd_pow_self 2 (by omega)
  have hjam := jam_lt (hb.trans_le (Nat.le_mul_of_pos_right _
    (Nat.two_pow_pos (f.code a / 2 ^ f.mantWidth - f.code b / 2 ^ f.mantWidth)))) heven
  have hdouble : 2 ^ (f.mantWidth + 5) = 2 ^ (f.mantWidth + 4) * 2 := Nat.pow_succ ..
  unfold alignedSum
  dsimp only
  split_ifs <;> omega

/-! ## Words -/

theorem code_lt {f : FloatFormat} (v : Nat) : f.code v < 2 ^ (f.width - 1) :=
  Nat.mod_lt _ (Nat.two_pow_pos _)

theorem infinity_add_lt {f : FloatFormat} {p : Nat} (hp : p < 2 ^ f.mantWidth) :
    f.infinity + p < 2 ^ (f.width - 1) := by
  have hone := Nat.two_pow_pos f.expWidth
  calc f.infinity + p < (f.expMax + 1) * 2 ^ f.mantWidth := by
        rw [Nat.succ_mul]
        exact Nat.add_lt_add_left hp _
    _ = 2 ^ f.expWidth * 2 ^ f.mantWidth := by
        unfold expMax
        rw [Nat.sub_add_cancel hone]
    _ = 2 ^ (f.width - 1) := by
        rw [← Nat.pow_add, width_pred, Nat.add_comm]

theorem fields (f : FloatFormat) (v : Nat) :
    v >>> f.mantWidth &&& (2 ^ f.expWidth - 1) = f.code v / 2 ^ f.mantWidth ∧
      v &&& (2 ^ f.mantWidth - 1) = f.code v % 2 ^ f.mantWidth := by
  unfold code
  rw [width_pred, Nat.and_two_pow_sub_one_eq_mod, Nat.and_two_pow_sub_one_eq_mod,
    Nat.shiftRight_eq_div_pow, Nat.pow_add]
  exact ⟨(Nat.mod_mul_right_div_self ..).symm, (Nat.mod_mul_right_mod ..).symm⟩

theorem sign_field (f : FloatFormat) (v : Nat) :
    v &&& 2 ^ (f.width - 1) = (f.negative v).toNat * 2 ^ (f.width - 1) := by
  rw [Nat.and_two_pow]
  rfl

/-- A shift puts the highest one in front. -/
theorem shift_bounds {x n : Nat} (hx : x ≠ 0) (hlt : x < 2 ^ (n + 1)) :
    2 ^ n ≤ x * 2 ^ (n - x.log2) ∧ x * 2 ^ (n - x.log2) < 2 ^ (n + 1) := by
  have hlog : x.log2 ≤ n := Nat.lt_succ_iff.mp ((Nat.log2_lt hx).mpr hlt)
  constructor
  · calc 2 ^ n = 2 ^ x.log2 * 2 ^ (n - x.log2) := by rw [← Nat.pow_add, Nat.add_sub_cancel' hlog]
      _ ≤ x * 2 ^ (n - x.log2) := Nat.mul_le_mul_right _ (Nat.log2_self_le hx)
  · calc x * 2 ^ (n - x.log2) < 2 ^ (x.log2 + 1) * 2 ^ (n - x.log2) :=
          Nat.mul_lt_mul_of_pos_right Nat.lt_log2_self (Nat.two_pow_pos _)
      _ = 2 ^ (n + 1) := by
          rw [← Nat.pow_add]
          congr 1
          omega

theorem sign_or {s : Bool} {n c : Nat} (hc : c < 2 ^ n) :
    s.toNat * 2 ^ n ||| c = s.toNat * 2 ^ n + c := by
  rw [Nat.mul_comm]
  exact (Nat.two_pow_add_eq_or_of_lt hc _).symm

/-- The bits of an exponent field and a mantissa. -/
theorem fields_or {e m r : Nat} (hr : r < 2 ^ m) : e <<< m ||| r = e * 2 ^ m + r := by
  rw [Nat.shiftLeft_eq, Nat.mul_comm, ← Nat.two_pow_add_eq_or_of_lt hr]

theorem hidden_or {m r : Nat} (hr : r < 2 ^ m) : 2 ^ m ||| r = 2 ^ m + r := by
  have hjoin := Nat.two_pow_add_eq_or_of_lt hr 1
  rw [Nat.mul_one] at hjoin
  exact hjoin.symm

theorem and_top {x k : Nat} (hx : x < 2 ^ (k + 1)) : x &&& 1 <<< k ≠ 0 ↔ 2 ^ k ≤ x := by
  have hpos := Nat.two_pow_pos k
  rw [Nat.pow_succ, Nat.mul_comm] at hx
  have hbit := (Nat.div_lt_iff_lt_mul hpos).mpr hx
  rw [Nat.one_shiftLeft, Nat.and_two_pow, Nat.toNat_testBit, Nat.mod_eq_of_lt hbit, Ne,
    Nat.mul_eq_zero, or_iff_left hpos.ne', Nat.div_eq_zero_iff_lt hpos, not_lt]

theorem word_eq {f : FloatFormat} {v : Nat} (hv : v < 2 ^ f.width) :
    v = (f.negative v).toNat * 2 ^ (f.width - 1) + f.code v := by
  rw [f.width_eq, Nat.pow_succ] at hv
  have hsign : v / 2 ^ (f.width - 1) < 2 := (Nat.div_lt_iff_lt_mul (Nat.two_pow_pos _)).mpr (by
    rwa [Nat.mul_comm] at hv)
  unfold negative code
  rw [Nat.toNat_testBit, Nat.mod_eq_of_lt hsign, Nat.div_add_mod']

theorem word_fields {s : Bool} {c : Nat} (hc : c < 2 ^ (f.width - 1)) :
    f.negative (s.toNat * 2 ^ (f.width - 1) + c) = s ∧
      f.code (s.toNat * 2 ^ (f.width - 1) + c) = c := by
  have hpos := Nat.two_pow_pos (f.width - 1)
  unfold negative code
  constructor
  · rw [Nat.testBit_eq_decide_div_mod_eq, Nat.mul_comm, Nat.mul_add_div hpos, Nat.div_eq_of_lt hc]
    cases s <;> rfl
  · rw [Nat.mul_comm, Nat.mul_add_mod, Nat.mod_eq_of_lt hc]

theorem infinity_le_iff {f : FloatFormat} {v : Nat} :
    f.code v / 2 ^ f.mantWidth = f.expMax ↔ f.infinity ≤ f.code v := by
  have hpos := Nat.two_pow_pos f.mantWidth
  have hlt : f.code v < 2 ^ f.expWidth * 2 ^ f.mantWidth := by
    unfold code
    rw [width_pred, Nat.add_comm, Nat.pow_add]
    exact Nat.mod_lt _ (Nat.mul_pos (Nat.two_pow_pos _) hpos)
  have hdiv := (Nat.div_lt_iff_lt_mul hpos).mpr hlt
  unfold infinity
  rw [← Nat.le_div_iff_mul_le hpos]
  unfold expMax
  omega

theorem class_fields {f : FloatFormat} (v : Nat) :
    (f.code v / 2 ^ f.mantWidth = 0 ↔ f.code v < 2 ^ f.mantWidth) ∧
      (f.code v / 2 ^ f.mantWidth = f.expMax ∧ f.code v % 2 ^ f.mantWidth ≠ 0 ↔
        f.infinity < f.code v) ∧
      (f.code v / 2 ^ f.mantWidth = f.expMax ∧ f.code v % 2 ^ f.mantWidth = 0 ↔
        f.code v = f.infinity) := by
  have hmax := @infinity_le_iff f v
  have hsplit := Nat.div_add_mod' (f.code v) (2 ^ f.mantWidth)
  have hinf : f.infinity = f.expMax * 2 ^ f.mantWidth := rfl
  refine ⟨Nat.div_eq_zero_iff_lt (Nat.two_pow_pos _), ?_, ?_⟩
  · rw [hmax]
    constructor
    · rintro ⟨hle, hne⟩
      rw [hmax.mpr hle] at hsplit
      omega
    · intro hlt
      rw [hmax.mpr hlt.le] at hsplit
      omega
  · rw [hmax]
    constructor
    · rintro ⟨hle, hne⟩
      rw [hmax.mpr hle] at hsplit
      omega
    · intro heq
      rw [hmax.mpr heq.ge] at hsplit
      omega

/-! ## Sums -/

/-- An integer of units of `2 ^ j` parts, rounded. -/
theorem flushed_roundDiv {P j : Nat} {oe : ℤ} (hlo : 2 ^ f.mantWidth * 2 ^ j ≤ P)
    (hhi : P < 2 ^ (f.mantWidth + 1) * 2 ^ j) :
    f.Flushed (P * 2 ^ (oe - j - f.bias - f.mantWidth : ℤ))
      (f.flushCode oe (roundDiv P (2 ^ j))) := by
  have hunit : (0 : ℚ) < (2 ^ j : Nat) := by positivity
  have hvalue : (P : ℚ) / (2 ^ j : Nat) * 2 ^ (oe - f.bias - f.mantWidth : ℤ) =
      P * 2 ^ (oe - j - f.bias - f.mantWidth : ℤ) := by
    rw [Nat.cast_pow, Nat.cast_ofNat, ← zpow_natCast, div_eq_mul_inv, ← zpow_neg, mul_assoc,
      ← zpow_add₀ two_ne_zero]
    congr 2
    ring
  rw [← hvalue]
  refine flushed_of_nearest (nearestEven_div (Nat.two_pow_pos j)) ?_ ?_
  · rw [le_div_iff₀ hunit]
    exact_mod_cast hlo
  · rw [div_lt_iff₀ hunit]
    exact_mod_cast hhi

/-- The code of a jammed sum is the rounding of the exact one. -/
theorem sumCode_flushed {X d e : Nat} (hX : jam X d ≠ 0) (hlt : jam X d < 2 ^ (f.mantWidth + 5))
    (hlost : 2 ^ d ∣ X ∨ 2 ^ (f.mantWidth + 2) ≤ jam X d) :
    f.Flushed (X * 2 ^ (e - d - 3 - f.bias - f.mantWidth : ℤ)) (f.sumCode e (jam X d)) := by
  have hscale : ∀ n j : Nat, 2 ^ n * 2 ^ (j + d) = 2 ^ (n + j) * 2 ^ d := fun n j => by
    rw [Nat.pow_add, ← Nat.mul_assoc, ← Nat.pow_add]
  unfold sumCode
  by_cases htop : 2 ^ (f.mantWidth + 4) ≤ jam X d
  · have hunit : 8 * 2 ^ 1 * 2 ^ d = 2 ^ (4 + d) := (Nat.pow_add 2 4 d).symm
    rw [if_pos htop, roundDiv_jam (by decide) (by decide), roundDiv_jam (by decide) (by decide),
      hunit]
    have hvalue : (e - d - 3 - f.bias - f.mantWidth : ℤ) =
        (e + 1 : ℤ) - (4 + d : Nat) - f.bias - f.mantWidth := by
      push_cast
      ring
    rw [hvalue]
    refine flushed_roundDiv ?_ ?_
    · rw [hscale]
      exact (le_jam_iff (dvd_pow_self 2 (by omega))).mp htop
    · rw [hscale, ← not_le, ← le_jam_iff (dvd_pow_self 2 (by omega)), not_le,
        Nat.add_right_comm, Nat.add_assoc]
      exact hlt
  · rw [if_neg htop]
    obtain ⟨hlo, hhi⟩ := shift_bounds hX (not_le.mp htop)
    have hk : 2 ^ d ∣ X ∨ f.mantWidth + 3 - (jam X d).log2 ≤ 1 := by
      refine hlost.imp_right fun h => ?_
      have := (Nat.le_log2 hX).mpr h
      omega
    generalize f.mantWidth + 3 - (jam X d).log2 = k at hlo hhi hk
    rw [roundDiv_jam_shift hk, ← Nat.pow_add]
    have hvalue : (X : ℚ) * 2 ^ (e - d - 3 - f.bias - f.mantWidth : ℤ) =
        (X * 2 ^ k : Nat) * 2 ^ ((e - k : ℤ) - (3 + d : Nat) - f.bias - f.mantWidth : ℤ) := by
      rw [Nat.cast_mul, Nat.cast_pow, Nat.cast_ofNat, mul_assoc, ← zpow_natCast,
        ← zpow_add₀ two_ne_zero]
      congr 2
      push_cast
      ring
    rw [hvalue]
    refine flushed_roundDiv ?_ ?_
    · rw [hscale, ← le_jam_shift hk (by omega)]
      exact hlo
    · rw [hscale, ← not_le, ← le_jam_shift hk (by omega), not_le, Nat.add_right_comm]
      exact hhi

section

variable {a b : Nat}

theorem normal_turn (h : 2 ^ f.mantWidth ≤ f.code a) : f.code a / 2 ^ f.mantWidth ≠ 0 := by
  rw [Ne, Nat.div_eq_zero_iff_lt (Nat.two_pow_pos _)]
  exact not_lt.mpr h

/-- The significand of the smaller number at the exponent of the larger one. -/
theorem significand_le (hle : f.code b ≤ f.code a) :
    2 ^ f.mantWidth + f.code b % 2 ^ f.mantWidth ≤
      (2 ^ f.mantWidth + f.code a % 2 ^ f.mantWidth) *
        2 ^ (f.code a / 2 ^ f.mantWidth - f.code b / 2 ^ f.mantWidth) := by
  have hrest := Nat.mod_lt (f.code b) (Nat.two_pow_pos f.mantWidth)
  have ha := Nat.div_add_mod (f.code a) (2 ^ f.mantWidth)
  have hb := Nat.div_add_mod (f.code b) (2 ^ f.mantWidth)
  obtain ⟨d, hd⟩ := Nat.exists_eq_add_of_le (Nat.div_le_div_right (c := 2 ^ f.mantWidth) hle)
  rw [hd] at ha ⊢
  rw [Nat.add_sub_cancel_left]
  cases d with
  | zero =>
      rw [Nat.add_zero] at ha
      rw [Nat.pow_zero, Nat.mul_one]
      omega
  | succ d =>
      refine le_trans ?_ (Nat.mul_le_mul_left _
        (Nat.pow_le_pow_right two_pos (Nat.succ_le_succ (Nat.zero_le d))))
      omega

/-- The sum before the alignment lost any bit. -/
theorem exists_exactSum (ha : 2 ^ f.mantWidth ≤ f.code a) (hb : 2 ^ f.mantWidth ≤ f.code b)
    (hle : f.code b ≤ f.code a) : ∃ X d : Nat, f.alignedSum a b = jam X d ∧
      (2 ^ d ∣ X ∨ 2 ^ (f.mantWidth + 2) ≤ jam X d) ∧
      f.number a + f.number b = (if f.negative a then -1 else 1) *
        (X * 2 ^ ((f.code a / 2 ^ f.mantWidth : Nat) - d - 3 - f.bias - f.mantWidth : ℤ)) := by
  have hvaluea := value_of_fields (normal_turn ha)
  have hvalueb := value_of_fields (normal_turn hb)
  have hordered := significand_le hle
  obtain ⟨hlo, -⟩ := f.significand_bounds a
  obtain ⟨-, hhi⟩ := f.significand_bounds b
  obtain ⟨d, hd⟩ := Nat.exists_eq_add_of_le (Nat.div_le_div_right (c := 2 ^ f.mantWidth) hle)
  unfold alignedSum number
  dsimp only
  rw [hvaluea, hvalueb]
  rw [hd, Nat.add_sub_cancel_left] at hordered ⊢
  generalize f.code b / 2 ^ f.mantWidth = e
  generalize 2 ^ f.mantWidth + f.code a % 2 ^ f.mantWidth = A at *
  generalize 2 ^ f.mantWidth + f.code b % 2 ^ f.mantWidth = B at *
  have hscaled : B * 8 ≤ A * 8 * 2 ^ d := by
    rw [Nat.mul_right_comm]
    exact Nat.mul_le_mul_right 8 hordered
  have hdouble : 2 ^ (f.mantWidth + 3) = 2 ^ (f.mantWidth + 2) * 2 := Nat.pow_succ ..
  -- an eighth of the last place of the smaller number
  obtain ⟨z, hz⟩ : ∃ z : ℤ, z = e - 3 - f.bias - f.mantWidth := ⟨_, rfl⟩
  have hunit : ∀ n : Nat, (2 : ℚ) ^ (z + n) = 2 ^ n * 2 ^ z := fun n => by
    rw [zpow_add₀ two_ne_zero, zpow_natCast, mul_comm]
  have hfirst : ((e + d : Nat) - f.bias - f.mantWidth : ℤ) = z + (d + 3 : Nat) := by
    push_cast
    linarith
  have hsecond : (e - f.bias - f.mantWidth : ℤ) = z + (3 : Nat) := by
    push_cast
    linarith
  have hlast : ((e + d : Nat) - d - 3 - f.bias - f.mantWidth : ℤ) = z := by
    push_cast
    linarith
  rw [hfirst, hsecond, hunit, hunit]
  by_cases hsign : f.negative a = f.negative b
  · refine ⟨A * 8 * 2 ^ d + B * 8, d, ?_, Or.inr ?_, ?_⟩
    · rw [if_pos hsign, jam_add (by omega)]
    · rw [jam_add (by omega)]
      omega
    · rw [hlast, ← hsign]
      push_cast
      split_ifs <;> ring
  · refine ⟨A * 8 * 2 ^ d - B * 8, d, ?_, ?_, ?_⟩
    · rw [if_neg hsign, jam_sub (by omega) hscaled]
    · rcases Nat.lt_or_ge 3 d with hfar | hclose
      · right
        have hsmall : jam (B * 8) d < 2 ^ (f.mantWidth + 2) := by
          refine jam_lt (hhi.trans_le ?_) (dvd_pow_self 2 (by omega))
          rw [← Nat.pow_add]
          exact Nat.pow_le_pow_right two_pos (by omega)
        rw [jam_sub (by omega) hscaled]
        omega
      · have hexact : 2 ^ d ∣ B * 8 := (pow_dvd_pow 2 hclose).trans (Nat.dvd_mul_left 8 B)
        exact Or.inl (Nat.dvd_sub (Nat.dvd_mul_left _ _) hexact)
    · rw [hlast, Nat.cast_sub hscaled]
      have hother : f.negative b = !f.negative a := by
        cases h : f.negative a <;> cases h' : f.negative b <;> simp_all
      rw [hother]
      cases f.negative a <;> push_cast <;> simp <;> ring

/-- The aligned sum is zero with the exact one, and has its sign and its rounding. -/
theorem alignedSum_flushed (ha : 2 ^ f.mantWidth ≤ f.code a) (hb : 2 ^ f.mantWidth ≤ f.code b)
    (hle : f.code b ≤ f.code a) :
    (f.alignedSum a b = 0 ↔ f.number a + f.number b = 0) ∧
      (f.number a + f.number b ≠ 0 → (f.number a + f.number b < 0 ↔ f.negative a = true) ∧
        f.Flushed |f.number a + f.number b|
          (f.sumCode (f.code a / 2 ^ f.mantWidth) (f.alignedSum a b))) := by
  have hlt := f.alignedSum_lt a b
  obtain ⟨X, d, hsum, hlost, hvalue⟩ := exists_exactSum ha hb hle
  rw [hsum] at hlt ⊢
  rw [hvalue]
  have hscale : (0 : ℚ) <
      2 ^ ((f.code a / 2 ^ f.mantWidth : Nat) - d - 3 - f.bias - f.mantWidth : ℤ) :=
    zpow_pos two_pos _
  by_cases hzero : X = 0
  · subst hzero
    have hjam : jam 0 d = 0 := jam_mul d 0
    simp [hjam]
  · have hX : jam X d ≠ 0 := (jam_pos hzero d).ne'
    have hrounds := sumCode_flushed (e := f.code a / 2 ^ f.mantWidth) hX hlt hlost
    have hpos : (0 : ℚ) <
        X * 2 ^ ((f.code a / 2 ^ f.mantWidth : Nat) - d - 3 - f.bias - f.mantWidth : ℤ) :=
      mul_pos (Nat.cast_pos.mpr (Nat.pos_of_ne_zero hzero)) hscale
    generalize (X : ℚ) *
      2 ^ ((f.code a / 2 ^ f.mantWidth : Nat) - d - 3 - f.bias - f.mantWidth : ℤ) = x at *
    cases f.negative a
    · simp only [Bool.false_eq_true, if_false, one_mul, abs_of_pos hpos]
      exact ⟨iff_of_false hX hpos.ne', fun _ => ⟨iff_of_false hpos.not_gt id, hrounds⟩⟩
    · simp only [if_true, neg_one_mul, neg_eq_zero, abs_neg, abs_of_pos hpos]
      exact ⟨iff_of_false hX hpos.ne', fun _ =>
        ⟨iff_of_true (neg_neg_of_pos hpos) trivial, hrounds⟩⟩

/-- A normal number is its own rounding. -/
theorem flushed_value {E : Nat} (hlo : 2 ^ f.mantWidth ≤ E) (hhi : E < f.infinity) :
    f.Flushed (f.value E) E := by
  have hrest := Nat.mod_lt E (Nat.two_pow_pos f.mantWidth)
  have hturn : E / 2 ^ f.mantWidth ≠ 0 := by
    rw [Ne, Nat.div_eq_zero_iff_lt (Nat.two_pow_pos _)]
    exact not_lt.mpr hlo
  have hvalue := value_of_fields hturn
  have hscale : (0 : ℚ) < 2 ^ ((E / 2 ^ f.mantWidth : Nat) - f.bias - f.mantWidth : ℤ) :=
    zpow_pos two_pos _
  refine ⟨(E / 2 ^ f.mantWidth : Nat) - f.bias - f.mantWidth,
    2 ^ f.mantWidth + E % 2 ^ f.mantWidth, ?_⟩
  rw [← hvalue, if_neg (not_lt.mpr (value_strictMono.monotone hlo)),
    if_neg (not_le.mpr (value_strictMono hhi)), hvalue, mul_div_cancel_right₀ _ hscale.ne']
  refine ⟨?_, ?_, NearestEven.exact Nat.strictMono_cast _, rfl⟩
  · push_cast
    exact le_add_of_nonneg_right (Nat.cast_nonneg _)
  · exact_mod_cast (by rw [Nat.pow_succ]; omega :
      2 ^ f.mantWidth + E % 2 ^ f.mantWidth < 2 ^ (f.mantWidth + 1))

theorem value_pos {E : Nat} (h : 0 < E) : 0 < f.value E := by
  have hzero : f.value 0 = 0 := by
    rw [value_eq, show steps f.mantWidth 0 = 0 from if_pos (Nat.two_pow_pos _), Nat.cast_zero,
      zero_mul]
  rw [← hzero]
  exact value_strictMono h

theorem number_neg (h : 0 < f.code a) : f.number a ≠ 0 ∧ (f.number a < 0 ↔ f.negative a = true) ∧
    |f.number a| = f.value (f.code a) := by
  have hpos : 0 < f.value (f.code a) := value_pos h
  unfold number
  cases f.negative a
  · simp [hpos.ne', hpos.not_gt, abs_of_pos hpos]
  · simp [hpos.ne', hpos, abs_of_pos hpos]

theorem orderedSum_rounds (ha : 2 ^ f.mantWidth ≤ f.code a) (hb : 2 ^ f.mantWidth ≤ f.code b)
    (hle : f.code b ≤ f.code a) :
    (f.number a + f.number b = 0 → f.orderedSum a b = 0) ∧
      (f.number a + f.number b ≠ 0 →
        (f.negative (f.orderedSum a b) = true ↔ f.number a + f.number b < 0) ∧
        f.Flushed |f.number a + f.number b| (f.code (f.orderedSum a b))) := by
  obtain ⟨hzero, hrounds⟩ := alignedSum_flushed ha hb hle
  refine ⟨fun h => if_pos (hzero.mpr h), fun h => ?_⟩
  have hword : f.orderedSum a b = (f.negative a).toNat * 2 ^ (f.width - 1) +
      f.sumCode (f.code a / 2 ^ f.mantWidth) (f.alignedSum a b) := if_neg (mt hzero.mp h)
  obtain ⟨hsign, hcode⟩ := word_fields (f := f) (s := f.negative a)
    ((sumCode_le (f.code a / 2 ^ f.mantWidth) (f.alignedSum a b)).trans_lt
      (infinity_add_lt (Nat.two_pow_pos f.mantWidth)))
  rw [hword, hsign, hcode]
  exact ⟨(hrounds h).1.symm, (hrounds h).2⟩

/-- Only a sum that is no number depends on the NaN, and no other is above infinity. -/
theorem sumWord_number (h : ¬ f.NanSum a b) (nan nan' : Nat) :
    f.sumWord nan a b = f.sumWord nan' a b ∧ f.code (f.sumWord nan a b) ≤ f.infinity := by
  have hinf : f.infinity < 2 ^ (f.width - 1) :=
    Nat.lt_of_succ_lt (infinity_add_lt (Nat.one_lt_two_pow f.mantWidth_pos.ne'))
  have hzero : ∀ s : Bool, f.code (s.toNat * 2 ^ (f.width - 1)) = 0 := fun s =>
    (word_fields (f := f) (s := s) (Nat.two_pow_pos _)).2
  have hordered : ∀ v w, f.code (f.orderedSum v w) ≤ f.infinity := fun v w => by
    have hcode := sumCode_le (f := f) (f.code v / 2 ^ f.mantWidth) (f.alignedSum v w)
    unfold orderedSum
    split_ifs
    · exact (Nat.zero_mod _).trans_le (Nat.zero_le _)
    · rw [(word_fields (hcode.trans_lt hinf)).2]
      exact hcode
  unfold sumWord
  rw [if_neg h, if_neg h]
  unfold NanSum at h
  refine ⟨rfl, ?_⟩
  split_ifs
  all_goals first | exact hordered _ _ | exact (hzero _).trans_le (Nat.zero_le _) | omega

theorem orderedSum_comm (h : f.code a = f.code b) : f.orderedSum a b = f.orderedSum b a := by
  unfold orderedSum alignedSum
  rw [h]
  by_cases hsign : f.negative a = f.negative b
  · rw [hsign]
  · rw [if_neg hsign, if_neg (Ne.symm hsign), Nat.sub_self, jam_zero, Nat.sub_self, if_pos rfl,
      if_pos rfl]

theorem sumWord_comm (nan : Nat) (ha : a < 2 ^ f.width) (hb : b < 2 ^ f.width) :
    f.sumWord nan a b = f.sumWord nan b a := by
  have hswap : ∀ {v w}, f.NanSum v w → f.NanSum w v := by
    rintro v w (h | h | ⟨h, h', hne⟩)
    · exact Or.inr (Or.inl h)
    · exact Or.inl h
    · exact Or.inr (Or.inr ⟨h', h, hne.symm⟩)
  unfold sumWord
  by_cases hn : f.NanSum a b
  · rw [if_pos hn, if_pos (hswap hn)]
  rw [if_neg hn, if_neg (mt hswap hn)]
  by_cases hia : f.code a = f.infinity <;> by_cases hib : f.code b = f.infinity
  · have hsign : f.negative a = f.negative b := by
      by_contra hne
      exact hn (Or.inr (Or.inr ⟨hia, hib, hne⟩))
    rw [if_pos hia, if_pos hib, word_eq ha, word_eq hb, hia, hib, hsign]
  · rw [if_pos hia, if_neg hib, if_pos hia]
  · rw [if_neg hia, if_pos hib, if_pos hib]
  rw [if_neg hia, if_neg hib, if_neg hib, if_neg hia, Bool.and_comm]
  split_ifs <;> first | rfl | omega | exact orderedSum_comm (by omega)

/-- The sum of two finite words is the rounded exact sum of their operands. -/
theorem sumWord_rounds (nan : Nat) (ha : f.code a < f.infinity) (hb : f.code b < f.infinity) :
    (f.operand a + f.operand b = 0 → f.sumWord nan a b =
        if f.code a < 2 ^ f.mantWidth ∧ f.code b < 2 ^ f.mantWidth ∧
            f.negative a ∧ f.negative b then
          2 ^ (f.width - 1)
        else 0) ∧
      (f.operand a + f.operand b ≠ 0 →
        (f.negative (f.sumWord nan a b) = true ↔ f.operand a + f.operand b < 0) ∧
        f.Flushed |f.operand a + f.operand b| (f.code (f.sumWord nan a b))) := by
  have hnormal : ∀ {v}, f.code v < f.infinity → ¬ f.code v < 2 ^ f.mantWidth → f.number v ≠ 0 ∧
      (f.negative v = true ↔ f.number v < 0) ∧ f.Flushed |f.number v| (f.code v) := by
    intro v hv hlow
    obtain ⟨hne, hsign, habs⟩ := number_neg ((Nat.two_pow_pos _).trans_le (not_lt.mp hlow))
    rw [habs]
    exact ⟨hne, hsign.symm, flushed_value (not_lt.mp hlow) hv⟩
  have hnan : ¬ f.NanSum a b := by
    unfold NanSum
    omega
  unfold sumWord
  rw [if_neg hnan, if_neg ha.ne, if_neg hb.ne]
  unfold operand
  by_cases hza : f.code a < 2 ^ f.mantWidth <;> by_cases hzb : f.code b < 2 ^ f.mantWidth
  · simp only [hza, hzb, if_true, true_and, and_self, add_zero, ne_eq, not_true, false_implies,
      forall_const, and_true]
    cases f.negative a <;> cases f.negative b <;> simp
  · obtain ⟨hne, hrest⟩ := hnormal hb hzb
    simp only [hza, hzb, if_true, if_false, and_false, zero_add]
    exact ⟨fun h => absurd h hne, fun _ => hrest⟩
  · obtain ⟨hne, hrest⟩ := hnormal ha hza
    simp only [hza, hzb, if_true, if_false, false_and, add_zero]
    exact ⟨fun h => absurd h hne, fun _ => hrest⟩
  · simp only [hza, hzb, if_false, false_and]
    split_ifs with hless
    · rw [add_comm]
      exact orderedSum_rounds (not_lt.mp hzb) (not_lt.mp hza) hless.le
    · exact orderedSum_rounds (not_lt.mp hza) (not_lt.mp hzb) (not_lt.mp hless)

end

/-! ## Between formats -/

theorem value_infinity (f : FloatFormat) : f.value f.infinity = 2 ^ (f.bias + 1) := by
  have hpos := Nat.two_pow_pos f.mantWidth
  have hexp := f.expMax_eq
  unfold value infinity
  rw [Nat.mul_div_cancel _ hpos, Nat.mul_mod_left, if_neg (by omega), Nat.add_zero, Nat.cast_pow,
    Nat.cast_ofNat, ← zpow_natCast, ← zpow_natCast, ← zpow_add₀ two_ne_zero, hexp]
  congr 1
  push_cast
  ring

/-- A format with more bits in both fields has every number of the other. -/
theorem exists_wide {s d : FloatFormat} (hexp : s.expWidth ≤ d.expWidth)
    (hmant : s.mantWidth ≤ d.mantWidth) {V : Nat} (hV : V < s.infinity) :
    ∃ E < d.infinity, d.value E = s.value V := by
  have hbias : s.bias ≤ d.bias :=
    Nat.sub_le_sub_right (Nat.pow_le_pow_right (by decide) (by omega)) 1
  obtain ⟨c, r, rfl, hc, hr⟩ := exists_turn s.mantWidth V
  have hfits : r < 2 ^ (d.mantWidth + 1) :=
    hr.trans_le (Nat.pow_le_pow_right (by decide) (Nat.succ_le_succ hmant))
  obtain ⟨E, hE⟩ := exists_steps hfits (c + (d.bias - s.bias + (d.mantWidth - s.mantWidth)))
  have hvalue : d.value E = s.value (c * 2 ^ s.mantWidth + r) := by
    rw [value_eq, value_eq, hE, steps_add hc hr.le]
    unfold unit
    push_cast
    rw [mul_assoc, mul_assoc, ← zpow_natCast, ← zpow_natCast, ← zpow_add₀ two_ne_zero,
      ← zpow_add₀ two_ne_zero]
    congr 2
    push_cast [Nat.cast_sub hbias, Nat.cast_sub hmant]
    ring
  refine ⟨E, ?_, hvalue⟩
  rw [← value_strictMono.lt_iff_lt, hvalue, value_infinity]
  calc s.value (c * 2 ^ s.mantWidth + r) < s.value s.infinity := value_strictMono hV
    _ = 2 ^ (s.bias + 1) := value_infinity s
    _ ≤ 2 ^ (d.bias + 1) := pow_le_pow_right₀ one_le_two (by omega)

end FloatFormat

end CppHdl
