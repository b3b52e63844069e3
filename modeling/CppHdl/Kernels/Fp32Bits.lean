import CppHdl.Kernels.FpConvertBits
import CppHdl.Lib.FloatFormat

/-!
# FP32 on raw bits

`Fp32BitsMethods`: sums and products of 32-bit patterns with integer operations only.
Values with a zero exponent count as zeros, results below the normal numbers are
flushed to zero, and every NaN is the canonical one.
-/

namespace CppHdl.Kernels

open FloatFormat

def fp32 : FloatFormat := ⟨8, 23, by decide, by decide⟩

namespace Fp32BitsMethods

/-- One test of `leading_zeros`: the count so far and the word. -/
def narrow (s : Nat × Nat) (top n : Nat) : Nat × Nat :=
  if s.2 >>> top = 0 then (s.1 + n, s.2 <<< n % 2 ^ 32) else s

def leadingZeros (x : Nat) : Nat :=
  if x = 0 then 32
  else (narrow (narrow (narrow (narrow (narrow (0, x) 16 16) 24 8) 28 4) 30 2) 31 1).1

def shiftJam (x shift : Nat) : Nat :=
  if shift = 0 then x
  else if 64 ≤ shift then (x != 0).toNat
  else x >>> shift ||| (x &&& (1 <<< shift - 1) != 0).toNat

def fp32Round (sign : Nat) (exp : Int) (mant : Nat) : Nat :=
  let retained := mant >>> 3
  let tail := mant &&& 7
  let rounded := if 4 < tail ∨ tail = 4 ∧ retained % 2 = 1 then retained + 1 else retained
  let carried := 1 <<< 24 ≤ rounded
  let significand := if carried then rounded >>> 1 else rounded
  let exponent := if carried then exp + 1 else exp
  if 255 ≤ exponent then sign ||| 0x7f800000
  else if exponent ≤ 0 then sign
  else sign ||| exponent.toNat <<< 23 ||| significand &&& 0x7fffff

/-- `fp32_add` after the swap: two normal numbers, the larger magnitude first. -/
def addOrdered (a b : Nat) : Nat :=
  let ea := a >>> 23 &&& 255
  let eb := b >>> 23 &&& 255
  let sa := a &&& 0x80000000
  let sb := b &&& 0x80000000
  let aa := (a &&& 0x7fffff ||| 0x800000) <<< 3
  let bb := shiftJam ((b &&& 0x7fffff ||| 0x800000) <<< 3) (ea - eb)
  let sum := if sa = sb then aa + bb else aa - bb
  if sum = 0 then 0
  else if sum &&& 1 <<< 27 ≠ 0 then fp32Round sa (ea + 1) (shiftJam sum 1)
  else
    let shift := leadingZeros (sum % 2 ^ 32) - 5
    fp32Round sa (ea - shift) (u64 (sum <<< shift))

def fp32Add (a b : Nat) : Nat :=
  let ea := a >>> 23 &&& 255
  let eb := b >>> 23 &&& 255
  let sa := a &&& 0x80000000
  let sb := b &&& 0x80000000
  let ma := a &&& 0x7fffff
  let mb := b &&& 0x7fffff
  if ea = 255 ∧ ma ≠ 0 ∨ eb = 255 ∧ mb ≠ 0 ∨ ea = 255 ∧ eb = 255 ∧ sa ≠ sb then 0x7fc00000
  else if ea = 255 then a
  else if eb = 255 then b
  else if ea = 0 ∧ eb = 0 then sa &&& sb
  else if ea = 0 then b
  else if eb = 0 then a
  else if a &&& 0x7fffffff < b &&& 0x7fffffff then addOrdered b a
  else addOrdered a b

def fp32Multiply (a b : Nat) : Nat :=
  let ea := a >>> 23 &&& 255
  let eb := b >>> 23 &&& 255
  let ma := a &&& 0x7fffff
  let mb := b &&& 0x7fffff
  let sign := (a ^^^ b) &&& 0x80000000
  if ea = 255 ∧ ma ≠ 0 ∨ eb = 255 ∧ mb ≠ 0 ∨ ea = 255 ∧ eb = 0 ∨ eb = 255 ∧ ea = 0 then 0x7fc00000
  else if ea = 255 ∨ eb = 255 then sign ||| 0x7f800000
  else if ea = 0 ∨ eb = 0 then sign
  else
    let product := (ma ||| 0x800000) * (mb ||| 0x800000)
    let exponent : Int := (ea : Int) + eb - 127
    if product &&& 1 <<< 47 ≠ 0 then fp32Round sign (exponent + 1) (shiftJam product 21)
    else fp32Round sign exponent (shiftJam product 20)

/-! ## Leading zeros -/

/-- The word has been shifted by the count, and has fewer than `k` leading zeros. -/
def Narrowed (x k : Nat) (s : Nat × Nat) : Prop :=
  s.2 = x * 2 ^ s.1 ∧ s.2 < 2 ^ 32 ∧ 2 ^ 32 ≤ s.2 * 2 ^ k

theorem Narrowed.narrow {x n top : Nat} {s : Nat × Nat} (h : Narrowed x (n + n) s)
    (htop : top + n = 32) : Narrowed x n (narrow s top n) := by
  obtain ⟨hshift, hlt, hle⟩ := h
  have hsplit : 2 ^ top * 2 ^ n = 2 ^ 32 := by rw [← Nat.pow_add, htop]
  unfold Fp32BitsMethods.narrow
  rw [Nat.shiftRight_eq_div_pow]
  split_ifs with hlow
  · rw [Nat.div_eq_zero_iff_lt (Nat.two_pow_pos _)] at hlow
    have hfits : s.2 * 2 ^ n < 2 ^ 32 := by
      rw [← hsplit]
      exact Nat.mul_lt_mul_of_pos_right hlow (Nat.two_pow_pos n)
    refine ⟨?_, Nat.mod_lt _ (by decide), ?_⟩
    · rw [Nat.shiftLeft_eq, Nat.mod_eq_of_lt hfits, hshift, Nat.pow_add, Nat.mul_assoc]
    · rw [Nat.shiftLeft_eq, Nat.mod_eq_of_lt hfits, Nat.mul_assoc, ← Nat.pow_add]
      exact hle
  · rw [Nat.div_eq_zero_iff_lt (Nat.two_pow_pos _)] at hlow
    refine ⟨hshift, hlt, ?_⟩
    rw [← hsplit]
    exact Nat.mul_le_mul_right _ (not_lt.mp hlow)

/-- Shifted by its leading zeros a word has its highest bit set. -/
theorem leadingZeros_spec {x : Nat} (hx : x ≠ 0) (hlt : x < 2 ^ 32) :
    2 ^ 31 ≤ x * 2 ^ leadingZeros x ∧ x * 2 ^ leadingZeros x < 2 ^ 32 := by
  have h0 : Narrowed x (16 + 16) (0, x) := ⟨by rw [Nat.pow_zero, Nat.mul_one], hlt, by
    exact Nat.le_mul_of_pos_left _ (Nat.pos_of_ne_zero hx)⟩
  have h16 : Narrowed x (8 + 8) (narrow (0, x) 16 16) := h0.narrow rfl
  have h24 : Narrowed x (4 + 4) (narrow (narrow (0, x) 16 16) 24 8) := h16.narrow rfl
  have h28 : Narrowed x (2 + 2) (narrow (narrow (narrow (0, x) 16 16) 24 8) 28 4) := h24.narrow rfl
  have h30 : Narrowed x (1 + 1) (narrow (narrow (narrow (narrow (0, x) 16 16) 24 8) 28 4) 30 2) :=
    h28.narrow rfl
  obtain ⟨hshift, hfits, hle⟩ := h30.narrow (rfl : 31 + 1 = 32)
  unfold leadingZeros
  rw [if_neg hx, ← hshift]
  exact ⟨by omega, hfits⟩

/-! ## Rounding -/

theorem shiftJam_eq {x : Nat} (hx : x < 2 ^ 64) (k : Nat) : shiftJam x k = jam x k := by
  unfold shiftJam jam
  by_cases hk : k = 0
  · rw [if_pos hk, hk, Nat.pow_zero, Nat.mod_one, if_pos rfl, Nat.div_one]
  rw [if_neg hk]
  by_cases hfar : 64 ≤ k
  · have hlt : x < 2 ^ k := hx.trans_le (Nat.pow_le_pow_right (by decide) hfar)
    rw [if_pos hfar, Nat.mod_eq_of_lt hlt, Nat.div_eq_of_lt hlt]
    by_cases hzero : x = 0 <;> simp [hzero]
  · rw [if_neg hfar, Nat.one_shiftLeft, Nat.and_two_pow_sub_one_eq_mod, Nat.shiftRight_eq_div_pow]
    by_cases hrest : x % 2 ^ k = 0
    · rw [if_pos hrest, hrest]
      exact Nat.or_zero _
    · rw [if_neg hrest, bne_iff_ne.mpr hrest]
      rfl

theorem fp32Round_eq {s : Bool} {exp : Int} {mant : Nat} (hlo : 2 ^ 26 ≤ mant)
    (hhi : mant < 2 ^ 27) :
    fp32Round (s.toNat * 2 ^ 31) exp mant =
      s.toNat * 2 ^ 31 + fp32.flushCode exp (roundDiv mant 8) := by
  have hround : (if 4 < mant &&& 7 ∨ mant &&& 7 = 4 ∧ mant >>> 3 % 2 = 1 then mant >>> 3 + 1
      else mant >>> 3) = roundDiv mant 8 := by
    rw [show (7 : Nat) = 2 ^ 3 - 1 from rfl, Nat.and_two_pow_sub_one_eq_mod,
      Nat.shiftRight_eq_div_pow]
    unfold roundDiv
    refine if_congr ?_ rfl rfl
    omega
  have hR : 2 ^ 23 ≤ roundDiv mant 8 ∧ roundDiv mant 8 ≤ 2 ^ 24 := by
    unfold roundDiv
    split_ifs <;> omega
  unfold fp32Round
  dsimp only
  rw [hround]
  generalize roundDiv mant 8 = R at hR
  have hcode : fp32.flushCode exp R =
      if (255 : ℤ) ≤ (if 2 ^ 24 ≤ R then exp + 1 else exp) then 0x7f800000
      else if (if 2 ^ 24 ≤ R then exp + 1 else exp) ≤ 0 then 0
      else (if 2 ^ 24 ≤ R then exp + 1 else exp).toNat * 2 ^ 23 +
        (if 2 ^ 24 ≤ R then R / 2 else R) % 2 ^ 23 := flushCode_eq hR.1 hR.2
  have hhalf : (if 2 ^ 24 ≤ R then R >>> 1 else R) &&& 0x7fffff =
      (if 2 ^ 24 ≤ R then R / 2 else R) % 2 ^ 23 := Nat.and_two_pow_sub_one_eq_mod _ 23
  rw [hcode, Nat.one_shiftLeft, hhalf]
  have hrest : (if 2 ^ 24 ≤ R then R / 2 else R) % 2 ^ 23 < 2 ^ 23 := Nat.mod_lt _ (by decide)
  generalize (if 2 ^ 24 ≤ R then R / 2 else R) % 2 ^ 23 = r at hrest ⊢
  generalize (if 2 ^ 24 ≤ R then exp + 1 else exp) = e
  split_ifs with hover hzero
  · exact sign_or (by decide)
  · exact (Nat.add_zero _).symm
  · have hexp : e.toNat < 255 := by omega
    rw [Nat.or_assoc, fields_or hrest, sign_or (by omega)]

/-! ## Products -/

variable {a b : Nat}

theorem fields32 (a : Nat) : a >>> 23 &&& 255 = fp32.code a / 2 ^ 23 ∧
    a &&& 0x7fffff = fp32.code a % 2 ^ 23 ∧
    a &&& 0x80000000 = (fp32.negative a).toNat * 2 ^ 31 ∧ a &&& 0x7fffffff = fp32.code a :=
  ⟨(fp32.fields a).1, (fp32.fields a).2, fp32.sign_field a, Nat.and_two_pow_sub_one_eq_mod a 31⟩

/-- The code is the exponent field and the mantissa. -/
theorem code_split (a : Nat) : fp32.code a = fp32.code a / 2 ^ 23 * 2 ^ 23 + fp32.code a % 2 ^ 23 ∧
    fp32.code a < 2 ^ 31 ∧ fp32.code a / 2 ^ 23 ≤ 255 := by
  have hlt : fp32.code a < 2 ^ 31 := code_lt a
  omega

theorem significand_or {m : Nat} (hm : m < 2 ^ 23) : m ||| 0x800000 = 2 ^ 23 + m := by
  rw [Nat.or_comm]
  exact hidden_or hm

theorem xor_sign (a b : Nat) : (a ^^^ b) &&& 0x80000000 =
    (fp32.negative a ^^ fp32.negative b).toNat * 2 ^ 31 := by
  refine (fp32.sign_field (a ^^^ b)).trans ?_
  unfold negative
  rw [Nat.testBit_xor]
  rfl

/-- `fp32_round` of a jammed significand is the flushed rounding of the exact one. -/
theorem fp32Round_jam {P k : Nat} {oe : ℤ} (s : Bool) (hlo : 2 ^ 26 * 2 ^ k ≤ P)
    (hhi : P < 2 ^ 27 * 2 ^ k) : ∃ E, fp32.Flushed (P * 2 ^ (oe - 153 - k : ℤ)) E ∧
      fp32Round (s.toNat * 2 ^ 31) oe (jam P k) = s.toNat * 2 ^ 31 + E := by
  have hjam := le_jam hlo
  have hjam' := jam_lt hhi (by decide)
  refine ⟨_, ?_, fp32Round_eq hjam hjam'⟩
  have hunit : 2 ^ (3 + k) = 8 * 2 ^ k := Nat.pow_add 2 3 k
  rw [roundDiv_jam (by decide) (by decide), ← hunit]
  have hvalue : (oe - 153 - k : ℤ) = oe - (3 + k : Nat) - fp32.bias - fp32.mantWidth := by
    have hbias : (fp32.bias : ℤ) = 127 := rfl
    have hmant : (fp32.mantWidth : ℤ) = 23 := rfl
    rw [hbias, hmant]
    push_cast
    ring
  rw [hvalue]
  refine flushed_roundDiv ?_ ?_
  · rw [hunit, show fp32.mantWidth = 23 from rfl]
    omega
  · rw [hunit, show fp32.mantWidth = 23 from rfl]
    omega

theorem value_fields (h : fp32.code a / 2 ^ 23 ≠ 0) : fp32.value (fp32.code a) =
    (2 ^ 23 + fp32.code a % 2 ^ 23 : Nat) * 2 ^ ((fp32.code a / 2 ^ 23 : Nat) - 150 : ℤ) := by
  refine (@value_of_fields fp32 _ h).trans ?_
  rw [sub_sub]
  rfl

theorem fp32Multiply_normal (ha : 2 ^ 23 ≤ fp32.code a) (ha' : fp32.code a < fp32.infinity)
    (hb : 2 ^ 23 ≤ fp32.code b) (hb' : fp32.code b < fp32.infinity) :
    ∃ E, fp32.Flushed (fp32.value (fp32.code a) * fp32.value (fp32.code b)) E ∧
      fp32Multiply a b = (fp32.negative a ^^ fp32.negative b).toNat * 2 ^ 31 + E := by
  have hinf : fp32.infinity = 255 * 2 ^ 23 := rfl
  have hea : fp32.code a / 2 ^ 23 ≠ 0 ∧ fp32.code a / 2 ^ 23 ≠ 255 := by omega
  have heb : fp32.code b / 2 ^ 23 ≠ 0 ∧ fp32.code b / 2 ^ 23 ≠ 255 := by omega
  have hma := Nat.mod_lt (fp32.code a) (Nat.two_pow_pos 23)
  have hmb := Nat.mod_lt (fp32.code b) (Nat.two_pow_pos 23)
  obtain ⟨hexpa, hmanta, -, -⟩ := fields32 a
  obtain ⟨hexpb, hmantb, -, -⟩ := fields32 b
  unfold fp32Multiply
  dsimp only
  rw [hexpa, hexpb, hmanta, hmantb, significand_or hma, significand_or hmb, xor_sign,
    if_neg (by omega), if_neg (by omega), if_neg (by omega),
    value_fields hea.1, value_fields heb.1]
  generalize fp32.code a / 2 ^ 23 = ea
  generalize fp32.code b / 2 ^ 23 = eb
  obtain ⟨A, hA⟩ : ∃ A, A = 2 ^ 23 + fp32.code a % 2 ^ 23 := ⟨_, rfl⟩
  obtain ⟨B, hB⟩ : ∃ B, B = 2 ^ 23 + fp32.code b % 2 ^ 23 := ⟨_, rfl⟩
  rw [← hA, ← hB]
  have hlo : 2 ^ 46 ≤ A * B := by
    calc 2 ^ 46 = 2 ^ 23 * 2 ^ 23 := by norm_num
      _ ≤ A * B := Nat.mul_le_mul (by omega) (by omega)
  have hhi : A * B < 2 ^ 48 := by
    calc A * B < 2 ^ 24 * 2 ^ 24 := Nat.mul_lt_mul'' (by omega) (by omega)
      _ = 2 ^ 48 := by norm_num
  have hvalue : (A * 2 ^ (ea - 150 : ℤ) * (B * 2 ^ (eb - 150 : ℤ)) : ℚ) =
      (A * B : Nat) * 2 ^ ((ea : ℤ) + eb - 300) := by
    rw [mul_mul_mul_comm, ← zpow_add₀ two_ne_zero, Nat.cast_mul]
    congr 2
    ring
  rw [hvalue]
  generalize A * B = P at hlo hhi
  have hword : P < 2 ^ 64 := hhi.trans (by decide)
  rw [shiftJam_eq hword, shiftJam_eq hword]
  -- the product has 47 or 48 bits
  by_cases htop : P &&& 1 <<< 47 ≠ 0
  · rw [if_pos htop]
    rw [and_top hhi] at htop
    convert fp32Round_jam _ (k := 21) (by omega) (by omega) using 6
    push_cast
    ring
  · rw [if_neg htop]
    rw [and_top hhi] at htop
    convert fp32Round_jam _ (k := 20) (by omega) (by omega) using 6
    push_cast
    ring

theorem abs_operand (h : 2 ^ fp32.mantWidth ≤ fp32.code a) :
    fp32.operand a ≠ 0 ∧ |fp32.operand a| = fp32.value (fp32.code a) := by
  obtain ⟨hne, -, habs⟩ := number_neg ((Nat.two_pow_pos _).trans_le h)
  unfold operand
  rw [if_neg (not_lt.mpr h)]
  exact ⟨hne, habs⟩

/-- The product is no number: an operand is none, or infinity meets a zero. -/
abbrev NanProduct (a b : Nat) : Prop :=
  fp32.infinity < fp32.code a ∨ fp32.infinity < fp32.code b ∨
    fp32.code a = fp32.infinity ∧ fp32.code b < 2 ^ fp32.mantWidth ∨
    fp32.code b = fp32.infinity ∧ fp32.code a < 2 ^ fp32.mantWidth

theorem fp32Multiply_nan (h : NanProduct a b) : fp32Multiply a b = 0x7fc00000 := by
  obtain ⟨-, ha, hea⟩ := code_split a
  obtain ⟨-, hb, heb⟩ := code_split b
  have hinf : fp32.infinity = 255 * 2 ^ 23 := rfl
  have hmant : fp32.mantWidth = 23 := rfl
  unfold NanProduct at h
  rw [hmant] at h
  obtain ⟨hexpa, hmanta, -, -⟩ := fields32 a
  obtain ⟨hexpb, hmantb, -, -⟩ := fields32 b
  unfold fp32Multiply
  dsimp only
  rw [hexpa, hexpb, hmanta, hmantb, if_pos (by omega)]

/-- A product that is a number is infinite, or the rounded product of the operands. -/
theorem fp32Multiply_rounds (h : ¬ NanProduct a b) : ∃ E ≤ fp32.infinity,
    fp32Multiply a b = (fp32.negative a ^^ fp32.negative b).toNat * 2 ^ 31 + E ∧
      (fp32.code a = fp32.infinity ∨ fp32.code b = fp32.infinity → E = fp32.infinity) ∧
      (fp32.code a < fp32.infinity → fp32.code b < fp32.infinity →
        (fp32.operand a * fp32.operand b = 0 → E = 0) ∧
        (fp32.operand a * fp32.operand b ≠ 0 →
          fp32.Flushed |fp32.operand a * fp32.operand b| E)) := by
  obtain ⟨-, hla, hea⟩ := code_split a
  obtain ⟨-, hlb, heb⟩ := code_split b
  have hinf : fp32.infinity = 255 * 2 ^ 23 := rfl
  have hmant : fp32.mantWidth = 23 := rfl
  unfold NanProduct at h
  rw [hmant] at h
  by_cases hnormal : 2 ^ 23 ≤ fp32.code a ∧ fp32.code a < fp32.infinity ∧
      2 ^ 23 ≤ fp32.code b ∧ fp32.code b < fp32.infinity
  · obtain ⟨ha, ha', hb, hb'⟩ := hnormal
    obtain ⟨E, hrounds, hword⟩ := fp32Multiply_normal ha ha' hb hb'
    obtain ⟨hne, habs⟩ := abs_operand ha
    obtain ⟨hne', habs'⟩ := abs_operand hb
    refine ⟨E, hrounds.le, hword, fun hi => by omega, fun _ _ => ⟨fun hz => ?_, fun _ => ?_⟩⟩
    · exact absurd hz (mul_ne_zero hne hne')
    · rw [abs_mul, habs, habs']
      exact hrounds
  · obtain ⟨hexpa, hmanta, -, -⟩ := fields32 a
    obtain ⟨hexpb, hmantb, -, -⟩ := fields32 b
    unfold fp32Multiply
    dsimp only
    rw [hexpa, hexpb, hmanta, hmantb, xor_sign, if_neg (by omega)]
    by_cases hi : fp32.code a / 2 ^ 23 = 255 ∨ fp32.code b / 2 ^ 23 = 255
    · have htop : (0x7f800000 : Nat) = fp32.infinity := by omega
      rw [if_pos hi, htop, sign_or (by decide)]
      exact ⟨fp32.infinity, Nat.le_refl _, rfl, fun _ => rfl, fun ha hb => by omega⟩
    · rw [if_neg hi, if_pos (by omega)]
      refine ⟨0, Nat.zero_le _, (Nat.add_zero _).symm, fun hi' => by omega, fun _ _ =>
        ⟨fun _ => rfl, fun hne => ?_⟩⟩
      have hzero : fp32.operand a * fp32.operand b = 0 := by
        rcases (by omega : fp32.code a < 2 ^ 23 ∨ fp32.code b < 2 ^ 23) with hz | hz
        · rw [show fp32.operand a = 0 from if_pos hz, zero_mul]
        · rw [show fp32.operand b = 0 from if_pos hz, mul_zero]
      exact absurd hzero hne

/-! ## Sums -/

theorem addOrdered_eq (a b : Nat) :
    addOrdered a b = if fp32.alignedSum a b = 0 then 0 else (fp32.negative a).toNat * 2 ^ 31 +
      fp32.sumCode (fp32.code a / 2 ^ 23) (fp32.alignedSum a b) := by
  have hma := Nat.mod_lt (fp32.code a) (Nat.two_pow_pos 23)
  have hmb := Nat.mod_lt (fp32.code b) (Nat.two_pow_pos 23)
  obtain ⟨hexpa, hmanta, hsigna, -⟩ := fields32 a
  obtain ⟨hexpb, hmantb, hsignb, -⟩ := fields32 b
  have hsign : (fp32.negative a).toNat * 2 ^ 31 = (fp32.negative b).toNat * 2 ^ 31 ↔
      fp32.negative a = fp32.negative b := by
    cases fp32.negative a <;> cases fp32.negative b <;> decide
  have hsum : (if (fp32.negative a).toNat * 2 ^ 31 = (fp32.negative b).toNat * 2 ^ 31 then
        (2 ^ 23 + fp32.code a % 2 ^ 23) <<< 3 +
          shiftJam ((2 ^ 23 + fp32.code b % 2 ^ 23) <<< 3)
            (fp32.code a / 2 ^ 23 - fp32.code b / 2 ^ 23)
      else (2 ^ 23 + fp32.code a % 2 ^ 23) <<< 3 -
          shiftJam ((2 ^ 23 + fp32.code b % 2 ^ 23) <<< 3)
            (fp32.code a / 2 ^ 23 - fp32.code b / 2 ^ 23)) = fp32.alignedSum a b := by
    rw [Nat.shiftLeft_eq, Nat.shiftLeft_eq, shiftJam_eq (by omega)]
    exact if_congr hsign rfl rfl
  unfold addOrdered
  dsimp only
  rw [hexpa, hexpb, hmanta, hmantb, hsigna, hsignb, significand_or hma, significand_or hmb, hsum]
  have hlt : fp32.alignedSum a b < 2 ^ 28 := fp32.alignedSum_lt a b
  generalize fp32.alignedSum a b = S at hlt
  by_cases hzero : S = 0
  · rw [if_pos hzero, if_pos hzero]
  rw [if_neg hzero, if_neg hzero, shiftJam_eq (hlt.trans (by decide))]
  by_cases htop : S &&& 1 <<< 27 ≠ 0
  · rw [if_pos htop]
    have hbig := (and_top hlt).mp htop
    have hcode : fp32.sumCode (fp32.code a / 2 ^ 23) S =
        fp32.flushCode ((fp32.code a / 2 ^ 23 : Nat) + 1) (roundDiv (jam S 1) 8) := if_pos hbig
    rw [hcode]
    exact fp32Round_eq (le_jam (by omega)) (jam_lt (by omega) (by decide))
  · rw [if_neg htop]
    have hsmall := not_le.mp (mt (and_top hlt).mpr htop)
    have hmod : S % 2 ^ 32 = S := Nat.mod_eq_of_lt (by omega)
    obtain ⟨hlo, hhi⟩ := leadingZeros_spec hzero (by omega)
    rw [hmod]
    generalize leadingZeros S = n at hlo hhi
    have hn : 5 ≤ n := by
      by_contra hn
      have hpow : 2 ^ n ≤ 2 ^ 4 := Nat.pow_le_pow_right (by decide) (by omega)
      have := Nat.mul_le_mul_left S hpow
      omega
    obtain ⟨k, rfl⟩ := Nat.exists_eq_add_of_le hn
    rw [Nat.pow_add, Nat.mul_left_comm] at hlo hhi
    have hfirst : 2 ^ 26 ≤ S * 2 ^ k := by omega
    have hlast : S * 2 ^ k < 2 ^ 27 := by omega
    have hcode : fp32.sumCode (fp32.code a / 2 ^ 23) S =
        fp32.flushCode ((fp32.code a / 2 ^ 23 : Nat) - k) (roundDiv (S * 2 ^ k) 8) :=
      sumCode_shifted hfirst hlast
    rw [hcode, Nat.add_sub_cancel_left, Nat.shiftLeft_eq, u64, Nat.mod_eq_of_lt (by omega)]
    exact fp32Round_eq hfirst hlast

end Fp32BitsMethods

end CppHdl.Kernels
