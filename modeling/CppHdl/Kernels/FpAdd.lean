import CppHdl.Kernels.FpConvertBits
import CppHdl.Lib.FloatFormat
import Mathlib.Logic.Function.Iterate

/-!
# The registered adder

`FpAdd`: the operands are aligned and negated before a register, the registered sum is
normalized and rounded after it. Exponent-zero values are flushed to zero, and every
NaN has the payload 1.
-/

namespace CppHdl.Kernels

open FloatFormat

/-- The formats that the module admits. -/
structure FpAddFormat extends FloatFormat where
  width_le : toFloatFormat.width ≤ 32
  expWidth_ge : 2 ≤ expWidth

namespace FpAdd

structure Regs where
  sum : Nat
  exponent : Nat
  specialResult : Nat
  special : Bool

section

variable (f : FloatFormat)

def sumWidth : Nat := (f.mantWidth + 6 + 7) / 8 * 8

def mantMask : Nat := 1 <<< f.mantWidth - 1

def expMask : Nat := 1 <<< f.expWidth - 1

def signMask : Nat := 1 <<< (f.width - 1)

def sumMask : Nat := 1 <<< sumWidth f - 1

def exponentOf (raw : Nat) : Nat := raw >>> f.mantWidth &&& expMask f

def specialComb (a b : Nat) : Bool :=
  exponentOf f a = 0 ∨ exponentOf f b = 0 ∨ exponentOf f a = expMask f ∨ exponentOf f b = expMask f

/-- One operand beside the other: its significand at the larger exponent, negated under
its sign. -/
def alignComb (raw other : Nat) : Nat :=
  if specialComb f raw other then 0
  else
    let significand := (1 <<< f.mantWidth ||| raw &&& mantMask f) <<< 3
    let shift := exponentOf f other - exponentOf f raw
    let aligned :=
      if exponentOf f raw < exponentOf f other then
        if sumWidth f ≤ shift then if significand ≠ 0 then 1 else 0
        else if shift ≠ 0 then
          if significand &&& (1 <<< shift - 1) ≠ 0 then significand >>> shift ||| 1
          else significand >>> shift
        else significand
      else significand
    let encoded := if raw &&& signMask f ≠ 0 then (2 ^ 64 - aligned) % 2 ^ 64 &&& sumMask f
      else aligned
    encoded % 2 ^ sumWidth f

def addLhsComb (a b : Nat) : Nat := alignComb f a b

def addRhsComb (a b : Nat) : Nat := alignComb f b a

def exponentComb (a b : Nat) : Nat :=
  let ea := exponentOf f a
  let eb := exponentOf f b
  if ea ≠ 0 ∧ eb ≠ 0 ∧ ea ≠ expMask f ∧ eb ≠ expMask f then
    (if eb ≤ ea then ea else eb) % 2 ^ f.expWidth
  else 0

def specialResultComb (a b : Nat) : Nat :=
  let ea := exponentOf f a
  let eb := exponentOf f b
  let signA := a &&& signMask f
  let signB := b &&& signMask f
  let infinityA := ea = expMask f ∧ a &&& mantMask f = 0
  let infinityB := eb = expMask f ∧ b &&& mantMask f = 0
  let nanA := ea = expMask f ∧ a &&& mantMask f ≠ 0
  let nanB := eb = expMask f ∧ b &&& mantMask f ≠ 0
  let resultWide :=
    if nanA ∨ nanB ∨ infinityA ∧ infinityB ∧ ¬ (signA ≠ 0 ↔ signB ≠ 0) then
      expMask f <<< f.mantWidth ||| 1
    else if infinityA then (if signA ≠ 0 then signMask f else 0) ||| expMask f <<< f.mantWidth
    else if infinityB then (if signB ≠ 0 then signMask f else 0) ||| expMask f <<< f.mantWidth
    else if ea = 0 ∧ eb = 0 then if signA ≠ 0 ∧ signB ≠ 0 then signMask f else 0
    else if ea = 0 then b
    else if eb = 0 then a
    else 0
  resultWide % 2 ^ f.width

/-- What an enabled clock puts into the registers. -/
def latched (a b : Nat) : Regs :=
  { sum := (addLhsComb f a b + addRhsComb f a b) % 2 ^ sumWidth f
    exponent := exponentComb f a b
    specialResult := specialResultComb f a b
    special := specialComb f a b }

def work (s : Regs) (a b : Nat) (en reset : Bool) : Regs :=
  if reset then ⟨0, 0, 0, false⟩ else if en then latched f a b else s

def normalizeStep (s : Nat × Int) : Nat × Int :=
  if s.1 &&& 1 <<< (f.mantWidth + 3) = 0 ∧ s.1 ≠ 0 ∧ 0 < s.2 then (u64 (s.1 <<< 1), s.2 - 1)
  else s

/-- The end of `result_comb`: the normalized magnitude and its exponent. -/
def packComb (negative : Bool) (s : Nat × Int) : Nat :=
  let sign := if negative then signMask f else 0
  if s.2 ≤ 0 then sign
  else if (expMask f : Int) ≤ s.2 then sign ||| expMask f <<< f.mantWidth
  else
    let retained := s.1 >>> 3
    let guard := s.1 >>> 2 &&& 1 ≠ 0
    let round := s.1 >>> 1 &&& 1 ≠ 0
    let sticky := s.1 &&& 1 ≠ 0
    let rounded := if guard ∧ (round ∨ sticky ∨ retained &&& 1 ≠ 0) then retained + 1 else retained
    let carried := 1 <<< (f.mantWidth + 1) ≤ rounded
    let significand := if carried then rounded >>> 1 else rounded
    let exponent := if carried then s.2 + 1 else s.2
    if (expMask f : Int) ≤ exponent then sign ||| expMask f <<< f.mantWidth
    else sign ||| exponent.toNat <<< f.mantWidth ||| significand &&& mantMask f

/-- `result_comb` for a magnitude other than zero. -/
def roundComb (negative : Bool) (magnitude : Nat) (exponent : Int) : Nat :=
  let start : Nat × Int :=
    if magnitude &&& 1 <<< (f.mantWidth + 4) ≠ 0 then
      (if magnitude &&& 1 ≠ 0 then magnitude >>> 1 ||| 1 else magnitude >>> 1, exponent + 1)
    else (magnitude, exponent)
  packComb f negative ((normalizeStep f)^[32] start)

def resultComb (s : Regs) : Nat :=
  let negative := decide (s.sum &&& 1 <<< (sumWidth f - 1) ≠ 0)
  let magnitude := if negative then (2 ^ 64 - s.sum) % 2 ^ 64 &&& sumMask f else s.sum
  let resultRaw :=
    if s.special then s.specialResult
    else if magnitude = 0 then 0
    else roundComb f negative magnitude s.exponent
  resultRaw % 2 ^ f.width

end

/-! ## Normalization and rounding -/

section

variable {f : FloatFormat}

theorem normalizeStep_done {S : Nat} (e : Int) (hlo : 2 ^ (f.mantWidth + 3) ≤ S)
    (hhi : S < 2 ^ (f.mantWidth + 4)) : normalizeStep f (S, e) = (S, e) := by
  unfold normalizeStep
  exact if_neg fun h => (and_top hhi).mpr hlo h.1

/-- The turns shift the highest one in front, as far as the exponent goes. -/
theorem normalize_iterate {n S k e : Nat} (hm : f.mantWidth + 4 ≤ 64)
    (hlo : 2 ^ (f.mantWidth + 3) ≤ S * 2 ^ k) (hhi : S * 2 ^ k < 2 ^ (f.mantWidth + 4))
    (hk : k ≤ n) :
    (normalizeStep f)^[n] (S, (e : Int)) = (S * 2 ^ min k e, ((e - min k e : Nat) : Int)) := by
  induction n generalizing S k e with
  | zero =>
      obtain rfl : k = 0 := Nat.le_zero.mp hk
      simp
  | succ n ih =>
      rw [Function.iterate_succ_apply]
      cases k with
      | zero =>
          rw [Nat.pow_zero, Nat.mul_one] at hlo hhi
          rw [normalizeStep_done _ hlo hhi]
          exact ih (by rwa [Nat.pow_zero, Nat.mul_one]) (by rwa [Nat.pow_zero, Nat.mul_one])
            (Nat.zero_le n)
      | succ k =>
          have hmove : S * 2 ^ (k + 1) = S * 2 * 2 ^ k := by rw [Nat.pow_succ]; ring
          rw [hmove] at hlo hhi
          have hdouble : S * 2 < 2 ^ (f.mantWidth + 4) :=
            (Nat.le_mul_of_pos_right _ (Nat.two_pow_pos k)).trans_lt hhi
          have hpow : 2 ^ (f.mantWidth + 4) = 2 ^ (f.mantWidth + 3) * 2 := Nat.pow_succ ..
          have hclear : S &&& 1 <<< (f.mantWidth + 3) = 0 := by
            by_contra hbit
            have := (and_top (by omega : S < 2 ^ (f.mantWidth + 3 + 1))).mp hbit
            omega
          have hne : S ≠ 0 := fun h => by
            rw [h, Nat.zero_mul] at hlo
            exact absurd (Nat.two_pow_pos _) (not_lt.mpr hlo)
          cases e with
          | zero =>
              have hstay : normalizeStep f (S, ((0 : Nat) : Int)) = (S, ((0 : Nat) : Int)) := by
                unfold normalizeStep
                exact if_neg fun h => absurd h.2.2 (lt_irrefl _)
              rw [hstay, Function.iterate_fixed hstay]
              simp
          | succ e =>
              have hword : S * 2 < 2 ^ 64 :=
                hdouble.trans_le (Nat.pow_le_pow_right (by decide) hm)
              have hstep : normalizeStep f (S, ((e + 1 : Nat) : Int)) = (S * 2, (e : Int)) := by
                unfold normalizeStep u64
                rw [if_pos ⟨hclear, hne, by omega⟩, Nat.shiftLeft_eq, Nat.pow_one,
                  Nat.mod_eq_of_lt hword]
                congr 1
                push_cast
                ring
              rw [hstep, ih hlo hhi (Nat.le_of_succ_le_succ hk), Nat.succ_min_succ, Nat.pow_succ]
              congr 1
              · ring
              · rw [Nat.succ_sub_succ]

theorem sign_mask (negative : Bool) :
    (if negative then signMask f else 0) = negative.toNat * 2 ^ (f.width - 1) := by
  unfold signMask
  rw [Nat.one_shiftLeft]
  cases negative
  · exact (Nat.zero_mul _).symm
  · exact (Nat.one_mul _).symm

theorem expMask_eq : expMask f = f.expMax := by
  unfold expMask expMax
  rw [Nat.one_shiftLeft]

theorem packComb_low (negative : Bool) {N : Nat} {e : Int} (he : e ≤ 0) :
    packComb f negative (N, e) = negative.toNat * 2 ^ (f.width - 1) := by
  unfold packComb
  rw [sign_mask]
  exact if_pos he

theorem packComb_eq (negative : Bool) {N : Nat} {e : Int} (hlo : 2 ^ (f.mantWidth + 3) ≤ N)
    (hhi : N < 2 ^ (f.mantWidth + 4)) (he : 0 < e) :
    packComb f negative (N, e) =
      negative.toNat * 2 ^ (f.width - 1) + f.flushCode e (roundDiv N 8) := by
  obtain ⟨hR, hR'⟩ := roundDiv_eight hlo hhi
  have hround : (if N >>> 2 &&& 1 ≠ 0 ∧ (N >>> 1 &&& 1 ≠ 0 ∨ N &&& 1 ≠ 0 ∨ N >>> 3 &&& 1 ≠ 0) then
      N >>> 3 + 1 else N >>> 3) = roundDiv N 8 := by
    simp only [Nat.shiftRight_eq_div_pow, Nat.and_one_is_mod]
    unfold roundDiv
    refine if_congr ?_ rfl rfl
    omega
  have hinf : f.expMax <<< f.mantWidth = f.infinity := Nat.shiftLeft_eq ..
  have hfits : f.infinity < 2 ^ (f.width - 1) := infinity_add_lt (Nat.two_pow_pos _)
  unfold packComb
  dsimp only
  rw [sign_mask, expMask_eq, hround, if_neg (not_le.mpr he), hinf, flushCode_eq hR hR',
    mantMask, Nat.one_shiftLeft, Nat.one_shiftLeft, Nat.and_two_pow_sub_one_eq_mod, sign_or hfits]
  generalize roundDiv N 8 = R
  rw [Nat.shiftRight_eq_div_pow, Nat.pow_one]
  have hrest : (if 2 ^ (f.mantWidth + 1) ≤ R then R / 2 else R) % 2 ^ f.mantWidth <
      2 ^ f.mantWidth := Nat.mod_lt _ (Nat.two_pow_pos _)
  generalize (if 2 ^ (f.mantWidth + 1) ≤ R then R / 2 else R) % 2 ^ f.mantWidth = r at hrest ⊢
  have hstep : e ≤ (if 2 ^ (f.mantWidth + 1) ≤ R then e + 1 else e) := by
    split_ifs <;> omega
  generalize (if 2 ^ (f.mantWidth + 1) ≤ R then e + 1 else e) = e' at hstep ⊢
  by_cases hover : (f.expMax : Int) ≤ e'
  · rw [if_pos hover, if_pos hover, ite_self]
  · rw [if_neg hover, if_neg hover, if_neg (by omega), if_neg (by omega)]
    have hexp : e'.toNat + 1 ≤ f.expMax := by omega
    have hcode : e'.toNat * 2 ^ f.mantWidth + r < 2 ^ (f.width - 1) := by
      refine lt_of_lt_of_le ?_ ((Nat.mul_le_mul_right (2 ^ f.mantWidth) hexp).trans hfits.le)
      rw [Nat.succ_mul]
      exact Nat.add_lt_add_left hrest _
    rw [Nat.or_assoc, fields_or hrest, sign_or hcode]

/-- A magnitude other than zero is normalized and rounded. Where the exponent is used
up no bit may be lost. -/
theorem roundComb_eq (negative : Bool) {S e : Nat} (hm : f.mantWidth ≤ 29) (hS : S ≠ 0)
    (hlt : S < 2 ^ (f.mantWidth + 5)) (he : 0 < e)
    (hexact : ∀ k, S * 2 ^ k < 2 ^ (f.mantWidth + 4) → e ≤ k → 8 ∣ S * 2 ^ k) :
    roundComb f negative S e = negative.toNat * 2 ^ (f.width - 1) + f.sumCode e S := by
  have hpow : 2 ^ (f.mantWidth + 5) = 2 ^ (f.mantWidth + 4) * 2 := Nat.pow_succ ..
  have hpow' : 2 ^ (f.mantWidth + 4) = 2 ^ (f.mantWidth + 3) * 2 := Nat.pow_succ ..
  unfold roundComb
  dsimp only
  by_cases htop : S &&& 1 <<< (f.mantWidth + 4) ≠ 0
  · rw [if_pos htop]
    have hbig := (and_top hlt).mp htop
    have hjam : (if S &&& 1 ≠ 0 then S >>> 1 ||| 1 else S >>> 1) = jam S 1 := by
      unfold jam
      rw [Nat.and_one_is_mod, Nat.shiftRight_eq_div_pow, Nat.pow_one]
      split_ifs <;> first | rfl | omega
    have hlo : 2 ^ (f.mantWidth + 3) ≤ jam S 1 := le_jam (by omega)
    have hhi : jam S 1 < 2 ^ (f.mantWidth + 4) := jam_lt (by omega) (dvd_pow_self 2 (by omega))
    have hcode : f.sumCode e S = f.flushCode (e + 1) (roundDiv (jam S 1) 8) := if_pos hbig
    rw [hjam, Function.iterate_fixed (normalizeStep_done _ hlo hhi), hcode]
    exact packComb_eq negative hlo hhi (by omega)
  · rw [if_neg htop]
    have hsmall := not_le.mp (mt (and_top hlt).mpr htop)
    obtain ⟨hlo, hhi⟩ := shift_bounds hS hsmall
    have hk : f.mantWidth + 3 - S.log2 ≤ 32 := by omega
    generalize f.mantWidth + 3 - S.log2 = k at hlo hhi hk
    rw [normalize_iterate (by omega) hlo hhi hk, sumCode_shifted hlo hhi]
    rcases Nat.lt_or_ge k e with hke | hke
    · rw [Nat.min_eq_left hke.le, packComb_eq negative hlo hhi (by omega), Nat.cast_sub hke.le]
    · obtain ⟨q, hq⟩ := hexact k hhi hke
      have hround : roundDiv (8 * q) 8 = q := by
        unfold roundDiv
        split_ifs <;> omega
      have hrange := roundDiv_eight hlo hhi
      have hexp := f.expMax_eq
      rw [hq, hround] at hrange
      rw [hq] at hhi
      have hsmall' : ¬ 2 ^ (f.mantWidth + 1) ≤ q := by
        have hscale : 2 ^ (f.mantWidth + 4) = 2 ^ (f.mantWidth + 1) * 8 := Nat.pow_add 2 (_ + 1) 3
        omega
      have hzero : f.flushCode (e - k) q = 0 := by
        rw [flushCode_eq hrange.1 hrange.2]
        simp only [hsmall', if_false]
        rw [if_neg (by omega), if_pos (by omega)]
      rw [Nat.min_eq_right hke, Nat.sub_self, packComb_low negative (by decide), hq, hround, hzero,
        Nat.add_zero]

/-! ## The registered sum -/

theorem exponentOf_eq (v : Nat) : exponentOf f v = f.code v / 2 ^ f.mantWidth := by
  unfold exponentOf expMask
  rw [Nat.one_shiftLeft]
  exact (f.fields v).1

theorem mantissa_eq (v : Nat) : v &&& mantMask f = f.code v % 2 ^ f.mantWidth := by
  unfold mantMask
  rw [Nat.one_shiftLeft]
  exact (f.fields v).2

theorem sign_ne_zero (v : Nat) : v &&& signMask f ≠ 0 ↔ f.negative v = true := by
  unfold signMask
  rw [Nat.one_shiftLeft, f.sign_field, Ne, Nat.mul_eq_zero, or_iff_left (Nat.two_pow_pos _).ne']
  cases f.negative v <;> decide

def Normal (f : FloatFormat) (v : Nat) : Prop := 2 ^ f.mantWidth ≤ f.code v ∧ f.code v < f.infinity

theorem Normal.exponent {v : Nat} (h : Normal f v) :
    0 < f.code v / 2 ^ f.mantWidth ∧ f.code v / 2 ^ f.mantWidth < f.expMax :=
  ⟨Nat.div_pos h.1 (Nat.two_pow_pos _), (Nat.div_lt_iff_lt_mul (Nat.two_pow_pos _)).mpr h.2⟩

theorem specialComb_eq {a b : Nat} (ha : Normal f a) (hb : Normal f b) :
    specialComb f a b = false := by
  obtain ⟨hlo, hhi⟩ := ha.exponent
  obtain ⟨hlo', hhi'⟩ := hb.exponent
  unfold specialComb
  rw [exponentOf_eq, exponentOf_eq, expMask_eq]
  exact decide_eq_false (by omega)

theorem exponentComb_eq {a b : Nat} (ha : Normal f a) (hb : Normal f b) :
    exponentComb f a b = max (f.code a / 2 ^ f.mantWidth) (f.code b / 2 ^ f.mantWidth) := by
  obtain ⟨hlo, hhi⟩ := ha.exponent
  obtain ⟨hlo', hhi'⟩ := hb.exponent
  have hword : f.expMax ≤ 2 ^ f.expWidth := Nat.sub_le _ _
  unfold exponentComb
  dsimp only
  rw [exponentOf_eq, exponentOf_eq, expMask_eq,
    if_pos ⟨hlo.ne', hlo'.ne', hhi.ne, hhi'.ne⟩]
  split_ifs with hle
  · rw [Nat.mod_eq_of_lt (hhi.trans_le hword), Nat.max_eq_left hle]
  · rw [Nat.mod_eq_of_lt (hhi'.trans_le hword), Nat.max_eq_right (not_le.mp hle).le]

/-- The complement in a word of 64 bits, masked. -/
theorem negate_word {x w : Nat} (hx : 0 < x) (hlt : x < 2 ^ w) (hw : w ≤ 64) :
    (2 ^ 64 - x) % 2 ^ 64 &&& (1 <<< w - 1) = 2 ^ w - x := by
  obtain ⟨q, hq⟩ := Nat.exists_eq_succ_of_ne_zero (Nat.two_pow_pos (64 - w)).ne'
  have hword : 2 ^ 64 - x = 2 ^ w * q + (2 ^ w - x) := by
    rw [show 2 ^ 64 = 2 ^ w * 2 ^ (64 - w) by rw [← Nat.pow_add, Nat.add_sub_cancel' hw], hq,
      Nat.mul_succ]
    omega
  rw [Nat.mod_eq_of_lt (by omega : 2 ^ 64 - x < 2 ^ 64), Nat.one_shiftLeft,
    Nat.and_two_pow_sub_one_eq_mod, hword, Nat.mul_add_mod, Nat.mod_eq_of_lt (by omega)]

/-- The significand of an operand at the larger exponent. -/
theorem alignComb_eq {a b : Nat} (hm : f.mantWidth ≤ 29) (ha : Normal f a) (hb : Normal f b) :
    let x := jam ((2 ^ f.mantWidth + f.code a % 2 ^ f.mantWidth) * 8)
      (f.code b / 2 ^ f.mantWidth - f.code a / 2 ^ f.mantWidth)
    0 < x ∧ x < 2 ^ (f.mantWidth + 4) ∧
      alignComb f a b = if f.negative a then 2 ^ sumWidth f - x else x := by
  dsimp only
  obtain ⟨hlo, hhi⟩ := f.significand_bounds a
  have hrest := Nat.mod_lt (f.code a) (Nat.two_pow_pos f.mantWidth)
  have hshape : (1 <<< f.mantWidth ||| a &&& mantMask f) <<< 3 =
      (2 ^ f.mantWidth + f.code a % 2 ^ f.mantWidth) * 8 := by
    rw [mantissa_eq, Nat.one_shiftLeft, hidden_or hrest, Nat.shiftLeft_eq]
  have hwide : f.mantWidth + 6 ≤ sumWidth f ∧ sumWidth f ≤ 64 := by
    unfold sumWidth
    omega
  unfold alignComb
  rw [specialComb_eq ha hb, if_neg Bool.false_ne_true]
  dsimp only
  rw [hshape, exponentOf_eq, exponentOf_eq]
  generalize (2 ^ f.mantWidth + f.code a % 2 ^ f.mantWidth) * 8 = S at hlo hhi
  generalize f.code a / 2 ^ f.mantWidth = ea
  generalize f.code b / 2 ^ f.mantWidth = eb
  have hS : S ≠ 0 := (lt_of_lt_of_le (Nat.two_pow_pos _) hlo).ne'
  have haligned : (if ea < eb then
      if sumWidth f ≤ eb - ea then if S ≠ 0 then 1 else 0
      else if eb - ea ≠ 0 then
        if S &&& (1 <<< (eb - ea) - 1) ≠ 0 then S >>> (eb - ea) ||| 1 else S >>> (eb - ea)
      else S
    else S) = jam S (eb - ea) := by
    by_cases hless : ea < eb
    · rw [if_pos hless]
      by_cases hfar : sumWidth f ≤ eb - ea
      · have hsmall : S < 2 ^ (eb - ea) :=
          hhi.trans_le (Nat.pow_le_pow_right (by decide) (by omega))
        rw [if_pos hfar, if_pos hS]
        unfold jam
        rw [Nat.mod_eq_of_lt hsmall, if_neg hS, Nat.div_eq_of_lt hsmall]
        rfl
      · rw [if_neg hfar, if_pos (by omega), Nat.one_shiftLeft, Nat.and_two_pow_sub_one_eq_mod,
          Nat.shiftRight_eq_div_pow]
        exact ite_not ..
    · rw [if_neg hless, Nat.sub_eq_zero_of_le (not_lt.mp hless), jam_zero]
  have hpos := jam_pos hS (eb - ea)
  have hlt : jam S (eb - ea) < 2 ^ (f.mantWidth + 4) :=
    jam_lt (hhi.trans_le (Nat.le_mul_of_pos_right _ (Nat.two_pow_pos _)))
      (dvd_pow_self 2 (by omega))
  rw [haligned]
  generalize jam S (eb - ea) = x at hpos hlt
  refine ⟨hpos, hlt, ?_⟩
  have hfits : x < 2 ^ sumWidth f := hlt.trans_le (Nat.pow_le_pow_right (by decide) (by omega))
  rw [sumMask, negate_word hpos hfits hwide.2]
  by_cases hsign : f.negative a = true
  · rw [if_pos ((sign_ne_zero a).mpr hsign), if_pos hsign, Nat.mod_eq_of_lt (by omega)]
  · rw [if_neg (mt (sign_ne_zero a).mp hsign), if_neg hsign, Nat.mod_eq_of_lt hfits]

/-- The operand with the smaller code is not above the other after the alignment. -/
theorem aligned_le {a b : Nat} (hle : f.code b ≤ f.code a) :
    jam ((2 ^ f.mantWidth + f.code b % 2 ^ f.mantWidth) * 8)
        (f.code a / 2 ^ f.mantWidth - f.code b / 2 ^ f.mantWidth) ≤
      (2 ^ f.mantWidth + f.code a % 2 ^ f.mantWidth) * 8 := by
  refine jam_le ?_ (by omega)
  rw [Nat.mul_right_comm]
  exact Nat.mul_le_mul_right 8 (significand_le hle)

/-- No bit is lost where a difference uses the exponent up: the operands are close then. -/
theorem alignedSum_exact {a b k : Nat} (hb : Normal f b) (hle : f.code b ≤ f.code a)
    (hk : f.alignedSum a b * 2 ^ k < 2 ^ (f.mantWidth + 4))
    (he : f.code a / 2 ^ f.mantWidth ≤ k) : 8 ∣ f.alignedSum a b * 2 ^ k := by
  obtain ⟨hlo, -⟩ := f.significand_bounds a
  obtain ⟨-, hhi⟩ := f.significand_bounds b
  have hexp : f.code b / 2 ^ f.mantWidth ≤ f.code a / 2 ^ f.mantWidth := Nat.div_le_div_right hle
  have hpos := hb.exponent.1
  -- the sum times the shift would be too large
  have hlarge : ∀ n j : Nat, f.mantWidth + 4 ≤ n + j → j ≤ k → ¬ 2 ^ n ≤ f.alignedSum a b := by
    intro n j hn hj hbig
    have hprod := Nat.mul_le_mul hbig (Nat.pow_le_pow_right two_pos hj)
    rw [← Nat.pow_add] at hprod
    exact absurd (hprod.trans_lt hk) (not_lt.mpr (Nat.pow_le_pow_right two_pos hn))
  unfold FloatFormat.alignedSum at hlarge ⊢
  dsimp only at hlarge ⊢
  generalize 2 ^ f.mantWidth + f.code a % 2 ^ f.mantWidth = A at *
  generalize 2 ^ f.mantWidth + f.code b % 2 ^ f.mantWidth = B at *
  split_ifs at hlarge ⊢ with hsign
  · exact absurd (hlo.trans (Nat.le_add_right _ _)) (hlarge _ 1 (by omega) (by omega))
  · obtain ⟨d, hd⟩ := Nat.exists_eq_add_of_le hexp
    rw [hd, Nat.add_sub_cancel_left] at hlarge ⊢
    rcases Nat.lt_or_ge d 2 with hclose | hfar
    · rcases (by omega : d = 0 ∨ d = 1) with rfl | rfl
      · rw [jam_zero, ← Nat.sub_mul]
        exact (Dvd.intro_left _ rfl).mul_right _
      · have hjam : jam (B * 8) 1 = B * 4 := by
          unfold jam
          rw [if_pos (by omega)]
          omega
        obtain ⟨j, rfl⟩ := Nat.exists_eq_succ_of_ne_zero (by omega : k ≠ 0)
        rw [hjam, Nat.pow_succ, show A * 8 - B * 4 = (A * 2 - B) * 4 by omega]
        exact ⟨(A * 2 - B) * 2 ^ j, by ring⟩
    · have hsmall : jam (B * 8) d < 2 ^ (f.mantWidth + 2) := by
        refine jam_lt (hhi.trans_le ?_) (dvd_pow_self 2 (by omega))
        rw [← Nat.pow_add]
        exact Nat.pow_le_pow_right two_pos (by omega)
      have hdouble : 2 ^ (f.mantWidth + 3) = 2 ^ (f.mantWidth + 2) * 2 := Nat.pow_succ ..
      exact absurd (by omega) (hlarge (f.mantWidth + 2) 3 (by omega) (by omega))

/-- The registered sum in two's complement. -/
theorem sum_eq {a b : Nat} (hm : f.mantWidth ≤ 29) (ha : Normal f a) (hb : Normal f b)
    (hle : f.code b ≤ f.code a) :
    (latched f a b).sum = if f.alignedSum a b = 0 then 0
      else if f.negative a then 2 ^ sumWidth f - f.alignedSum a b else f.alignedSum a b := by
  obtain ⟨hx, hx', hlhs⟩ := alignComb_eq hm ha hb
  obtain ⟨hy, hy', hrhs⟩ := alignComb_eq hm hb ha
  have hordered := aligned_le hle
  have hexp : f.code b / 2 ^ f.mantWidth ≤ f.code a / 2 ^ f.mantWidth := Nat.div_le_div_right hle
  rw [Nat.sub_eq_zero_of_le hexp, jam_zero] at hx hx' hlhs
  have hwide : 2 ^ (f.mantWidth + 6) ≤ 2 ^ sumWidth f := by
    refine Nat.pow_le_pow_right two_pos ?_
    unfold sumWidth
    omega
  have hroom : 2 ^ (f.mantWidth + 6) = 2 ^ (f.mantWidth + 4) * 4 := Nat.pow_add 2 (_ + 4) 2
  unfold latched addLhsComb addRhsComb FloatFormat.alignedSum
  dsimp only
  rw [hlhs, hrhs]
  generalize (2 ^ f.mantWidth + f.code a % 2 ^ f.mantWidth) * 8 = x at *
  generalize jam ((2 ^ f.mantWidth + f.code b % 2 ^ f.mantWidth) * 8)
    (f.code a / 2 ^ f.mantWidth - f.code b / 2 ^ f.mantWidth) = y at *
  generalize 2 ^ sumWidth f = T at *
  have hover : ∀ {n : Nat}, T ≤ n → n < T * 2 → n % T = n - T := fun hn hn' => by
    rw [Nat.mod_eq_sub_mod hn, Nat.mod_eq_of_lt (by omega)]
  cases f.negative a <;> cases f.negative b
  · simp only [Bool.false_eq_true, if_false, if_true]
    rw [if_neg (by omega), Nat.mod_eq_of_lt (by omega)]
  · simp only [Bool.false_eq_true, if_false, if_true]
    rw [hover (by omega) (by omega)]
    split_ifs <;> omega
  · simp only [Bool.true_eq_false, Bool.false_eq_true, if_false, if_true]
    by_cases hzero : x - y = 0
    · rw [if_pos hzero, hover (by omega) (by omega)]
      omega
    · rw [if_neg hzero, Nat.mod_eq_of_lt (by omega)]
      omega
  · simp only [if_true]
    rw [if_neg (by omega), hover (by omega) (by omega)]
    omega

/-- The sum of two normal numbers, the larger one first. -/
theorem result_normal {a b : Nat} (hm : f.mantWidth ≤ 29) (ha : Normal f a) (hb : Normal f b)
    (hle : f.code b ≤ f.code a) :
    resultComb f (latched f a b) = if f.alignedSum a b = 0 then 0
      else (f.negative a).toNat * 2 ^ (f.width - 1) +
        f.sumCode (f.code a / 2 ^ f.mantWidth) (f.alignedSum a b) := by
  have hsum := sum_eq hm ha hb hle
  have hspecial : (latched f a b).special = false := specialComb_eq ha hb
  have hexp : f.code b / 2 ^ f.mantWidth ≤ f.code a / 2 ^ f.mantWidth := Nat.div_le_div_right hle
  have hea := ha.exponent.1
  have hexponent : (latched f a b).exponent = f.code a / 2 ^ f.mantWidth :=
    (exponentComb_eq ha hb).trans (Nat.max_eq_left hexp)
  have hlt := f.alignedSum_lt a b
  have hexact : ∀ k, f.alignedSum a b * 2 ^ k < 2 ^ (f.mantWidth + 4) →
      f.code a / 2 ^ f.mantWidth ≤ k → 8 ∣ f.alignedSum a b * 2 ^ k := fun k =>
    alignedSum_exact hb hle
  unfold resultComb
  rw [hsum, hspecial, hexponent]
  have hfits : (f.negative a).toNat * 2 ^ (f.width - 1) +
      f.sumCode (f.code a / 2 ^ f.mantWidth) (f.alignedSum a b) < 2 ^ f.width := by
    have hcode := (sumCode_le (f := f) (f.code a / 2 ^ f.mantWidth) (f.alignedSum a b)).trans_lt
      (infinity_add_lt (Nat.two_pow_pos f.mantWidth))
    have hsign := Bool.toNat_lt (f.negative a)
    rw [f.width_eq, Nat.pow_succ, ← f.width_eq]
    nlinarith
  have hround : ∀ negative, f.alignedSum a b ≠ 0 →
      roundComb f negative (f.alignedSum a b) (f.code a / 2 ^ f.mantWidth : Nat) =
        negative.toNat * 2 ^ (f.width - 1) +
          f.sumCode (f.code a / 2 ^ f.mantWidth) (f.alignedSum a b) := fun negative hne =>
    roundComb_eq negative hm hne hlt hea hexact
  generalize f.alignedSum a b = S at hlt hexact hfits hround
  -- the top bit of the register is the sign
  have hwide : f.mantWidth + 6 ≤ sumWidth f ∧ sumWidth f ≤ 64 := by
    unfold sumWidth
    omega
  obtain ⟨w, hw⟩ := Nat.exists_eq_succ_of_ne_zero (by omega : sumWidth f ≠ 0)
  have htop : 2 ^ sumWidth f = 2 ^ w * 2 := by rw [hw, Nat.pow_succ]
  have hroom : S < 2 ^ w := hlt.trans_le (Nat.pow_le_pow_right two_pos (by omega))
  rw [show sumWidth f - 1 = w by omega]
  by_cases hzero : S = 0
  · simp [hzero]
  simp only [if_neg hzero, Bool.false_eq_true, if_false]
  cases hsign : f.negative a
  · have hpositive : ¬ S &&& 1 <<< w ≠ 0 := fun h =>
      absurd ((and_top (by rw [Nat.pow_succ]; omega)).mp h) (not_le.mpr hroom)
    rw [hsign] at hfits
    simp only [Bool.false_eq_true, if_false, decide_eq_false hpositive, if_neg hzero]
    rw [hround false hzero, Nat.mod_eq_of_lt hfits]
  · have hnegative : (2 ^ sumWidth f - S) &&& 1 <<< w ≠ 0 :=
      (and_top (by rw [Nat.pow_succ]; omega)).mpr (by omega)
    have hback : (2 ^ 64 - (2 ^ sumWidth f - S)) % 2 ^ 64 &&& sumMask f = S := by
      rw [sumMask, negate_word (by omega) (by omega) hwide.2]
      omega
    rw [hsign] at hfits
    simp only [if_true, decide_eq_true hnegative, hback, if_neg hzero]
    rw [hround true hzero, Nat.mod_eq_of_lt hfits]

end

end FpAdd

end CppHdl.Kernels
