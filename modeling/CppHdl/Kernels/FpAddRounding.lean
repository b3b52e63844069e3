import CppHdl.Kernels.Fp32Bits
import CppHdl.Kernels.FpAdd

/-!
# The sums of the two adders

`FpAdd` and `fp32_add` compute the same sum of two words and differ in the NaN.
-/

namespace CppHdl.Kernels

open FloatFormat

namespace FpAdd

variable {f : FloatFormat} {a b : Nat}

theorem result_special (h : specialComb f a b = true) :
    resultComb f (latched f a b) = specialResultComb f a b := by
  have hspecial : (latched f a b).special = true := h
  unfold resultComb
  rw [hspecial]
  exact Nat.mod_mod ..

/-- The two sides of the registered sum. -/
theorem result_comm (ha : Normal f a) (hb : Normal f b) :
    resultComb f (latched f a b) = resultComb f (latched f b a) := by
  unfold resultComb latched addLhsComb addRhsComb
  dsimp only
  rw [specialComb_eq ha hb, specialComb_eq hb ha, exponentComb_eq ha hb, exponentComb_eq hb ha,
    Nat.max_comm, Nat.add_comm (alignComb f a b)]
  simp only [Bool.false_eq_true, if_false]

/-- The adder computes the sum of two words, with the payload 1 in its NaN. -/
theorem result_eq (hm : f.mantWidth ≤ 29) (ha : a < 2 ^ f.width) (hb : b < 2 ^ f.width) :
    resultComb f (latched f a b) = f.sumWord (f.infinity + 1) a b := by
  obtain ⟨hzeroa, hnana, hinfa⟩ := class_fields (f := f) a
  obtain ⟨hzerob, hnanb, hinfb⟩ := class_fields (f := f) b
  by_cases hnormal : Normal f a ∧ Normal f b
  · obtain ⟨hna, hnb⟩ := hnormal
    unfold FloatFormat.sumWord
    have hless := hna.2
    have hless' := hnb.2
    have hnan : ¬ f.NanSum a b := by
      unfold FloatFormat.NanSum
      omega
    rw [if_neg hnan, if_neg hless.ne, if_neg hless'.ne,
      if_neg (by have := hna.1; omega), if_neg (not_lt.mpr hna.1), if_neg (not_lt.mpr hnb.1)]
    split_ifs with hlt
    · rw [result_comm hna hnb]
      exact result_normal hm hnb hna hlt.le
    · exact result_normal hm hna hnb (not_lt.mp hlt)
  · have hspecial : specialComb f a b = true := by
      unfold specialComb
      rw [exponentOf_eq, exponentOf_eq, expMask_eq, decide_eq_true_iff, infinity_le_iff,
        infinity_le_iff, hzeroa, hzerob]
      unfold Normal at hnormal
      omega
    rw [result_special hspecial]
    unfold specialResultComb FloatFormat.sumWord
    dsimp only
    rw [exponentOf_eq, exponentOf_eq, mantissa_eq, mantissa_eq, expMask_eq]
    have hfits := infinity_add_lt (f := f) (Nat.one_lt_two_pow f.mantWidth_pos.ne')
    have htop : 2 ^ f.width = 2 ^ (f.width - 1) * 2 := by rw [f.width_eq, Nat.pow_succ]; rfl
    have hnan : f.expMax <<< f.mantWidth ||| 1 = f.infinity + 1 :=
      fields_or (Nat.one_lt_two_pow f.mantWidth_pos.ne')
    have hinf : ∀ {v}, v < 2 ^ f.width → f.code v = f.infinity →
        (if f.negative v = true then signMask f else 0) ||| f.expMax <<< f.mantWidth = v :=
      fun {v} hv hcode => by
        have hword := word_eq hv
        rw [hcode] at hword
        rw [sign_mask, Nat.shiftLeft_eq]
        exact (sign_or (Nat.lt_of_succ_lt hfits)).trans hword.symm
    have hsign : (f.negative a = true ↔ f.negative b = true) ↔ f.negative a = f.negative b :=
      Bool.eq_iff_iff.symm
    have hboth : (if f.negative a = true ∧ f.negative b = true then signMask f else 0) =
        (f.negative a && f.negative b).toNat * 2 ^ (f.width - 1) := by
      rw [← sign_mask]
      simp only [Bool.and_eq_true]
    simp only [hnana, hnanb, hinfa, hinfb, hzeroa, hzerob, sign_ne_zero, hsign, hnan, hboth,
      ← ne_eq]
    by_cases hn : f.NanSum a b
    · rw [if_pos hn, if_pos hn, Nat.mod_eq_of_lt (by omega)]
    rw [if_neg hn, if_neg hn]
    by_cases hia : f.code a = f.infinity
    · rw [if_pos hia, if_pos hia, hinf ha hia, Nat.mod_eq_of_lt ha]
    rw [if_neg hia, if_neg hia]
    by_cases hib : f.code b = f.infinity
    · rw [if_pos hib, if_pos hib, hinf hb hib, Nat.mod_eq_of_lt hb]
    rw [if_neg hib, if_neg hib]
    by_cases hz : f.code a < 2 ^ f.mantWidth ∧ f.code b < 2 ^ f.mantWidth
    · have hle := Bool.toNat_le (f.negative a && f.negative b)
      rw [if_pos hz, if_pos hz, Nat.mod_eq_of_lt (by nlinarith)]
    rw [if_neg hz, if_neg hz]
    by_cases hza : f.code a < 2 ^ f.mantWidth
    · rw [if_pos hza, if_pos hza, Nat.mod_eq_of_lt hb]
    rw [if_neg hza, if_neg hza]
    by_cases hzb : f.code b < 2 ^ f.mantWidth
    · rw [if_pos hzb, if_pos hzb, Nat.mod_eq_of_lt ha]
    unfold Normal at hnormal
    omega

end FpAdd

/-- `fp32_add` computes the same sum, with the canonical NaN. -/
theorem fp32Add_eq (a b : Nat) :
    Fp32BitsMethods.fp32Add a b = fp32.sumWord 0x7fc00000 a b := by
  obtain ⟨hexpa, hmanta, hsigna, hcodea⟩ := Fp32BitsMethods.fields32 a
  obtain ⟨hexpb, hmantb, hsignb, hcodeb⟩ := Fp32BitsMethods.fields32 b
  have hsign : (fp32.negative a).toNat * 2 ^ 31 ≠ (fp32.negative b).toNat * 2 ^ 31 ↔
      fp32.negative a ≠ fp32.negative b := by
    cases fp32.negative a <;> cases fp32.negative b <;> decide
  have hboth : (fp32.negative a).toNat * 2 ^ 31 &&& (fp32.negative b).toNat * 2 ^ 31 =
      (fp32.negative a && fp32.negative b).toNat * 2 ^ 31 := by
    cases fp32.negative a <;> cases fp32.negative b <;> decide
  have hclass : ∀ v, (fp32.code v / 2 ^ 23 = 0 ↔ fp32.code v < 2 ^ 23) ∧
      (fp32.code v / 2 ^ 23 = 255 ∧ fp32.code v % 2 ^ 23 ≠ 0 ↔ fp32.infinity < fp32.code v) ∧
      (fp32.code v / 2 ^ 23 = 255 ↔ fp32.infinity ≤ fp32.code v) := fun v =>
    ⟨(class_fields v).1, (class_fields v).2.1, infinity_le_iff⟩
  unfold Fp32BitsMethods.fp32Add FloatFormat.sumWord
  dsimp only
  rw [hexpa, hexpb, hmanta, hmantb, hsigna, hsignb, hcodea, hcodeb]
  simp only [(hclass a).2.1, (hclass b).2.1]
  simp only [(hclass a).1, (hclass b).1, (hclass a).2.2, (hclass b).2.2, hsign, hboth,
    Fp32BitsMethods.addOrdered_eq]
  by_cases hn : fp32.NanSum a b
  · rw [if_pos hn, if_pos (hn.imp_right (Or.imp_right fun h => ⟨h.1.ge, h.2.1.ge, h.2.2⟩))]
  · unfold FloatFormat.NanSum at hn
    have hlea : fp32.infinity ≤ fp32.code a ↔ fp32.code a = fp32.infinity :=
      ⟨fun h => by omega, Eq.ge⟩
    have hleb : fp32.infinity ≤ fp32.code b ↔ fp32.code b = fp32.infinity :=
      ⟨fun h => by omega, Eq.ge⟩
    simp only [hlea, hleb, FloatFormat.NanSum, if_neg hn]
    rfl

/-- An enabled clock leaves the exact sum of the operands, rounded; at 32 bits it is that of
`fp32_add`, unless the result is a NaN. -/
theorem fpAdd_rounds (f : FpAddFormat) (s : FpAdd.Regs) (a b : Nat) (ha : a < 2 ^ f.width)
    (hb : b < 2 ^ f.width) :
    let F := f.toFloatFormat
    let c := FpAdd.resultComb F (FpAdd.work F s a b true false)
    let x := F.operand a + F.operand b
    c < 2 ^ F.width ∧
      (F.code a < F.infinity → F.code b < F.infinity →
        (x = 0 → c = if F.code a < 2 ^ F.mantWidth ∧ F.code b < 2 ^ F.mantWidth ∧
            F.negative a ∧ F.negative b then 2 ^ (F.width - 1) else 0) ∧
        (x ≠ 0 → (F.negative c = true ↔ x < 0) ∧ F.Flushed |x| (F.code c))) ∧
      (F = fp32 → ¬ F.NanSum a b → c = Fp32BitsMethods.fp32Add a b) := by
  intro F c x
  have hm : F.mantWidth ≤ 29 := by
    have hwidth : F.mantWidth + F.expWidth + 1 ≤ 32 := f.width_le
    have hexp : 2 ≤ F.expWidth := f.expWidth_ge
    omega
  have hc : c = F.sumWord (F.infinity + 1) a b := FpAdd.result_eq hm ha hb
  refine ⟨Nat.mod_lt _ (Nat.two_pow_pos _), fun hfa hfb => ?_, fun hF hnan => ?_⟩
  · rw [hc]
    exact sumWord_rounds _ hfa hfb
  · rw [hc, fp32Add_eq, hF]
    rw [hF] at hnan
    exact (sumWord_number hnan _ _).1

def fpAdd32 : FpAddFormat := ⟨fp32, by decide, by decide⟩

theorem fpAdd_rounds_three :
    FpAdd.resultComb fp32 (FpAdd.work fp32 ⟨0, 0, 0, false⟩ 0x3f800000 0x40000000 true false) =
        Fp32BitsMethods.fp32Add 0x3f800000 0x40000000 ∧
      fp32.Flushed |fp32.operand 0x3f800000 + fp32.operand 0x40000000| (fp32.code 0x40400000) := by
  obtain ⟨-, hrounds, hsame⟩ :=
    fpAdd_rounds fpAdd32 ⟨0, 0, 0, false⟩ 0x3f800000 0x40000000 (by decide) (by decide)
  have hsum : FpAdd.resultComb fp32
      (FpAdd.work fp32 ⟨0, 0, 0, false⟩ 0x3f800000 0x40000000 true false) = 0x40400000 := by
    decide +kernel
  have hpos : ∀ v, fp32.negative v = false → 2 ^ fp32.mantWidth ≤ fp32.code v →
      0 < fp32.operand v :=
    fun v hsign hv => by
      unfold FloatFormat.operand FloatFormat.number
      rw [if_neg (not_lt.mpr hv), hsign]
      exact value_pos ((Nat.two_pow_pos _).trans_le hv)
  have hne : fp32.operand 0x3f800000 + fp32.operand 0x40000000 ≠ 0 :=
    (add_pos (hpos _ (by decide) (by decide)) (hpos _ (by decide) (by decide))).ne'
  rw [← hsum]
  exact ⟨hsame rfl (by decide), ((hrounds (by decide) (by decide)).2 hne).2⟩

/-- Neither adder depends on the order of its operands, down to the bits of a NaN. -/
theorem fpAdd_comm (f : FpAddFormat) (s s' : FpAdd.Regs) (a b : Nat) (ha : a < 2 ^ f.width)
    (hb : b < 2 ^ f.width) :
    let F := f.toFloatFormat
    FpAdd.resultComb F (FpAdd.work F s a b true false) =
        FpAdd.resultComb F (FpAdd.work F s' b a true false) ∧
      (F = fp32 → Fp32BitsMethods.fp32Add a b = Fp32BitsMethods.fp32Add b a) := by
  intro F
  have hm : F.mantWidth ≤ 29 := by
    have hwidth : F.mantWidth + F.expWidth + 1 ≤ 32 := f.width_le
    have hexp : 2 ≤ F.expWidth := f.expWidth_ge
    omega
  constructor
  · calc FpAdd.resultComb F (FpAdd.work F s a b true false)
        = F.sumWord (F.infinity + 1) a b := FpAdd.result_eq hm ha hb
      _ = F.sumWord (F.infinity + 1) b a := FloatFormat.sumWord_comm _ ha hb
      _ = FpAdd.resultComb F (FpAdd.work F s' b a true false) := (FpAdd.result_eq hm hb ha).symm
  · intro hF
    rw [fp32Add_eq, fp32Add_eq, ← hF]
    exact FloatFormat.sumWord_comm _ ha hb

theorem fpAdd_comm_infinities :
    Fp32BitsMethods.fp32Add 0x7f800000 0xff800000 = Fp32BitsMethods.fp32Add 0xff800000 0x7f800000 :=
  (fpAdd_comm fpAdd32 ⟨0, 0, 0, false⟩ ⟨0, 0, 0, false⟩ _ _ (by decide) (by decide)).2 rfl

/-- Two infinities of opposite signs give two different NaNs. -/
theorem not_fpAdd_eq_fp32Add : ¬ ∀ s a b, a < 2 ^ 32 → b < 2 ^ 32 →
    fp32.code a ≤ fp32.infinity → fp32.code b ≤ fp32.infinity →
    FpAdd.resultComb fp32 (FpAdd.work fp32 s a b true false) = Fp32BitsMethods.fp32Add a b := by
  intro h
  exact absurd (h ⟨0, 0, 0, false⟩ 0x7f800000 0xff800000 (by decide) (by decide) (by decide)
    (by decide)) (by decide)

end CppHdl.Kernels
