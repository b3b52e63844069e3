import CppHdl.Kernels.FpAddRounding

/-!
# The multiply-add pipeline

`Fp32Mac`: the product is registered beside its addend, the adder registers the sum of
both. Every enabled clock moves the two stages on.
-/

namespace CppHdl.Kernels

open FloatFormat Fp32BitsMethods

namespace Fp32Mac

structure State where
  product : Nat
  addend : Nat
  adder : FpAdd.Regs

structure Clock where
  a : Nat
  b : Nat
  c : Nat
  en : Bool
  reset : Bool

def multiplyComb (a b : Nat) : Nat :=
  let ea := a >>> 23 &&& 255
  let eb := b >>> 23 &&& 255
  let ma := a &&& 0x7fffff
  let mb := b &&& 0x7fffff
  let sign := (a ^^^ b) &&& 0x80000000
  if ea = 255 ∧ ma ≠ 0 ∨ eb = 255 ∧ mb ≠ 0 ∨ ea = 255 ∧ eb = 0 ∨ eb = 255 ∧ ea = 0 then 0x7fc00000
  else if ea = 255 ∨ eb = 255 then sign ||| 0x7f800000
  else if ea ≠ 0 ∧ eb ≠ 0 then
    let productValue := (ma ||| 0x800000) * (mb ||| 0x800000)
    let top := productValue &&& 1 <<< 47 ≠ 0
    let shift := if top then 21 else 20
    let normalized : Int := if top then (ea : Int) + eb - 127 + 1 else (ea : Int) + eb - 127
    let mantissa :=
      productValue >>> shift ||| (productValue &&& (1 <<< shift - 1) != 0).toNat
    let retained := mantissa >>> 3 % 2 ^ 32
    let tail := mantissa % 2 ^ 32 &&& 7
    let rounded := if 4 < tail ∨ tail = 4 ∧ retained &&& 1 ≠ 0 then retained + 1 else retained
    let carried := 0x1000000 ≤ rounded
    let significand := if carried then rounded >>> 1 else rounded
    let exponent := if carried then normalized + 1 else normalized
    if 255 ≤ exponent then sign ||| 0x7f800000
    else if 0 < exponent then sign ||| exponent.toNat <<< 23 ||| significand &&& 0x7fffff
    else sign
  else sign

/-- `result_out`, with the canonical NaN. -/
def resultComb (s : State) : Nat :=
  let result := FpAdd.resultComb fp32 s.adder
  if result &&& 0x7f800000 = 0x7f800000 ∧ result &&& 0x7fffff ≠ 0 then 0x7fc00000 else result

/-- A clock: the adder latches the product and the addend from before it. -/
def work (s : State) (k : Clock) : State :=
  { product := if k.reset then 0 else if k.en then multiplyComb k.a k.b else s.product
    addend := if k.reset then 0 else if k.en then k.c else s.addend
    adder := FpAdd.work fp32 s.adder s.product s.addend k.en k.reset }

def run (s : State) (clocks : List Clock) : State := clocks.foldl work s

/-! ## The product -/

/-- The rounding inside the stage is `fp32_round`. -/
theorem round_eq {sign m : Nat} {e : ℤ} (hm : m < 2 ^ 32) :
    (let retained := m >>> 3 % 2 ^ 32
     let tail := m % 2 ^ 32 &&& 7
     let rounded := if 4 < tail ∨ tail = 4 ∧ retained &&& 1 ≠ 0 then retained + 1 else retained
     let carried := 0x1000000 ≤ rounded
     let significand := if carried then rounded >>> 1 else rounded
     let exponent := if carried then e + 1 else e
     if 255 ≤ exponent then sign ||| 0x7f800000
     else if 0 < exponent then sign ||| exponent.toNat <<< 23 ||| significand &&& 0x7fffff
     else sign) = fp32Round sign e m := by
  have hretained : m >>> 3 % 2 ^ 32 = m >>> 3 :=
    Nat.mod_eq_of_lt ((Nat.shiftRight_le m 3).trans_lt hm)
  have hodd : m >>> 3 &&& 1 ≠ 0 ↔ m >>> 3 % 2 = 1 := by
    rw [Nat.and_one_is_mod]
    omega
  unfold fp32Round
  dsimp only
  rw [hretained, Nat.mod_eq_of_lt hm, Nat.one_shiftLeft]
  simp only [hodd]
  generalize (if 4 < m &&& 7 ∨ m &&& 7 = 4 ∧ m >>> 3 % 2 = 1 then m >>> 3 + 1 else m >>> 3) = R
  rw [show (0x1000000 : Nat) = 2 ^ 24 by norm_num]
  generalize (if 2 ^ 24 ≤ R then e + 1 else e) = e'
  by_cases hpos : 0 < e'
  · rw [if_pos hpos, if_neg (not_le.mpr hpos)]
  · rw [if_neg hpos, if_pos (not_lt.mp hpos)]

/-- The product stage is `fp32_multiply`, written out. -/
theorem multiplyComb_eq (a b : Nat) : multiplyComb a b = fp32Multiply a b := by
  have hsig : ∀ v, v &&& 0x7fffff ||| 0x800000 < 2 ^ 24 := fun v =>
    Nat.or_lt_two_pow (Nat.and_le_right.trans_lt (by decide)) (by decide)
  have hproduct : (a &&& 0x7fffff ||| 0x800000) * (b &&& 0x7fffff ||| 0x800000) < 2 ^ 24 * 2 ^ 24 :=
    Nat.mul_lt_mul'' (hsig a) (hsig b)
  unfold multiplyComb fp32Multiply
  dsimp only
  generalize a >>> 23 &&& 255 = ea
  generalize b >>> 23 &&& 255 = eb
  generalize (a ^^^ b) &&& 0x80000000 = sign
  generalize (a &&& 0x7fffff ||| 0x800000) * (b &&& 0x7fffff ||| 0x800000) = P at hproduct ⊢
  congr 2
  by_cases hzero : ea = 0 ∨ eb = 0
  · rw [if_pos hzero, if_neg (by omega)]
  rw [if_neg hzero, if_pos (by omega)]
  have hsmall : ∀ k, 20 ≤ k → shiftJam P k < 2 ^ 32 := fun k hk => by
    rw [shiftJam_eq (hproduct.trans (by decide))]
    have hroom : 2 ^ 24 * 2 ^ 24 ≤ 2 ^ 32 * 2 ^ k := by
      calc 2 ^ 24 * 2 ^ 24 ≤ 2 ^ 32 * 2 ^ 20 := by decide
        _ ≤ 2 ^ 32 * 2 ^ k := Nat.mul_le_mul_left _ (Nat.pow_le_pow_right (by decide) hk)
    exact jam_lt (hproduct.trans_le hroom) (by decide)
  by_cases htop : P &&& 1 <<< 47 ≠ 0
  · simp only [if_pos htop]
    exact round_eq (hsmall 21 (by decide))
  · simp only [if_neg htop]
    exact round_eq (hsmall 20 (by decide))

/-! ## The run -/

def Clock.Enabled (k : Clock) : Prop := k.en = true ∧ k.reset = false

def Clock.Idle (k : Clock) : Prop := k.en = false ∧ k.reset = false

def Clock.Wide (k : Clock) : Prop := k.a < 2 ^ 32 ∧ k.b < 2 ^ 32 ∧ k.c < 2 ^ 32

theorem fp32Multiply_lt (a b : Nat) : fp32Multiply a b < 2 ^ 32 := by
  by_cases hnan : NanProduct a b
  · rw [fp32Multiply_nan hnan]
    decide
  · obtain ⟨E, hE, hword, -⟩ := fp32Multiply_rounds hnan
    have hinf : fp32.infinity < 2 ^ 31 := by decide
    have hsign := Bool.toNat_le (fp32.negative a ^^ fp32.negative b)
    rw [hword]
    omega

theorem exponent_mask (v : Nat) : v &&& 0x7f800000 = fp32.code v / 2 ^ 23 * 2 ^ 23 := by
  rw [← (fields32 v).1, ← Nat.shiftLeft_eq]
  refine Nat.eq_of_testBit_eq fun i => ?_
  rw [show (0x7f800000 : Nat) = 255 <<< 23 from rfl, Nat.testBit_and, Nat.testBit_shiftLeft,
    Nat.testBit_shiftLeft, Nat.testBit_and, Nat.testBit_shiftRight]
  by_cases h : 23 ≤ i
  · rw [Nat.add_sub_cancel' h, decide_eq_true h, Bool.true_and, Bool.true_and]
  · rw [decide_eq_false h, Bool.false_and, Bool.false_and, Bool.and_false]

/-- The last stage is `fp32_add`: the operands change places, and the NaN is replaced. -/
theorem resultComb_latched {s : State} {p c : Nat} (hp : p < 2 ^ 32) (hc : c < 2 ^ 32)
    (hs : s.adder = FpAdd.latched fp32 p c) : resultComb s = fp32Add c p := by
  have hsum : FpAdd.resultComb fp32 (FpAdd.latched fp32 p c) = fp32.sumWord 0x7f800001 p c :=
    FpAdd.result_eq (by decide) hp hc
  rw [fp32Add_eq, sumWord_comm _ hc hp]
  unfold resultComb
  rw [hs, hsum]
  dsimp only
  by_cases hnan : fp32.NanSum p c
  · rw [show fp32.sumWord 0x7f800001 p c = 0x7f800001 from if_pos hnan,
      show fp32.sumWord 0x7fc00000 p c = 0x7fc00000 from if_pos hnan]
    rfl
  · obtain ⟨hsame, hle⟩ := sumWord_number hnan 0x7f800001 0x7fc00000
    have hinf : fp32.infinity = 255 * 2 ^ 23 := rfl
    rw [hsame] at hle ⊢
    refine if_neg ?_
    rw [exponent_mask, (fields32 _).2.1]
    omega

theorem work_idle {k : Clock} (h : k.Idle) (s : State) : work s k = s := by
  obtain ⟨hen, hreset⟩ := h
  unfold work FpAdd.work
  rw [hen, hreset]
  rfl

theorem run_idle {clocks : List Clock} (h : ∀ k ∈ clocks, k.Idle) (s : State) :
    run s clocks = s := by
  induction clocks with
  | nil => rfl
  | cons k rest ih =>
      obtain ⟨hk, hrest⟩ := List.forall_mem_cons.mp h
      show run (work s k) rest = s
      rw [work_idle hk]
      exact ih hrest

theorem run_append (s : State) (clocks later : List Clock) :
    run s (clocks ++ later) = run (run s clocks) later := List.foldl_append

/-- What an enabled clock presents comes out after the next enabled one. -/
theorem result_after (s : State) {first second : Clock} {idle later : List Clock}
    (hfirst : first.Enabled) (hwide : first.Wide) (hidle : ∀ k ∈ idle, k.Idle)
    (hsecond : second.Enabled) (hlater : ∀ k ∈ later, k.Idle) :
    resultComb (run s (first :: idle ++ second :: later)) =
      fp32Add first.c (fp32Multiply first.a first.b) := by
  have hproduct : (work s first).product = fp32Multiply first.a first.b ∧
      (work s first).addend = first.c := by
    unfold work
    rw [hfirst.1, hfirst.2]
    exact ⟨multiplyComb_eq first.a first.b, rfl⟩
  have hsplit : run s (first :: idle ++ second :: later) = work (work s first) second := by
    rw [run_append]
    show run (work (run (work s first) idle) second) later = _
    rw [run_idle hidle, run_idle hlater]
  refine resultComb_latched (fp32Multiply_lt _ _) hwide.2.2 ?_
  rw [hsplit, ← hproduct.1, ← hproduct.2]
  show FpAdd.work fp32 _ _ _ second.en second.reset = _
  rw [hsecond.1, hsecond.2]
  rfl

/-- In every run the result after an enabled clock is the sum of the addend and the product
that the enabled clock before it presented; a product that is a number is the exact one,
rounded. -/
theorem fp32Mac_result (s : State) (earlier idle later : List Clock) (first second : Clock)
    (hfirst : first.Enabled) (hwide : first.Wide) (hidle : ∀ k ∈ idle, k.Idle)
    (hsecond : second.Enabled) (hlater : ∀ k ∈ later, k.Idle) :
    let a := first.a
    let b := first.b
    let p := (work (run s earlier) first).product
    let x := fp32.operand a * fp32.operand b
    resultComb (run s (earlier ++ (first :: idle ++ second :: later))) =
        fp32Add first.c (fp32Multiply a b) ∧
      p = fp32Multiply a b ∧ p < 2 ^ 32 ∧
      (NanProduct a b → p = 0x7fc00000) ∧
      (¬ NanProduct a b → fp32.negative p = (fp32.negative a ^^ fp32.negative b) ∧
        (fp32.code a = fp32.infinity ∨ fp32.code b = fp32.infinity →
          fp32.code p = fp32.infinity) ∧
        (fp32.code a < fp32.infinity → fp32.code b < fp32.infinity →
          (x = 0 → fp32.code p = 0) ∧ (x ≠ 0 → fp32.Flushed |x| (fp32.code p)))) := by
  intro a b p x
  have hp : p = fp32Multiply a b := by
    show (work (run s earlier) first).product = _
    unfold work
    rw [hfirst.1, hfirst.2]
    exact multiplyComb_eq a b
  rw [run_append, hp]
  refine ⟨result_after _ hfirst hwide hidle hsecond hlater, rfl, fp32Multiply_lt a b,
    fp32Multiply_nan, fun hnan => ?_⟩
  obtain ⟨E, hE, hword, hinf, hrounds⟩ := fp32Multiply_rounds hnan
  have hlt : E < 2 ^ (fp32.width - 1) := hE.trans_lt (by decide)
  obtain ⟨hsign, hcode⟩ :=
    word_fields (f := fp32) (s := fp32.negative a ^^ fp32.negative b) hlt
  have hbits : fp32Multiply a b =
      (fp32.negative a ^^ fp32.negative b).toNat * 2 ^ (fp32.width - 1) + E := hword
  rw [hbits, hsign, hcode]
  exact ⟨rfl, hinf, hrounds⟩

theorem fp32Mac_result_stall :
    resultComb (run ⟨0, 0, ⟨0, 0, 0, false⟩⟩ ([⟨7, 7, 7, true, true⟩] ++
      (⟨0x3fc00000, 0x40000000, 0x3f800000, true, false⟩ :: [⟨5, 5, 5, false, false⟩] ++
        ⟨0, 0, 0, true, false⟩ :: []))) =
      fp32Add 0x3f800000 (fp32Multiply 0x3fc00000 0x40000000) :=
  (fp32Mac_result ⟨0, 0, ⟨0, 0, 0, false⟩⟩ [⟨7, 7, 7, true, true⟩] [⟨5, 5, 5, false, false⟩] []
    ⟨0x3fc00000, 0x40000000, 0x3f800000, true, false⟩ ⟨0, 0, 0, true, false⟩ ⟨rfl, rfl⟩
    ⟨by decide, by decide, by decide⟩ (List.forall_mem_singleton.mpr ⟨rfl, rfl⟩) ⟨rfl, rfl⟩
    (List.forall_mem_nil _)).1

/-- The second enabled clock after the operands shows the operands of the first one after
them, and a reset in between clears the pipeline. -/
theorem not_result_after_two :
    (¬ ∀ s first second third, first.Enabled → first.Wide → second.Enabled → third.Enabled →
      resultComb (run s [first, second, third]) =
        fp32Add first.c (fp32Multiply first.a first.b)) ∧
      ¬ ∀ s first second third, first.Enabled → first.Wide → second.reset = true → third.Enabled →
        resultComb (run s [first, second, third]) =
          fp32Add first.c (fp32Multiply first.a first.b) := by
  constructor
  · intro h
    exact absurd (h ⟨0, 0, ⟨0, 0, 0, false⟩⟩ ⟨0x3f800000, 0x3f800000, 0, true, false⟩
      ⟨0, 0, 0, true, false⟩ ⟨0, 0, 0, true, false⟩ ⟨rfl, rfl⟩ ⟨by decide, by decide, by decide⟩
      ⟨rfl, rfl⟩ ⟨rfl, rfl⟩)
      (by decide +kernel)
  · intro h
    exact absurd (h ⟨0, 0, ⟨0, 0, 0, false⟩⟩ ⟨0x3f800000, 0x3f800000, 0, true, false⟩
      ⟨0, 0, 0, false, true⟩ ⟨0, 0, 0, true, false⟩ ⟨rfl, rfl⟩ ⟨by decide, by decide, by decide⟩
      rfl ⟨rfl, rfl⟩)
      (by decide +kernel)

end Fp32Mac

end CppHdl.Kernels
