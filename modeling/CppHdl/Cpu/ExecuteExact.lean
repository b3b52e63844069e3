import CppHdl.Cpu.Execute
import CppHdl.Lib.BitSerial

/-!
# The multiplications and divisions are exact

`mulDiv` is what the instructions mean: products, and quotients rounded towards zero, of the
operands as signed or unsigned numbers. A unit that runs keeps the sum or the remainder of
the bits it has seen, and a unit that is done holds the result of the operands it keeps. An
instruction reads a unit only when these are its own operands, whatever was presented before.
-/

namespace CppHdl.Cpu

/-- The upper half of a product. -/
def highWord (x y : Int) : BitVec 32 := BitVec.ofInt 32 (x * y / 2 ^ 32)

/-- A quotient rounded towards zero. Division by zero gives all ones. -/
def quotient (x y : Int) : BitVec 32 := if y = 0 then ~~~0 else BitVec.ofInt 32 (x.tdiv y)

/-- A remainder has the sign of the dividend. Division by zero gives the dividend. -/
def remainder (x y : Int) : BitVec 32 := BitVec.ofInt 32 (if y = 0 then x else x.tmod y)

/-- What the multiplications and divisions compute. -/
def mulDiv (op : Alu) (a b : BitVec 32) : BitVec 32 :=
  match op with
  | .mul => a * b
  | .mulh => highWord a.toInt b.toInt
  | .mulhsu => highWord a.toInt b.toNat
  | .mulhu => highWord a.toNat b.toNat
  | .div => quotient a.toInt b.toInt
  | .divu => quotient a.toNat b.toNat
  | .rem => remainder a.toInt b.toInt
  | .remu => remainder a.toNat b.toNat
  | _ => 0

theorem State.div_of_isDiv {s : State} (h : s.isDiv = true) :
    s.aluOp = .div ∨ s.aluOp = .divu ∨ s.aluOp = .rem ∨ s.aluOp = .remu := by
  simpa [State.isDiv, or_assoc] using (Bool.and_eq_true_iff.mp h).2

theorem State.mul_of_isMul {s : State} (h : s.isMul = true) :
    s.aluOp = .mul ∨ s.aluOp = .mulh ∨ s.aluOp = .mulhsu ∨ s.aluOp = .mulhu := by
  simpa [State.isMul, or_assoc] using (Bool.and_eq_true_iff.mp h).2

/-! ## Sign and magnitude -/

/-- The number with a given sign and magnitude. -/
def withSign (negative : Bool) (n : Nat) : Int := if negative then -n else n

def operand (signed : Bool) (x : BitVec 32) : Int := if signed then x.toInt else x.toNat

theorem withSign_mul (p q : Bool) (m n : Nat) :
    withSign p m * withSign q n = withSign (p != q) (m * n) := by
  cases p <;> cases q <;> simp [withSign]

theorem withSign_tdiv (p q : Bool) (m n : Nat) :
    (withSign p m).tdiv (withSign q n) = withSign (p != q) (m / n) := by
  cases p <;> cases q <;> simp [withSign, Int.neg_tdiv, Int.tdiv_neg]

theorem withSign_tmod (p q : Bool) (m n : Nat) :
    (withSign p m).tmod (withSign q n) = withSign p (m % n) := by
  have hmod : (m : Int).tmod n = (m % n : Nat) := rfl
  cases p <;> cases q <;> simp [withSign, Int.neg_tmod, Int.tmod_neg, hmod]

/-- Complement and increment give the number its sign. -/
theorem negate_eq_ofInt {n : Nat} (negative : Bool) (x : BitVec n) :
    (if negative then ~~~x + 1 else x) = BitVec.ofInt n (withSign negative x.toNat) := by
  cases negative
  · simp [withSign]
  · simp [withSign, BitVec.ofInt_neg, BitVec.neg_eq_not_add]

theorem operand_eq (signed : Bool) (x : BitVec 32) :
    operand signed x = withSign (signed && x.msb) (magnitude (signed && x.msb) x).toNat := by
  cases signed
  · simp [operand, withSign, magnitude]
  · cases hmsb : x.msb
    · simp [operand, withSign, magnitude, BitVec.toInt_eq_msb_cond, hmsb]
    · have hlarge : 2 ^ 31 ≤ x.toNat := by simpa [BitVec.msb_eq_decide] using hmsb
      have hneg : (~~~x + 1).toNat = 2 ^ 32 - x.toNat := by
        change (~~~x + 1#32).toNat = _
        rw [← BitVec.neg_eq_not_add, BitVec.toNat_neg]
        omega
      have hlt := x.isLt
      simp only [operand, withSign, magnitude, BitVec.toInt_eq_msb_cond, hmsb, Bool.and_self,
        if_true, hneg]
      omega

theorem operand_ne_zero (signed : Bool) {x : BitVec 32} (h : x ≠ 0) : operand signed x ≠ 0 := by
  cases signed
  · simpa [operand, BitVec.toNat_eq] using h
  · simpa [operand, BitVec.toInt_inj.symm] using h

theorem magnitude_pos {signed : Bool} {x : BitVec 32} (h : x ≠ 0) :
    0 < (magnitude (signed && x.msb) x).toNat := by
  refine Nat.pos_of_ne_zero fun hzero => operand_ne_zero signed h ?_
  rw [operand_eq, hzero]
  cases signed && x.msb <;> rfl

theorem ofInt_high (z : Int) :
    (BitVec.ofInt 64 z >>> 32).setWidth 32 = BitVec.ofInt 32 (z / 2 ^ 32) := by
  apply BitVec.eq_of_toNat_eq
  simp only [BitVec.toNat_setWidth, BitVec.toNat_ushiftRight, BitVec.toNat_ofInt,
    Nat.shiftRight_eq_div_pow]
  omega

theorem ofInt_low (z : Int) : (BitVec.ofInt 64 z).setWidth 32 = BitVec.ofInt 32 z := by
  apply BitVec.eq_of_toNat_eq
  simp only [BitVec.toNat_setWidth, BitVec.toNat_ofInt]
  omega

/-! ## The divider -/

namespace ExecuteDiv

/-- The divider has seen the leading `divCount` bits of its dividend. -/
structure Dividing (d : ExecuteDiv) : Prop where
  pending : d.divDone = false
  op : d.divOp = .div ∨ d.divOp = .divu ∨ d.divOp = .rem ∨ d.divOp = .remu
  nonzero : d.divB ≠ 0
  count_le : d.divCount.toNat ≤ 32
  divisor : d.divDivisor = magnitude (negative d.divOp d.divB) d.divB
  dividend : d.divDividend.toNat =
    (magnitude (negative d.divOp d.divA) d.divA).toNat * 2 ^ d.divCount.toNat % 2 ^ 32
  divided : BitSerial.Divided d.divDivisor.toNat
    ((magnitude (negative d.divOp d.divA) d.divA).toNat / 2 ^ (32 - d.divCount.toNat))
    d.divQuotient.toNat d.divRemainder.toNat
  quotientNeg : d.divQuotientNeg = (negative d.divOp d.divA != negative d.divOp d.divB)
  remainderNeg : d.divRemainderNeg = negative d.divOp d.divA

/-- A running divider is on its way; a divider that is done holds the result. -/
structure Exact (d : ExecuteDiv) : Prop where
  dividing : d.divBusy = true → d.Dividing
  result : d.divDone = true → d.divResult = mulDiv d.divOp d.divA d.divB

/-- The result of operands and operation by sign and magnitude. -/
theorem mulDiv_div {op : Alu} (hop : op = .div ∨ op = .divu ∨ op = .rem ∨ op = .remu)
    (a b : BitVec 32) : mulDiv op a b =
      if quotientOp op then quotient (operand (signedOp op) a) (operand (signedOp op) b)
      else remainder (operand (signedOp op) a) (operand (signedOp op) b) := by
  rcases hop with rfl | rfl | rfl | rfl <;> rfl

/-- After the last bit the sign correction gives the result. -/
theorem Dividing.finish_result {d : ExecuteDiv} (h : d.Dividing) (hlast : d.divCount = 32) :
    d.finish.divResult = mulDiv d.divOp d.divA d.divB := by
  have hb := operand_ne_zero (signedOp d.divOp) h.nonzero
  have hdivided := h.divided
  rw [hlast, h.divisor] at hdivided
  have hq : d.divQuotient.toNat = _ := hdivided.div
  have hr : d.divRemainder.toNat = _ := hdivided.mod
  have hsmall : (d.divRemainder.setWidth 32).toNat = d.divRemainder.toNat := by
    have hlt := hdivided.lt
    have hdivisor := (magnitude (negative d.divOp d.divB) d.divB).isLt
    rw [BitVec.toNat_setWidth]
    omega
  have hquotient : quotient (operand (signedOp d.divOp) d.divA) (operand (signedOp d.divOp) d.divB) =
      if d.divQuotientNeg then ~~~d.divQuotient + 1 else d.divQuotient := by
    rw [quotient, if_neg hb, operand_eq, operand_eq, withSign_tdiv, negate_eq_ofInt, h.quotientNeg, hq]
    simp [negative]
  have hremainder : remainder (operand (signedOp d.divOp) d.divA)
      (operand (signedOp d.divOp) d.divB) =
      if d.divRemainderNeg then ~~~(d.divRemainder.setWidth 32) + 1 else d.divRemainder.setWidth 32 := by
    rw [remainder, if_neg hb, operand_eq, operand_eq, withSign_tmod, negate_eq_ofInt, h.remainderNeg,
      hsmall, hr]
    simp [negative]
  rw [mulDiv_div h.op, hquotient, hremainder]
  rcases h.op with hop | hop | hop | hop <;> simp [finish, quotientOp, hop]

section

variable {d : ExecuteDiv} {bit : Nat}

/-- The remainder with the next bit of the dividend. -/
theorem Dividing.toNat_shiftedRemainder (h : d.Dividing) (hlt : d.divCount.toNat < 32) :
    d.shiftedRemainder.toNat = 2 * d.divRemainder.toNat +
      (magnitude (negative d.divOp d.divA) d.divA).toNat / 2 ^ (32 - (d.divCount.toNat + 1)) % 2 := by
  have hbit : (d.divDividend >>> 31).toNat = (magnitude (negative d.divOp d.divA) d.divA).toNat /
      2 ^ (32 - (d.divCount.toNat + 1)) % 2 := by
    rw [BitVec.toNat_ushiftRight, Nat.shiftRight_eq_div_pow, h.dividend]
    exact BitSerial.shifted_top _ hlt
  have hrem := d.divRemainder.isLt
  rw [shiftedRemainder, BitVec.toNat_or, BitVec.toNat_shiftLeft, BitVec.toNat_setWidth,
    BitVec.toNat_setWidth, hbit, Nat.mod_eq_of_lt (show d.divRemainder.toNat < 2 ^ 64 by omega),
    Nat.mod_eq_of_lt (show d.divRemainder.toNat <<< 1 < 2 ^ 64 by rw [Nat.shiftLeft_eq]; omega),
    Nat.mod_eq_of_lt (show _ % 2 < 2 ^ 64 by omega),
    ← Nat.shiftLeft_add_eq_or_of_lt (by omega), Nat.shiftLeft_eq]
  omega

theorem Dividing.toNat_shiftedQuotient (h : d.Dividing) (hlt : d.divCount.toNat < 32) :
    d.shiftedQuotient.toNat = 2 * d.divQuotient.toNat := by
  have hsmall := BitSerial.lead_lt (magnitude (negative d.divOp d.divA) d.divA).isLt hlt.le
  have hle := h.divided.quotient_le
  have hpow := Nat.pow_le_pow_right (show 0 < 2 by decide) (show d.divCount.toNat ≤ 31 by omega)
  rw [shiftedQuotient, BitVec.toNat_shiftLeft, Nat.shiftLeft_eq]
  omega

theorem fits_iff (hshifted : d.shiftedRemainder.toNat = 2 * d.divRemainder.toNat + bit) :
    d.fits = true ↔ d.divDivisor.toNat ≤ 2 * d.divRemainder.toNat + bit := by
  have hdivisor := d.divDivisor.isLt
  rw [fits, decide_eq_true_iff, BitVec.le_def, hshifted, BitVec.toNat_setWidth,
    Nat.mod_eq_of_lt (by omega)]

theorem divideBit_fits (hshifted : d.shiftedRemainder.toNat = 2 * d.divRemainder.toNat + bit)
    (hquotient : d.shiftedQuotient.toNat = 2 * d.divQuotient.toNat)
    (hfit : d.divDivisor.toNat ≤ 2 * d.divRemainder.toNat + bit)
    (hsmall : 2 * d.divRemainder.toNat + bit < 2 ^ 33) :
    d.divideBit.divQuotient.toNat = 2 * d.divQuotient.toNat + 1 ∧
      d.divideBit.divRemainder.toNat = 2 * d.divRemainder.toNat + bit - d.divDivisor.toNat := by
  have hdivisor := d.divDivisor.isLt
  have hfits := (fits_iff hshifted).mpr hfit
  have hq : d.divideBit.divQuotient = d.shiftedQuotient ||| 1 := if_pos hfits
  have hr : d.divideBit.divRemainder =
      (d.shiftedRemainder - d.divDivisor.setWidth 64).setWidth 33 := by
    change (if d.fits = true then _ else d.shiftedRemainder).setWidth 33 = _
    rw [if_pos hfits]
  constructor
  · rw [hq, BitVec.toNat_or, hquotient, Nat.mul_comm, ← Nat.pow_one 2, ← Nat.shiftLeft_eq]
    exact (Nat.shiftLeft_add_eq_or_of_lt (show 1 < 2 ^ 1 by decide) _).symm
  · rw [hr, BitVec.toNat_setWidth, BitVec.toNat_sub, BitVec.toNat_setWidth, hshifted]
    omega

/-- The divisor does not fit: the quotient gets a zero. -/
theorem divideBit_restores (hshifted : d.shiftedRemainder.toNat = 2 * d.divRemainder.toNat + bit)
    (hquotient : d.shiftedQuotient.toNat = 2 * d.divQuotient.toNat)
    (hfit : 2 * d.divRemainder.toNat + bit < d.divDivisor.toNat) :
    d.divideBit.divQuotient.toNat = 2 * d.divQuotient.toNat ∧
      d.divideBit.divRemainder.toNat = 2 * d.divRemainder.toNat + bit := by
  have hdivisor := d.divDivisor.isLt
  have hfits : ¬ d.fits = true := fun h => Nat.not_le_of_lt hfit ((fits_iff hshifted).mp h)
  have hq : d.divideBit.divQuotient = d.shiftedQuotient := if_neg hfits
  have hr : d.divideBit.divRemainder = d.shiftedRemainder.setWidth 33 := by
    change (if d.fits = true then _ else d.shiftedRemainder).setWidth 33 = _
    rw [if_neg hfits]
  constructor
  · rw [hq, hquotient]
  · rw [hr, BitVec.toNat_setWidth, hshifted]
    omega

/-- Bringing down one bit of the dividend. -/
theorem Dividing.divideBit (h : d.Dividing) (hmore : d.divCount ≠ 32) : d.divideBit.Dividing := by
  have hlt : d.divCount.toNat < 32 := by
    have hne : d.divCount.toNat ≠ 32 := fun hsame => hmore (BitVec.eq_of_toNat_eq hsame)
    have := h.count_le
    omega
  have hcount : (d.divCount + 1).toNat = d.divCount.toNat + 1 := by
    change (d.divCount.toNat + 1) % 2 ^ 6 = _
    omega
  have hshifted := h.toNat_shiftedRemainder hlt
  have hquotient := h.toNat_shiftedQuotient hlt
  have hdivisor := d.divDivisor.isLt
  have hrem := h.divided.lt
  generalize hbit : (magnitude (negative d.divOp d.divA) d.divA).toNat /
    2 ^ (32 - (d.divCount.toNat + 1)) % 2 = bit at hshifted
  have hlead := BitSerial.lead_succ (magnitude (negative d.divOp d.divA) d.divA).toNat hlt
  rw [hbit] at hlead
  refine { h with count_le := ?_, dividend := ?_, divided := ?_ }
  · change (d.divCount + 1).toNat ≤ 32
    omega
  · change (d.divDividend <<< 1).toNat = _ * 2 ^ (d.divCount + 1).toNat % 2 ^ 32
    rw [hcount, BitVec.toNat_shiftLeft, Nat.shiftLeft_eq, h.dividend, Nat.mod_mul_mod, Nat.mul_assoc,
      ← Nat.pow_add]
    rfl
  · change BitSerial.Divided d.divDivisor.toNat
      ((magnitude (negative d.divOp d.divA) d.divA).toNat / 2 ^ (32 - (d.divCount + 1).toNat)) _ _
    rw [hcount, hlead]
    by_cases hfit : d.divDivisor.toNat ≤ 2 * d.divRemainder.toNat + bit
    · obtain ⟨hq, hr⟩ := divideBit_fits hshifted hquotient hfit (by omega)
      rw [hq, hr]
      exact h.divided.subtract (by omega) hfit
    · obtain ⟨hq, hr⟩ := divideBit_restores hshifted hquotient (by omega)
      rw [hq, hr]
      exact h.divided.restore (by omega)

end

theorem exact_start (d : ExecuteDiv) {s : State} (hdiv : s.isDiv = true) : (d.start s).Exact := by
  have hop := State.div_of_isDiv hdiv
  by_cases hb : s.rs2Val = 0
  · refine ⟨fun hbusy => ?_, fun _ => ?_⟩
    · simp [start, hb] at hbusy
    · have hzero : ∀ signed, operand signed s.rs2Val = 0 := by
        intro signed
        rw [hb]
        cases signed <;> rfl
      have hword : ∀ signed, BitVec.ofInt 32 (operand signed s.rs1Val) = s.rs1Val := by
        intro signed
        cases signed <;> simp [operand]
      have hresult : (d.start s).divResult = if quotientOp s.aluOp then ~~~0 else s.rs1Val := by
        simp [start, hb]
      have hkept : (d.start s).divOp = s.aluOp ∧ (d.start s).divA = s.rs1Val ∧
          (d.start s).divB = s.rs2Val := by simp [start, hb]
      rw [hresult, hkept.1, hkept.2.1, hkept.2.2, mulDiv_div hop, quotient, remainder, if_pos (hzero _),
        if_pos (hzero _), hword]
  · refine ⟨fun _ => ?_, fun hdone => ?_⟩
    · rw [start, if_neg hb]
      have hlt := (magnitude (negative s.aluOp s.rs1Val) s.rs1Val).isLt
      refine ⟨rfl, hop, hb, Nat.zero_le _, rfl, ?_, ?_, rfl, rfl⟩
      · change _ = _ * 2 ^ 0 % 2 ^ 32
        rw [Nat.pow_zero, Nat.mul_one, Nat.mod_eq_of_lt hlt]
      · change BitSerial.Divided _ (_ / 2 ^ 32) 0 0
        rw [Nat.div_eq_of_lt hlt]
        exact .zero (magnitude_pos hb)
    · rw [start, if_neg hb] at hdone
      cases hdone

theorem Exact.step {d : ExecuteDiv} (h : d.Exact) (s : State) : (d.step s).Exact := by
  unfold ExecuteDiv.step
  split_ifs with hbusy hlast hstart hidle
  · refine ⟨fun hrunning => ?_, fun _ => (h.dividing hbusy).finish_result hlast⟩
    cases hrunning
  · have hnext := (h.dividing hbusy).divideBit hlast
    exact ⟨fun _ => hnext, fun hdone => absurd (hnext.pending.symm.trans hdone) (by decide)⟩
  · exact exact_start d (Bool.and_eq_true_iff.mp hstart).1
  · refine ⟨fun hrunning => absurd hrunning hbusy, fun hdone => ?_⟩
    cases hdone
  · exact h

end ExecuteDiv

/-! ## The multiplier -/

namespace ExecuteMul

def operandA (op : Alu) (a : BitVec 32) : Int := operand (signedA op) a

def operandB (op : Alu) (b : BitVec 32) : Int := operand (signedB op) b

def magnitudeA (op : Alu) (a : BitVec 32) : BitVec 32 := magnitude (signedA op && a.msb) a

def magnitudeB (op : Alu) (b : BitVec 32) : BitVec 32 := magnitude (signedB op && b.msb) b

/-- The multiplier has added up the products with the low `mulCount` bits. -/
structure Multiplying (m : ExecuteMul) : Prop where
  pending : m.mulDone = false
  op : m.mulOp = .mul ∨ m.mulOp = .mulh ∨ m.mulOp = .mulhsu ∨ m.mulOp = .mulhu
  count_lt : m.mulCount.toNat < 32
  multiplicand : m.mulMultiplicand.toNat = (magnitudeA m.mulOp m.mulA).toNat * 2 ^ m.mulCount.toNat
  multiplier : m.mulMultiplier.toNat = (magnitudeB m.mulOp m.mulB).toNat / 2 ^ m.mulCount.toNat
  accumulator : m.mulAccumulator.toNat = (magnitudeA m.mulOp m.mulA).toNat *
    ((magnitudeB m.mulOp m.mulB).toNat % 2 ^ m.mulCount.toNat)
  negate : m.mulNegate =
    ((signedA m.mulOp && m.mulA.msb) != (signedB m.mulOp && m.mulB.msb))
  high : m.mulHigh = decide (m.mulOp ≠ .mul)

structure Exact (m : ExecuteMul) : Prop where
  multiplying : m.mulBusy = true → m.Multiplying
  result : m.mulDone = true → m.mulResult = mulDiv m.mulOp m.mulA m.mulB

theorem mulDiv_mul {op : Alu} (hop : op = .mul ∨ op = .mulh ∨ op = .mulhsu ∨ op = .mulhu)
    (a b : BitVec 32) : mulDiv op a b =
      if op ≠ .mul then highWord (operandA op a) (operandB op b)
      else BitVec.ofInt 32 (operandA op a * operandB op b) := by
  rcases hop with rfl | rfl | rfl | rfl
  · change a * b = BitVec.ofInt 32 (a.toNat * b.toNat)
    rw [BitVec.ofInt_mul, BitVec.ofInt_natCast, BitVec.ofInt_natCast, BitVec.ofNat_toNat,
      BitVec.ofNat_toNat, BitVec.setWidth_eq, BitVec.setWidth_eq]
  all_goals rfl

section

variable {m : ExecuteMul}

theorem Multiplying.bit_iff (h : m.Multiplying) : m.mulMultiplier &&& 1 ≠ 0 ↔
    (magnitudeB m.mulOp m.mulB).toNat.testBit m.mulCount.toNat = true := by
  have hand : (m.mulMultiplier &&& 1).toNat = m.mulMultiplier.toNat % 2 := by
    rw [BitVec.toNat_and]
    exact Nat.and_one_is_mod _
  have hzero : m.mulMultiplier &&& 1 = 0 ↔ m.mulMultiplier.toNat % 2 = 0 := by
    rw [← hand]
    exact BitVec.toNat_eq
  rw [ne_eq, hzero, h.multiplier, Nat.testBit_eq_decide_div_mod_eq, decide_eq_true_iff]
  omega

/-- The sum takes in the next bit and does not overflow. -/
theorem Multiplying.toNat_mulSum (h : m.Multiplying) :
    m.mulSum.toNat = (magnitudeA m.mulOp m.mulA).toNat *
      ((magnitudeB m.mulOp m.mulB).toNat % 2 ^ (m.mulCount.toNat + 1)) := by
  have hbound : (magnitudeA m.mulOp m.mulA).toNat *
      ((magnitudeB m.mulOp m.mulB).toNat % 2 ^ (m.mulCount.toNat + 1)) < 2 ^ 32 * 2 ^ 32 :=
    Nat.mul_lt_mul'' (BitVec.isLt _) (Nat.lt_of_le_of_lt (Nat.mod_le _ _) (BitVec.isLt _))
  have hstep := BitSerial.mul_mod_succ (magnitudeA m.mulOp m.mulA).toNat
    (magnitudeB m.mulOp m.mulB).toNat m.mulCount.toNat
  unfold mulSum
  by_cases hbit : m.mulMultiplier &&& 1 ≠ 0
  · rw [if_pos (h.bit_iff.mp hbit)] at hstep
    rw [if_pos hbit, BitVec.toNat_add, h.accumulator, h.multiplicand, ← hstep]
    exact Nat.mod_eq_of_lt hbound
  · rw [if_neg (fun hset => hbit (h.bit_iff.mpr hset))] at hstep
    rw [if_neg hbit, h.accumulator, hstep, Nat.add_zero]

/-- After the last bit the halves of the product are the results. -/
theorem Multiplying.result (h : m.Multiplying) (hlast : m.mulCount = 31) :
    (if m.mulHigh then (m.mulProduct >>> 32).setWidth 32 else m.mulProduct.setWidth 32) =
      mulDiv m.mulOp m.mulA m.mulB := by
  have hsum : m.mulSum.toNat = (magnitudeA m.mulOp m.mulA).toNat *
      (magnitudeB m.mulOp m.mulB).toNat := by
    rw [h.toNat_mulSum, hlast]
    exact congrArg _ (Nat.mod_eq_of_lt (BitVec.isLt _))
  have hproduct : m.mulProduct =
      BitVec.ofInt 64 (operandA m.mulOp m.mulA * operandB m.mulOp m.mulB) := by
    rw [mulProduct, negate_eq_ofInt, h.negate, hsum, ← withSign_mul, operandA, operandB, operand_eq,
      operand_eq]
    rfl
  rw [hproduct, ofInt_high, ofInt_low, mulDiv_mul h.op, h.high]
  simp [highWord]

theorem Multiplying.multiplyBit (h : m.Multiplying) (hmore : m.mulCount ≠ 31) :
    m.multiplyBit.Multiplying := by
  have hlt : m.mulCount.toNat < 31 := by
    have hne : m.mulCount.toNat ≠ 31 := fun hsame => hmore (BitVec.eq_of_toNat_eq hsame)
    have := h.count_lt
    omega
  have hcount : (m.mulCount + 1).toNat = m.mulCount.toNat + 1 := by
    change (m.mulCount.toNat + 1) % 2 ^ 6 = _
    omega
  have hroom : (magnitudeA m.mulOp m.mulA).toNat * 2 ^ (m.mulCount.toNat + 1) < 2 ^ 32 * 2 ^ 32 :=
    Nat.mul_lt_mul'' (BitVec.isLt _)
      (Nat.pow_lt_pow_right (by decide) (show m.mulCount.toNat + 1 < 32 by omega))
  rw [ExecuteMul.multiplyBit, if_neg hmore]
  refine { h with count_lt := ?_, multiplicand := ?_, multiplier := ?_, accumulator := ?_ }
  · change (m.mulCount + 1).toNat < 32
    omega
  · change (m.mulMultiplicand <<< 1).toNat = _ * 2 ^ (m.mulCount + 1).toNat
    rw [hcount, BitVec.toNat_shiftLeft, Nat.shiftLeft_eq, h.multiplicand, Nat.mul_assoc, ← Nat.pow_add]
    exact Nat.mod_eq_of_lt hroom
  · change (m.mulMultiplier >>> 1).toNat = _ / 2 ^ (m.mulCount + 1).toNat
    rw [hcount, BitVec.toNat_ushiftRight, h.multiplier, Nat.shiftRight_eq_div_pow,
      Nat.div_div_eq_div_mul, ← Nat.pow_add]
  · change m.mulSum.toNat = _ * (_ % 2 ^ (m.mulCount + 1).toNat)
    rw [hcount, h.toNat_mulSum]

theorem multiplying_start (m : ExecuteMul) {s : State} (hmul : s.isMul = true) :
    (m.start s).Multiplying := by
  have hop := State.mul_of_isMul hmul
  refine ⟨rfl, hop, show 0 < 32 by decide, ?_, ?_, ?_, rfl, rfl⟩
  · change ((magnitudeA s.aluOp s.rs1Val).setWidth 64).toNat = _ * 2 ^ 0
    rw [BitVec.toNat_setWidth, Nat.pow_zero, Nat.mul_one]
    exact Nat.mod_eq_of_lt (by have := (magnitudeA s.aluOp s.rs1Val).isLt; omega)
  · change _ = _ / 2 ^ 0
    rw [Nat.pow_zero, Nat.div_one]
    rfl
  · change 0 = _ * (_ % 2 ^ 0)
    rw [Nat.pow_zero, Nat.mod_one, Nat.mul_zero]

theorem Exact.step (h : m.Exact) (s : State) : (m.step s).Exact := by
  unfold ExecuteMul.step
  split_ifs with hbusy hstart hidle
  · by_cases hlast : m.mulCount = 31
    · rw [multiplyBit, if_pos hlast]
      refine ⟨fun hrunning => ?_, fun _ => (h.multiplying hbusy).result hlast⟩
      cases hrunning
    · have hnext := (h.multiplying hbusy).multiplyBit hlast
      exact ⟨fun _ => hnext, fun hdone => absurd (hnext.pending.symm.trans hdone) (by decide)⟩
  · have hnext := multiplying_start m (Bool.and_eq_true_iff.mp hstart).1
    exact ⟨fun _ => hnext, fun hdone => absurd (hnext.pending.symm.trans hdone) (by decide)⟩
  · refine ⟨fun hrunning => absurd hrunning hbusy, fun hdone => ?_⟩
    cases hdone
  · exact h

end

end ExecuteMul

/-! ## The stage -/

namespace Execute

structure Exact (e : Execute) : Prop where
  div : e.div.Exact
  mul : e.mul.Exact

theorem exact_default : (default : Execute).Exact where
  div := ⟨fun hbusy => absurd hbusy (by decide), fun hdone => absurd hdone (by decide)⟩
  mul := ⟨fun hbusy => absurd hbusy (by decide), fun hdone => absurd hdone (by decide)⟩

theorem Exact.work {e : Execute} (h : e.Exact) (i : ExecuteInputs) : (e.work i).Exact := by
  unfold Execute.work
  split
  · exact exact_default
  · exact ⟨h.div.step i.multicycleState, h.mul.step i.multicycleState⟩

/-- The registers after any sequence of clocks from reset. -/
def run (inputs : List ExecuteInputs) : Execute := inputs.foldl work default

theorem exact_run (inputs : List ExecuteInputs) : (run inputs).Exact := by
  unfold run
  generalize hstart : (default : Execute) = e
  have he : e.Exact := hstart ▸ exact_default
  clear hstart
  induction inputs generalizing e with
  | nil => exact he
  | cons i inputs ih => exact ih (e.work i) (he.work i)

section

variable {e : Execute} {s : State} {i : ExecuteInputs} {reset : Bool}

theorem aluResult_mul (hbranch : i.state.brOp = .bnone)
    (hop : i.state.aluOp = .mul ∨ i.state.aluOp = .mulh ∨ i.state.aluOp = .mulhsu ∨
      i.state.aluOp = .mulhu) : e.aluResult i = e.mul.mulResult := by
  rw [Execute.aluResult, if_pos hbranch]
  rcases hop with hop | hop | hop | hop <;> rw [hop]

theorem aluResult_div (hbranch : i.state.brOp = .bnone)
    (hop : i.state.aluOp = .div ∨ i.state.aluOp = .divu ∨ i.state.aluOp = .rem ∨
      i.state.aluOp = .remu) : e.aluResult i = e.div.divResult := by
  rw [Execute.aluResult, if_pos hbranch]
  rcases hop with hop | hop | hop | hop <;> rw [hop]

/-- A divider that matches an instruction holds its result. -/
theorem Exact.divResult (h : e.Exact) (hmatch : e.div.divResultMatch s = true) :
    e.div.divResult = mulDiv s.aluOp s.rs1Val s.rs2Val := by
  unfold ExecuteDiv.divResultMatch at hmatch
  simp only [Bool.and_eq_true, decide_eq_true_eq] at hmatch
  obtain ⟨⟨⟨⟨⟨hdone, _⟩, _⟩, ha⟩, hb⟩, hop⟩ := hmatch
  rw [h.div.result hdone, ha, hb, hop]

/-- A multiplier that matches an instruction holds its result. -/
theorem Exact.mulResult (h : e.Exact) (hmatch : e.mul.mulResultMatch s = true) :
    e.mul.mulResult = mulDiv s.aluOp s.rs1Val s.rs2Val := by
  unfold ExecuteMul.mulResultMatch at hmatch
  simp only [Bool.and_eq_true, decide_eq_true_eq] at hmatch
  obtain ⟨⟨⟨⟨⟨hdone, _⟩, _⟩, ha⟩, hb⟩, hop⟩ := hmatch
  rw [h.mul.result hdone, ha, hb, hop]

/-- An instruction that does not wait reads a unit that matches it. -/
theorem Exact.aluResult (h : e.Exact) (hs : s.IsMulDiv)
    (hwait : e.multicycleWait (.wired reset s) = false) :
    e.aluResult (.wired reset s) = mulDiv s.aluOp s.rs1Val s.rs2Val := by
  obtain ⟨hkind, hbranch⟩ := hs
  obtain ⟨hdivWait, hmulWait⟩ := Bool.or_eq_false_iff.mp hwait
  rcases Bool.or_eq_true_iff.mp hkind with hmul | hdiv
  · have hmatch : e.mul.mulResultMatch s = true := by
      change (s.isMul && !e.mul.mulResultMatch s) = false at hmulWait
      simpa [hmul] using hmulWait
    rw [← h.mulResult hmatch]
    exact aluResult_mul (i := .wired reset s) hbranch (State.mul_of_isMul hmul)
  · have hmatch : e.div.divResultMatch s = true := by
      change (s.isDiv && !e.div.divResultMatch s) = false at hdivWait
      simpa [hdiv] using hdivWait
    rw [← h.divResult hmatch]
    exact aluResult_div (i := .wired reset s) hbranch (State.div_of_isDiv hdiv)

end

/-- Whatever was presented before, an instruction that does not wait has its result. -/
theorem multicycle_exact (inputs : List ExecuteInputs) (reset : Bool) (s : State) (hs : s.IsMulDiv)
    (hwait : (run inputs).multicycleWait (.wired reset s) = false) :
    (run inputs).aluResult (.wired reset s) = mulDiv s.aluOp s.rs1Val s.rs2Val :=
  (exact_run inputs).aluResult hs hwait

/-- An abandoned multiplication, then the most negative number by minus one. -/
theorem multicycle_exact_overflow :
    let product : State := { (default : State) with valid := true, aluOp := .mulh, rs1Val := 5 }
    let s : State := { (default : State) with
      valid := true, aluOp := .div, rs1Val := 0x80000000, rs2Val := 0xffffffff }
    let inputs := List.replicate 3 (ExecuteInputs.wired false product) ++
      List.replicate 34 (.wired false s)
    (run inputs).aluResult (.wired false s) = mulDiv .div 0x80000000 0xffffffff := by
  intro product s inputs
  exact multicycle_exact inputs false s (by decide) (by decide +kernel)

end Execute

end CppHdl.Cpu
