import Mathlib.Data.Nat.Bitwise
import CppHdl.Hls.LoopPlan

/-!
# Integers known at conversion time

`staticInteger` computes an expression over known loop indices in 64-bit signed numbers,
brought back to the type of each operator by `normalize`. The program computes it in the types
of C++. The constants of the compiler's own evaluator come in by a parameter.
-/

namespace CppHdl.Hls

open IntType

inductive UnaryOp
  | plus | minus | not
deriving DecidableEq

inductive ArithmeticOp
  | add | sub | mul | div | rem | shl | shr | and | or | xor
deriving DecidableEq

inductive RelationalOp
  | lt | le | gt | ge | eq | ne
deriving DecidableEq

def RelationalOp.holds : RelationalOp → Int → Int → Bool
  | lt, a, b => decide (a < b)
  | le, a, b => decide (a ≤ b)
  | gt, a, b => decide (a > b)
  | ge, a, b => decide (a ≥ b)
  | eq, a, b => decide (a = b)
  | ne, a, b => decide (a ≠ b)

/-- An integer expression with the conversions written out. Arithmetic is in a promoted type,
comparisons and logical operators give `bool`; `other` is whatever `staticInteger` does not
look into, with or without side effects. -/
inductive Expr
  | literal (type : IntType) (value : Int)
  | ref (type : IntType) (var : Nat)
  | cast (type : IntType) (e : Expr)
  | unary (op : UnaryOp) (size : IntSize) (signed : Bool) (e : Expr)
  | lnot (e : Expr)
  | conditional (type : IntType) (test yes no : Expr)
  | land (a b : Expr)
  | lor (a b : Expr)
  | arithmetic (op : ArithmeticOp) (size : IntSize) (signed : Bool) (a b : Expr)
  | compare (op : RelationalOp) (a b : Expr)
  | other (type : IntType) (id : Nat) (effects : Bool)

namespace Expr

def type : Expr → IntType
  | literal t _ | ref t _ | cast t _ | conditional t _ _ _ | other t _ _ => t
  | unary _ size signed _ | arithmetic _ size signed _ _ => .int size signed
  | lnot _ | land _ _ | lor _ _ | compare _ _ _ => .bool

def hasSideEffects : Expr → Bool
  | literal _ _ | ref _ _ => false
  | cast _ e | unary _ _ _ e | lnot e => e.hasSideEffects
  | conditional _ c a b => c.hasSideEffects || a.hasSideEffects || b.hasSideEffects
  | land a b | lor a b | arithmetic _ _ _ a b | compare _ a b =>
      a.hasSideEffects || b.hasSideEffects
  | other _ _ effects => effects

end Expr

/-! ## The conversion -/

abbrev int64 : IntType := .int .s64 true

/-- The known variables; a value is an `int64_t`. -/
structure StaticIntegers where
  find : Nat → Option Int
  inRange : ∀ x v, find x = some v → int64.InRange v

/-- A number brought to the width and sign of a type. -/
def normalize (t : IntType) (value : Int) : Option Int :=
  let width := t.objectBits
  if 64 < width then none
  else if width = 1 then some (if value ≠ 0 then 1 else 0)
  else if width < 64 then
    let raw := value % 2 ^ width
    some (if t.signed ∧ 2 ^ (width - 1) ≤ raw then raw - 2 ^ width else raw)
  else if ¬ t.signed ∧ value < 0 then none
  else some value

/-- `int64_t` from the wide result. -/
def narrow (t : IntType) (wide : Int) : Option Int :=
  if int64.InRange wide then normalize t wide else none

/-- A bitwise operator on numbers of so many bits. -/
def bitwiseInt (op : ArithmeticOp) (bits : Nat) (a b : Int) : Int :=
  match op with
  | .and => (BitVec.ofInt bits a &&& BitVec.ofInt bits b).toInt
  | .or => (BitVec.ofInt bits a ||| BitVec.ofInt bits b).toInt
  | _ => (BitVec.ofInt bits a ^^^ BitVec.ofInt bits b).toInt

def staticUnary (op : UnaryOp) (t : IntType) (v : Int) : Option Int :=
  match op with
  | .plus => normalize t v
  | .minus => if v ≠ int64.lo then normalize t (-v) else none
  | .not => normalize t (-v - 1)

def staticArithmetic (op : ArithmeticOp) (t : IntType) (a b : Int) : Option Int :=
  match op with
  | .add => narrow t (a + b)
  | .sub => narrow t (a - b)
  | .mul => narrow t (a * b)
  | .div => if b = 0 then none else narrow t (a.tdiv b)
  | .rem => if b = 0 then none else narrow t (a.tmod b)
  | .shl => if b < 0 ∨ 63 ≤ b ∨ a < 0 then none else narrow t (a * 2 ^ b.toNat)
  | .shr => if b < 0 ∨ 64 ≤ b then none else normalize t (a / 2 ^ b.toNat)
  | op => normalize t (bitwiseInt op 64 a b)

/-- A known zero on either side decides a conjunction. -/
def staticAnd (a b : Option Int) : Option Int :=
  if a = some 0 ∨ b = some 0 then some 0 else if a.isSome ∧ b.isSome then some 1 else none

/-- A known nonzero number on either side decides a disjunction. -/
def staticOr (a b : Option Int) : Option Int :=
  if a.getD 0 ≠ 0 ∨ b.getD 0 ≠ 0 then some 1 else if a.isSome ∧ b.isSome then some 0 else none

section Static

variable (evaluate : Expr → Option Int) (values : StaticIntegers)

/-- `EvaluateAsInt`, read by `isSignedIntN(63)` and `getSExtValue`. -/
def readConstant (e : Expr) : Option Int := (evaluate e).bind (CanonicalLoop.constant e.type)

/-- What comes before the operators: side effects, known variables and constants. -/
def staticFirst (e : Expr) (rest : Option Int) : Option Int :=
  if e.hasSideEffects then none
  else
    match e with
    | .ref _ x => ((values.find x).or (readConstant evaluate e)).or rest
    | _ => (readConstant evaluate e).or rest

def staticInteger : Expr → Option Int
  | .literal t v => staticFirst evaluate values (.literal t v) none
  | .ref t x => staticFirst evaluate values (.ref t x) none
  | .cast t e => staticFirst evaluate values (.cast t e) ((staticInteger e).bind (normalize t))
  | .unary op size signed e =>
      staticFirst evaluate values (.unary op size signed e)
        ((staticInteger e).bind (staticUnary op (.int size signed)))
  | .lnot e =>
      staticFirst evaluate values (.lnot e)
        ((staticInteger e).map fun v => if v = 0 then 1 else 0)
  | .conditional t c yes no =>
      staticFirst evaluate values (.conditional t c yes no)
        ((staticInteger c).bind fun v => if v ≠ 0 then staticInteger yes else staticInteger no)
  | .land a b =>
      staticFirst evaluate values (.land a b) (staticAnd (staticInteger a) (staticInteger b))
  | .lor a b =>
      staticFirst evaluate values (.lor a b) (staticOr (staticInteger a) (staticInteger b))
  | .arithmetic op size signed a b =>
      staticFirst evaluate values (.arithmetic op size signed a b)
        ((staticInteger a).bind fun x => (staticInteger b).bind fun y =>
          staticArithmetic op (.int size signed) x y)
  | .compare op a b =>
      staticFirst evaluate values (.compare op a b)
        ((staticInteger a).bind fun x => (staticInteger b).map fun y =>
          if op.holds x y then 1 else 0)
  | .other t id effects => staticFirst evaluate values (.other t id effects) none

end Static

/-! ## The program -/

/-- The variables, and what the other expressions evaluate to. -/
structure Environment where
  var : Nat → Int
  other : Nat → Option Int

/-- A unary operator in its type; nothing where it is undefined. -/
def evalUnary (op : UnaryOp) (t : IntType) (v : Int) : Option Int :=
  match op with
  | .plus => some (t.convert v)
  | .minus => t.result (-v)
  | .not => some (t.convert (-v - 1))

/-- An arithmetic operator in its type; nothing where it is undefined. -/
def evalArithmetic (op : ArithmeticOp) (t : IntType) (a b : Int) : Option Int :=
  match op with
  | .add => t.result (a + b)
  | .sub => t.result (a - b)
  | .mul => t.result (a * b)
  | .div => if b = 0 then none else t.result (a.tdiv b)
  | .rem => if b = 0 then none else (t.result (a.tdiv b)).bind fun _ => t.result (a.tmod b)
  | .shl => if 0 ≤ b ∧ b < t.bits then some (t.convert (a * 2 ^ b.toNat)) else none
  | .shr => if 0 ≤ b ∧ b < t.bits then some (t.convert (a / 2 ^ b.toNat)) else none
  | op => some (t.convert (bitwiseInt op 128 a b))

/-- The value of an expression; nothing where its evaluation is undefined. -/
def Expr.eval (env : Environment) : Expr → Option Int
  | literal t v => some (t.convert v)
  | ref _ x => some (env.var x)
  | cast t e => (e.eval env).map t.convert
  | unary op size signed e => (e.eval env).bind (evalUnary op (.int size signed))
  | lnot e => (e.eval env).map fun v => if v = 0 then 1 else 0
  | conditional _ c yes no => (c.eval env).bind fun v => if v ≠ 0 then yes.eval env else no.eval env
  | land a b =>
      (a.eval env).bind fun x =>
        if x = 0 then some 0 else (b.eval env).map fun y => if y = 0 then 0 else 1
  | lor a b =>
      (a.eval env).bind fun x =>
        if x ≠ 0 then some 1 else (b.eval env).map fun y => if y ≠ 0 then 1 else 0
  | arithmetic op size signed a b =>
      (a.eval env).bind fun x => (b.eval env).bind fun y =>
        evalArithmetic op (.int size signed) x y
  | compare op a b =>
      (a.eval env).bind fun x => (b.eval env).map fun y => if op.holds x y then 1 else 0
  | other _ id _ => env.other id

/-! ## Where the two can differ -/

/-- Below 64 bits an overflow is not noticed. -/
def Unnoticed (t : IntType) (v : Int) : Prop := t.bits < 64 ∧ t.signed = true ∧ ¬ t.InRange v

/-- An operator that is defined in its type, or is seen not to be. -/
def PlainArithmetic (op : ArithmeticOp) (t : IntType) (a b : Int) : Prop :=
  match op with
  | .add => ¬ Unnoticed t (a + b)
  | .sub => ¬ Unnoticed t (a - b)
  | .mul => ¬ Unnoticed t (a * b)
  | .div => b ≠ 0 → ¬ Unnoticed t (a.tdiv b)
  | .rem => b ≠ 0 → (t.signed = true → t.InRange (a.tdiv b)) ∧ ¬ Unnoticed t (a.tmod b)
  | .shl | .shr => t.bits < 64 → b < t.bits
  | _ => True

section Plain

variable (evaluate : Expr → Option Int) (values : StaticIntegers) (env : Environment)

/-- A constant that is the number its bits denote as a signed one; anything else is looked
into. -/
def PlainFirst (e : Expr) (rest : Prop) : Prop :=
  match readConstant evaluate e with
  | some v => evaluate e = some v
  | none => rest

/-- An evaluation in which every constant is the signed number of its bits, only 0 and 1 (modulo
256) become `bool`, no operator below 64 bits overflows or shifts by its width, no remainder
overflows, and the left operands of `&&` and `||` are defined. -/
def Plain : Expr → Prop
  | .literal t v => PlainFirst evaluate (.literal t v) True
  | .ref t x => values.find x = none → PlainFirst evaluate (.ref t x) True
  | .cast t e =>
      PlainFirst evaluate (.cast t e)
        (Plain e ∧ (t = .bool → ∀ v, e.eval env = some v → v % 256 = IntType.bool.convert v))
  | .unary op size signed e =>
      PlainFirst evaluate (.unary op size signed e)
        (Plain e ∧ (op = .minus →
          ∀ v, e.eval env = some v → ¬ Unnoticed (.int size signed) (-v)))
  | .lnot e => PlainFirst evaluate (.lnot e) (Plain e)
  | .conditional t c yes no =>
      PlainFirst evaluate (.conditional t c yes no)
        (Plain c ∧ ∀ v, c.eval env = some v → (v ≠ 0 → Plain yes) ∧ (v = 0 → Plain no))
  | .land a b =>
      PlainFirst evaluate (.land a b)
        (Plain a ∧ (a.eval env).isSome ∧ (a.eval env ≠ some 0 → Plain b))
  | .lor a b =>
      PlainFirst evaluate (.lor a b)
        (Plain a ∧ (a.eval env).isSome ∧ (a.eval env = some 0 → Plain b))
  | .arithmetic op size signed a b =>
      PlainFirst evaluate (.arithmetic op size signed a b)
        (Plain a ∧ Plain b ∧ ∀ x y, a.eval env = some x → b.eval env = some y →
          PlainArithmetic op (.int size signed) x y)
  | .compare op a b => PlainFirst evaluate (.compare op a b) (Plain a ∧ Plain b)
  | .other t id effects => PlainFirst evaluate (.other t id effects) True

end Plain

/-! ## Normalizing -/

theorem int64_inRange {v : Int} : int64.InRange v ↔ -2 ^ 63 ≤ v ∧ v < 2 ^ 63 := Iff.rfl

theorem normalize_inRange {t : IntType} {v w : Int} (h : normalize t v = some w)
    (hv : int64.InRange v) : int64.InRange w := by
  rw [int64_inRange] at hv ⊢
  unfold normalize at h
  cases t with
  | bool => simp [objectBits, signed] at h; omega
  | int size signed =>
      cases size <;> cases signed <;> simp [objectBits, IntSize.bits, IntType.signed] at h <;> omega

theorem normalize_int {size : IntSize} {signed : Bool} {v w : Int}
    (h : normalize (.int size signed) v = some w) (hv : int64.InRange v) :
    w = (IntType.int size signed).convert v := by
  rw [int64_inRange] at hv
  unfold normalize at h
  cases size <;> cases signed <;>
    simp [objectBits, IntSize.bits, IntType.signed] at h <;>
    simp [convert, IntSize.bits, Int.bmod_def] <;> omega

theorem normalize_bool {v w : Int} (h : normalize .bool v = some w) : w = v % 256 := by
  simp [normalize, objectBits, signed] at h
  exact h.symm

theorem narrow_eq {t : IntType} {v w : Int} (h : narrow t v = some w) :
    int64.InRange v ∧ normalize t v = some w := by
  unfold narrow at h
  split_ifs at h with hv
  exact ⟨hv, h⟩

theorem narrow_inRange {t : IntType} {v w : Int} (h : narrow t v = some w) : int64.InRange w :=
  normalize_inRange (narrow_eq h).2 (narrow_eq h).1

/-- A number that is normalized and does not overflow unnoticed is the result of its type. -/
theorem normalize_result {size : IntSize} {signed : Bool} {v w : Int}
    (h : normalize (.int size signed) v = some w) (hv : int64.InRange v)
    (hplain : ¬ Unnoticed (.int size signed) v) :
    (IntType.int size signed).result v = some w := by
  have hconvert := normalize_int h hv
  unfold result
  rw [hconvert]
  cases signed with
  | false => rfl
  | true =>
      have hrange : (IntType.int size true).InRange v := by
        by_contra hout
        have hbits : ¬ (IntType.int size true).bits < 64 := fun hlt => hplain ⟨hlt, rfl, hout⟩
        cases size with
        | s8 | s16 | s32 => exact hbits (by decide)
        | s64 => exact hout hv
        | s128 => cases h
      rw [decide_eq_true hrange]
      rfl

theorem narrow_result {size : IntSize} {signed : Bool} {v w : Int}
    (h : narrow (.int size signed) v = some w) (hplain : ¬ Unnoticed (.int size signed) v) :
    (IntType.int size signed).result v = some w :=
  normalize_result (narrow_eq h).2 (narrow_eq h).1 hplain

/-! ## Bitwise operators -/

theorem ofInt_signExtend {v : Int} (hv : int64.InRange v) :
    BitVec.ofInt 128 v = (BitVec.ofInt 64 v).signExtend 128 := by
  rw [int64_inRange] at hv
  apply BitVec.eq_of_toInt_eq
  rw [BitVec.toInt_signExtend_of_le (by decide), BitVec.toInt_ofInt, BitVec.toInt_ofInt]
  rw [Int.bmod_eq_of_le_mul_two, Int.bmod_eq_of_le_mul_two] <;> push_cast <;> omega

/-- A bitwise operator on `int64_t` is that of any wider type. -/
theorem bitwiseInt_wide (op : ArithmeticOp) {a b : Int} (ha : int64.InRange a)
    (hb : int64.InRange b) : bitwiseInt op 128 a b = bitwiseInt op 64 a b := by
  unfold bitwiseInt
  rw [ofInt_signExtend ha, ofInt_signExtend hb]
  cases op <;>
    simp only [← BitVec.signExtend_and, ← BitVec.signExtend_or, ← BitVec.signExtend_xor] <;>
    rw [BitVec.toInt_signExtend_of_le (by decide)]

theorem bitwiseInt_inRange (op : ArithmeticOp) (a b : Int) : int64.InRange (bitwiseInt op 64 a b) := by
  have hword : ∀ x : BitVec 64, int64.InRange x.toInt := fun x =>
    int64_inRange.mpr ⟨BitVec.le_toInt x, BitVec.toInt_lt⟩
  unfold bitwiseInt
  cases op <;> exact hword _

/-! ## Operators -/

theorem staticUnary_inRange {op : UnaryOp} {t : IntType} {v w : Int}
    (h : staticUnary op t v = some w) (hv : int64.InRange v) : int64.InRange w := by
  rw [int64_inRange] at hv
  cases op with
  | plus => exact normalize_inRange h hv
  | minus =>
      unfold staticUnary at h
      split_ifs at h with hlo
      refine normalize_inRange h (int64_inRange.mpr ?_)
      change v ≠ -2 ^ 63 at hlo
      omega
  | not => exact normalize_inRange h (int64_inRange.mpr (by omega))

theorem staticUnary_eval {op : UnaryOp} {size : IntSize} {signed : Bool} {v w : Int}
    (h : staticUnary op (.int size signed) v = some w) (hv : int64.InRange v)
    (hplain : op = .minus → ¬ Unnoticed (.int size signed) (-v)) :
    evalUnary op (.int size signed) v = some w := by
  have hv' := int64_inRange.mp hv
  cases op with
  | plus => exact congrArg some (normalize_int h hv).symm
  | minus =>
      unfold staticUnary at h
      split_ifs at h with hlo
      change v ≠ -2 ^ 63 at hlo
      exact normalize_result h (int64_inRange.mpr (by omega)) (hplain rfl)
  | not => exact congrArg some (normalize_int h (int64_inRange.mpr (by omega))).symm

/-- A right shift of an `int64_t`. -/
theorem shr_inRange {a : Int} (ha : int64.InRange a) (n : Nat) : int64.InRange (a / 2 ^ n) := by
  rw [int64_inRange] at ha ⊢
  have hpos : (0 : Int) < 2 ^ n := Int.pow_pos (by decide)
  constructor
  · rw [Int.le_ediv_iff_mul_le hpos]
    omega
  · rw [Int.ediv_lt_iff_lt_mul hpos]
    omega

theorem staticArithmetic_inRange {op : ArithmeticOp} {t : IntType} {a b w : Int}
    (h : staticArithmetic op t a b = some w) (ha : int64.InRange a) : int64.InRange w := by
  unfold staticArithmetic at h
  cases op with
  | add | sub | mul => exact narrow_inRange h
  | div | rem | shl =>
      dsimp only at h
      split_ifs at h
      exact narrow_inRange h
  | shr =>
      dsimp only at h
      split_ifs at h
      exact normalize_inRange h (shr_inRange ha _)
  | and | or | xor => exact normalize_inRange h (bitwiseInt_inRange _ a b)

theorem staticArithmetic_eval {op : ArithmeticOp} {size : IntSize} {signed : Bool} {a b w : Int}
    (h : staticArithmetic op (.int size signed) a b = some w) (ha : int64.InRange a)
    (hb : int64.InRange b) (hplain : PlainArithmetic op (.int size signed) a b) :
    evalArithmetic op (.int size signed) a b = some w := by
  unfold staticArithmetic at h
  unfold evalArithmetic
  have hbits : ∀ {v : Int}, normalize (.int size signed) v = some w →
      (IntType.int size signed).bits ≤ 64 := by
    intro v hn
    cases size with
    | s128 => cases hn
    | s8 | s16 | s32 | s64 => exact Nat.le_of_ble_eq_true rfl
  cases op with
  | add | sub | mul => exact narrow_result h hplain
  | div =>
      dsimp only at h ⊢
      split_ifs at h with hzero
      rw [if_neg hzero]
      exact narrow_result h (hplain hzero)
  | rem =>
      dsimp only at h ⊢
      split_ifs at h with hzero
      obtain ⟨hquotient, hrem⟩ := hplain hzero
      have hdefined : (IntType.int size signed).result (a.tdiv b) =
          some ((IntType.int size signed).convert (a.tdiv b)) := by
        unfold result
        cases signed with
        | false => rfl
        | true =>
            rw [decide_eq_true (hquotient rfl)]
            rfl
      rw [if_neg hzero, hdefined]
      exact narrow_result h hrem
  | shl =>
      dsimp only at h ⊢
      split_ifs at h with hcount
      obtain ⟨hwide, hnormal⟩ := narrow_eq h
      have := hbits hnormal
      change (IntType.int size signed).bits < 64 → b < (IntType.int size signed).bits at hplain
      rw [if_pos (by omega), normalize_int hnormal hwide]
  | shr =>
      dsimp only at h ⊢
      split_ifs at h with hcount
      have := hbits h
      change (IntType.int size signed).bits < 64 → b < (IntType.int size signed).bits at hplain
      rw [if_pos (by omega), normalize_int h (shr_inRange ha _)]
  | and | or | xor =>
      dsimp only at h ⊢
      rw [bitwiseInt_wide _ ha hb, normalize_int h (bitwiseInt_inRange _ a b)]

/-! ## Expressions -/

section Exact

variable {evaluate : Expr → Option Int} {values : StaticIntegers} {e : Expr}

theorem readConstant_eq {v : Int} (h : readConstant evaluate e = some v) :
    int64.InRange v ∧ ∃ c, evaluate e = some c := by
  obtain ⟨c, hc, hv⟩ := Option.bind_eq_some_iff.mp h
  unfold CanonicalLoop.constant at hv
  split_ifs at hv with hbits
  rw [← Option.some.inj hv]
  exact ⟨int64_inRange.mpr (by omega), c, hc⟩

theorem staticFirst_cases {rest : Option Int} {v : Int}
    (h : staticFirst evaluate values e rest = some v) :
    (∃ t x, e = .ref t x ∧ values.find x = some v) ∨
      (∀ t x, e = .ref t x → values.find x = none) ∧
        (readConstant evaluate e = some v ∨ readConstant evaluate e = none ∧ rest = some v) := by
  have hlater : (readConstant evaluate e).or rest = some v →
      readConstant evaluate e = some v ∨ readConstant evaluate e = none ∧ rest = some v :=
    fun h => Option.or_eq_some_iff.mp h
  unfold staticFirst at h
  split_ifs at h
  split at h
  · rw [Option.or_assoc] at h
    rcases Option.or_eq_some_iff.mp h with hfound | ⟨hnone, h⟩
    · exact .inl ⟨_, _, rfl, hfound⟩
    · refine .inr ⟨fun t' x' heq => ?_, hlater h⟩
      cases heq
      exact hnone
  · rename_i hne
    exact .inr ⟨fun t x heq => absurd heq (hne t x), hlater h⟩

theorem staticFirst_inRange {rest : Option Int} {v : Int}
    (h : staticFirst evaluate values e rest = some v)
    (hrest : rest = some v → int64.InRange v) : int64.InRange v := by
  rcases staticFirst_cases h with ⟨t, x, -, hfound⟩ | ⟨-, hconst | ⟨-, h⟩⟩
  · exact values.inRange x v hfound
  · exact (readConstant_eq hconst).1
  · exact hrest h

/-- What is known is an `int64_t`. -/
theorem staticInteger_inRange {v : Int} (h : staticInteger evaluate values e = some v) :
    int64.InRange v := by
  have hflag : ∀ c : Bool, int64.InRange (if c then 1 else 0) := by decide
  induction e generalizing v with
  | literal t w => exact staticFirst_inRange h nofun
  | ref t x => exact staticFirst_inRange h nofun
  | other t id effects => exact staticFirst_inRange h nofun
  | cast t e ih =>
      refine staticFirst_inRange h fun h => ?_
      obtain ⟨x, hx, hv⟩ := Option.bind_eq_some_iff.mp h
      exact normalize_inRange hv (ih hx)
  | unary op size signed e ih =>
      refine staticFirst_inRange h fun h => ?_
      obtain ⟨x, hx, hv⟩ := Option.bind_eq_some_iff.mp h
      exact staticUnary_inRange hv (ih hx)
  | lnot e ih =>
      refine staticFirst_inRange h fun h => ?_
      obtain ⟨x, -, rfl⟩ := Option.map_eq_some_iff.mp h
      split_ifs <;> decide
  | conditional t c yes no ihc ihyes ihno =>
      refine staticFirst_inRange h fun h => ?_
      obtain ⟨x, -, hv⟩ := Option.bind_eq_some_iff.mp h
      split_ifs at hv
      · exact ihyes hv
      · exact ihno hv
  | land a b =>
      refine staticFirst_inRange h fun h => ?_
      unfold staticAnd at h
      split_ifs at h <;> rw [← Option.some.inj h] <;> decide
  | lor a b =>
      refine staticFirst_inRange h fun h => ?_
      unfold staticOr at h
      split_ifs at h <;> rw [← Option.some.inj h] <;> decide
  | arithmetic op size signed a b iha ihb =>
      refine staticFirst_inRange h fun h => ?_
      obtain ⟨x, hx, h⟩ := Option.bind_eq_some_iff.mp h
      obtain ⟨y, -, hv⟩ := Option.bind_eq_some_iff.mp h
      exact staticArithmetic_inRange hv (iha hx)
  | compare op a b =>
      refine staticFirst_inRange h fun h => ?_
      obtain ⟨x, -, h⟩ := Option.bind_eq_some_iff.mp h
      obtain ⟨y, -, rfl⟩ := Option.map_eq_some_iff.mp h
      exact hflag (op.holds x y)

variable {env : Environment}
  (hconst : ∀ e v, evaluate e = some v → e.eval env = some v)
include hconst

/-- Below a node that is not a known variable only its operator is left to show. -/
theorem staticFirst_eval {rest : Option Int} {node : Prop} {v : Int}
    (h : staticFirst evaluate values e rest = some v) (href : ∀ t x, e ≠ .ref t x)
    (hplain : PlainFirst evaluate e node)
    (hrest : node → rest = some v → e.eval env = some v) : e.eval env = some v := by
  unfold PlainFirst at hplain
  rcases staticFirst_cases h with ⟨t, x, heq, -⟩ | ⟨-, hread | ⟨hread, h⟩⟩
  · exact absurd heq (href t x)
  · rw [hread] at hplain
    exact hconst e v hplain
  · rw [hread] at hplain
    exact hrest hplain h

end Exact

/-! ## Expressions that differ -/

/-- An evaluator of constants: expressions without variables. -/
def Expr.closed : Expr → Bool
  | literal _ _ => true
  | ref _ _ | other _ _ _ => false
  | cast _ e | unary _ _ _ e | lnot e => e.closed
  | conditional _ c a b => c.closed && a.closed && b.closed
  | land a b | lor a b | arithmetic _ _ _ a b | compare _ a b => a.closed && b.closed

def evaluateClosed (e : Expr) : Option Int :=
  if e.closed then e.eval ⟨fun _ => 0, fun _ => none⟩ else none

theorem eval_of_closed {e : Expr} (h : e.closed = true) (env env' : Environment) :
    e.eval env = e.eval env' := by
  induction e with
  | literal => rfl
  | ref | other => cases h
  | cast t e ih | unary op size signed e ih | lnot e ih =>
      unfold Expr.eval
      rw [ih h]
  | conditional t c a b ihc iha ihb =>
      unfold Expr.closed at h
      rw [Bool.and_eq_true, Bool.and_eq_true] at h
      unfold Expr.eval
      rw [ihc h.1.1, iha h.1.2, ihb h.2]
  | land a b iha ihb | lor a b iha ihb | arithmetic op size signed a b iha ihb
  | compare op a b iha ihb =>
      unfold Expr.closed at h
      rw [Bool.and_eq_true] at h
      unfold Expr.eval
      rw [iha h.1, ihb h.2]

theorem evaluateClosed_eval (env : Environment) (e : Expr) (v : Int)
    (h : evaluateClosed e = some v) : e.eval env = some v := by
  unfold evaluateClosed at h
  split_ifs at h with hclosed
  rw [eval_of_closed hclosed env ⟨fun _ => 0, fun _ => none⟩]
  exact h

def oneIndex (v : Int) (hv : int64.InRange v) : StaticIntegers where
  find x := if x = 0 then some v else none
  inRange x w h := by
    split_ifs at h
    rw [← Option.some.inj h]
    exact hv

theorem oneIndex_find {v : Int} (hv : int64.InRange v) (x : Nat) (w : Int)
    (h : (oneIndex v hv).find x = some w) : v = w := by
  change (if x = 0 then some v else none) = some w at h
  split_ifs at h
  exact Option.some.inj h

abbrev int32 : IntType := .int .s32 true

def index : Expr := .cast int32 (.ref int32 0)

/-- `(i < 8 ? 3 : 4) + i`. -/
def choice : Expr :=
  .arithmetic .add .s32 true
    (.conditional int32 (.compare .lt index (.literal int32 8)) (.literal int32 3)
      (.literal int32 4)) index

/-- `(unsigned)i < 0xffffffff`: the constant is read as -1. -/
example :
    let e := Expr.compare .lt (.cast (.int .s32 false) index) (.literal (.int .s32 false) 0xffffffff)
    staticInteger evaluateClosed (oneIndex 5 (by decide)) e = some 0 ∧
      e.eval ⟨fun _ => 5, fun _ => none⟩ = some 1 := ⟨rfl, rfl⟩

end CppHdl.Hls
