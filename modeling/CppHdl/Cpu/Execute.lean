import CppHdl.Cpu.State

/-!
# The execute stage

`Execute` computes the arithmetic of an instruction in one clock, except for the
multiplications and divisions. These run bit by bit in two units of their own, which keep the
operands they work on; an instruction waits until the unit holds the result of its own
program counter, operands and operation. The two units share no register, so that each is a
record.
-/

namespace CppHdl.Cpu

structure ExecuteDiv where
  divBusy : Bool
  divDone : Bool
  divCount : BitVec 6
  divDividend : BitVec 32
  divDivisor : BitVec 32
  divQuotient : BitVec 32
  divRemainder : BitVec 33
  divQuotientNeg : Bool
  divRemainderNeg : Bool
  divResult : BitVec 32
  divPc : BitVec 32
  divA : BitVec 32
  divB : BitVec 32
  divOp : Alu
  deriving DecidableEq, Inhabited

structure ExecuteMul where
  mulBusy : Bool
  mulDone : Bool
  mulCount : BitVec 6
  mulMultiplicand : BitVec 64
  mulMultiplier : BitVec 32
  mulAccumulator : BitVec 64
  mulNegate : Bool
  mulHigh : Bool
  mulResult : BitVec 32
  mulPc : BitVec 32
  mulA : BitVec 32
  mulB : BitVec 32
  mulOp : Alu
  deriving DecidableEq, Inhabited

structure Execute where
  div : ExecuteDiv
  mul : ExecuteMul
  deriving DecidableEq, Inhabited

/-- `state_in` and `multicycle_state_in`. -/
structure ExecuteInputs where
  reset : Bool
  state : State
  multicycleState : State

/-- The top of the core drives both ports from the execute register. -/
def ExecuteInputs.wired (reset : Bool) (s : State) : ExecuteInputs := ⟨reset, s, s⟩

/-- An operand without its sign. -/
def magnitude (negative : Bool) (x : BitVec 32) : BitVec 32 := if negative then ~~~x + 1 else x

namespace ExecuteDiv

variable (d : ExecuteDiv) (s : State)

def divResultMatch : Bool :=
  d.divDone && s.isDiv && decide (d.divPc = s.pc) && decide (d.divA = s.rs1Val) &&
    decide (d.divB = s.rs2Val) && decide (d.divOp = s.aluOp)

def quotientOp (op : Alu) : Bool := op = .div || op = .divu

def signedOp (op : Alu) : Bool := op = .div || op = .rem

/-- Whether an operand counts as negative. -/
def negative (op : Alu) (x : BitVec 32) : Bool := signedOp op && x.msb

/-- The sign correction after the last bit. -/
def finish : ExecuteDiv :=
  let finalResult := if quotientOp d.divOp then d.divQuotient else d.divRemainder.setWidth 32
  let finalResult :=
    if (quotientOp d.divOp && d.divQuotientNeg) ||
        ((d.divOp = .rem || d.divOp = .remu) && d.divRemainderNeg) then
      ~~~finalResult + 1
    else finalResult
  { d with divResult := finalResult, divBusy := false, divDone := true }

def shiftedRemainder : BitVec 64 :=
  d.divRemainder.setWidth 64 <<< 1 ||| (d.divDividend >>> 31).setWidth 64

def shiftedQuotient : BitVec 32 := d.divQuotient <<< 1

/-- The divisor fits into the remainder with the next bit. -/
def fits : Bool := decide (d.divDivisor.setWidth 64 ≤ d.shiftedRemainder)

/-- One bit of the dividend comes down. -/
def divideBit : ExecuteDiv :=
  { d with
    divDividend := d.divDividend <<< 1
    divRemainder :=
      (if d.fits then d.shiftedRemainder - d.divDivisor.setWidth 64
        else d.shiftedRemainder).setWidth 33
    divQuotient := if d.fits then d.shiftedQuotient ||| 1 else d.shiftedQuotient
    divCount := d.divCount + 1 }

/-- The unit takes the operands of an instruction. -/
def start : ExecuteDiv :=
  let a := s.rs1Val
  let b := s.rs2Val
  let op := s.aluOp
  let n := { d with
    divPc := s.pc
    divA := a
    divB := b
    divOp := op
    divCount := 0
    divDividend := magnitude (negative op a) a
    divDivisor := magnitude (negative op b) b
    divQuotient := 0
    divRemainder := 0
    divQuotientNeg := negative op a != negative op b
    divRemainderNeg := negative op a }
  if b = 0 then
    { n with divResult := if quotientOp op then ~~~0 else a, divBusy := false, divDone := true }
  else { n with divBusy := true, divDone := false }

/-- The division part of `Execute::_work` without reset. -/
def step : ExecuteDiv :=
  if d.divBusy then
    if d.divCount = 32 then d.finish else d.divideBit
  else if s.isDiv && !d.divResultMatch s then d.start s
  else if !s.isDiv then { d with divDone := false }
  else d

end ExecuteDiv

namespace ExecuteMul

variable (m : ExecuteMul) (s : State)

def mulResultMatch : Bool :=
  m.mulDone && s.isMul && decide (m.mulPc = s.pc) && decide (m.mulA = s.rs1Val) &&
    decide (m.mulB = s.rs2Val) && decide (m.mulOp = s.aluOp)

def signedA (op : Alu) : Bool := op = .mulh || op = .mulhsu

def signedB (op : Alu) : Bool := op = .mulh

def mulSum : BitVec 64 :=
  if m.mulMultiplier &&& 1 ≠ 0 then m.mulAccumulator + m.mulMultiplicand else m.mulAccumulator

def mulProduct : BitVec 64 := if m.mulNegate then ~~~m.mulSum + 1 else m.mulSum

/-- One bit of the multiplier; the last one also gives the result. -/
def multiplyBit : ExecuteMul :=
  let n := { m with
    mulAccumulator := m.mulSum
    mulMultiplicand := m.mulMultiplicand <<< 1
    mulMultiplier := m.mulMultiplier >>> 1 }
  if m.mulCount = 31 then
    { n with
      mulResult := if m.mulHigh then (m.mulProduct >>> 32).setWidth 32 else m.mulProduct.setWidth 32
      mulBusy := false
      mulDone := true }
  else { n with mulCount := m.mulCount + 1 }

def start : ExecuteMul :=
  let a := s.rs1Val
  let b := s.rs2Val
  let op := s.aluOp
  let negativeA := signedA op && a.msb
  let negativeB := signedB op && b.msb
  { m with
    mulPc := s.pc
    mulA := a
    mulB := b
    mulOp := op
    mulCount := 0
    mulMultiplicand := (magnitude negativeA a).setWidth 64
    mulMultiplier := magnitude negativeB b
    mulAccumulator := 0
    mulNegate := negativeA != negativeB
    mulHigh := decide (op ≠ .mul)
    mulBusy := true
    mulDone := false }

/-- The multiplication part of `Execute::_work` without reset. -/
def step : ExecuteMul :=
  if m.mulBusy then m.multiplyBit
  else if s.isMul && !m.mulResultMatch s then m.start s
  else if !s.isMul then { m with mulDone := false }
  else m

end ExecuteMul

namespace Execute

variable (e : Execute) (i : ExecuteInputs)

def multicycleWait : Bool :=
  (i.multicycleState.isDiv && !e.div.divResultMatch i.multicycleState) ||
    (i.multicycleState.isMul && !e.mul.mulResultMatch i.multicycleState)

def aluA : BitVec 32 := i.state.rs1Val

def aluB : BitVec 32 :=
  if i.state.aluOp = .add ∧ i.state.memOp ≠ .mnone then i.state.imm
  else if i.state.rs2 ≠ 0 then i.state.rs2Val
  else i.state.imm

def memAddr : BitVec 32 := i.state.rs1Val + i.state.imm

/-- `alu_result_comb`, cut to the width of its port. -/
def aluResult : BitVec 32 :=
  let a := aluA i
  let b := aluB i
  if i.state.brOp = .bnone then
    match i.state.aluOp with
    | .add => a + b
    | .sub => a - b
    | .and => a &&& b
    | .or => a ||| b
    | .xor => a ^^^ b
    | .sll => a <<< (b &&& 0x1f)
    | .srl => a >>> (b &&& 0x1f)
    | .sra => a.sshiftRight' (b &&& 0x1f)
    | .slt => if a.slt b then 1 else 0
    | .sltu => if a < b then 1 else 0
    | .pass => b
    | .mul | .mulh | .mulhsu | .mulhu => e.mul.mulResult
    | .div | .divu | .rem | .remu => e.div.divResult
    | .anone => 0
  else 0

/-- `Execute::_work`. -/
def work : Execute :=
  if i.reset then default
  else { div := e.div.step i.multicycleState, mul := e.mul.step i.multicycleState }

end Execute

end CppHdl.Cpu
