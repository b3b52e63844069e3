import Mathlib.Data.BitVec

/-!
# The pipeline state

A decoded instruction travels through the pipeline as one record. The modules of the
core read it through their `state_in` port; here it has the fields that the execute,
memory and writeback stages use.
-/

namespace CppHdl.Cpu

inductive Alu
  | anone | add | sub | and | or | xor | sll | srl | sra | slt | sltu | pass
  | mul | mulh | mulhsu | mulhu | div | divu | rem | remu
  deriving DecidableEq, Inhabited

inductive Mem
  | mnone | load | store
  deriving DecidableEq, Inhabited

inductive Amo
  | amonone | lrW | scW | amoswapW | amoaddW | amoxorW | amoandW | amoorW
  | amominW | amomaxW | amominuW | amomaxuW
  deriving DecidableEq, Inhabited

inductive Wb
  | wnone | alu | mem | pc2 | pc4
  deriving DecidableEq, Inhabited

inductive Br
  | bnone | beq | bne | blt | bge | bltu | bgeu | jal | jalr | jr | beqz | bnez
  deriving DecidableEq, Inhabited

/-- An instruction in a pipeline stage. `State{}` is the default value. -/
structure State where
  pc : BitVec 32
  rs1Val : BitVec 32
  rs2Val : BitVec 32
  imm : BitVec 32
  valid : Bool
  aluOp : Alu
  memOp : Mem
  wbOp : Wb
  brOp : Br
  funct3 : BitVec 3
  rd : BitVec 5
  rs1 : BitVec 5
  rs2 : BitVec 5
  amoOp : Amo
  deriving DecidableEq, Inhabited

/-- The fields of a register instruction. -/
structure RType where
  opcode : BitVec 7
  rd : BitVec 5
  funct3 : BitVec 3
  rs1 : BitVec 5
  rs2 : BitVec 5
  funct7 : BitVec 7

def RType.ofRaw (raw : BitVec 32) : RType where
  opcode := raw.extractLsb' 0 7
  rd := raw.extractLsb' 7 5
  funct3 := raw.extractLsb' 12 3
  rs1 := raw.extractLsb' 15 5
  rs2 := raw.extractLsb' 20 5
  funct7 := raw.extractLsb' 25 7

namespace Rv32im

/-- The multiplications and divisions by their `funct3`. -/
def aluOp (funct3 : BitVec 3) : Alu :=
  match funct3.toNat with
  | 0 => .mul
  | 1 => .mulh
  | 2 => .mulhsu
  | 3 => .mulhu
  | 4 => .div
  | 5 => .divu
  | 6 => .rem
  | _ => .remu

/-- `Rv32im::decode` after `Rv32ic::decode` has given `base`. -/
def decode (base : State) (raw : BitVec 32) : State :=
  let r := RType.ofRaw raw
  if r.opcode = 0b0110011 ∧ r.funct7 = 0b0000001 then
    { (default : State) with
      rd := r.rd
      wbOp := .alu
      aluOp := aluOp r.funct3
      funct3 := r.funct3
      rs1 := r.rs1
      rs2 := r.rs2 }
  else base

end Rv32im

namespace State

def isMul (s : State) : Bool :=
  s.valid && (s.aluOp = .mul || s.aluOp = .mulh || s.aluOp = .mulhsu || s.aluOp = .mulhu)

def isDiv (s : State) : Bool :=
  s.valid && (s.aluOp = .div || s.aluOp = .divu || s.aluOp = .rem || s.aluOp = .remu)

/-- A multiplication or division as the decoder presents it: it is no branch. -/
def IsMulDiv (s : State) : Prop := (s.isMul || s.isDiv) = true ∧ s.brOp = .bnone

instance (s : State) : Decidable s.IsMulDiv := by unfold IsMulDiv; infer_instance

end State

/-- What the decoder makes of a multiplication or division, once it is valid. -/
theorem Rv32im.decode_isMulDiv (base : State) {raw : BitVec 32}
    (hop : (RType.ofRaw raw).opcode = 0b0110011) (hfunct : (RType.ofRaw raw).funct7 = 0b0000001) :
    { Rv32im.decode base raw with valid := true }.IsMulDiv := by
  have hkind : ∀ f : BitVec 3, aluOp f ≠ .anone ∧ ((aluOp f = .mul ∨ aluOp f = .mulh ∨
      aluOp f = .mulhsu ∨ aluOp f = .mulhu) ∨ aluOp f = .div ∨ aluOp f = .divu ∨ aluOp f = .rem ∨
      aluOp f = .remu) := by decide
  unfold decode
  rw [if_pos ⟨hop, hfunct⟩]
  refine ⟨?_, rfl⟩
  simpa [State.isMul, State.isDiv, or_assoc] using (hkind (RType.ofRaw raw).funct3).2

end CppHdl.Cpu
