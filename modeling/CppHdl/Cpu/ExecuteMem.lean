import CppHdl.Cpu.State

/-!
# The memory stage

`ExecuteMem` turns a load, a store or an atomic operation into requests to the data cache.
An access that crosses a cache line becomes two requests: the second one is made from
captured operands when the cache has taken the first. An atomic operation reads, and writes
when the tagged response arrives; a reservation is kept for a store that is conditional.
-/

namespace CppHdl.Cpu

structure ExecuteMem where
  memAddr : BitVec 32
  memData : BitVec 32
  memMask : BitVec 8
  memWrite : Bool
  memRead : Bool
  memSplitPending : Bool
  memSplitAddr : BitVec 32
  memSplitData : BitVec 32
  memSplitOffset : BitVec 2
  memSplitSize : BitVec 3
  memSplitWrite : Bool
  memSplitRead : Bool
  splitLoad : Bool
  splitLoadLowAddr : BitVec 32
  splitLoadHighAddr : BitVec 32
  reservationValid : Bool
  reservationAddr : BitVec 32
  reservationPhysicalAddr : BitVec 32
  atomicPending : Bool
  atomicAddr : BitVec 32
  atomicOperand : BitVec 32
  atomicOp : Amo
  deriving DecidableEq, Inhabited

structure ExecuteMemInputs where
  reset : Bool
  state : State
  aluResult : BitVec 32
  dcacheReadValid : Bool
  dcacheReadAddr : BitVec 32
  dcacheReadExpectedAddr : BitVec 32
  dcacheReadData : BitVec 32
  reservationInvalidate : Bool
  reservationInvalidateAddr : BitVec 32
  memStall : Bool
  hold : Bool
  transactionOwnerValid : Bool
  deriving Inhabited

def memSize (state : State) : BitVec 32 :=
  if state.amoOp ≠ .amonone then 4
  else match state.funct3.toNat with
    | 0b000 => 1
    | 0b001 => 2
    | 0b010 => 4
    | 0b100 => 1
    | 0b101 => 2
    | _ => 0

/-- `mem_split_comb`, from the low bits of the operands. -/
def memSplit (state : State) : Bool :=
  let addrOffset := ((state.rs1Val &&& 0x1f) + (state.imm &&& 0x1f)) &&& 0x1f
  let size := memSize state
  state.valid && (state.memOp = .load || state.memOp = .store) && state.amoOp = .amonone &&
    decide (size ≠ 0) && decide (addrOffset + size > 32)

def firstSplitMask (state : State) (aluResult : BitVec 32) : BitVec 8 :=
  let size := memSize state
  let offset := aluResult &&& 3
  let lowSize := 4 - offset
  if state.memOp = .store then ((1#32 <<< lowSize) - 1).setWidth 8
  else ((((1#32 <<< size) - 1) <<< offset) &&& 0xf).setWidth 8

namespace ExecuteMem

variable (s : ExecuteMem) (i : ExecuteMemInputs)

/-- The bytes of the second request. -/
def overflow : BitVec 32 := s.memSplitOffset.setWidth 32 + s.memSplitSize.setWidth 32 - 4

def secondSplitMask : BitVec 8 := ((1#32 <<< s.overflow) - 1).setWidth 8

/-! ## Atomic operations -/

def atomicReadReady : Bool := i.dcacheReadValid && decide (i.dcacheReadAddr = i.dcacheReadExpectedAddr)

def atomicWriteData : BitVec 32 :=
  let oldValue := i.dcacheReadData
  let operand := s.atomicOperand
  match s.atomicOp with
  | .amoswapW => operand
  | .amoaddW => oldValue + operand
  | .amoxorW => oldValue ^^^ operand
  | .amoandW => oldValue &&& operand
  | .amoorW => oldValue ||| operand
  | .amominW => if oldValue.slt operand then oldValue else operand
  | .amomaxW => if operand.slt oldValue then oldValue else operand
  | .amominuW => if oldValue < operand then oldValue else operand
  | .amomaxuW => if operand < oldValue then oldValue else operand
  | _ => oldValue

def atomicScSuccess : Bool :=
  s.reservationValid && decide (s.reservationAddr = i.aluResult &&& ~~~3)

def atomicScResult : BitVec 32 := if s.atomicScSuccess i then 0 else 1

/-! ## Requests -/

/-- The orphan of an owner that was removed. -/
def cancel : ExecuteMem :=
  { s with
    memWrite := false
    memRead := false
    memMask := 0
    memSplitPending := false
    memSplitWrite := false
    memSplitRead := false
    splitLoad := false
    atomicPending := false
    atomicOp := .amonone }

def finishAtomic : ExecuteMem :=
  let n := { s with
    memWrite := false
    memRead := false
    memMask := 0
    atomicPending := false }
  if s.atomicOp = .lrW then
    { n with
      reservationValid := true
      reservationAddr := s.atomicAddr
      reservationPhysicalAddr := i.dcacheReadExpectedAddr &&& ~~~3 }
  else
    { n with
      memAddr := s.atomicAddr
      memData := s.atomicWriteData i
      memWrite := true
      memMask := 0xf
      reservationValid := false }

/-- The second request of a split access. -/
def secondHalf : ExecuteMem :=
  { s with
    memAddr := (s.memSplitAddr &&& ~~~3) + 4
    memData := s.memSplitData >>> ((s.memSplitSize.setWidth 32 - s.overflow) * 8)
    memWrite := s.memSplitWrite
    memRead := s.memSplitRead
    memMask := s.secondSplitMask
    memSplitPending := false
    splitLoadLowAddr := if s.memSplitRead then s.memSplitAddr &&& ~~~3 else s.splitLoadLowAddr
    splitLoadHighAddr :=
      if s.memSplitRead then (s.memSplitAddr &&& ~~~3) + 4 else s.splitLoadHighAddr }

def issueAtomic (n : ExecuteMem) : ExecuteMem :=
  if i.state.amoOp = .scW then
    { n with
      memWrite := s.atomicScSuccess i
      memMask := if s.atomicScSuccess i then 0xf else 0
      reservationValid := false }
  else
    { n with
      memRead := true
      atomicPending := true
      atomicAddr := i.aluResult &&& ~~~3
      atomicOperand := i.state.rs2Val
      atomicOp := i.state.amoOp }

/-- The first request of a split access. -/
def firstHalf (n : ExecuteMem) : ExecuteMem :=
  let offset := i.aluResult &&& 3
  { n with
    memAddr := if i.state.memOp = .store then i.aluResult else i.aluResult &&& ~~~3
    memData := if i.state.memOp = .store then i.state.rs2Val else i.state.rs2Val <<< (offset * 8)
    memWrite := i.state.memOp = .store
    memRead := i.state.memOp = .load
    memMask := if i.state.memOp = .store then firstSplitMask i.state i.aluResult else 0
    memSplitPending := true
    memSplitAddr := i.aluResult
    memSplitData := i.state.rs2Val
    memSplitOffset := offset.setWidth 2
    memSplitSize := (memSize i.state).setWidth 3
    memSplitWrite := i.state.memOp = .store
    memSplitRead := i.state.memOp = .load }

/-- The request of an access within a line. -/
def issueWhole (n : ExecuteMem) : ExecuteMem :=
  let n := if i.state.memOp = .store ∧ i.state.valid = true then
      match i.state.funct3.toNat with
      | 0b000 => { n with memWrite := i.state.valid, memMask := 0x1 }
      | 0b001 => { n with memWrite := i.state.valid, memMask := 0x3 }
      | 0b010 => { n with memWrite := i.state.valid, memMask := 0xf }
      | _ => n
    else n
  if i.state.memOp = .load ∧ i.state.valid = true then
    match i.state.funct3.toNat with
    | 0b000 => { n with memRead := true }
    | 0b001 => { n with memRead := true }
    | 0b010 => { n with memRead := true }
    | 0b100 => { n with memRead := true }
    | 0b101 => { n with memRead := true }
    | _ => n
  else n

def issue : ExecuteMem :=
  let n := { s with
    memWrite := false
    memRead := false
    memMask := 0
    memAddr := if i.state.amoOp ≠ .amonone then i.aluResult &&& ~~~3 else i.aluResult
    memData := i.state.rs2Val
    splitLoad := i.state.valid && i.state.memOp = .load && memSplit i.state }
  if i.state.valid = true ∧ i.state.amoOp ≠ .amonone then s.issueAtomic i n
  else if memSplit i.state then firstHalf i n
  else issueWhole i n

def doMemory : ExecuteMem :=
  if !i.transactionOwnerValid && (s.memSplitPending || s.atomicPending) then s.cancel
  else if s.atomicPending && atomicReadReady i then s.finishAtomic i
  else if i.memStall then s
  else if s.atomicPending then
    { s with
      memWrite := false
      memRead := true
      memMask := 0
      memAddr := s.atomicAddr }
  else if s.memSplitPending then s.secondHalf
  else if i.hold then s
  else s.issue i

/-- A store of another core to the reserved word. -/
def reservationLost : Bool :=
  let completingLr := s.atomicPending && s.atomicOp = .lrW && atomicReadReady i
  i.reservationInvalidate &&
    ((s.reservationValid &&
        decide (s.reservationPhysicalAddr = i.reservationInvalidateAddr &&& ~~~3)) ||
      (completingLr &&
        decide (i.dcacheReadExpectedAddr &&& ~~~3 = i.reservationInvalidateAddr &&& ~~~3)))

/-- `ExecuteMem::_work`. -/
def work : ExecuteMem :=
  let n := s.doMemory i
  let n := if s.reservationLost i then { n with reservationValid := false } else n
  if i.reset then
    { n with
      memWrite := false
      memRead := false
      memSplitPending := false
      splitLoad := false
      reservationValid := false
      atomicPending := false }
  else n

end ExecuteMem

end CppHdl.Cpu
