import CppHdl.Cpu.State
import CppHdl.Lib.Beats

/-!
# The memory writeback stage

`WritebackMem` collects the response of the data cache to the load in the stage,
over two register boundaries: the words of the responses, then the load's bytes
with the bytes of the last two stores laid over them. Loads that cross a word take
two responses. The module has one load at a time; responses are told by their
address alone.
-/

namespace CppHdl.Cpu

local instance lanes_neZero : NeZero 4 := ⟨by decide⟩

local instance slots_neZero : NeZero 2 := ⟨by decide⟩

/-- A store with its address and data expanded byte by byte. -/
structure ForwardSlot where
  addr : BitVec 32 := 0
  data : BitVec 32 := 0
  mask : BitVec 8 := 0
  valid : Bool := false
  byteAddr : Fin 4 → BitVec 32 := fun _ => 0
  byteData : Fin 4 → BitVec 8 := fun _ => 0
  byteValid : Fin 4 → Bool := fun _ => false

structure WritebackMem where
  loadData : BitVec 32 := 0
  loadAddr : BitVec 32 := 0
  loadDataValid : Bool := false
  loadRawResult : BitVec 32 := 0
  loadResultValid : Bool := false
  splitLoadLow : BitVec 32 := 0
  splitLoadHigh : BitVec 32 := 0
  splitLoadLowValid : Bool := false
  splitLoadHighValid : Bool := false
  /-- The newer store is in slot 0. -/
  storeForward : Fin 2 → ForwardSlot := fun _ => {}
  loadByteAddr : Fin 4 → BitVec 32 := fun _ => 0

namespace WritebackMem

structure Inputs where
  state : State
  aluResult : BitVec 32
  splitLoad : Bool := false
  splitLoadLowAddr : BitVec 32 := 0
  splitLoadHighAddr : BitVec 32 := 0
  dcacheReadValid : Bool := false
  dcacheReadAddr : BitVec 32 := 0
  dcacheReadData : BitVec 32 := 0
  dcacheWriteValid : Bool := false
  dcacheWriteAddr : BitVec 32 := 0
  dcacheWriteData : BitVec 32 := 0
  dcacheWriteMask : BitVec 8 := 0
  storeForwardEnable : Bool := true
  retire : Bool := false
  reset : Bool := false

def Inputs.isLoad (i : Inputs) : Bool := i.state.valid && decide (i.state.wbOp = .mem)

variable (s : WritebackMem) (i : Inputs)

def splitLoadCurrentLowValid : Bool :=
  i.dcacheReadValid && decide (i.dcacheReadAddr = i.splitLoadLowAddr)

def splitLoadCurrentHighValid : Bool :=
  i.dcacheReadValid && decide (i.dcacheReadAddr = i.splitLoadHighAddr)

def nonSplitCurrentValid : Bool :=
  i.dcacheReadValid && decide (i.dcacheReadAddr = i.aluResult)

def splitLoadLowData : BitVec 32 := if s.splitLoadLowValid then s.splitLoadLow else 0

def splitLoadHighData : BitVec 32 := if s.splitLoadHighValid then s.splitLoadHigh else 0

def loadReady : Bool := i.isLoad && s.loadResultValid

/-- The word of four bytes, low byte first. -/
def wordOfBytes (bytes : Fin 4 → BitVec 8) : BitVec 32 :=
  bytes 3 ++ bytes 2 ++ bytes 1 ++ bytes 0

/-- One lane of the load against the lanes of one store. -/
def matchSlot (slot : ForwardSlot) (addr : BitVec 32) (byte : BitVec 8) : BitVec 8 :=
  (List.finRange 4).foldl (fun byte storeLane =>
    if slot.byteValid storeLane = true ∧ addr = slot.byteAddr storeLane then
      slot.byteData storeLane
    else byte) byte

/-- The bytes of both words of a split load, or the word of the response. -/
def responseRaw : BitVec 32 :=
  if i.splitLoad then
    let shift := (i.aluResult &&& 3) * 8
    (s.splitLoadLowData >>> shift) ||| (s.splitLoadHighData <<< (32 - shift))
  else if s.loadDataValid then s.loadData
  else 0

/-- Stores are forwarded to plain loads from memory, not to device reads. -/
def Inputs.allowStoreForward : Bool := i.storeForwardEnable && decide (i.state.amoOp = .amonone)

/-- The older store is compared first, so that the newer one wins. -/
def loadCandidateRaw : BitVec 32 :=
  wordOfBytes fun lane =>
    let forwardedByte := (s.responseRaw i).extractLsb' (8 * lane) 8
    if i.allowStoreForward then
      matchSlot (s.storeForward 0) (s.loadByteAddr lane)
        (matchSlot (s.storeForward 1) (s.loadByteAddr lane) forwardedByte)
    else forwardedByte

def loadRaw : BitVec 32 := s.loadRawResult

/-- The value a load instruction makes of its raw word. -/
def extendLoad (funct3 : BitVec 3) (raw : BitVec 32) : BitVec 32 :=
  match funct3.toNat with
  | 0b000 => (raw.setWidth 8).signExtend 32
  | 0b001 => (raw.setWidth 16).signExtend 32
  | 0b010 => raw
  | 0b100 => (raw.setWidth 8).setWidth 32
  | 0b101 => (raw.setWidth 16).setWidth 32
  | _ => 0

def loadResult : BitVec 32 := extendLoad i.state.funct3 s.loadRaw

/-! ## One clock -/

def Inputs.slot : ForwardSlot where
  addr := i.dcacheWriteAddr
  data := i.dcacheWriteData
  mask := i.dcacheWriteMask
  valid := true
  byteAddr lane := i.dcacheWriteAddr + BitVec.ofNat 32 lane
  byteData lane := i.dcacheWriteData.extractLsb' (8 * lane) 8
  byteValid lane := i.dcacheWriteMask.getLsbD lane

/-- The store of this clock is the one in slot 0. -/
def sameHead : Bool :=
  (s.storeForward 0).valid && decide ((s.storeForward 0).addr = i.dcacheWriteAddr) &&
    decide ((s.storeForward 0).data = i.dcacheWriteData) &&
    decide ((s.storeForward 0).mask = i.dcacheWriteMask)

def Inputs.isStore : Bool := i.dcacheWriteValid && decide (i.dcacheWriteMask ≠ 0)

/-- The slots after a clock; a clock without a store empties them. -/
def storeForwardNext : Fin 2 → ForwardSlot :=
  if i.isStore then fun slot =>
    if slot = 0 then i.slot else if s.sameHead i then s.storeForward 1 else s.storeForward 0
  else fun slot => { s.storeForward slot with valid := false, byteValid := fun _ => false }

/-- Both words of a split load, or the word of any other one, are held. -/
def held : Bool :=
  if i.splitLoad then s.splitLoadLowValid && s.splitLoadHighValid else s.loadDataValid

def work (s : WritebackMem) (i : Inputs) : WritebackMem :=
  if i.reset then {}
  else
    let s₁ : WritebackMem := { s with storeForward := s.storeForwardNext i }
    let s₂ := if i.isLoad then
        { s₁ with loadByteAddr := fun lane => i.aluResult + BitVec.ofNat 32 lane }
      else s₁
    let s₃ :=
      if i.splitLoad then
        let low := if splitLoadCurrentLowValid i then
            { s₂ with splitLoadLow := i.dcacheReadData, splitLoadLowValid := true }
          else s₂
        if splitLoadCurrentHighValid i then
          { low with splitLoadHigh := i.dcacheReadData, splitLoadHighValid := true }
        else low
      else if i.isLoad && nonSplitCurrentValid i then
        { s₂ with
          loadData := i.dcacheReadData
          loadAddr := i.dcacheReadAddr
          loadDataValid := true }
      else s₂
    let s₄ := if i.isLoad && !s.loadResultValid && s.held i then
        { s₃ with loadRawResult := s.loadCandidateRaw i, loadResultValid := true }
      else s₃
    -- nothing of a load survives its retirement or its absence
    if i.retire || !i.isLoad then
      { s₄ with
        loadDataValid := false
        loadResultValid := false
        splitLoadLowValid := false
        splitLoadHighValid := false }
    else s₄

/-- The registers after the clocks of a history, newest first. -/
def run : List Inputs → WritebackMem
  | [] => {}
  | i :: history => (run history).work i

end WritebackMem

end CppHdl.Cpu
