import CppHdl.Lib.BusMemory
import CppHdl.Lib.Queue

/-!
# The SD card controller

`SDController` sends bytes to a card and receives bytes from it, one register deep in each
direction. Software moves the data of a transfer through two FIFOs, or describes memory that
the controller reads or writes itself. A transfer starts with a header of nine bytes.
-/

namespace CppHdl.Devices

/-- The parameters; the bus carries whole words. -/
structure SdGeometry where
  ADDR_WIDTH : Nat
  ID_WIDTH : Nat
  DATA_BYTES : Nat
  FIFO_DEPTH : Nat
  words : 0 < DATA_BYTES ∧ DATA_BYTES % 4 = 0
  depth : 0 < FIFO_DEPTH

abbrev SdGeometry.DATA_WIDTH (g : SdGeometry) : Nat := 8 * g.DATA_BYTES

abbrev HEADER_BYTES : Nat := 9

inductive SdState
  | idle
  | header
  | pioRead
  | pioWrite
  | waitAck
  | dmaReadRecv
  | dmaReadAw
  | dmaReadW
  | dmaReadB
  | dmaWriteAr
  | dmaWriteR
  | dmaWriteSend
  | done
  | error
  | dmaLoadDesc
  | dmaReadDone
  deriving DecidableEq

/-- The registers; a name stands at each word address. -/
inductive SdRegister
  | control
  | status
  | cmd
  | arg
  | len
  | dmaAddr
  | txData
  | rxData
  | irqEnable
  | irqPending
  | dmaDescAddr
  | dmaDescLen
  | dmaDescPush
  | dmaDescStatus
  | nothing
  deriving DecidableEq

/-- The register of an address, its low 32 bits. -/
def sdRegister {w : Nat} (addr : BitVec w) : SdRegister :=
  match (addr.setWidth 32).toNat with
  | 0x00 => .control
  | 0x04 => .status
  | 0x08 => .cmd
  | 0x0c => .arg
  | 0x10 => .len
  | 0x14 => .dmaAddr
  | 0x18 => .txData
  | 0x1c => .rxData
  | 0x20 => .irqEnable
  | 0x24 => .irqPending
  | 0x28 => .dmaDescAddr
  | 0x2c => .dmaDescLen
  | 0x30 => .dmaDescPush
  | 0x34 => .dmaDescStatus
  | _ => .nothing

/-! ## FIFOs -/

structure SdFifo (α : Type*) where
  data : Nat → α
  rd : Nat
  wr : Nat
  count : Nat

namespace SdFifo

variable {α : Type*} (f : SdFifo α) (depth : Nat)

def full : Bool := f.count == depth

def valid : Bool := f.count != 0

/-- The word at the read pointer. -/
def front : α := f.data f.rd

def ptrNext (ptr : Nat) : Nat := if ptr + 1 ≥ depth then 0 else ptr + 1

def store (x : α) : SdFifo α :=
  { f with data := Function.update f.data f.wr x, wr := ptrNext depth f.wr }

/-- The read pointer moves on. -/
def advanceRd : SdFifo α := { f with rd := ptrNext depth f.rd }

/-- The count of the next clock in the registers `n`. -/
def recount (push pop : Bool) (n : SdFifo α) : SdFifo α :=
  if push && !pop then { n with count := f.count + 1 }
  else if !push && pop then { n with count := f.count - 1 }
  else n

def cleared (n : SdFifo α) : SdFifo α := { n with rd := 0, wr := 0, count := 0 }

end SdFifo

/-! ## The controller -/

structure SdController (g : SdGeometry) where
  tx : SdFifo (BitVec 8)
  rx : SdFifo (BitVec 8)
  txValid : Bool
  txData : BitVec 8
  txLast : Bool
  rxValid : Bool
  rxData : BitVec 8
  rxLast : Bool
  readAddr : BitVec g.ADDR_WIDTH
  readId : BitVec g.ID_WIDTH
  readValid : Bool
  readData : BitVec g.DATA_WIDTH
  writeAddr : BitVec g.ADDR_WIDTH
  writeId : BitVec g.ID_WIDTH
  writeAddrValid : Bool
  writeRespValid : Bool
  cmd : BitVec 8
  arg : BitVec 32
  len : BitVec 32
  dmaAddr : BitVec 32
  dmaDescAddr : BitVec 32
  dmaDescLen : BitVec 32
  count : BitVec 32
  state : SdState
  headerIndex : BitVec 8
  writeMode : Bool
  dmaMode : Bool
  busy : Bool
  done : Bool
  error : Bool
  irqEnable : Bool
  irqPending : Bool
  dmaWriteComplete : Bool
  dmaBeat : BitVec g.DATA_WIDTH
  dmaBeatBase : BitVec 32
  dmaByteIndex : BitVec 32
  dmaBeatLimit : BitVec 32
  /-- The addresses and the lengths of the descriptors. -/
  desc : SdFifo (BitVec 32 × BitVec 32)
  activeDescAddr : BitVec 32
  activeDescRemaining : BitVec 32
  activeDescValid : Bool

structure SdInputs (g : SdGeometry) where
  reset : Bool
  sdCmdReady : Bool
  sdRspValid : Bool
  sdRspData : BitVec 8
  sdRspLast : Bool
  awvalid : Bool
  awaddr : BitVec g.ADDR_WIDTH
  awid : BitVec g.ID_WIDTH
  wvalid : Bool
  wdata : BitVec g.DATA_WIDTH
  bready : Bool
  arvalid : Bool
  araddr : BitVec g.ADDR_WIDTH
  arid : BitVec g.ID_WIDTH
  rready : Bool
  dmaAwready : Bool
  dmaWready : Bool
  dmaBvalid : Bool
  dmaArready : Bool
  dmaRvalid : Bool
  dmaRdata : BitVec g.DATA_WIDTH

namespace SdController

variable {g : SdGeometry} (s : SdController g) (i : SdInputs g)

def txFull : Bool := s.tx.full g.FIFO_DEPTH

def rxFull : Bool := s.rx.full g.FIFO_DEPTH

def descFull : Bool := s.desc.full g.FIFO_DEPTH

def sdRspReady : Bool := !s.rxValid

def dmaRemaining : BitVec 32 :=
  let totalLeft := s.len - s.count
  let descLeft := if s.activeDescValid then s.activeDescRemaining else totalLeft
  if descLeft < totalLeft then descLeft else totalLeft

def dmaNextBeatLimit : BitVec 32 :=
  if g.DATA_BYTES < s.dmaRemaining.toNat then BitVec.ofNat 32 g.DATA_BYTES else s.dmaRemaining

/-- The lanes of a write, put together. -/
def writeWord : BitVec 32 :=
  (List.range (g.DATA_BYTES / 4)).foldl
    (fun w lane => w ||| i.wdata.extractLsb' (32 * lane) 32) 0

def headerByte : BitVec 8 :=
  let idx := s.headerIndex.toNat
  if idx = 0 then s.cmd
  else if 1 ≤ idx ∧ idx ≤ 4 then s.arg.extractLsb' ((idx - 1) * 8) 8
  else if 5 ≤ idx ∧ idx ≤ 8 then s.len.extractLsb' ((idx - 5) * 8) 8
  else 0

def txByte : BitVec 8 := s.dmaBeat.extractLsb' (8 * (s.dmaByteIndex.toNat % g.DATA_BYTES)) 8

def phyTxValid : Bool :=
  match s.state with
  | .header => true
  | .pioWrite => s.tx.valid
  | .dmaWriteSend => s.count < s.len
  | _ => false

def phyTxData : BitVec 8 :=
  match s.state with
  | .header => s.headerByte
  | .pioWrite => s.tx.front
  | _ => s.txByte

def phyTxLast : Bool :=
  match s.state with
  | .header => !s.writeMode && (s.headerIndex.toNat == HEADER_BYTES - 1)
  | .pioWrite | .dmaWriteSend => decide (s.len ≤ s.count + 1)
  | _ => false

def phyRxReady : Bool :=
  match s.state with
  | .pioRead => !s.rxFull
  | .dmaReadRecv | .waitAck => true
  | _ => false

def debugStatus : BitVec 32 :=
  (if s.busy then 0x01 else 0) ||| (if s.done then 0x02 else 0) ||| (if s.error then 0x04 else 0) |||
    (if s.rx.valid then 0x08 else 0) ||| (if !s.txFull then 0x10 else 0) |||
    (if s.irqPending then 0x20 else 0) ||| (if !s.descFull then 0x40 else 0)

def readWord (r : SdRegister) : BitVec 32 :=
  match r with
  | .status => s.debugStatus
  | .cmd => s.cmd.setWidth 32
  | .arg => s.arg
  | .len => s.len
  | .dmaAddr => s.dmaAddr
  | .rxData => if s.rx.valid then s.rx.front.setWidth 32 else 0
  | .irqEnable => if s.irqEnable then 1 else 0
  | .irqPending => if s.irqPending then 1 else 0
  | .dmaDescAddr => s.dmaDescAddr
  | .dmaDescLen => s.dmaDescLen
  | .dmaDescStatus =>
      (if !s.descFull then 1 else 0) ||| (if !s.desc.valid then 2 else 0) |||
        (if s.descFull then 4 else 0) ||| BitVec.ofNat 32 s.desc.count <<< 8
  | .control | .txData | .dmaDescPush | .nothing => 0

def onLanes (g : SdGeometry) (word : BitVec 32) : BitVec g.DATA_WIDTH :=
  (List.range (g.DATA_BYTES / 4)).foldl (fun data lane => withBits data (32 * lane) word) 0

def dmaAddrOut : BitVec g.ADDR_WIDTH :=
  (if s.activeDescValid then s.activeDescAddr else s.dmaAddr + s.dmaBeatBase).setWidth g.ADDR_WIDTH

def awready : Bool := !s.writeAddrValid && !s.writeRespValid

def wready : Bool :=
  s.writeAddrValid && !s.writeRespValid &&
    (decide (sdRegister s.writeAddr ≠ .txData) || !s.txFull) &&
    (decide (sdRegister s.writeAddr ≠ .dmaDescPush) || !s.descFull)

def arready : Bool := !s.readValid

/-- A register write takes place. -/
def writeFires : Bool := i.wvalid && s.wready

def txPush : Bool := s.writeFires i && decide (sdRegister s.writeAddr = .txData) && !s.txFull

def txPop : Bool := decide (s.state = .pioWrite) && !s.txValid && s.tx.valid

def rxPush : Bool := decide (s.state = .pioRead) && s.rxValid && !s.rxFull

def rxPop : Bool :=
  i.arvalid && s.arready && decide (sdRegister i.araddr = .rxData) && s.rx.valid

def descPush : Bool :=
  s.writeFires i && decide (sdRegister s.writeAddr = .dmaDescPush) && !s.descFull

def descPop : Bool :=
  decide (s.state = .dmaLoadDesc) && decide (s.count < s.len) && s.desc.valid

/-! ## Parts of a clock -/

def cardPorts (n : SdController g) : SdController g :=
  let n := if s.txValid && i.sdCmdReady then { n with txValid := false } else n
  let n :=
    if !s.txValid && s.phyTxValid then
      { n with txValid := true, txData := s.phyTxData, txLast := s.phyTxLast }
    else n
  let n := if s.rxValid && s.phyRxReady then { n with rxValid := false } else n
  if !s.rxValid && i.sdRspValid then
    { n with rxValid := true, rxData := i.sdRspData, rxLast := i.sdRspLast }
  else n

def readPort (n : SdController g) : SdController g :=
  let n :=
    if i.arvalid && s.arready then
      { n with
        readAddr := i.araddr
        readId := i.arid
        readData := onLanes g (s.readWord (sdRegister i.araddr))
        readValid := true }
    else n
  if s.readValid && i.rready then { n with readValid := false } else n

def writeControl (word : BitVec 32) (n : SdController g) : SdController g :=
  let n :=
    if word.getLsbD 4 && !word.getLsbD 0 then
      { n with
        done := false
        error := false
        irqPending := false
        desc := n.desc.cleared
        activeDescValid := false
        activeDescAddr := 0
        activeDescRemaining := 0 }
    else n
  if word.getLsbD 0 && !s.busy then
    { n with
      busy := true
      done := false
      error := false
      irqPending := false
      writeMode := word.getLsbD 1
      dmaMode := word.getLsbD 2
      headerIndex := 0
      count := 0
      dmaBeat := 0
      dmaBeatBase := 0
      dmaByteIndex := 0
      dmaBeatLimit := 0
      activeDescValid := false
      activeDescAddr := 0
      activeDescRemaining := 0
      state := .header
      cmd := if word.getLsbD 1 then 0x58 else 0x51 }
  else n

def writeRegister (n : SdController g) : SdController g :=
  let word := writeWord i
  match sdRegister s.writeAddr with
  | .control => s.writeControl word n
  | .cmd => { n with cmd := word.setWidth 8 }
  | .arg => { n with arg := word }
  | .len => { n with len := word }
  | .dmaAddr => { n with dmaAddr := word }
  | .dmaDescAddr => { n with dmaDescAddr := word }
  | .dmaDescLen => { n with dmaDescLen := word }
  | .dmaDescPush =>
      if !s.descFull then
        { n with desc := n.desc.store g.FIFO_DEPTH (s.dmaDescAddr, s.dmaDescLen) }
      else n
  | .irqEnable => { n with irqEnable := word.getLsbD 0 }
  | .irqPending => if word.getLsbD 0 then { n with irqPending := false } else n
  | .txData =>
      if !s.txFull then { n with tx := n.tx.store g.FIFO_DEPTH (word.setWidth 8) } else n
  | .status | .rxData | .dmaDescStatus | .nothing => n

def writePort (n : SdController g) : SdController g :=
  let n :=
    if i.awvalid && s.awready then
      { n with writeAddr := i.awaddr, writeId := i.awid, writeAddrValid := true }
    else n
  let n :=
    if s.writeFires i then
      s.writeRegister i { n with writeAddrValid := false, writeRespValid := true }
    else n
  if s.writeRespValid && i.bready then { n with writeRespValid := false } else n

/-- The pointers and the counts of the FIFOs. A received byte is stored from the pins. -/
def byteFifos (n : SdController g) : SdController g :=
  let n := if s.txPop then { n with tx := n.tx.advanceRd g.FIFO_DEPTH } else n
  let n := { n with tx := s.tx.recount (s.txPush i) s.txPop n.tx }
  let n := if s.rxPush then { n with rx := n.rx.store g.FIFO_DEPTH i.sdRspData } else n
  let n := if s.rxPop i then { n with rx := n.rx.advanceRd g.FIFO_DEPTH } else n
  { n with rx := s.rx.recount s.rxPush (s.rxPop i) n.rx }

/-- A byte of a card-to-memory transfer. -/
def dmaReceive (n : SdController g) : SdController g :=
  let beatLimit := if s.dmaBeatLimit ≠ 0 then s.dmaBeatLimit else s.dmaNextBeatLimit
  if s.rxValid && beatLimit ≠ 0 then
    let n := if s.dmaByteIndex = 0 then { n with dmaBeatLimit := beatLimit } else n
    let beat :=
      if s.dmaByteIndex.toNat < g.DATA_BYTES then
        withBits s.dmaBeat (8 * s.dmaByteIndex.toNat) s.rxData
      else s.dmaBeat
    let nextCount := s.count + 1
    let nextByteIndex := s.dmaByteIndex + 1
    let n :=
      { n with
        dmaBeat := beat
        count := nextCount
        dmaByteIndex := nextByteIndex
        activeDescRemaining :=
          if s.activeDescRemaining ≠ 0 then s.activeDescRemaining - 1 else 0 }
    if beatLimit ≤ nextByteIndex ∨ s.len ≤ nextCount then
      { n with dmaBeatLimit := nextByteIndex, state := .dmaReadAw }
    else n
  else n

/-- A byte of a memory-to-card transfer. -/
def dmaSend (n : SdController g) : SdController g :=
  let beatLimit := s.dmaBeatLimit
  if !s.txValid && decide (s.count < s.len) && beatLimit ≠ 0 then
    let nextCount := s.count + 1
    let nextByteIndex := s.dmaByteIndex + 1
    let nextDescRemaining := if s.activeDescRemaining ≠ 0 then s.activeDescRemaining - 1 else 0
    let n :=
      { n with
        count := nextCount
        dmaByteIndex := nextByteIndex
        activeDescRemaining := nextDescRemaining }
    if s.len ≤ nextCount then { n with state := .waitAck }
    else if beatLimit ≤ nextByteIndex then
      if nextDescRemaining = 0 then { n with activeDescValid := false, state := .dmaLoadDesc }
      else
        { n with
          activeDescAddr := s.activeDescAddr + beatLimit
          dmaByteIndex := 0
          dmaBeatLimit := 0
          state := .dmaWriteAr }
    else n
  else n

/-- The next descriptor, or one for all that is left. -/
def dmaLoadDesc (n : SdController g) : SdController g :=
  let n := { n with dmaBeat := 0, dmaByteIndex := 0, dmaBeatLimit := 0 }
  if s.len ≤ s.count then { n with state := if s.writeMode then .waitAck else .done }
  else if s.desc.valid then
    { n with
      activeDescValid := true
      activeDescAddr := s.desc.front.1
      activeDescRemaining := s.desc.front.2
      desc := n.desc.advanceRd g.FIFO_DEPTH
      state := if s.writeMode then .dmaWriteAr else .dmaReadRecv }
  else
    { n with
      activeDescValid := true
      activeDescAddr := s.dmaAddr + s.count
      activeDescRemaining := s.len - s.count
      state := if s.writeMode then .dmaWriteAr else .dmaReadRecv }

def advance (n : SdController g) : SdController g :=
  match s.state with
  | .header =>
      if !s.txValid then
        if HEADER_BYTES ≤ s.headerIndex.toNat + 1 then
          { n with
            count := 0
            state := if s.dmaMode then .dmaLoadDesc else if s.writeMode then .pioWrite else .pioRead }
        else { n with headerIndex := s.headerIndex + 1 }
      else n
  | .pioRead =>
      if s.rxPush then
        let n := if s.len ≤ s.count + 1 then { n with state := .done } else n
        { n with count := s.count + 1 }
      else n
  | .pioWrite =>
      if s.txPop then
        let n := if s.len ≤ s.count + 1 then { n with state := .waitAck } else n
        { n with count := s.count + 1 }
      else n
  | .waitAck =>
      if s.rxValid then { n with state := if s.rxData = 0 then .done else .error } else n
  | .dmaLoadDesc => s.dmaLoadDesc n
  | .dmaReadRecv => s.dmaReceive n
  | .dmaReadAw => if i.dmaAwready then { n with state := .dmaReadW } else n
  | .dmaReadW => if i.dmaWready then { n with state := .dmaReadB } else n
  | .dmaReadB =>
      if i.dmaBvalid then
        if s.len ≤ s.count then { n with state := .dmaReadDone }
        else if s.activeDescRemaining = 0 then
          { n with dmaWriteComplete := false, activeDescValid := false, state := .dmaLoadDesc }
        else
          { n with
            dmaWriteComplete := false
            activeDescAddr := s.activeDescAddr + s.dmaBeatLimit
            dmaBeat := 0
            dmaByteIndex := 0
            dmaBeatLimit := 0
            state := .dmaReadRecv }
      else n
  | .dmaReadDone => { n with dmaWriteComplete := true, state := .done }
  | .dmaWriteAr => if i.dmaArready then { n with state := .dmaWriteR } else n
  | .dmaWriteR =>
      if i.dmaRvalid then
        { n with
          dmaBeat := i.dmaRdata
          dmaByteIndex := 0
          dmaBeatLimit := s.dmaNextBeatLimit
          state := .dmaWriteSend }
      else n
  | .dmaWriteSend => s.dmaSend n
  | .done => { n with busy := false, done := true, irqPending := true, state := .idle }
  | .error =>
      { n with busy := false, done := true, error := true, irqPending := true, state := .idle }
  | .idle => n

/-- The registers after a reset; the words of the FIFOs stay. -/
def afterReset (tx rx : SdFifo (BitVec 8)) (desc : SdFifo (BitVec 32 × BitVec 32)) :
    SdController g where
  tx := tx.cleared
  rx := rx.cleared
  txValid := false
  txData := 0
  txLast := false
  rxValid := false
  rxData := 0
  rxLast := false
  readAddr := 0
  readId := 0
  readValid := false
  readData := 0
  writeAddr := 0
  writeId := 0
  writeAddrValid := false
  writeRespValid := false
  cmd := 0x51
  arg := 0
  len := 512
  dmaAddr := 0
  dmaDescAddr := 0
  dmaDescLen := 0
  count := 0
  state := .idle
  headerIndex := 0
  writeMode := false
  dmaMode := false
  busy := false
  done := false
  error := false
  irqEnable := false
  irqPending := false
  dmaWriteComplete := false
  dmaBeat := 0
  dmaBeatBase := 0
  dmaByteIndex := 0
  dmaBeatLimit := 0
  desc := desc.cleared
  activeDescAddr := 0
  activeDescRemaining := 0
  activeDescValid := false

/-- `_work` and the strobe after it. The later assignment of a register stays. -/
def work : SdController g :=
  let n := { s with dmaWriteComplete := false }
  let n := s.cardPorts i n
  let n := s.readPort i n
  let n := s.writePort i n
  let n := s.byteFifos i n
  let n := s.advance i n
  let n := { n with desc := s.desc.recount (s.descPush i) s.descPop n.desc }
  if i.reset then afterReset n.tx n.rx n.desc else n

end SdController

end CppHdl.Devices
