import CppHdl.Lib.BusMemory

/-!
# The Ethernet DMA engine

`EthGigDMA` moves frames between buffers in memory and the MAC. Each direction follows a
ring of descriptors, and both share one state machine, one read and one write channel, and
the length, offset and beat registers.

The registers of the MAC page and the read channel of the register port are left out: the
state machine reads neither.
-/

namespace CppHdl.Devices

/-- The template arguments; a beat has 4 to 128 bytes, as on any AXI bus for words. -/
structure DmaGeometry where
  ADDR_WIDTH : Nat
  beatBits : Nat
  beat : 2 ≤ beatBits ∧ beatBits ≤ 7
  addr : beatBits ≤ ADDR_WIDTH ∧ ADDR_WIDTH ≤ 32

namespace DmaGeometry

variable (g : DmaGeometry)

abbrev DATA_BYTES : Nat := 2 ^ g.beatBits

abbrev DATA_WIDTH : Nat := 8 * g.DATA_BYTES

end DmaGeometry

namespace EthGigDma

abbrev CR_RUNSTOP_MASK : BitVec 32 := 0x00000001
abbrev CR_RESET_MASK : BitVec 32 := 0x00000004
abbrev SR_HALT_MASK : BitVec 32 := 0x00000001
abbrev IRQ_IOC_MASK : BitVec 32 := 0x00001000
abbrev BD_NDESC_OFFSET : BitVec 32 := 0x00
abbrev BD_BUFA_OFFSET : BitVec 32 := 0x08
abbrev BD_CTRL_LEN_OFFSET : BitVec 32 := 0x18
abbrev BD_STS_OFFSET : BitVec 32 := 0x1c
abbrev BD_USR4_OFFSET : BitVec 32 := 0x30
abbrev BD_CTRL_LENGTH_MASK : BitVec 32 := 0x007fffff
abbrev BD_STS_ACTUAL_LEN_MASK : BitVec 32 := 0x007fffff
abbrev BD_STS_COMPLETE_MASK : BitVec 32 := 0x80000000
abbrev BD_STS_RXSOF_MASK : BitVec 32 := 0x08000000
abbrev BD_STS_RXEOF_MASK : BitVec 32 := 0x04000000

/-- The registers of the DMA page that a write reaches. -/
inductive Register
  | txCr
  | txSr
  | txCdesc
  | txTdesc
  | rxCr
  | rxSr
  | rxCdesc
  | rxTdesc
  | other
  deriving DecidableEq

/-- The DMA page is one page of sixteen. -/
def register (addr : Nat) : Register :=
  if addr % 0x1000 < 0x100 ∨ 0x200 ≤ addr % 0x1000 then .other
  else if addr % 0x100 = 0x00 then .txCr
  else if addr % 0x100 = 0x04 then .txSr
  else if addr % 0x100 = 0x08 then .txCdesc
  else if addr % 0x100 = 0x10 then .txTdesc
  else if addr % 0x100 = 0x30 then .rxCr
  else if addr % 0x100 = 0x34 then .rxSr
  else if addr % 0x100 = 0x38 then .rxCdesc
  else if addr % 0x100 = 0x40 then .rxTdesc
  else .other

inductive State
  | idle
  | txNdescAr | txNdescR | txCtrlAr | txCtrlR | txBufaAr | txBufaR | txDataAr | txDataR
  | txSend
  | txStatusRmwAr | txStatusRmwR | txStatusAw | txStatusW | txStatusB
  | rxNdescAr | rxNdescR | rxBufaAr | rxBufaR
  | rxRmwAr | rxRmwR | rxWriteAw | rxWriteW | rxWriteB
  | rxStatusRmwAr | rxStatusRmwR | rxStatusAw | rxStatusW | rxStatusB
  | rxApp4RmwAr | rxApp4RmwR | rxApp4Aw | rxApp4W | rxApp4B
  deriving DecidableEq

end EthGigDma

structure EthGigDma (g : DmaGeometry) where
  txCr : BitVec 32
  txSr : BitVec 32
  txCdesc : BitVec 32
  txTdesc : BitVec 32
  txTailDone : Bool
  rxCr : BitVec 32
  rxSr : BitVec 32
  rxCdesc : BitVec 32
  rxTdesc : BitVec 32
  state : EthGigDma.State
  descAddr : BitVec 32
  rxDescAddr : BitVec 32
  txNextDesc : BitVec 32
  rxNextDesc : BitVec 32
  bufferAddr : BitVec 32
  rxBufferAddr : BitVec 32
  len : BitVec 32
  offset : BitVec 32
  beat : BitVec g.DATA_WIDTH
  beatValidBytes : BitVec 32
  byteIndex : BitVec 32
  rxWriteLast : Bool
  rxDescReady : Bool
  readValid : Bool
  readAddr : BitVec g.ADDR_WIDTH
  writeAddrValid : Bool
  writeAddr : BitVec g.ADDR_WIDTH
  writeData : BitVec g.DATA_WIDTH
  writeRespWait : Bool
  macTxValid : Bool
  macTxData : BitVec 8
  macTxLast : Bool
  axiWriteAddr : BitVec g.ADDR_WIDTH
  axiWriteAddrValid : Bool
  axiWriteRespValid : Bool

/-- The inputs of a clock: the register port, the answers on `dma_out`, and both sides of
the MAC. -/
structure DmaInputs (g : DmaGeometry) where
  reset : Bool
  awvalid : Bool
  awaddr : BitVec g.ADDR_WIDTH
  wvalid : Bool
  wdata : BitVec g.DATA_WIDTH
  bready : Bool
  dmaArready : Bool
  dmaRvalid : Bool
  dmaRdata : BitVec g.DATA_WIDTH
  dmaAwready : Bool
  dmaWready : Bool
  dmaBvalid : Bool
  macTxReady : Bool
  macRxValid : Bool
  macRxData : BitVec 8
  macRxLast : Bool

namespace EthGigDma

variable {g : DmaGeometry} (s : EthGigDma g) (i : DmaInputs g)

/-! ## Combinational -/

def txRun : Bool := decide (s.txCr &&& CR_RUNSTOP_MASK ≠ 0)

def rxRun : Bool := decide (s.rxCr &&& CR_RUNSTOP_MASK ≠ 0)

def rxNextDescValid : Bool :=
  decide (s.rxNextDesc ≠ 0) && decide (s.rxNextDesc &&& 0x3f = 0)

def rxDescPosted : Bool := decide (s.rxCdesc ≠ 0) && decide (s.rxTdesc ≠ 0)

/-- `mac_rx_ready_out`. -/
def macRxReady : Bool :=
  s.rxRun && decide (s.state = .idle) && s.rxDescReady && decide (s.rxBufferAddr ≠ 0)

/-- `rx_write_complete_out`. -/
def rxWriteComplete : Bool := decide (s.state = .rxStatusB) && s.writeRespWait && i.dmaBvalid

def awready : Bool := !s.axiWriteAddrValid && !s.axiWriteRespValid

def wready : Bool := s.axiWriteAddrValid && !s.axiWriteRespValid

def lane (addr : BitVec 32) : Nat := addr.toNat % g.DATA_BYTES / 4

/-- The start of the beat of an address, `& ~(DATA_BYTES - 1)`. -/
def beatStart (addr : BitVec 32) : BitVec g.ADDR_WIDTH :=
  (addr &&& ~~~BitVec.ofNat 32 (g.DATA_BYTES - 1)).setWidth g.ADDR_WIDTH

def mmioWriteWord : BitVec 32 :=
  i.wdata.extractLsb' (s.axiWriteAddr.toNat % g.DATA_BYTES / 4 * 32) 32

def dmaReadWord : BitVec 32 :=
  i.dmaRdata.extractLsb' (s.readAddr.toNat % g.DATA_BYTES / 4 * 32) 32

def inRxStatus : Bool :=
  decide (s.state = .rxStatusRmwAr) || decide (s.state = .rxStatusRmwR) ||
    decide (s.state = .rxStatusAw) || decide (s.state = .rxStatusW) || decide (s.state = .rxStatusB)

def statusWriteBeat : BitVec g.DATA_WIDTH :=
  let descAddr := if s.inRxStatus then s.rxCdesc else s.txCdesc
  let word := BD_STS_COMPLETE_MASK ||| s.len &&& BD_STS_ACTUAL_LEN_MASK
  let word := if s.inRxStatus then word ||| (BD_STS_RXSOF_MASK ||| BD_STS_RXEOF_MASK) else word
  withBits 0 (lane (g := g) (descAddr + BD_STS_OFFSET) * 32) word

def rxApp4WriteBeat : BitVec g.DATA_WIDTH :=
  withBits 0 (lane (g := g) (s.rxCdesc + BD_USR4_OFFSET) * 32) (s.len &&& 0xffff)

def wordWriteStrb (addr : BitVec 32) : BitVec g.DATA_BYTES :=
  withBits 0 (addr.toNat % g.DATA_BYTES) (0xf : BitVec 4)

/-- The bytes of the beat that hold payload. -/
def inPayload (k : Nat) : Bool :=
  decide (s.byteIndex.toNat ≤ k) && decide (k < (s.byteIndex + s.beatValidBytes).toNat)

def rxPayloadWriteStrb : BitVec g.DATA_BYTES :=
  (List.range g.DATA_BYTES).foldl (fun strb k =>
    if s.inPayload k then withBits strb k (1 : BitVec 1) else strb) 0

def writeStrb : BitVec g.DATA_BYTES :=
  match s.state with
  | .rxWriteW => s.rxPayloadWriteStrb
  | .rxStatusW => wordWriteStrb (s.rxCdesc + BD_STS_OFFSET)
  | .txStatusW => wordWriteStrb (s.txCdesc + BD_STS_OFFSET)
  | .rxApp4W => wordWriteStrb (s.rxCdesc + BD_USR4_OFFSET)
  | _ => 0

def writing : Bool :=
  decide (s.state = .txStatusW) || decide (s.state = .rxWriteW) || decide (s.state = .rxStatusW) ||
    decide (s.state = .rxApp4W)

def drives (rvalid : Bool) : BusMaster g.ADDR_WIDTH g.DATA_BYTES where
  arvalid := s.readValid
  araddr := s.readAddr
  rready := s.readValid && rvalid
  awvalid := s.writeAddrValid
  awaddr := s.writeAddr
  wvalid := s.writeAddrValid && s.writing
  wdata := s.writeData
  wstrb := s.writeStrb
  bready := s.writeRespWait

/-! ## The register port -/

def registerWrite : Option Register :=
  if s.axiWriteAddrValid && i.wvalid && s.wready then some (register s.axiWriteAddr.toNat) else none

def writeRegister (word : BitVec 32) (n : EthGigDma g) : EthGigDma g :=
  match register s.axiWriteAddr.toNat with
  | .txCr =>
      if word &&& CR_RESET_MASK ≠ 0 then { n with txCr := 0, txSr := SR_HALT_MASK }
      else { n with txCr := word, txSr := s.txSr &&& ~~~SR_HALT_MASK }
  | .txSr => { n with txSr := s.txSr &&& ~~~word }
  | .txCdesc => { n with txCdesc := word, txTailDone := false }
  | .txTdesc =>
      { n with
        txTdesc := word
        txCdesc := if s.txTailDone then word else n.txCdesc
        txTailDone := false }
  | .rxCr =>
      if word &&& CR_RESET_MASK ≠ 0 then
        { n with rxCr := 0, rxSr := SR_HALT_MASK, rxDescReady := false }
      else { n with rxCr := word, rxSr := s.rxSr &&& ~~~SR_HALT_MASK }
  | .rxSr => { n with rxSr := s.rxSr &&& ~~~word }
  | .rxCdesc => { n with rxCdesc := word, rxDescReady := false, rxBufferAddr := 0 }
  | .rxTdesc =>
      { n with rxTdesc := word, rxDescReady := decide (s.rxCdesc ≠ 0) && decide (word ≠ 0) }
  | .other => n

def txIocClear : Bool :=
  decide (s.registerWrite i = some .txSr) && decide (s.mmioWriteWord i &&& IRQ_IOC_MASK ≠ 0)

def rxIocClear : Bool :=
  decide (s.registerWrite i = some .rxSr) && decide (s.mmioWriteWord i &&& IRQ_IOC_MASK ≠ 0)

/-- The data of a register write, and its response. -/
def registerData (n : EthGigDma g) : EthGigDma g :=
  if s.axiWriteAddrValid && i.wvalid && s.wready then
    { s.writeRegister (s.mmioWriteWord i) n with
      axiWriteAddrValid := false
      axiWriteRespValid := true }
  else if s.axiWriteRespValid && i.bready then { n with axiWriteRespValid := false }
  else n

def registerPort : EthGigDma g :=
  let n := { s with macTxValid := false, macTxLast := false }
  let n := if i.awvalid && s.awready then
      { n with axiWriteAddr := i.awaddr, axiWriteAddrValid := true } else n
  s.registerData i n

/-! ## The state machine -/

def goto (t : State) (n : EthGigDma g) : EthGigDma g := { n with state := t }

/-- The read response of a beat of payload to write back. -/
def rxMergedBeat : BitVec g.DATA_WIDTH :=
  (List.range g.DATA_BYTES).foldl (fun merged k =>
    if s.inPayload k then withBits merged (8 * k) (s.beat.extractLsb' (8 * k) 8) else merged)
    i.dmaRdata

def startWrite (data : BitVec g.DATA_WIDTH) (state : State) (n : EthGigDma g) : EthGigDma g :=
  { n with writeData := data, writeAddrValid := true, writeRespWait := true, state := state }

def readResponse (n : EthGigDma g) : EthGigDma g :=
  let word := s.dmaReadWord i
  let n := { n with readValid := false }
  match s.state with
  | .txNdescR => { n with txNextDesc := word, state := .txCtrlAr }
  | .rxNdescR => { n with rxNextDesc := word, state := .rxBufaAr }
  | .txCtrlR => { n with len := word &&& BD_CTRL_LENGTH_MASK, state := .txBufaAr }
  | .txBufaR => { n with bufferAddr := word, offset := 0, state := .txDataAr }
  | .txDataR =>
      let limit := s.len - s.offset
      let startLane := BitVec.ofNat 32 (s.readAddr.toNat % g.DATA_BYTES)
      let room := BitVec.ofNat 32 g.DATA_BYTES - startLane
      { n with
        beat := i.dmaRdata
        beatValidBytes := if room < limit then room else limit
        byteIndex := startLane
        state := .txSend }
  | .rxBufaR =>
      { n with
        rxBufferAddr := word
        offset := 0
        len := 0
        beat := 0
        beatValidBytes := 0
        byteIndex := 0
        state := .idle }
  | .rxRmwR => startWrite (s.rxMergedBeat i) .rxWriteAw n
  | .txStatusRmwR =>
      let at' := lane (g := g) (s.txCdesc + BD_STS_OFFSET) * 32
      startWrite (withBits i.dmaRdata at' (s.statusWriteBeat.extractLsb' at' 32)) .txStatusAw n
  | .rxStatusRmwR =>
      let at' := lane (g := g) (s.rxCdesc + BD_STS_OFFSET) * 32
      startWrite (withBits i.dmaRdata at' (s.statusWriteBeat.extractLsb' at' 32)) .rxStatusAw n
  | .rxApp4RmwR =>
      let at' := lane (g := g) (s.rxCdesc + BD_USR4_OFFSET) * 32
      startWrite (withBits i.dmaRdata at' (s.rxApp4WriteBeat.extractLsb' at' 32)) .rxApp4Aw n
  | _ => n

/-- A read for a later write of the same beat. -/
def startRmw (addr : BitVec 32) (state : State) (n : EthGigDma g) : EthGigDma g :=
  { n with readAddr := beatStart addr, writeAddr := beatStart addr, readValid := true, state := state }

def writeResponse (n : EthGigDma g) : EthGigDma g :=
  let n := { n with writeRespWait := false, writeAddrValid := false }
  match s.state with
  | .txStatusB =>
      { n with
        txSr := if s.txIocClear i then n.txSr else s.txSr ||| IRQ_IOC_MASK
        txCdesc := s.txNextDesc
        txTailDone := if s.descAddr = s.txTdesc then true else n.txTailDone
        bufferAddr := 0
        len := 0
        offset := 0
        beat := 0
        beatValidBytes := 0
        byteIndex := 0
        state := .idle }
  | .rxWriteB =>
      let n := { n with
        offset := s.offset + s.beatValidBytes
        len := s.len + s.beatValidBytes
        beat := 0
        beatValidBytes := 0
        byteIndex := 0 }
      if s.rxWriteLast then startRmw (s.rxCdesc + BD_USR4_OFFSET) .rxApp4RmwAr n
      else goto .idle n
  | .rxApp4B => startRmw (s.rxCdesc + BD_STS_OFFSET) .rxStatusRmwAr n
  | .rxStatusB =>
      { n with
        rxSr := if s.rxIocClear i then n.rxSr else s.rxSr ||| IRQ_IOC_MASK
        rxDescReady := s.rxNextDescValid && decide (s.rxCdesc ≠ s.rxTdesc)
        rxCdesc := if s.rxNextDescValid then s.rxNextDesc else n.rxCdesc
        bufferAddr := 0
        rxBufferAddr := 0
        len := 0
        offset := 0
        beat := 0
        beatValidBytes := 0
        byteIndex := 0
        state := .idle }
  | _ => n

def txFetches : Bool :=
  s.txRun && !s.txTailDone && decide (s.txCdesc ≠ 0) && decide (s.txTdesc ≠ 0) &&
    decide (s.txCdesc ≤ s.txTdesc)

def rxFetches : Bool :=
  s.rxRun && s.rxDescReady && s.rxDescPosted && decide (s.rxBufferAddr = 0)

def request (addr : BitVec 32) (n : EthGigDma g) : EthGigDma g :=
  { n with readAddr := addr.setWidth g.ADDR_WIDTH, readValid := true }

/-- One byte of the beat to the MAC. -/
def send (n : EthGigDma g) : EthGigDma g :=
  let lane := s.byteIndex.toNat
  let startLane := BitVec.ofNat 32 ((s.bufferAddr + s.offset).toNat % g.DATA_BYTES)
  let consumed := s.byteIndex - startLane + 1
  let n := { n with
    macTxData := s.beat.extractLsb' (8 * lane) 8
    macTxValid := true
    macTxLast := decide (s.len ≤ s.offset + consumed) }
  if s.beatValidBytes ≤ consumed then
    let n := { n with offset := s.offset + s.beatValidBytes }
    if s.len ≤ s.offset + s.beatValidBytes then
      startRmw (s.descAddr + BD_STS_OFFSET) .txStatusRmwAr n
    else goto .txDataAr n
  else { n with byteIndex := s.byteIndex + 1 }

/-- The fetches and the transmit side. -/
def advance (n : EthGigDma g) : EthGigDma g :=
  match s.state with
  | .idle =>
      if s.txFetches then
        request (s.txCdesc + BD_NDESC_OFFSET) { n with descAddr := s.txCdesc, state := .txNdescAr }
      else if s.rxFetches then
        request (s.rxCdesc + BD_NDESC_OFFSET) { n with rxDescAddr := s.rxCdesc, state := .rxNdescAr }
      else n
  | .txNdescAr => if i.dmaArready then goto .txNdescR n else n
  | .txCtrlAr =>
      let n := request (s.descAddr + BD_CTRL_LEN_OFFSET) n
      if i.dmaArready then goto .txCtrlR n else n
  | .txBufaAr =>
      let n := request (s.descAddr + BD_BUFA_OFFSET) n
      if i.dmaArready then goto .txBufaR n else n
  | .txDataAr =>
      let n := request (s.bufferAddr + s.offset) n
      if i.dmaArready then goto .txDataR n else n
  | .txSend => if i.macTxReady then s.send n else n
  | .txStatusAw => if i.dmaAwready then goto .txStatusW n else n
  | .txStatusW => if i.dmaWready then goto .txStatusB n else n
  | .txStatusRmwAr => if i.dmaArready then goto .txStatusRmwR n else n
  | .rxApp4Aw => if i.dmaAwready then goto .rxApp4W n else n
  | .rxApp4W => if i.dmaWready then goto .rxApp4B n else n
  | .rxApp4RmwAr => if i.dmaArready then goto .rxApp4RmwR n else n
  | .rxNdescAr => if i.dmaArready then goto .rxNdescR n else n
  | .rxBufaAr =>
      let n := request (s.rxDescAddr + BD_BUFA_OFFSET) n
      if i.dmaArready then goto .rxBufaR n else n
  | _ => n

/-- The first lane of the beat under reception. -/
def rxStartLane : BitVec 32 :=
  if s.beatValidBytes = 0 then BitVec.ofNat 32 ((s.rxBufferAddr + s.offset).toNat % g.DATA_BYTES)
  else s.byteIndex

/-- A byte is taken from the MAC. -/
def rxAccepts : Bool :=
  decide (s.state = .idle) && s.rxRun && s.rxDescReady && i.macRxValid &&
    decide (s.rxBufferAddr ≠ 0)

/-- The byte fills the beat or is the last. -/
def rxFlushes : Bool :=
  decide (g.DATA_BYTES ≤ (s.rxStartLane + s.beatValidBytes + 1).toNat) || i.macRxLast

def accept (n : EthGigDma g) : EthGigDma g :=
  let lane := (s.rxStartLane + s.beatValidBytes).toNat
  let n := { n with
    byteIndex := if s.beatValidBytes = 0 then s.rxStartLane else n.byteIndex
    beat := withBits s.beat (8 * lane) i.macRxData
    beatValidBytes := s.beatValidBytes + 1 }
  if s.rxFlushes i then
    startRmw (s.rxBufferAddr + s.offset) .rxRmwAr { n with rxWriteLast := i.macRxLast }
  else n

def holdStatusAw (n : EthGigDma g) : EthGigDma g :=
  { n with descAddr := s.rxCdesc, writeAddrValid := true, writeRespWait := true }

/-- The receive side, which has the last word on the state. -/
def receive (n : EthGigDma g) : EthGigDma g :=
  match s.state with
  | .idle => if s.rxAccepts i then s.accept i n else n
  | .rxRmwAr => if i.dmaArready then goto .rxRmwR n else n
  | .rxWriteAw => if i.dmaAwready then goto .rxWriteW n else n
  | .rxWriteW => if i.dmaWready then goto .rxWriteB n else n
  | .rxStatusAw =>
      let n := s.holdStatusAw n
      if i.dmaAwready then goto .rxStatusW n else n
  | .rxStatusW => if i.dmaWready then goto .rxStatusB n else n
  | .rxStatusRmwAr => if i.dmaArready then goto .rxStatusRmwR n else n
  | _ => n

/-- The registers after a reset; the address of a register write is not reset. -/
def resetState (axiWriteAddr : BitVec g.ADDR_WIDTH) : EthGigDma g where
  txCr := 0
  txSr := SR_HALT_MASK
  txCdesc := 0
  txTdesc := 0
  txTailDone := false
  rxCr := 0
  rxSr := SR_HALT_MASK
  rxCdesc := 0
  rxTdesc := 0
  state := .idle
  descAddr := 0
  rxDescAddr := 0
  txNextDesc := 0
  rxNextDesc := 0
  bufferAddr := 0
  rxBufferAddr := 0
  len := 0
  offset := 0
  beat := 0
  beatValidBytes := 0
  byteIndex := 0
  rxWriteLast := false
  rxDescReady := false
  readValid := false
  readAddr := 0
  writeAddrValid := false
  writeAddr := 0
  writeData := 0
  writeRespWait := false
  macTxValid := false
  macTxData := 0
  macTxLast := false
  axiWriteAddr := axiWriteAddr
  axiWriteAddrValid := false
  axiWriteRespValid := false

/-- One clock. The assignments stand in the order of the source, and a later one wins. -/
def work : EthGigDma g :=
  let n := s.registerPort i
  let n := if i.dmaRvalid && s.readValid then s.readResponse i n else n
  let n := if s.writeRespWait && i.dmaBvalid then s.writeResponse i n else n
  let n := s.receive i (s.advance i n)
  if i.reset then resetState n.axiWriteAddr else n

end EthGigDma

end CppHdl.Devices
