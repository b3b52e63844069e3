import CppHdl.Devices.EthGigDma
import CppHdl.Lib.Alignment
import CppHdl.Lib.Transition

/-!
# The engine on its bus

A clock of the engine with the memory behind `dma_out`. In every state at most one of the
two channels is in use, and a response comes in the state that waits for it.
-/

namespace CppHdl.Devices

open EthGigDma

namespace DmaGeometry

variable {g : DmaGeometry}

theorem bytes_pos : 0 < g.DATA_BYTES := Nat.two_pow_pos _

theorem bytes_dvd : g.DATA_BYTES ∣ 2 ^ g.ADDR_WIDTH := Nat.pow_dvd_pow 2 g.addr.1

theorem bytes_mod : g.DATA_BYTES % 4 = 0 :=
  Nat.mod_eq_zero_of_dvd (Nat.pow_dvd_pow 2 g.beat.1)

theorem bytes_le : g.DATA_BYTES ≤ 128 := Nat.pow_le_pow_right (by decide) g.beat.2

/-- An address and its place in the beat are the same on the bus. -/
theorem toNat_setWidth_mod (x : BitVec 32) :
    (x.setWidth g.ADDR_WIDTH).toNat % g.DATA_BYTES = x.toNat % g.DATA_BYTES := by
  rw [BitVec.toNat_setWidth, Nat.mod_mod_of_dvd _ bytes_dvd]

/-- Addresses on the bus count on as far as the beat goes. -/
theorem toNat_setWidth_add (x : BitVec 32) (k : Nat) :
    ((x + BitVec.ofNat 32 k).setWidth g.ADDR_WIDTH).toNat =
      ((x.setWidth g.ADDR_WIDTH).toNat + k) % 2 ^ g.ADDR_WIDTH := by
  have hdvd : 2 ^ g.ADDR_WIDTH ∣ 2 ^ 32 := Nat.pow_dvd_pow 2 g.addr.2
  rw [BitVec.toNat_setWidth, BitVec.toNat_setWidth, BitVec.toNat_add, BitVec.toNat_ofNat,
    Nat.add_mod_mod, Nat.mod_mod_of_dvd _ hdvd, Nat.mod_add_mod]

theorem beatByte_eq (x : BitVec 32) {k : Nat} (hk : x.toNat % g.DATA_BYTES + k < g.DATA_BYTES) :
    BitVec.ofNat g.ADDR_WIDTH ((x.setWidth g.ADDR_WIDTH).toNat / g.DATA_BYTES * g.DATA_BYTES +
        (x.toNat % g.DATA_BYTES + k)) =
      (x + BitVec.ofNat 32 k).setWidth g.ADDR_WIDTH := by
  have hbyte := toNat_beatByte (a := x.setWidth g.ADDR_WIDTH) bytes_dvd hk
  have hdiv := Nat.div_add_mod' (x.setWidth g.ADDR_WIDTH).toNat g.DATA_BYTES
  rw [toNat_setWidth_mod] at hdiv
  rw [← Nat.add_assoc, hdiv] at hbyte
  apply BitVec.eq_of_toNat_eq
  rw [toNat_setWidth_add, ← Nat.add_assoc, hdiv, hbyte]
  have hlt := BitVec.isLt (BitVec.ofNat g.ADDR_WIDTH ((x.setWidth g.ADDR_WIDTH).toNat + k))
  rw [hbyte] at hlt
  exact (Nat.mod_eq_of_lt hlt).symm

theorem beatStart_div (x : BitVec 32) :
    (beatStart (g := g) x).toNat / g.DATA_BYTES =
      (x.setWidth g.ADDR_WIDTH).toNat / g.DATA_BYTES := by
  obtain ⟨m, hm⟩ := bytes_dvd (g := g)
  have hpos : 0 < g.DATA_BYTES := bytes_pos
  have hclear := toNat_clearLow x (k := g.beatBits) (g.addr.1.trans g.addr.2)
  have hdiv : ∀ y, y % (g.DATA_BYTES * m) / g.DATA_BYTES = y / g.DATA_BYTES % m := by
    intro y
    rw [Nat.mod_mul_right_div_self]
  unfold beatStart
  rw [BitVec.toNat_setWidth, BitVec.toNat_setWidth, hclear, hm, hdiv, hdiv,
    Nat.mul_div_cancel _ hpos]

theorem lane_fits (x : Nat) : x % g.DATA_BYTES / 4 * 4 + 4 ≤ g.DATA_BYTES := by
  have hlt : x % g.DATA_BYTES < g.DATA_BYTES := Nat.mod_lt _ bytes_pos
  have hmod := bytes_mod (g := g)
  omega

theorem getLsbD_wordWriteStrb {x : BitVec 32} (haligned : x.toNat % 4 = 0) {q : Nat} (hq : q < 4) :
    (wordWriteStrb (g := g) x).getLsbD (x.toNat % g.DATA_BYTES / 4 * 4 + q) = true := by
  have hfits := lane_fits (g := g) x.toNat
  have hmod : x.toNat % g.DATA_BYTES % 4 = 0 := by
    rw [Nat.mod_mod_of_dvd _ (Nat.dvd_of_mod_eq_zero bytes_mod), haligned]
  unfold wordWriteStrb
  rw [getLsbD_withBits _ _ _ (by omega), if_pos (by omega),
    show x.toNat % g.DATA_BYTES / 4 * 4 + q - x.toNat % g.DATA_BYTES = q by omega]
  obtain rfl | rfl | rfl | rfl : q = 0 ∨ q = 1 ∨ q = 2 ∨ q = 3 := by omega
  all_goals rfl

end DmaGeometry

namespace EthGigDma

/-- What a state waits for: the address of a read that is on the bus already, one that it
puts there itself, the response of a read, and the three handshakes of a write. -/
inductive Waits
  | nothing
  | ar
  | request
  | r
  | aw
  | w
  | b
  deriving DecidableEq

namespace State

def waits : State → Waits
  | idle | txSend => .nothing
  | txNdescAr | txStatusRmwAr | rxNdescAr | rxRmwAr | rxApp4RmwAr | rxStatusRmwAr => .ar
  | txCtrlAr | txBufaAr | txDataAr | rxBufaAr => .request
  | txNdescR | txCtrlR | txBufaR | txDataR | txStatusRmwR => .r
  | rxNdescR | rxBufaR | rxRmwR | rxApp4RmwR | rxStatusRmwR => .r
  | txStatusAw | rxWriteAw | rxApp4Aw | rxStatusAw => .aw
  | txStatusW | rxWriteW | rxApp4W | rxStatusW => .w
  | txStatusB | rxWriteB | rxApp4B | rxStatusB => .b

/-- The state after the handshake of an address or of data. -/
def after : State → State
  | txNdescAr => txNdescR
  | txStatusRmwAr => txStatusRmwR
  | rxNdescAr => rxNdescR
  | rxRmwAr => rxRmwR
  | rxApp4RmwAr => rxApp4RmwR
  | rxStatusRmwAr => rxStatusRmwR
  | txCtrlAr => txCtrlR
  | txBufaAr => txBufaR
  | txDataAr => txDataR
  | rxBufaAr => rxBufaR
  | txStatusAw => txStatusW
  | rxWriteAw => rxWriteW
  | rxApp4Aw => rxApp4W
  | rxStatusAw => rxStatusW
  | txStatusW => txStatusB
  | rxWriteW => rxWriteB
  | rxApp4W => rxApp4B
  | rxStatusW => rxStatusB
  | t => t

theorem waits_after (t : State) : t.after.waits = match t.waits with
    | .ar | .request => .r
    | .aw => .w
    | .w => .b
    | other => other := by
  cases t <;> rfl

end State

variable {g : DmaGeometry} {s n : EthGigDma g} {i : DmaInputs g}

/-- What a state reads with an address of its own. -/
def requestAddr (s : EthGigDma g) : BitVec 32 :=
  match s.state with
  | .txCtrlAr | .txCtrlR => s.descAddr + BD_CTRL_LEN_OFFSET
  | .txBufaAr | .txBufaR => s.descAddr + BD_BUFA_OFFSET
  | .txDataAr | .txDataR => s.bufferAddr + s.offset
  | .rxBufaAr | .rxBufaR => s.rxDescAddr + BD_BUFA_OFFSET
  | .txNdescAr | .txNdescR => s.descAddr + BD_NDESC_OFFSET
  | .rxNdescAr | .rxNdescR => s.rxDescAddr + BD_NDESC_OFFSET
  | _ => 0

/-- A read of a descriptor or of payload, not of a beat to write back. -/
def fetching (s : EthGigDma g) : Bool :=
  match s.state with
  | .txCtrlAr | .txCtrlR | .txBufaAr | .txBufaR | .txDataAr | .txDataR | .txNdescAr | .txNdescR
  | .rxBufaAr | .rxBufaR | .rxNdescAr | .rxNdescR => true
  | _ => false

/-- The registers that a write at the port does not reach. -/
structure SameMachine (s n : EthGigDma g) : Prop where
  state : n.state = s.state
  descAddr : n.descAddr = s.descAddr
  rxDescAddr : n.rxDescAddr = s.rxDescAddr
  txNextDesc : n.txNextDesc = s.txNextDesc
  rxNextDesc : n.rxNextDesc = s.rxNextDesc
  bufferAddr : n.bufferAddr = s.bufferAddr
  len : n.len = s.len
  offset : n.offset = s.offset
  beat : n.beat = s.beat
  beatValidBytes : n.beatValidBytes = s.beatValidBytes
  byteIndex : n.byteIndex = s.byteIndex
  rxWriteLast : n.rxWriteLast = s.rxWriteLast
  readValid : n.readValid = s.readValid
  readAddr : n.readAddr = s.readAddr
  writeAddrValid : n.writeAddrValid = s.writeAddrValid
  writeAddr : n.writeAddr = s.writeAddr
  writeData : n.writeData = s.writeData
  writeRespWait : n.writeRespWait = s.writeRespWait
  macTxData : n.macTxData = s.macTxData

theorem sameMachine_writeRegister {word : BitVec 32} (h : SameMachine s n) :
    SameMachine s (s.writeRegister word n) := by
  unfold writeRegister
  cases register s.axiWriteAddr.toNat <;> dsimp only <;> try split_ifs
  all_goals exact { h with }

theorem sameMachine_registerPort : SameMachine s (s.registerPort i) := by
  have key : ∀ n : EthGigDma g, SameMachine s n → SameMachine s (s.registerData i n) := by
    intro n h
    unfold registerData
    split_ifs
    · exact { sameMachine_writeRegister h with }
    · exact { h with }
    · exact h
  unfold registerPort
  dsimp only
  apply key
  split_ifs <;> constructor <;> rfl

/-! ## A clock in each state -/

structure Quiet (s : EthGigDma g) (i : DmaInputs g) : Prop where
  reset : i.reset = false
  read : (i.dmaRvalid && s.readValid) = false
  write : (s.writeRespWait && i.dmaBvalid) = false

theorem Quiet.work (h : Quiet s i) : s.work i = s.receive i (s.advance i (s.registerPort i)) := by
  unfold EthGigDma.work
  dsimp only
  rw [h.reset, h.read, h.write]
  rfl

theorem goto_self {t : State} (h : n.state = t) : goto t n = n := by
  subst h
  rfl

theorem goto_ite {t u : State} {b : Bool} (h : n.state = u) :
    (if b then goto t n else n) = goto (if b then t else u) n := by
  cases b
  · exact (goto_self h).symm
  · rfl

theorem work_ar (h : Quiet s i) (hstate : s.state.waits = .ar) :
    s.work i = goto (if i.dmaArready then s.state.after else s.state) (s.registerPort i) := by
  rw [h.work, ← goto_ite (n := s.registerPort i) sameMachine_registerPort.state]
  unfold receive advance
  cases hs : s.state <;> rw [hs] at hstate <;> first | rfl | cases hstate

theorem work_aw (h : Quiet s i) (hstate : s.state.waits = .aw) (hne : s.state ≠ .rxStatusAw) :
    s.work i = goto (if i.dmaAwready then s.state.after else s.state) (s.registerPort i) := by
  rw [h.work, ← goto_ite (n := s.registerPort i) sameMachine_registerPort.state]
  unfold receive advance
  cases hs : s.state <;> rw [hs] at hstate hne <;> 
    first | rfl | exact absurd rfl hne | cases hstate

theorem work_w (h : Quiet s i) (hstate : s.state.waits = .w) :
    s.work i = goto (if i.dmaWready then s.state.after else s.state) (s.registerPort i) := by
  rw [h.work, ← goto_ite (n := s.registerPort i) sameMachine_registerPort.state]
  unfold receive advance
  cases hs : s.state <;> rw [hs] at hstate <;> first | rfl | cases hstate

theorem work_rxStatusAw (h : Quiet s i) (hstate : s.state = .rxStatusAw) :
    s.work i = goto (if i.dmaAwready then .rxStatusW else .rxStatusAw)
      (s.holdStatusAw (s.registerPort i)) := by
  have hp : (s.holdStatusAw (s.registerPort i)).state = .rxStatusAw :=
    sameMachine_registerPort.state.trans hstate
  rw [h.work, ← goto_ite hp]
  unfold receive advance
  rw [hstate]

/-- A state that puts its address on the bus. -/
theorem work_request (h : Quiet s i) (hstate : s.state.waits = .request) :
    s.work i = goto (if i.dmaArready then s.state.after else s.state)
      (request s.requestAddr (s.registerPort i)) := by
  have hp : (request s.requestAddr (s.registerPort i)).state = s.state :=
    sameMachine_registerPort.state
  rw [h.work, ← goto_ite hp]
  unfold receive advance requestAddr
  cases hs : s.state <;> rw [hs] at hstate <;> first | rfl | cases hstate

/-- A state that waits for a response keeps its registers. -/
theorem work_waits (h : Quiet s i) (hstate : s.state.waits = .r ∨ s.state.waits = .b) :
    s.work i = s.registerPort i := by
  rw [h.work]
  unfold receive advance
  cases hs : s.state <;> rw [hs] at hstate <;> first | rfl | (rcases hstate with h | h <;> cases h)

theorem work_read (hreset : i.reset = false) (hr : (i.dmaRvalid && s.readValid) = true)
    (hb : (s.writeRespWait && i.dmaBvalid) = false) (hstate : s.state.waits = .r) :
    s.work i = s.readResponse i (s.registerPort i) := by
  unfold work
  dsimp only
  rw [hreset, hr, hb]
  unfold receive advance
  cases hs : s.state <;> rw [hs] at hstate <;> first | rfl | cases hstate

theorem work_write (hreset : i.reset = false) (hr : (i.dmaRvalid && s.readValid) = false)
    (hb : (s.writeRespWait && i.dmaBvalid) = true) (hstate : s.state.waits = .b) :
    s.work i = s.writeResponse i (s.registerPort i) := by
  unfold work
  dsimp only
  rw [hreset, hr, hb]
  unfold receive advance
  cases hs : s.state <;> rw [hs] at hstate <;> first | rfl | cases hstate

theorem work_txSend (h : Quiet s i) (hstate : s.state = .txSend) :
    s.work i = if i.macTxReady then s.send (s.registerPort i) else s.registerPort i := by
  rw [h.work]
  unfold receive advance
  rw [hstate]

theorem work_idle (h : Quiet s i) (hstate : s.state = .idle) :
    s.work i = if s.rxAccepts i then s.accept i (s.advance i (s.registerPort i))
      else s.advance i (s.registerPort i) := by
  rw [h.work]
  unfold receive
  rw [hstate]

/-! ## How the channels are left -/

/-- A read response ends the read, and may start a write. -/
theorem readResponse_leaves (hstate : s.state.waits = .r) :
    (s.readResponse i n).readValid = false ∧
      (((s.readResponse i n).state.waits = .nothing ∨ (s.readResponse i n).state.waits = .request) ∧
          (s.readResponse i n).writeAddrValid = n.writeAddrValid ∧
          (s.readResponse i n).writeRespWait = n.writeRespWait ∨
        (s.readResponse i n).state.waits = .aw ∧ (s.readResponse i n).writeAddrValid = true ∧
          (s.readResponse i n).writeRespWait = true) := by
  unfold readResponse
  cases hs : s.state <;> rw [hs] at hstate <;>
    first
    | exact ⟨rfl, .inl ⟨.inl rfl, rfl, rfl⟩⟩
    | exact ⟨rfl, .inl ⟨.inr rfl, rfl, rfl⟩⟩
    | exact ⟨rfl, .inr ⟨rfl, rfl, rfl⟩⟩
    | cases hstate

/-- A write response ends the write, and may start a read. -/
theorem writeResponse_leaves (hstate : s.state.waits = .b) :
    (s.writeResponse i n).writeAddrValid = false ∧ (s.writeResponse i n).writeRespWait = false ∧
      (s.writeResponse i n).fetching = false ∧
      ((s.writeResponse i n).state.waits = .nothing ∧
          (s.writeResponse i n).readValid = n.readValid ∨
        (s.writeResponse i n).state.waits = .ar ∧ (s.writeResponse i n).readValid = true) := by
  unfold writeResponse
  cases hs : s.state <;> rw [hs] at hstate <;> dsimp only <;>
    try split_ifs
  all_goals
    first
    | exact ⟨rfl, rfl, rfl, .inl ⟨rfl, rfl⟩⟩
    | exact ⟨rfl, rfl, rfl, .inr ⟨rfl, rfl⟩⟩
    | cases hstate

theorem send_leaves (hn : n.state = .txSend) :
    (s.send n).writeAddrValid = n.writeAddrValid ∧ (s.send n).writeRespWait = n.writeRespWait ∧
      (((s.send n).state.waits = .nothing ∨ (s.send n).state.waits = .request) ∧
          (s.send n).readValid = n.readValid ∨
        (s.send n).state.waits = .ar ∧ (s.send n).fetching = false ∧
          (s.send n).readValid = true) := by
  unfold send
  dsimp only
  split_ifs
  · exact ⟨rfl, rfl, .inr ⟨rfl, rfl, rfl⟩⟩
  · exact ⟨rfl, rfl, .inl ⟨.inr rfl, rfl⟩⟩
  · refine ⟨rfl, rfl, .inl ⟨.inl ?_, rfl⟩⟩
    dsimp only
    rw [hn]
    rfl

theorem advance_leaves (hstate : s.state = .idle) (hn : n.state = .idle) :
    (s.advance i n).writeAddrValid = n.writeAddrValid ∧
      (s.advance i n).writeRespWait = n.writeRespWait ∧
      ((s.advance i n).state.waits = .nothing ∧ (s.advance i n).readValid = n.readValid ∨
        (s.advance i n).state.waits = .ar ∧ (s.advance i n).readValid = true ∧
          ((s.advance i n).fetching = true → (s.advance i n).readAddr =
            (s.advance i n).requestAddr.setWidth g.ADDR_WIDTH)) := by
  unfold advance
  rw [hstate]
  dsimp only
  split_ifs
  · exact ⟨rfl, rfl, .inr ⟨rfl, rfl, fun _ => rfl⟩⟩
  · exact ⟨rfl, rfl, .inr ⟨rfl, rfl, fun _ => rfl⟩⟩
  · exact ⟨rfl, rfl, .inl ⟨by rw [hn]; rfl, rfl⟩⟩

theorem accept_leaves :
    (s.accept i n).writeAddrValid = n.writeAddrValid ∧
      (s.accept i n).writeRespWait = n.writeRespWait ∧
      ((s.accept i n).state = n.state ∧ (s.accept i n).readValid = n.readValid ∧
          (s.accept i n).readAddr = n.readAddr ∧ (s.accept i n).fetching = n.fetching ∧
          (s.accept i n).requestAddr = n.requestAddr ∨
        (s.accept i n).state.waits = .ar ∧ (s.accept i n).readValid = true ∧
          (s.accept i n).fetching = false) := by
  unfold accept
  dsimp only
  by_cases hflush : s.rxFlushes i = true
  · rw [if_pos hflush]
    exact ⟨rfl, rfl, .inr ⟨rfl, rfl, rfl⟩⟩
  · rw [if_neg hflush]
    exact ⟨rfl, rfl, .inl ⟨rfl, rfl, rfl, rfl, rfl⟩⟩

end EthGigDma

/-! ## The system -/

structure DmaSystem (g : DmaGeometry) where
  dma : EthGigDma g
  bus : BusMemory g.ADDR_WIDTH

structure DmaClock (g : DmaGeometry) where
  awvalid : Bool
  awaddr : BitVec g.ADDR_WIDTH
  wvalid : Bool
  wdata : BitVec g.DATA_WIDTH
  bready : Bool
  macTxReady : Bool
  macRxValid : Bool
  macRxData : BitVec 8
  macRxLast : Bool
  timing : BusTiming
  others : BitVec g.ADDR_WIDTH → Option (BitVec 8)

namespace DmaSystem

variable {g : DmaGeometry} (s : DmaSystem g) (c : DmaClock g)

def inputs : DmaInputs g where
  reset := false
  awvalid := c.awvalid
  awaddr := c.awaddr
  wvalid := c.wvalid
  wdata := c.wdata
  bready := c.bready
  dmaArready := s.bus.arready c.timing
  dmaRvalid := s.bus.rvalid c.timing
  dmaRdata := s.bus.rdata g.DATA_BYTES
  dmaAwready := s.bus.awready c.timing
  dmaWready := s.bus.wready c.timing
  dmaBvalid := s.bus.bvalid c.timing
  macTxReady := c.macTxReady
  macRxValid := c.macRxValid
  macRxData := c.macRxData
  macRxLast := c.macRxLast

def next : DmaSystem g where
  dma := s.dma.work (s.inputs c)
  bus := s.bus.next c.timing (s.dma.drives (s.bus.rvalid c.timing)) c.others

structure Starts : Prop where
  dma : ∃ a, s.dma = resetState a
  reading : s.bus.reading = none
  writing : s.bus.writing = .free

abbrev port : EthGigDma g := s.dma.registerPort (s.inputs c)

/-- The transmit descriptor that a clock takes up. -/
def takes : Option (BitVec 32) :=
  if s.dma.state = .idle ∧ s.dma.txFetches = true ∧
      (s.dma.rxAccepts (s.inputs c) && s.dma.rxFlushes (s.inputs c)) = false then
    some s.dma.txCdesc
  else none

structure ReadFree : Prop where
  valid : s.dma.readValid = false
  reading : s.bus.reading = none

structure WriteFree : Prop where
  valid : s.dma.writeAddrValid = false
  wait : s.dma.writeRespWait = false
  writing : s.bus.writing = .free

structure Writes (stage : WriteStage g.ADDR_WIDTH) : Prop where
  valid : s.dma.writeAddrValid = true
  wait : s.dma.writeRespWait = true
  writing : s.bus.writing = stage

structure Channels : Prop where
  stage : match s.dma.state.waits with
    | .nothing => s.ReadFree ∧ s.WriteFree
    | .ar => (s.dma.readValid = true ∧ s.bus.reading = none) ∧ s.WriteFree
    | .request => s.bus.reading = none ∧ s.WriteFree
    | .r => (s.dma.readValid = true ∧
        (s.bus.reading = none ∨ s.bus.reading = some s.dma.readAddr)) ∧ s.WriteFree
    | .aw => s.ReadFree ∧ s.Writes .free
    | .w => s.ReadFree ∧ s.Writes (.addressed s.dma.writeAddr)
    | .b => s.ReadFree ∧ s.Writes .stored
  target : s.dma.fetching = true → s.dma.readValid = true →
    s.dma.readAddr = s.dma.requestAddr.setWidth g.ADDR_WIDTH

inductive Step : EthGigDma g → Prop
  | holds : s.dma.state ≠ .idle → (s.dma.writeRespWait && s.bus.bvalid c.timing) = false →
      Step (s.port c)
  | moves : s.dma.state.waits = .ar ∨ s.dma.state.waits = .aw ∨ s.dma.state.waits = .w →
      Step (goto s.dma.state.after (s.port c))
  | requests (t : EthGigDma.State) : s.dma.state.waits = .request → t = s.dma.state ∨ t = s.dma.state.after →
      Step (goto t (request s.dma.requestAddr (s.port c)))
  | statusAw (t : EthGigDma.State) : s.dma.state = .rxStatusAw → t = .rxStatusAw ∨ t = .rxStatusW →
      Step (goto t (s.dma.holdStatusAw (s.port c)))
  | answered : s.dma.state.waits = .r →
      (s.inputs c).dmaRdata = beatAt g.DATA_BYTES s.bus.mem s.dma.readAddr →
      Step (s.dma.readResponse (s.inputs c) (s.port c))
  | written : s.dma.state.waits = .b → (s.dma.writeRespWait && s.bus.bvalid c.timing) = true →
      Step (s.dma.writeResponse (s.inputs c) (s.port c))
  | sends : s.dma.state = .txSend → c.macTxReady = true → Step (s.dma.send (s.port c))
  | idles : s.dma.state = .idle → s.dma.rxAccepts (s.inputs c) = false →
      Step (s.dma.advance (s.inputs c) (s.port c))
  | accepts : s.dma.rxAccepts (s.inputs c) = true →
      Step (s.dma.accept (s.inputs c) (s.dma.advance (s.inputs c) (s.port c)))

variable {s c}

theorem takes_of_ne (h : s.dma.state ≠ .idle) : s.takes c = none := if_neg fun hboth => h hboth.1

theorem Starts.channels (h : s.Starts) : s.Channels := by
  obtain ⟨⟨a, hdma⟩, hreading, hwriting⟩ := h
  have hread : s.ReadFree := ⟨by rw [hdma]; rfl, hreading⟩
  have hwrite : s.WriteFree := ⟨by rw [hdma]; rfl, by rw [hdma]; rfl, hwriting⟩
  have hstate : s.dma.state = .idle := by rw [hdma]; rfl
  constructor
  · rw [hstate]
    exact ⟨hread, hwrite⟩
  · intro _ hvalid
    exact absurd (hread.valid.symm.trans hvalid) Bool.false_ne_true

/-! ## The channels over a clock -/

theorem ReadFree.next (h : s.ReadFree) (hvalid : (s.next c).dma.readValid = false) :
    (s.next c).ReadFree := by
  refine ⟨hvalid, ?_⟩
  have hoff : (s.dma.drives (s.bus.rvalid c.timing)).arvalid = false := h.valid
  change s.bus.readingNext c.timing _ = none
  rw [BusMemory.readingNext_of_none h.reading, hoff, Bool.false_and, if_neg Bool.false_ne_true]

/-- An address on the bus is taken, or not yet. -/
theorem reading_next (hreading : s.bus.reading = none) :
    (s.next c).bus.reading =
      if s.dma.readValid && c.timing.ar then some s.dma.readAddr else none :=
  BusMemory.readingNext_of_none hreading

theorem ReadFree.of_response {a : BitVec g.ADDR_WIDTH} (hreading : s.bus.reading = some a)
    (hr : (s.bus.rvalid c.timing && s.dma.readValid) = true)
    (hvalid : (s.next c).dma.readValid = false) : (s.next c).ReadFree := by
  refine ⟨hvalid, ?_⟩
  rw [Bool.and_eq_true] at hr
  have hready : (s.dma.drives (s.bus.rvalid c.timing)).rready = true := by
    change (s.dma.readValid && s.bus.rvalid c.timing) = true
    rw [hr.1, hr.2]
    rfl
  have htime : c.timing.r = true := (Bool.and_eq_true _ _ ▸ hr.1).1
  change s.bus.readingNext c.timing _ = none
  rw [BusMemory.readingNext_of_some hreading, hready, htime]
  rfl

theorem WriteFree.next (h : s.WriteFree) (hvalid : (s.next c).dma.writeAddrValid = false)
    (hwait : (s.next c).dma.writeRespWait = false) : (s.next c).WriteFree := by
  refine ⟨hvalid, hwait, ?_⟩
  have hoff : (s.dma.drives (s.bus.rvalid c.timing)).awvalid = false := h.valid
  change s.bus.writingNext c.timing _ = .free
  unfold BusMemory.writingNext
  rw [h.writing]
  dsimp only
  rw [hoff, Bool.false_and, if_neg Bool.false_ne_true]

/-- A write starts when the registers say so. -/
theorem WriteFree.starts (h : s.WriteFree) (hvalid : (s.next c).dma.writeAddrValid = true)
    (hwait : (s.next c).dma.writeRespWait = true) : (s.next c).Writes .free := by
  refine ⟨hvalid, hwait, ?_⟩
  have hoff : (s.dma.drives (s.bus.rvalid c.timing)).awvalid = false := h.valid
  change s.bus.writingNext c.timing _ = .free
  unfold BusMemory.writingNext
  rw [h.writing]
  dsimp only
  rw [hoff, Bool.false_and, if_neg Bool.false_ne_true]

theorem Writes.next_aw (h : s.Writes .free) (hvalid : (s.next c).dma.writeAddrValid = true)
    (hwait : (s.next c).dma.writeRespWait = true) :
    (s.next c).Writes (if c.timing.aw then .addressed s.dma.writeAddr else .free) := by
  refine ⟨hvalid, hwait, ?_⟩
  have hon : (s.dma.drives (s.bus.rvalid c.timing)).awvalid = true := h.valid
  change s.bus.writingNext c.timing _ = _
  unfold BusMemory.writingNext
  rw [h.writing]
  dsimp only
  rw [hon, Bool.true_and]
  rfl

theorem Writes.next_w {a : BitVec g.ADDR_WIDTH} (h : s.Writes (.addressed a))
    (hstate : s.dma.state.waits = .w) (hvalid : (s.next c).dma.writeAddrValid = true)
    (hwait : (s.next c).dma.writeRespWait = true) :
    (s.next c).Writes (if c.timing.w then .stored else .addressed a) := by
  refine ⟨hvalid, hwait, ?_⟩
  have hon : (s.dma.drives (s.bus.rvalid c.timing)).wvalid = true := by
    change (s.dma.writeAddrValid && s.dma.writing) = true
    rw [h.valid, Bool.true_and]
    unfold EthGigDma.writing
    cases hs : s.dma.state <;> rw [hs] at hstate <;> first | rfl | cases hstate
  change s.bus.writingNext c.timing _ = _
  unfold BusMemory.writingNext
  rw [h.writing]
  dsimp only
  rw [hon, Bool.true_and]

theorem Writes.next_b (h : s.Writes .stored) (hb : s.bus.bvalid c.timing = true)
    (hvalid : (s.next c).dma.writeAddrValid = false)
    (hwait : (s.next c).dma.writeRespWait = false) : (s.next c).WriteFree := by
  refine ⟨hvalid, hwait, ?_⟩
  have hon : (s.dma.drives (s.bus.rvalid c.timing)).bready = true := h.wait
  have htime : c.timing.b = true := (Bool.and_eq_true _ _ ▸ hb).1
  change s.bus.writingNext c.timing _ = .free
  unfold BusMemory.writingNext
  rw [h.writing]
  dsimp only
  rw [hon, htime]
  rfl

theorem Writes.next_waits (h : s.Writes .stored) (hb : s.bus.bvalid c.timing = false)
    (hvalid : (s.next c).dma.writeAddrValid = true)
    (hwait : (s.next c).dma.writeRespWait = true) : (s.next c).Writes .stored := by
  refine ⟨hvalid, hwait, ?_⟩
  have htime : c.timing.b = false := by
    unfold BusMemory.bvalid at hb
    rwa [decide_eq_true h.writing, Bool.and_true] at hb
  change s.bus.writingNext c.timing _ = .stored
  unfold BusMemory.writingNext
  rw [h.writing]
  dsimp only
  rw [htime, Bool.false_and, if_neg Bool.false_ne_true]

/-- What follows from the stage of a state without a response. -/
theorem quiet (hreading : s.bus.reading = none) (hstored : s.bus.writing ≠ .stored) :
    Quiet s.dma (s.inputs c) := by
  refine ⟨rfl, ?_, ?_⟩
  · change (s.bus.rvalid c.timing && _) = false
    rw [BusMemory.rvalid_of_none hreading, Bool.false_and]
  · change (_ && s.bus.bvalid c.timing) = false
    rw [BusMemory.bvalid_of_ne hstored, Bool.and_false]

/-- The address of a fetch does not change while its state waits. -/
theorem requestAddr_goto {n : EthGigDma g} (hn : SameMachine s.dma n) {t : EthGigDma.State}
    (ht : t = s.dma.state ∨ t = s.dma.state.after) :
    (goto t n).fetching = s.dma.fetching ∧ (goto t n).requestAddr = s.dma.requestAddr := by
  have hstate' : (goto t n).state = t := rfl
  have hdesc : (goto t n).descAddr = s.dma.descAddr := hn.descAddr
  have hrx : (goto t n).rxDescAddr = s.dma.rxDescAddr := hn.rxDescAddr
  have hbuffer : (goto t n).bufferAddr = s.dma.bufferAddr := hn.bufferAddr
  have hoffset : (goto t n).offset = s.dma.offset := hn.offset
  unfold fetching requestAddr
  rw [hstate', hdesc, hrx, hbuffer, hoffset]
  cases hs : s.dma.state <;> rw [hs] at ht <;> rcases ht with rfl | rfl <;> exact ⟨rfl, rfl⟩

/-- Without a read there is no address to speak of. -/
theorem Channels.of_readFree (hread : s.ReadFree)
    (hstage : match s.dma.state.waits with
      | .nothing => s.WriteFree
      | .aw => s.Writes .free
      | .w => s.Writes (.addressed s.dma.writeAddr)
      | .b => s.Writes .stored
      | .request => s.WriteFree
      | _ => False) : s.Channels := by
  constructor
  · cases hw : s.dma.state.waits <;> rw [hw] at hstage
    · exact ⟨hread, hstage⟩
    · exact hstage.elim
    · exact ⟨hread.reading, hstage⟩
    · exact hstage.elim
    · exact ⟨hread, hstage⟩
    · exact ⟨hread, hstage⟩
    · exact ⟨hread, hstage⟩
  · intro _ hvalid
    exact absurd (hread.valid.symm.trans hvalid) Bool.false_ne_true

namespace Channels

/-- The clock of a state that waits for its data to be taken. -/
theorem dma_next_w (h : s.Channels) (hstate : s.dma.state.waits = .w) :
    (s.next c).dma =
      goto (if c.timing.w then s.dma.state.after else s.dma.state) (s.port c) := by
  have hstage := h.stage
  rw [hstate] at hstage
  obtain ⟨hread, hwrite⟩ := hstage
  have hquiet : Quiet s.dma (s.inputs c) :=
    quiet hread.reading (by rw [hwrite.writing]; simp)
  have hready : (s.inputs c).dmaWready = c.timing.w := by
    change s.bus.wready _ = _
    unfold BusMemory.wready
    rw [hwrite.writing]
  rw [← hready]
  exact work_w hquiet hstate

theorem dma_next_r (h : s.Channels) (hstate : s.dma.state.waits = .r) :
    (s.next c).dma = if s.bus.rvalid c.timing then s.dma.readResponse (s.inputs c) (s.port c)
      else s.port c := by
  have hstage := h.stage
  rw [hstate] at hstage
  obtain ⟨⟨hvalid, -⟩, hwrite⟩ := hstage
  have hb : (s.dma.writeRespWait && (s.inputs c).dmaBvalid) = false := by
    rw [hwrite.wait, Bool.false_and]
  split_ifs with hr
  · refine work_read rfl ?_ hb hstate
    change (s.bus.rvalid c.timing && _) = true
    rw [hr, hvalid]
    rfl
  · refine work_waits ⟨rfl, ?_, hb⟩ (.inl hstate)
    change (s.bus.rvalid c.timing && _) = false
    rw [Bool.not_eq_true] at hr
    rw [hr, Bool.false_and]

theorem rdata_eq (h : s.Channels) (hstate : s.dma.state.waits = .r)
    (hr : s.bus.rvalid c.timing = true) :
    (s.inputs c).dmaRdata = beatAt g.DATA_BYTES s.bus.mem s.dma.readAddr := by
  have hstage := h.stage
  rw [hstate] at hstage
  have hsome : s.bus.reading = some s.dma.readAddr := by
    refine hstage.1.2.resolve_left fun hnone => ?_
    rw [BusMemory.rvalid_of_none hnone] at hr
    cases hr
  change s.bus.rdata _ = _
  unfold BusMemory.rdata
  rw [hsome]

theorem next_ar (h : s.Channels) (hstate : s.dma.state.waits = .ar) :
    s.Step c (s.next c).dma ∧ (s.next c).Channels := by
  have hstage := h.stage
  rw [hstate] at hstage
  obtain ⟨⟨hvalid, hreading⟩, hwrite⟩ := hstage
  have hquiet : Quiet s.dma (s.inputs c) := quiet hreading (by rw [hwrite.writing]; simp)
  have hsame := sameMachine_registerPort (s := s.dma) (i := s.inputs c)
  have hready : (s.inputs c).dmaArready = c.timing.ar := by
    change (_ && s.bus.reading.isNone) = _
    rw [hreading]
    exact Bool.and_true _
  have hdma : (s.next c).dma = goto (if c.timing.ar then s.dma.state.after else s.dma.state)
      (s.port c) := by
    rw [← hready]
    exact work_ar hquiet hstate
  have hfree : (s.next c).WriteFree :=
    hwrite.next (by rw [hdma]; exact hsame.writeAddrValid.trans hwrite.valid)
      (by rw [hdma]; exact hsame.writeRespWait.trans hwrite.wait)
  have hread := reading_next (c := c) hreading
  have hvalid' : (s.next c).dma.readValid = true := by
    rw [hdma]
    exact hsame.readValid.trans hvalid
  have haddr' : (s.next c).dma.readAddr = s.dma.readAddr := by
    rw [hdma]
    exact hsame.readAddr
  have htarget : (s.next c).dma.fetching = true → (s.next c).dma.readValid = true →
      (s.next c).dma.readAddr = (s.next c).dma.requestAddr.setWidth g.ADDR_WIDTH := by
    intro hfetch _
    have hgoto := requestAddr_goto (t := if c.timing.ar then s.dma.state.after else s.dma.state)
      hsame (by cases c.timing.ar <;> simp)
    rw [hdma, hgoto.1] at hfetch
    rw [haddr', hdma, hgoto.2]
    exact h.target hfetch hvalid
  rw [hvalid, Bool.true_and] at hread
  cases htime : c.timing.ar
  · rw [htime, if_neg Bool.false_ne_true] at hread
    rw [htime, if_neg Bool.false_ne_true, goto_self hsame.state] at hdma
    refine ⟨hdma ▸ .holds ?_ hquiet.write, ?_, htarget⟩
    · intro hidle
      rw [hidle] at hstate
      cases hstate
    · have hnext : (s.next c).dma.state.waits = .ar := by rw [hdma, hsame.state, hstate]
      rw [hnext]
      exact ⟨⟨hvalid', hread⟩, hfree⟩
  · rw [htime, if_pos rfl] at hread hdma
    refine ⟨hdma ▸ .moves (.inl hstate), ?_, htarget⟩
    have hnext : (s.next c).dma.state.waits = .r := by
      rw [hdma]
      exact (EthGigDma.State.waits_after _).trans (by rw [hstate])
    rw [hnext]
    exact ⟨⟨hvalid', .inr (by rw [hread, haddr'])⟩, hfree⟩

theorem next_request (h : s.Channels) (hstate : s.dma.state.waits = .request) :
    s.Step c (s.next c).dma ∧ (s.next c).Channels := by
  have hstage := h.stage
  rw [hstate] at hstage
  obtain ⟨hreading, hwrite⟩ := hstage
  have hquiet : Quiet s.dma (s.inputs c) := quiet hreading (by rw [hwrite.writing]; simp)
  have hsame := sameMachine_registerPort (s := s.dma) (i := s.inputs c)
  have hready : (s.inputs c).dmaArready = c.timing.ar := by
    change (_ && s.bus.reading.isNone) = _
    rw [hreading]
    exact Bool.and_true _
  have hdma : (s.next c).dma = goto (if c.timing.ar then s.dma.state.after else s.dma.state)
      (request s.dma.requestAddr (s.port c)) := by
    rw [← hready]
    exact work_request hquiet hstate
  have hfree : (s.next c).WriteFree :=
    hwrite.next (by rw [hdma]; exact hsame.writeAddrValid.trans hwrite.valid)
      (by rw [hdma]; exact hsame.writeRespWait.trans hwrite.wait)
  have hread := reading_next (c := c) hreading
  have hvalid' : (s.next c).dma.readValid = true := by
    rw [hdma]
    rfl
  have haddr' : (s.next c).dma.readAddr = s.dma.requestAddr.setWidth g.ADDR_WIDTH := by
    rw [hdma]
    rfl
  have hfetching : s.dma.fetching = true := by
    unfold fetching
    cases hs : s.dma.state <;> rw [hs] at hstate <;> first | rfl | cases hstate
  have hgoto := requestAddr_goto (t := if c.timing.ar then s.dma.state.after else s.dma.state)
    hsame (by cases c.timing.ar <;> simp)
  have htarget : (s.next c).dma.fetching = true → (s.next c).dma.readValid = true →
      (s.next c).dma.readAddr = (s.next c).dma.requestAddr.setWidth g.ADDR_WIDTH := by
    intro _ _
    have heq : (s.next c).dma.requestAddr = s.dma.requestAddr := by
      rw [hdma]
      exact hgoto.2
    rw [haddr', heq]
  have hstep : s.Step c (s.next c).dma := by
    rw [hdma]
    exact .requests _ hstate (by cases c.timing.ar <;> simp)
  refine ⟨hstep, ?_, htarget⟩
  cases htime : c.timing.ar
  · rw [htime, Bool.and_false, if_neg Bool.false_ne_true] at hread
    have hnext : (s.next c).dma.state.waits = .request := by
      rw [hdma, htime]
      exact hstate
    rw [hnext]
    exact ⟨hread, hfree⟩
  · have hnext : (s.next c).dma.state.waits = .r := by
      rw [hdma, htime]
      exact (EthGigDma.State.waits_after _).trans (by rw [hstate])
    rw [hnext]
    rw [htime, Bool.and_true] at hread
    refine ⟨⟨hvalid', ?_⟩, hfree⟩
    by_cases hon : s.dma.readValid = true
    · rw [if_pos hon, h.target hfetching hon, ← haddr'] at hread
      exact .inr hread
    · rw [if_neg hon] at hread
      exact .inl hread

theorem next_r (h : s.Channels) (hstate : s.dma.state.waits = .r) :
    s.Step c (s.next c).dma ∧ (s.next c).Channels := by
  have hstage := h.stage
  rw [hstate] at hstage
  obtain ⟨⟨hvalid, hreading⟩, hwrite⟩ := hstage
  have hsame := sameMachine_registerPort (s := s.dma) (i := s.inputs c)
  have hb : (s.dma.writeRespWait && (s.inputs c).dmaBvalid) = false := by
    rw [hwrite.wait, Bool.false_and]
  by_cases hr : s.bus.rvalid c.timing = true
  · -- the response is for the address of the state
    have hsome : s.bus.reading = some s.dma.readAddr := by
      refine hreading.resolve_left fun hnone => ?_
      rw [BusMemory.rvalid_of_none hnone] at hr
      cases hr
    have hrv : (s.bus.rvalid c.timing && s.dma.readValid) = true := by rw [hr, hvalid]; rfl
    have hdma := (h.dma_next_r (c := c) hstate).trans (if_pos hr)
    refine ⟨hdma ▸ .answered hstate (h.rdata_eq hstate hr), ?_⟩
    obtain ⟨hoff, hleaves⟩ := readResponse_leaves (i := s.inputs c) (n := s.port c) hstate
    rw [← hdma] at hoff hleaves
    apply Channels.of_readFree (.of_response hsome hrv hoff)
    rcases hleaves with ⟨hto, hv, hw⟩ | ⟨hto, hv, hw⟩
    · have hfree := hwrite.next (hv.trans (hsame.writeAddrValid.trans hwrite.valid))
        (hw.trans (hsame.writeRespWait.trans hwrite.wait))
      rcases hto with hto | hto <;> rw [hto] <;> exact hfree
    · rw [hto]
      exact hwrite.starts hv hw
  · have hdma := (h.dma_next_r (c := c) hstate).trans (if_neg hr)
    rw [Bool.not_eq_true] at hr
    have hne : s.dma.state ≠ .idle := by
      intro hidle
      rw [hidle] at hstate
      cases hstate
    have hfree : (s.next c).WriteFree :=
      hwrite.next (by rw [hdma]; exact hsame.writeAddrValid.trans hwrite.valid)
        (by rw [hdma]; exact hsame.writeRespWait.trans hwrite.wait)
    have hvalid' : (s.next c).dma.readValid = true := by
      rw [hdma]
      exact hsame.readValid.trans hvalid
    have haddr' : (s.next c).dma.readAddr = s.dma.readAddr := by
      rw [hdma]
      exact hsame.readAddr
    have hself : (s.next c).dma = goto s.dma.state (s.port c) := by
      rw [hdma, goto_self hsame.state]
    have hgoto := requestAddr_goto (t := s.dma.state) hsame (.inl rfl)
    refine ⟨hdma ▸ .holds hne hb, ?_, fun hfetch _ => ?_⟩
    · have hnext : (s.next c).dma.state.waits = .r := by rw [hdma, hsame.state, hstate]
      rw [hnext]
      refine ⟨⟨hvalid', ?_⟩, hfree⟩
      rcases hreading with hnone | hsome
      · rw [reading_next hnone, hvalid, Bool.true_and, haddr']
        cases c.timing.ar
        · exact .inl rfl
        · exact .inr rfl
      · have htime : c.timing.r = false := by
          unfold BusMemory.rvalid at hr
          rw [hsome, Option.isSome_some, Bool.and_true] at hr
          exact hr
        refine .inr ?_
        change s.bus.readingNext c.timing _ = _
        rw [BusMemory.readingNext_of_some hsome, htime, haddr']
        rfl
    · rw [hself, hgoto.1] at hfetch
      rw [haddr', hself, hgoto.2]
      exact h.target hfetch hvalid

theorem next_aw (h : s.Channels) (hstate : s.dma.state.waits = .aw) :
    s.Step c (s.next c).dma ∧ (s.next c).Channels := by
  have hstage := h.stage
  rw [hstate] at hstage
  obtain ⟨hread, hwrite⟩ := hstage
  have hquiet : Quiet s.dma (s.inputs c) :=
    quiet hread.reading (by rw [hwrite.writing]; simp)
  have hsame := sameMachine_registerPort (s := s.dma) (i := s.inputs c)
  have hready : (s.inputs c).dmaAwready = c.timing.aw := by
    change (_ && decide (s.bus.writing = .free)) = _
    rw [decide_eq_true hwrite.writing, Bool.and_true]
  -- both kinds of state that wait for the address keep the channels
  obtain ⟨n, hn, hdma, hstep⟩ : ∃ n : EthGigDma g,
      (n.readValid = s.dma.readValid ∧ n.writeAddrValid = true ∧ n.writeRespWait = true ∧
        n.writeAddr = s.dma.writeAddr) ∧
      (s.next c).dma = goto (if c.timing.aw then s.dma.state.after else s.dma.state) n ∧
      s.Step c (s.next c).dma := by
    by_cases hlast : s.dma.state = .rxStatusAw
    · have hdma : (s.next c).dma = goto (if c.timing.aw then .rxStatusW else .rxStatusAw)
          (s.dma.holdStatusAw (s.port c)) := by
        rw [← hready]
        exact work_rxStatusAw hquiet hlast
      refine ⟨s.dma.holdStatusAw (s.port c),
        ⟨hsame.readValid, rfl, rfl, hsame.writeAddr⟩, ?_, ?_⟩
      · rw [hdma, hlast]
        rfl
      · rw [hdma]
        exact .statusAw _ hlast (by cases c.timing.aw <;> simp)
    · have hdma : (s.next c).dma = goto (if c.timing.aw then s.dma.state.after else s.dma.state)
          (s.port c) := by
        rw [← hready]
        exact work_aw hquiet hstate hlast
      refine ⟨s.port c, ⟨hsame.readValid, hsame.writeAddrValid.trans hwrite.valid,
        hsame.writeRespWait.trans hwrite.wait, hsame.writeAddr⟩, hdma, ?_⟩
      rw [hdma]
      cases c.timing.aw
      · rw [if_neg Bool.false_ne_true, goto_self hsame.state]
        refine .holds (fun hidle => ?_) hquiet.write
        rw [hidle] at hstate
        cases hstate
      · exact .moves (.inr (.inl hstate))
  refine ⟨hstep, ?_⟩
  have hfree : (s.next c).ReadFree :=
    hread.next (by rw [hdma]; exact hn.1.trans hread.valid)
  have hw := hwrite.next_aw (c := c) (by rw [hdma]; exact hn.2.1) (by rw [hdma]; exact hn.2.2.1)
  have haddr : (s.next c).dma.writeAddr = s.dma.writeAddr := by
    rw [hdma]
    exact hn.2.2.2
  apply Channels.of_readFree hfree
  cases htime : c.timing.aw
  · have hnext : (s.next c).dma.state.waits = .aw := by rw [hdma, htime]; exact hstate
    rw [htime, if_neg Bool.false_ne_true] at hw
    rw [hnext]
    exact hw
  · have hnext : (s.next c).dma.state.waits = .w := by
      rw [hdma, htime]
      exact (EthGigDma.State.waits_after _).trans (by rw [hstate])
    rw [htime, if_pos rfl] at hw
    rw [hnext, haddr]
    exact hw

theorem next_w (h : s.Channels) (hstate : s.dma.state.waits = .w) :
    s.Step c (s.next c).dma ∧ (s.next c).Channels := by
  have hstage := h.stage
  rw [hstate] at hstage
  obtain ⟨hread, hwrite⟩ := hstage
  have hquiet : Quiet s.dma (s.inputs c) :=
    quiet hread.reading (by rw [hwrite.writing]; simp)
  have hsame := sameMachine_registerPort (s := s.dma) (i := s.inputs c)
  have hdma := h.dma_next_w (c := c) hstate
  have hfree : (s.next c).ReadFree :=
    hread.next (by rw [hdma]; exact hsame.readValid.trans hread.valid)
  have hw := hwrite.next_w (c := c) hstate
    (by rw [hdma]; exact hsame.writeAddrValid.trans hwrite.valid)
    (by rw [hdma]; exact hsame.writeRespWait.trans hwrite.wait)
  have haddr : (s.next c).dma.writeAddr = s.dma.writeAddr := by
    rw [hdma]
    exact hsame.writeAddr
  constructor
  · rw [hdma]
    cases c.timing.w
    · rw [if_neg Bool.false_ne_true, goto_self hsame.state]
      refine .holds (fun hidle => ?_) hquiet.write
      rw [hidle] at hstate
      cases hstate
    · exact .moves (.inr (.inr hstate))
  · apply Channels.of_readFree hfree
    cases htime : c.timing.w
    · have hnext : (s.next c).dma.state.waits = .w := by rw [hdma, htime]; exact hstate
      rw [htime, if_neg Bool.false_ne_true] at hw
      rw [hnext, haddr]
      exact hw
    · have hnext : (s.next c).dma.state.waits = .b := by
        rw [hdma, htime]
        exact (EthGigDma.State.waits_after _).trans (by rw [hstate])
      rw [htime, if_pos rfl] at hw
      rw [hnext]
      exact hw

theorem next_b (h : s.Channels) (hstate : s.dma.state.waits = .b) :
    s.Step c (s.next c).dma ∧ (s.next c).Channels := by
  have hstage := h.stage
  rw [hstate] at hstage
  obtain ⟨hread, hwrite⟩ := hstage
  have hsame := sameMachine_registerPort (s := s.dma) (i := s.inputs c)
  have hr : ((s.inputs c).dmaRvalid && s.dma.readValid) = false := by
    rw [hread.valid, Bool.and_false]
  by_cases hb : s.bus.bvalid c.timing = true
  · have hwb : (s.dma.writeRespWait && (s.inputs c).dmaBvalid) = true := by
      rw [hwrite.wait, Bool.true_and]
      exact hb
    have hdma : (s.next c).dma = s.dma.writeResponse (s.inputs c) (s.port c) :=
      work_write rfl hr hwb hstate
    obtain ⟨hv, hw, hfetching, hleaves⟩ :=
      writeResponse_leaves (i := s.inputs c) (n := s.port c) hstate
    rw [← hdma] at hv hw hfetching hleaves
    have hfree : (s.next c).WriteFree := hwrite.next_b hb hv hw
    refine ⟨hdma ▸ .written hstate hwb, ?_⟩
    rcases hleaves with ⟨hto, hvalid⟩ | ⟨hto, hvalid⟩
    · apply Channels.of_readFree (hread.next (hvalid.trans (hsame.readValid.trans hread.valid)))
      rw [hto]
      exact hfree
    · refine ⟨?_, fun hon => absurd (hfetching.symm.trans hon) Bool.false_ne_true⟩
      rw [hto]
      refine ⟨⟨hvalid, ?_⟩, hfree⟩
      rw [reading_next hread.reading, hread.valid, Bool.false_and, if_neg Bool.false_ne_true]
  · rw [Bool.not_eq_true] at hb
    have hquiet : Quiet s.dma (s.inputs c) := by
      refine ⟨rfl, hr, ?_⟩
      change (_ && s.bus.bvalid c.timing) = false
      rw [hb, Bool.and_false]
    have hdma : (s.next c).dma = s.port c := work_waits hquiet (.inr hstate)
    have hnext : (s.next c).dma.state.waits = .b := by rw [hdma, hsame.state, hstate]
    constructor
    · rw [hdma]
      refine .holds (fun hidle => ?_) hquiet.write
      rw [hidle] at hstate
      cases hstate
    · apply Channels.of_readFree
        (hread.next (by rw [hdma]; exact hsame.readValid.trans hread.valid))
      rw [hnext]
      exact hwrite.next_waits hb (by rw [hdma]; exact hsame.writeAddrValid.trans hwrite.valid)
        (by rw [hdma]; exact hsame.writeRespWait.trans hwrite.wait)

/-- A state without a transaction leaves both channels free, or starts a read. -/
theorem of_plain (hread : s.ReadFree) (hwrite : s.WriteFree)
    (hv : (s.next c).dma.writeAddrValid = false) (hw : (s.next c).dma.writeRespWait = false)
    (hleaves : ((s.next c).dma.state.waits = .nothing ∨ (s.next c).dma.state.waits = .request) ∧
        (s.next c).dma.readValid = false ∨
      (s.next c).dma.state.waits = .ar ∧ (s.next c).dma.readValid = true ∧
        ((s.next c).dma.fetching = true →
          (s.next c).dma.readAddr = (s.next c).dma.requestAddr.setWidth g.ADDR_WIDTH)) :
    (s.next c).Channels := by
  have hfree : (s.next c).WriteFree := hwrite.next hv hw
  rcases hleaves with ⟨hto, hvalid⟩ | ⟨hto, hvalid, htarget⟩
  · apply Channels.of_readFree (hread.next hvalid)
    rcases hto with hto | hto <;> rw [hto] <;> exact hfree
  · refine ⟨?_, fun hon _ => htarget hon⟩
    rw [hto]
    refine ⟨⟨hvalid, ?_⟩, hfree⟩
    rw [reading_next hread.reading, hread.valid, Bool.false_and, if_neg Bool.false_ne_true]

theorem next_txSend (h : s.Channels) (hstate : s.dma.state = .txSend) :
    s.Step c (s.next c).dma ∧ (s.next c).Channels := by
  have hstage := h.stage
  rw [hstate] at hstage
  obtain ⟨hread, hwrite⟩ := hstage
  have hquiet : Quiet s.dma (s.inputs c) :=
    quiet hread.reading (by rw [hwrite.writing]; simp)
  have hsame := sameMachine_registerPort (s := s.dma) (i := s.inputs c)
  have hdma : (s.next c).dma = if c.macTxReady then s.dma.send (s.port c) else s.port c :=
    work_txSend hquiet hstate
  cases hready : c.macTxReady
  · rw [hready, if_neg Bool.false_ne_true] at hdma
    refine ⟨hdma ▸ .holds (by rw [hstate]; simp) hquiet.write, of_plain hread hwrite ?_ ?_ (.inl ⟨.inl ?_, ?_⟩)⟩
    · rw [hdma]
      exact hsame.writeAddrValid.trans hwrite.valid
    · rw [hdma]
      exact hsame.writeRespWait.trans hwrite.wait
    · rw [hdma, hsame.state, hstate]
      rfl
    · rw [hdma]
      exact hsame.readValid.trans hread.valid
  · rw [hready, if_pos rfl] at hdma
    obtain ⟨hv, hw, hleaves⟩ := send_leaves (s := s.dma) (hsame.state.trans hstate)
    rw [← hdma] at hv hw hleaves
    refine ⟨hdma ▸ .sends hstate hready, of_plain hread hwrite
      (hv.trans (hsame.writeAddrValid.trans hwrite.valid))
      (hw.trans (hsame.writeRespWait.trans hwrite.wait)) ?_⟩
    rcases hleaves with ⟨hto, hvalid⟩ | ⟨hto, hfetching, hvalid⟩
    · exact .inl ⟨hto, hvalid.trans (hsame.readValid.trans hread.valid)⟩
    · exact .inr ⟨hto, hvalid, fun hon => absurd (hfetching.symm.trans hon) Bool.false_ne_true⟩

theorem next_idle (h : s.Channels) (hstate : s.dma.state = .idle) :
    s.Step c (s.next c).dma ∧ (s.next c).Channels := by
  have hstage := h.stage
  rw [hstate] at hstage
  obtain ⟨hread, hwrite⟩ := hstage
  have hquiet : Quiet s.dma (s.inputs c) :=
    quiet hread.reading (by rw [hwrite.writing]; simp)
  have hsame := sameMachine_registerPort (s := s.dma) (i := s.inputs c)
  obtain ⟨hv, hw, hleaves⟩ := advance_leaves (s := s.dma) (i := s.inputs c) hstate
    (hsame.state.trans hstate)
  have hv := hv.trans (hsame.writeAddrValid.trans hwrite.valid)
  have hw := hw.trans (hsame.writeRespWait.trans hwrite.wait)
  have hdma := work_idle hquiet hstate
  cases haccepts : s.dma.rxAccepts (s.inputs c)
  · rw [haccepts, if_neg Bool.false_ne_true] at hdma
    have hdma : (s.next c).dma = s.dma.advance (s.inputs c) (s.port c) := hdma
    rw [← hdma] at hv hw hleaves
    refine ⟨hdma ▸ .idles hstate haccepts, of_plain hread hwrite hv hw ?_⟩
    rcases hleaves with ⟨hto, hvalid⟩ | hstarts
    · exact .inl ⟨.inl hto, hvalid.trans (hsame.readValid.trans hread.valid)⟩
    · exact .inr hstarts
  · rw [haccepts, if_pos rfl] at hdma
    have hdma : (s.next c).dma =
        s.dma.accept (s.inputs c) (s.dma.advance (s.inputs c) (s.port c)) := hdma
    refine ⟨hdma ▸ .accepts haccepts, ?_⟩
    obtain ⟨hv', hw', hleaves'⟩ := accept_leaves (s := s.dma) (i := s.inputs c)
      (n := s.dma.advance (s.inputs c) (s.port c))
    rw [← hdma] at hv' hw' hleaves'
    refine of_plain hread hwrite (hv'.trans hv) (hw'.trans hw) ?_
    rcases hleaves' with ⟨hstate', hvalid', haddr', hfetch', hrequest'⟩ | ⟨hto, hvalid', hfetch'⟩
    · rw [hstate', hvalid', haddr', hfetch', hrequest']
      rcases hleaves with ⟨hto, hvalid⟩ | hstarts
      · exact .inl ⟨.inl hto, hvalid.trans (hsame.readValid.trans hread.valid)⟩
      · exact .inr hstarts
    · exact .inr ⟨hto, hvalid', fun hon => absurd (hfetch'.symm.trans hon) Bool.false_ne_true⟩

/-- A clock is one of the steps, and keeps the channels. -/
theorem next (h : s.Channels) : s.Step c (s.next c).dma ∧ (s.next c).Channels := by
  cases hstate : s.dma.state.waits with
  | nothing =>
      have hplain : s.dma.state = .idle ∨ s.dma.state = .txSend := by
        cases hs : s.dma.state <;> rw [hs] at hstate <;>
          first | exact .inl rfl | exact .inr rfl | cases hstate
      rcases hplain with hidle | hsend
      · exact h.next_idle hidle
      · exact h.next_txSend hsend
  | ar => exact h.next_ar hstate
  | request => exact h.next_request hstate
  | r => exact h.next_r hstate
  | aw => exact h.next_aw hstate
  | w => exact h.next_w hstate
  | b => exact h.next_b hstate

theorem mem_next_w (h : s.Channels) (hstate : s.dma.state.waits = .w) (hw : c.timing.w = true) :
    (s.next c).bus.mem = storeBeat (overlay s.bus.mem c.others) s.dma.writeAddr s.dma.writeData
      s.dma.writeStrb := by
  have hstage := h.stage
  rw [hstate] at hstage
  have hon : (s.dma.drives (s.bus.rvalid c.timing)).wvalid = true := by
    change (s.dma.writeAddrValid && s.dma.writing) = true
    rw [hstage.2.valid, Bool.true_and]
    unfold EthGigDma.writing
    cases hs : s.dma.state <;> rw [hs] at hstate <;> first | rfl | cases hstate
  change s.bus.memNext c.timing _ c.others = _
  unfold BusMemory.memNext
  rw [hstage.2.writing]
  dsimp only
  rw [hon, hw]
  rfl

/-- No other clock of the engine changes a byte. -/
theorem mem_next_of_ne (h : s.Channels) (hstate : s.dma.state.waits ≠ .w ∨ c.timing.w = false) :
    (s.next c).bus.mem = overlay s.bus.mem c.others := by
  change s.bus.memNext c.timing _ c.others = _
  unfold BusMemory.memNext
  rcases hstate with hstate | hw
  · have hstage := h.stage
    cases hs : s.dma.state.waits <;> rw [hs] at hstage hstate <;>
      first
      | exact absurd rfl hstate
      | rw [hstage.2.writing]
  · split
    · rw [hw, Bool.and_false, if_neg Bool.false_ne_true]
    · rfl

end Channels

theorem dmaReadWord_eq (hc : s.Channels) (hwaits : s.dma.state.waits = .r)
    (hfetching : s.dma.fetching = true)
    (hdata : (s.inputs c).dmaRdata = beatAt g.DATA_BYTES s.bus.mem s.dma.readAddr) :
    s.dma.dmaReadWord (s.inputs c) =
      laneAt g.DATA_BYTES s.bus.mem (s.dma.requestAddr.setWidth g.ADDR_WIDTH) := by
  have hstage := hc.stage
  rw [hwaits] at hstage
  unfold dmaReadWord
  rw [hdata, hc.target hfetching hstage.1.1]
  rfl

end DmaSystem

end CppHdl.Devices
