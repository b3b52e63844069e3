import CppHdl.Lib.BusMemory
import CppHdl.Lib.Queue

/-!
# The receiver of the UART

`NS16550A` keeps the bytes it received in a holding register and, behind it, in a ring of
fifteen. A read of the receive buffer register takes the oldest byte, and takes a byte that
comes in at the same clock when there is no older one. A write of the FIFO control register
discards what is held.
-/

namespace CppHdl.Devices

/-- The parameters; the bus carries whole bytes. -/
structure UartGeometry where
  ADDR_WIDTH : Nat
  ID_WIDTH : Nat
  DATA_WIDTH : Nat
  bytes : 0 < DATA_WIDTH ∧ DATA_WIDTH % 8 = 0

/-- The registers, in the order of their addresses. -/
inductive UartRegister
  | rbrThrDll
  | ierDlm
  | iirFcr
  | lcr
  | mcr
  | lsr
  | msr
  | scr
  deriving DecidableEq

namespace UartGeometry

variable (g : UartGeometry)

/-- The register of an address: its low three bits. -/
def register {w : Nat} (addr : BitVec w) : UartRegister :=
  match (addr.setWidth 32).toNat % 8 with
  | 0 => .rbrThrDll
  | 1 => .ierDlm
  | 2 => .iirFcr
  | 3 => .lcr
  | 4 => .mcr
  | 5 => .lsr
  | 6 => .msr
  | _ => .scr

/-- The byte lane of an address on the bus. -/
def lane {w : Nat} (addr : BitVec w) : Nat := (addr.setWidth 32).toNat % (g.DATA_WIDTH / 8)

theorem lane_fits {w : Nat} (addr : BitVec w) : g.lane addr * 8 + 8 ≤ g.DATA_WIDTH := by
  obtain ⟨hpos, hbytes⟩ := g.bytes
  have hlt := Nat.mod_lt (addr.setWidth 32).toNat (by omega : 0 < g.DATA_WIDTH / 8)
  unfold lane
  omega

end UartGeometry

open UartGeometry

/-- The receive registers: the holding register and the ring behind it. -/
structure UartRx where
  rxValid : Bool
  rxData : BitVec 8
  rxFifo : Nat → BitVec 8
  rxFifoHead : Nat
  rxFifoTail : Nat
  rxFifoCount : Nat

namespace UartRx

variable (r : UartRx)

/-- An accepted byte goes to the holding register, or behind the others. -/
def receive (byte : BitVec 8) : UartRx :=
  if !r.rxValid then { r with rxData := byte, rxValid := true }
  else if r.rxFifoCount < 15 then
    { r with
      rxFifo := Function.update r.rxFifo r.rxFifoTail byte
      rxFifoTail := (r.rxFifoTail + 1) % 15
      rxFifoCount := r.rxFifoCount + 1 }
  else r

/-- A read of the receive buffer in the registers `n` that a received byte leaves. -/
def consume (incoming : Bool) (byte : BitVec 8) (n : UartRx) : UartRx :=
  if r.rxValid then
    if r.rxFifoCount ≠ 0 then
      { n with
        rxData := r.rxFifo r.rxFifoHead
        rxValid := true
        rxFifoHead := (r.rxFifoHead + 1) % 15
        rxFifoCount := r.rxFifoCount - 1 + incoming.toNat }
    else if incoming then
      { n with rxData := byte, rxValid := true, rxFifoTail := r.rxFifoTail, rxFifoCount := 0 }
    else { n with rxValid := false }
  else { n with rxValid := false }

/-- What the receive reset of the FIFO control register clears. -/
def discard : UartRx :=
  { r with rxValid := false, rxFifoHead := 0, rxFifoTail := 0, rxFifoCount := 0 }

def cleared : UartRx where
  rxValid := false
  rxData := 0
  rxFifo := fun _ => 0
  rxFifoHead := 0
  rxFifoTail := 0
  rxFifoCount := 0

/-- A clock: a byte may be accepted, and the oldest one may be read. -/
def next (incoming reads : Bool) (byte : BitVec 8) : UartRx :=
  let n := if incoming then r.receive byte else r
  if reads then r.consume incoming byte n else n

/-- The bytes that are held, oldest first. -/
def held : List (BitVec 8) :=
  (if r.rxValid then [r.rxData] else []) ++ ring 15 r.rxFifo r.rxFifoHead r.rxFifoCount

end UartRx

structure Ns16550a (g : UartGeometry) where
  readAddr : BitVec g.ADDR_WIDTH
  readId : BitVec g.ID_WIDTH
  readValid : Bool
  readData : BitVec g.DATA_WIDTH
  writeAddr : BitVec g.ADDR_WIDTH
  writeId : BitVec g.ID_WIDTH
  writeAddrValid : Bool
  writeRespValid : Bool
  ier : BitVec 8
  lcr : BitVec 8
  mcr : BitVec 8
  fcr : BitVec 8
  scr : BitVec 8
  dll : BitVec 8
  dlm : BitVec 8
  uartValid : Bool
  uartData : BitVec 8
  rx : UartRx
  rbrDuplicateValid : Bool

structure UartInputs (g : UartGeometry) where
  reset : Bool
  uartRxValid : Bool
  uartRxData : BitVec 8
  awvalid : Bool
  awaddr : BitVec g.ADDR_WIDTH
  awid : BitVec g.ID_WIDTH
  wvalid : Bool
  wdata : BitVec g.DATA_WIDTH
  bready : Bool
  arvalid : Bool
  araddr : BitVec g.ADDR_WIDTH
  arid : BitVec g.ID_WIDTH
  rready : Bool

namespace Ns16550a

variable {g : UartGeometry} (s : Ns16550a g) (i : UartInputs g)

def uartRxReady : Bool := s.rx.rxFifoCount < 15

def dlab : Bool := s.lcr &&& 0x80#8 ≠ 0

def irq : Bool := (s.mcr &&& 0x08#8 ≠ 0) && (s.rx.rxValid && (s.ier &&& 0x01#8 ≠ 0))

def awready : Bool := !s.writeAddrValid && !s.writeRespValid

def wready : Bool := s.writeAddrValid && !s.writeRespValid

def arready : Bool := !s.readValid

def rxIncoming : Bool := i.uartRxValid && s.uartRxReady

def rxAvailable : Bool := s.rx.rxValid || s.rxIncoming i

def rxFront : BitVec 8 := if s.rx.rxValid then s.rx.rxData else i.uartRxData

def readByte (addr : UartRegister) : BitVec 8 :=
  match addr with
  | .rbrThrDll =>
      if s.dlab then s.dll
      else if s.rbrDuplicateValid && !s.rxAvailable i then 0
      else if s.rxAvailable i then s.rxFront i else 0
  | .ierDlm => if s.dlab then s.dlm else s.ier
  | .iirFcr => if s.rxAvailable i && (s.ier &&& 0x01#8 ≠ 0) then 0xc4 else 0xc1
  | .lcr => s.lcr
  | .mcr => s.mcr
  | .lsr => 0x60 ||| if s.rxAvailable i then 0x01 else 0x00
  | .msr => 0
  | .scr => s.scr

/-- The read takes the oldest byte. -/
def rbrConsumes : Bool :=
  decide (register i.araddr = .rbrThrDll) && !s.dlab && s.rxAvailable i

/-- The read channel takes an address. -/
def read (n : Ns16550a g) : Ns16550a g :=
  let n :=
    { n with
      readData := withBits 0 (g.lane i.araddr * 8) (s.readByte i (register i.araddr))
      readAddr := i.araddr
      readId := i.arid
      readValid := true }
  if s.rbrConsumes i then
    { n with rx := s.rx.consume (s.rxIncoming i) i.uartRxData n.rx, rbrDuplicateValid := true }
  else n

def writeData : BitVec 8 := i.wdata.extractLsb' (g.lane s.writeAddr * 8) 8

/-- The write channel takes its byte. -/
def write (n : Ns16550a g) : Ns16550a g :=
  let data := s.writeData i
  let n := { n with writeAddrValid := false, writeRespValid := true }
  match register s.writeAddr with
  | .rbrThrDll =>
      if s.dlab then { n with dll := data } else { n with uartData := data, uartValid := true }
  | .ierDlm => if s.dlab then { n with dlm := data } else { n with ier := data }
  | .lcr => { n with lcr := data }
  | .mcr => { n with mcr := data }
  | .iirFcr =>
      let n := { n with fcr := data }
      if data &&& 0x02#8 ≠ 0 then { n with rx := n.rx.discard, rbrDuplicateValid := false } else n
  | .scr => { n with scr := data }
  | .lsr | .msr => n

def cleared : Ns16550a g where
  readAddr := 0
  readId := 0
  readValid := false
  readData := 0
  writeAddr := 0
  writeId := 0
  writeAddrValid := false
  writeRespValid := false
  ier := 0
  lcr := 0
  mcr := 0
  fcr := 0
  scr := 0
  dll := 0
  dlm := 0
  uartValid := false
  uartData := 0
  rx := .cleared
  rbrDuplicateValid := false

/-- `_work` and the strobe after it. The later assignment of a register stays. -/
def work : Ns16550a g :=
  let n := { s with uartValid := false }
  let n :=
    if s.rxIncoming i then { n with rx := s.rx.receive i.uartRxData, rbrDuplicateValid := false }
    else n
  let n := if i.arvalid && s.arready then s.read i n else n
  let n := if s.readValid && i.rready then { n with readValid := false } else n
  let n :=
    if i.awvalid && s.awready then
      { n with writeAddr := i.awaddr, writeId := i.awid, writeAddrValid := true }
    else n
  let n := if i.wvalid && s.wready then s.write i n else n
  let n := if s.writeRespValid && i.bready then { n with writeRespValid := false } else n
  if i.reset then cleared else n

/-! ## What a clock moves -/

/-- A read takes the oldest byte in this clock. -/
def reads : Bool := i.arvalid && s.arready && s.rbrConsumes i

/-- A write discards what is held. -/
def discards : Bool :=
  i.wvalid && s.wready && decide (register s.writeAddr = .iirFcr) &&
    (s.writeData i &&& 0x02#8 ≠ 0)

/-- The byte at the lane of the last address. -/
def answer (n : Ns16550a g) : BitVec 8 := n.readData.extractLsb' (g.lane n.readAddr * 8) 8

/-- What passes the receiver: the byte it accepts, and the byte that a read of the receive
buffer answers. -/
def transfer : Transfer (BitVec 8) where
  flush := s.discards i
  pushed := if s.rxIncoming i then some i.uartRxData else none
  popped := if s.reads i then some (s.work i).answer else none

end Ns16550a

/-! ## The receive registers -/

namespace UartRx

variable {r : UartRx}

/-- The ring is in place, and behind the holding register. -/
structure InPlace (r : UartRx) : Prop where
  head : r.rxFifoHead < 15
  count : r.rxFifoCount ≤ 15
  tail : r.rxFifoTail = (r.rxFifoHead + r.rxFifoCount) % 15
  holding : r.rxValid = false → r.rxFifoCount = 0

theorem inPlace_cleared : InPlace cleared := ⟨by decide, by decide, rfl, fun _ => rfl⟩

theorem InPlace.discard (r : UartRx) : InPlace r.discard :=
  ⟨(by decide : 0 < 15), (by decide : 0 ≤ 15), rfl, fun _ => rfl⟩

theorem held_of_invalid (h : r.InPlace) (hvalid : r.rxValid = false) : r.held = [] := by
  unfold held
  rw [hvalid, h.holding hvalid]
  rfl

theorem held_of_valid (hvalid : r.rxValid = true) :
    r.held = r.rxData :: ring 15 r.rxFifo r.rxFifoHead r.rxFifoCount := by
  unfold held
  rw [hvalid]
  rfl

theorem next_of_invalid (h : r.InPlace) (hvalid : r.rxValid = false) (byte : BitVec 8)
    {incoming reads : Bool} (hreads : reads = true → incoming = true) :
    (r.next incoming reads byte).InPlace ∧
      (if incoming then [byte] else []) =
        (if reads then [byte] else []) ++ (r.next incoming reads byte).held := by
  have hcount := h.holding hvalid
  cases incoming with
  | false =>
      obtain rfl : reads = false := by simpa using hreads
      exact ⟨h, (held_of_invalid h hvalid).symm⟩
  | true =>
      have hreceive : r.receive byte = { r with rxData := byte, rxValid := true } := by
        unfold receive
        rw [hvalid]
        rfl
      cases reads with
      | false =>
          change (r.receive byte).InPlace ∧ [byte] = [] ++ (r.receive byte).held
          rw [hreceive]
          refine ⟨⟨h.head, h.count, h.tail, fun h => absurd h.symm Bool.false_ne_true⟩, ?_⟩
          rw [held_of_valid rfl]
          change _ = byte :: ring 15 r.rxFifo r.rxFifoHead r.rxFifoCount
          rw [hcount]
          rfl
      | true =>
          have hconsume : r.next true true byte = { r with rxData := byte, rxValid := false } := by
            change r.consume true byte (r.receive byte) = _
            unfold consume
            rw [hreceive, hvalid]
            rfl
          have hplace : (r.next true true byte).InPlace := by
            rw [hconsume]
            exact ⟨h.head, h.count, h.tail, fun _ => hcount⟩
          refine ⟨hplace, ?_⟩
          rw [held_of_invalid hplace (by rw [hconsume])]
          rfl

/-- The holding register has the oldest byte. -/
theorem next_of_valid (h : r.InPlace) (hvalid : r.rxValid = true) (byte : BitVec 8)
    {incoming reads : Bool} (hincoming : incoming = true → r.rxFifoCount < 15) :
    (r.next incoming reads byte).InPlace ∧
      r.held ++ (if incoming then [byte] else []) =
        (if reads then [r.rxData] else []) ++ (r.next incoming reads byte).held := by
  have hreceived : (if incoming then r.receive byte else r) =
      { r with
        rxFifo := if incoming then Function.update r.rxFifo r.rxFifoTail byte else r.rxFifo
        rxFifoTail := if incoming then (r.rxFifoTail + 1) % 15 else r.rxFifoTail
        rxFifoCount := r.rxFifoCount + incoming.toNat } := by
    cases incoming with
    | false => rfl
    | true =>
        change r.receive byte = _
        unfold receive
        rw [hvalid, Bool.not_true, if_neg Bool.false_ne_true, if_pos (hincoming rfl)]
        rfl
  have hbyte : (if incoming then [byte] else []) = (if incoming then some byte else none).toList := by
    cases incoming <;> rfl
  have htail : ∀ pop : Bool, (pop = true → 0 < r.rxFifoCount) →
      (if incoming then (r.rxFifoTail + 1) % 15 else r.rxFifoTail) =
        ((if pop then (r.rxFifoHead + 1) % 15 else r.rxFifoHead) +
          (r.rxFifoCount - pop.toNat + incoming.toNat)) % 15 := by
    intro pop hpop
    rw [h.tail]
    exact ring_tail hpop
  have hring : ∀ pop : Bool, (pop = true → 0 < r.rxFifoCount) →
      ring 15 r.rxFifo r.rxFifoHead r.rxFifoCount ++ (if incoming then [byte] else []) =
        (if pop then [r.rxFifo r.rxFifoHead] else []) ++
          ring 15 (if incoming then Function.update r.rxFifo r.rxFifoTail byte else r.rxFifo)
            (if pop then (r.rxFifoHead + 1) % 15 else r.rxFifoHead)
            (r.rxFifoCount - pop.toNat + incoming.toNat) := by
    intro pop hpop
    have hstep := @ring_step _ 15 r.rxFifo r.rxFifoHead _ pop incoming hpop
      (fun hpush => by have := hincoming hpush; omega) byte
    rw [Nat.mod_eq_of_lt h.head, ← h.tail] at hstep
    rw [hbyte, hstep]
    cases pop <;> rfl
  have hcount : r.rxFifoCount + incoming.toNat ≤ 15 := by
    cases incoming with
    | false => exact h.count
    | true => exact hincoming rfl
  unfold next
  rw [hreceived]
  dsimp only
  cases reads with
  | false =>
      refine ⟨⟨h.head, hcount, htail false (fun h => absurd h Bool.false_ne_true),
        fun hnot => absurd (hvalid.symm.trans hnot) (by decide)⟩, ?_⟩
      rw [held_of_valid hvalid, List.cons_append, hring false (fun h => absurd h Bool.false_ne_true)]
      simp only [Bool.false_eq_true, if_false, List.nil_append]
      unfold held
      dsimp only
      rw [hvalid]
      rfl
  | true =>
      unfold consume
      rw [if_pos rfl, if_pos hvalid, held_of_valid hvalid]
      by_cases hzero : r.rxFifoCount = 0
      · have hempty : ring 15 r.rxFifo r.rxFifoHead r.rxFifoCount = [] := by rw [hzero]; rfl
        rw [if_neg (not_not.mpr hzero), hempty]
        cases incoming with
        | false =>
            refine ⟨⟨h.head, h.count, h.tail, fun _ => hzero⟩, ?_⟩
            exact (congrArg (r.rxData :: ·) hempty).symm
        | true =>
            have hsame : r.rxFifoTail = (r.rxFifoHead + 0) % 15 := hzero ▸ h.tail
            exact ⟨⟨h.head, Nat.zero_le _, hsame, fun hnot => absurd hnot (by simp)⟩, rfl⟩
      · rw [if_pos hzero]
        have hpos : true = true → 0 < r.rxFifoCount := fun _ => Nat.pos_of_ne_zero hzero
        refine ⟨⟨Nat.mod_lt _ (by decide), ?_, htail true hpos, fun hnot => absurd hnot (by simp)⟩, ?_⟩
        · change r.rxFifoCount - 1 + incoming.toNat ≤ 15
          omega
        · rw [List.cons_append, hring true hpos]
          rfl

end UartRx

namespace Ns16550a

variable {g : UartGeometry} {s : Ns16550a g} {i : UartInputs g}

theorem read_rx (n : Ns16550a g) :
    (s.read i n).rx =
      if s.rbrConsumes i then s.rx.consume (s.rxIncoming i) i.uartRxData n.rx else n.rx := by
  unfold read
  dsimp only
  split_ifs <;> rfl

theorem write_rx (n : Ns16550a g) :
    (s.write i n).rx =
      if decide (register s.writeAddr = .iirFcr) && (s.writeData i &&& 0x02#8 ≠ 0) then
        n.rx.discard
      else n.rx := by
  unfold write
  dsimp only
  cases register s.writeAddr <;> dsimp only <;> split_ifs <;> first | rfl | simp_all

theorem rx_work (hreset : i.reset = false) :
    (s.work i).rx =
      if s.discards i then (s.rx.next (s.rxIncoming i) (s.reads i) i.uartRxData).discard
      else s.rx.next (s.rxIncoming i) (s.reads i) i.uartRxData := by
  unfold work
  dsimp only
  rw [hreset, if_neg Bool.false_ne_true]
  simp only [apply_ite Ns16550a.rx, write_rx, read_rx]
  unfold discards reads UartRx.next
  dsimp only
  cases i.wvalid && s.wready <;> cases i.arvalid && s.arready <;> cases s.rbrConsumes i <;>
    cases s.rxIncoming i <;> simp

theorem rxIncoming_room (h : s.rxIncoming i = true) : s.rx.rxFifoCount < 15 := by
  unfold rxIncoming uartRxReady at h
  rw [Bool.and_eq_true] at h
  exact of_decide_eq_true h.2

theorem available_of_reads (h : s.reads i = true) : s.rxAvailable i = true := by
  unfold reads rbrConsumes at h
  simp only [Bool.and_eq_true] at h
  exact h.2.2

theorem rx_next (h : s.rx.InPlace) :
    (s.rx.next (s.rxIncoming i) (s.reads i) i.uartRxData).InPlace ∧
      s.rx.held ++ (if s.rxIncoming i then [i.uartRxData] else []) =
        (if s.reads i then [s.rxFront i] else []) ++
          (s.rx.next (s.rxIncoming i) (s.reads i) i.uartRxData).held := by
  unfold rxFront
  cases hvalid : s.rx.rxValid with
  | true =>
      exact UartRx.next_of_valid h hvalid _ rxIncoming_room
  | false =>
      have hreads : s.reads i = true → s.rxIncoming i = true := by
        intro hreads
        have havailable := available_of_reads hreads
        unfold rxAvailable at havailable
        rwa [hvalid, Bool.false_or] at havailable
      rw [UartRx.held_of_invalid h hvalid, List.nil_append]
      exact UartRx.next_of_invalid h hvalid _ hreads

theorem held_incoming_head (h : s.rx.InPlace) :
    (s.rx.held ++ (s.transfer i).pushed.toList).head? =
      if s.rxAvailable i then some (s.rxFront i) else none := by
  unfold rxAvailable rxFront transfer
  dsimp only
  cases hvalid : s.rx.rxValid with
  | true =>
      rw [UartRx.held_of_valid hvalid]
      rfl
  | false =>
      rw [UartRx.held_of_invalid h hvalid, List.nil_append, Bool.false_or]
      cases s.rxIncoming i <;> rfl

/-! ## Answers -/

theorem write_read (n : Ns16550a g) :
    (s.write i n).readAddr = n.readAddr ∧ (s.write i n).readData = n.readData ∧
      (s.write i n).readValid = n.readValid := by
  unfold write
  dsimp only
  cases register s.writeAddr <;> dsimp only <;> (try split_ifs) <;> exact ⟨rfl, rfl, rfl⟩

theorem read_read (n : Ns16550a g) :
    (s.read i n).readAddr = i.araddr ∧
      (s.read i n).readData = withBits 0 (g.lane i.araddr * 8) (s.readByte i (register i.araddr)) ∧
      (s.read i n).readValid = true := by
  unfold read
  dsimp only
  split_ifs <;> exact ⟨rfl, rfl, rfl⟩

theorem read_work (hreset : i.reset = false) :
    (s.work i).readAddr = (if i.arvalid && s.arready then i.araddr else s.readAddr) ∧
      (s.work i).readData = (if i.arvalid && s.arready then
        withBits 0 (g.lane i.araddr * 8) (s.readByte i (register i.araddr)) else s.readData) ∧
      (s.work i).readValid = (if i.arvalid && s.arready then true
        else s.readValid && !i.rready) := by
  unfold work
  dsimp only
  rw [hreset, if_neg Bool.false_ne_true]
  have hready : (i.arvalid && s.arready) = true → s.readValid = false := by
    unfold arready
    simp
  refine ⟨?_, ?_, ?_⟩
  · simp only [apply_ite Ns16550a.readAddr, write_read, read_read, ite_self]
  · simp only [apply_ite Ns16550a.readData, write_read, read_read, ite_self]
  · simp only [apply_ite Ns16550a.readValid, write_read, read_read, ite_self]
    by_cases hfire : (i.arvalid && s.arready) = true
    · rw [if_pos hfire, if_pos hfire, hready hfire]
      rfl
    · rw [if_neg hfire, if_neg hfire]
      cases s.readValid <;> cases i.rready <;> rfl

theorem answer_work (hreset : i.reset = false) (hfire : (i.arvalid && s.arready) = true) :
    (s.work i).answer = s.readByte i (register i.araddr) := by
  obtain ⟨haddr, hdata, -⟩ := read_work (s := s) hreset
  rw [if_pos hfire] at haddr hdata
  unfold answer
  rw [haddr, hdata]
  exact extractLsb'_withBits _ _ _ (g.lane_fits i.araddr)

theorem readByte_rbr (hdlab : s.dlab = false) :
    s.readByte i .rbrThrDll = if s.rxAvailable i then s.rxFront i else 0 := by
  unfold readByte
  dsimp only
  rw [hdlab, if_neg Bool.false_ne_true]
  cases s.rxAvailable i <;> cases s.rbrDuplicateValid <;> rfl

theorem reads_iff (hdlab : s.dlab = false) (hregister : register i.araddr = .rbrThrDll)
    (hfire : (i.arvalid && s.arready) = true) : s.reads i = s.rxAvailable i := by
  unfold reads rbrConsumes
  rw [hfire, hregister, hdlab]
  rfl

/-! ## Clocks -/

/-- A clock moves the bytes as a queue does. -/
theorem passes_work (h : s.rx.InPlace) (hreset : i.reset = false) :
    (s.work i).rx.InPlace ∧ (s.transfer i).Passes s.rx.held (s.work i).rx.held := by
  obtain ⟨hplace, hmove⟩ := rx_next (i := i) h
  have hpopped : (s.transfer i).popped = if s.reads i then some (s.rxFront i) else none := by
    unfold transfer
    dsimp only
    by_cases hreads : s.reads i = true
    · have havailable := available_of_reads hreads
      have hreads' := hreads
      unfold reads rbrConsumes at hreads'
      simp only [Bool.and_eq_true, decide_eq_true_eq, Bool.not_eq_true'] at hreads'
      obtain ⟨⟨hvalid, hready⟩, ⟨hregister, hdlab⟩, -⟩ := hreads'
      rw [if_pos hreads, if_pos hreads, answer_work hreset (by rw [hvalid, hready]; rfl), hregister,
        readByte_rbr hdlab, if_pos havailable]
    · rw [if_neg hreads, if_neg hreads]
  have hlists : ∀ (b : Bool) (x : BitVec 8),
      (if b then some x else none).toList = if b then [x] else [] := by
    intro b x
    cases b <;> rfl
  rw [rx_work hreset]
  refine ⟨?_, (s.rx.next (s.rxIncoming i) (s.reads i) i.uartRxData).held, ?_, ?_⟩
  · split_ifs
    · exact .discard _
    · exact hplace
  · rw [hpopped, hlists]
    change _ ++ (if s.rxIncoming i then some i.uartRxData else none).toList = _
    rw [hlists]
    exact hmove
  · change _ = if s.discards i then _ else _
    split_ifs <;> rfl

end Ns16550a

/-! ## Runs -/

def uartRuns (g : UartGeometry) : Transitions (Ns16550a g) (Transfer (BitVec 8)) where
  init s := ∃ (s₀ : Ns16550a g) (i : UartInputs g), i.reset = true ∧ s = s₀.work i
  step
    | s, some t, s' => ∃ i : UartInputs g, i.reset = false ∧ t = s.transfer i ∧ s' = s.work i
    | _, none, _ => False

namespace Ns16550a

variable {g : UartGeometry} {s : Ns16550a g}

/-- What a clock serves of the bytes `q` that are held at its end if nothing is read. -/
structure Serves (s : Ns16550a g) (i : UartInputs g) (q : List (BitVec 8)) : Prop where
  /-- A read of the receive buffer takes and answers the oldest byte, 0 if there is none. -/
  rbr : (i.arvalid && s.arready) = true → register i.araddr = .rbrThrDll → s.dlab = false →
    (s.transfer i).popped = q.head? ∧ (s.work i).answer = q.head?.getD 0
  /-- The line status says whether there is a byte. -/
  lsr : (i.arvalid && s.arready) = true → register i.araddr = .lsr →
    ((s.work i).answer.getLsbD 0 = true ↔ q ≠ [])
  /-- Nothing else takes a byte. -/
  others : ¬ ((i.arvalid && s.arready) = true ∧ register i.araddr = .rbrThrDll ∧ s.dlab = false) →
    (s.transfer i).popped = none
  /-- An answer stands until it is accepted. -/
  taken : (i.arvalid && s.arready) = true → (s.work i).readValid = true
  stands : s.readValid = true → (s.work i).answer = s.answer ∧
    (s.work i).readValid = !i.rready

theorem serves {i : UartInputs g} (h : s.rx.InPlace) (hreset : i.reset = false) :
    s.Serves i (s.rx.held ++ (s.transfer i).pushed.toList) := by
  obtain ⟨haddr, hdata, hvalid⟩ := read_work (s := s) hreset
  constructor
  · intro hfire hregister hdlab
    have hreads := reads_iff hdlab hregister hfire
    rw [held_incoming_head h, answer_work hreset hfire, hregister, readByte_rbr hdlab]
    unfold transfer
    dsimp only
    rw [hreads, answer_work hreset hfire, hregister, readByte_rbr hdlab]
    cases s.rxAvailable i <;> exact ⟨rfl, rfl⟩
  · intro hfire hregister
    rw [answer_work hreset hfire, hregister, Ne, ← List.head?_eq_none_iff, held_incoming_head h]
    unfold readByte
    cases s.rxAvailable i <;> simp
  · intro hnot
    refine if_neg fun hreads => hnot ?_
    unfold reads rbrConsumes at hreads
    simp only [Bool.and_eq_true, decide_eq_true_eq, Bool.not_eq_true'] at hreads
    exact ⟨by rw [hreads.1.1, hreads.1.2]; rfl, hreads.2.1⟩
  · intro hfire
    rw [hvalid, if_pos hfire]
  · intro hbusy
    have hfire : ¬ (i.arvalid && s.arready) = true := by
      unfold arready
      rw [hbusy]
      simp
    rw [if_neg hfire] at haddr hdata hvalid
    unfold answer
    rw [haddr, hdata, hvalid, hbusy]
    exact ⟨rfl, rfl⟩

/-- The receiver is a byte queue: in every run the bytes that reads of the receive buffer
answered are, in order and each once, the first of those that were accepted and not discarded;
the others are held. -/
theorem refines_byte_queue {ts : List (Transfer (BitVec 8))} (h : (uartRuns g).Traces ts s) :
    (Transfer.keptLog ts).1 = (Transfer.keptLog ts).2 ++ s.rx.held ∧
      ∀ i : UartInputs g, i.reset = false → s.Serves i (s.rx.held ++ (s.transfer i).pushed.toList) := by
  have hinit : ∀ s, (uartRuns g).init s → s.rx.InPlace ∧ s.rx.held = [] := by
    rintro s ⟨s₀, i, hreset, rfl⟩
    unfold work
    dsimp only
    rw [if_pos hreset]
    exact ⟨UartRx.inPlace_cleared, rfl⟩
  have hstep : ∀ (s : Ns16550a g) e s', s.rx.InPlace → (uartRuns g).step s e s' →
      s'.rx.InPlace ∧ ∃ t, e = some t ∧ (id t).Passes s.rx.held s'.rx.held := by
    rintro s e s' hs hstep
    cases e with
    | none => exact hstep.elim
    | some t =>
        obtain ⟨i, hreset, rfl, rfl⟩ := hstep
        exact ⟨(passes_work hs hreset).1, _, rfl, (passes_work hs hreset).2⟩
  obtain ⟨hplace, hlog⟩ := Transitions.keptLog_eq hinit hstep h
  rw [List.map_id] at hlog
  exact ⟨hlog, fun i hreset => serves hplace hreset⟩

/-! ## A read in the clock of a byte -/

def narrowBus : UartGeometry := ⟨32, 4, 32, by decide⟩

/-- A clock of the serial line and of reads of the register at `addr`. -/
def lineClock (byte : Option (BitVec 8)) (addr : Option (BitVec 32)) : UartInputs narrowBus where
  reset := false
  uartRxValid := byte.isSome
  uartRxData := byte.getD 0
  awvalid := false
  awaddr := 0
  awid := 0
  wvalid := false
  wdata := 0
  bready := true
  arvalid := addr.isSome
  araddr := addr.getD 0
  arid := 0
  rready := true

/-- Three bytes; the first read comes with the third byte, the last one comes too early. -/
def lineClocks : List (UartInputs narrowBus) :=
  [lineClock (some 0x41) none, lineClock (some 0x42) none, lineClock (some 0x43) (some 0),
    lineClock none (some 0), lineClock none (some 0), lineClock none none, lineClock none (some 0),
    lineClock none none, lineClock none (some 0)]

theorem refines_byte_queue_line :
    (Transfer.keptLog (Transitions.eventsAlong transfer work cleared lineClocks)).2 =
        [0x41, 0x42, 0x43] ∧
      (Transfer.keptLog (Transitions.eventsAlong transfer work cleared lineClocks)).1 =
        (Transfer.keptLog (Transitions.eventsAlong transfer work cleared lineClocks)).2 ++
          (lineClocks.foldl work cleared).rx.held := by
  have hstep : ∀ (s : Ns16550a narrowBus) (i : UartInputs narrowBus), i.reset = false →
      (uartRuns narrowBus).step s (some (s.transfer i)) (s.work i) :=
    fun s i hreset => ⟨i, hreset, rfl, rfl⟩
  refine ⟨by decide, (refines_byte_queue (g := narrowBus) ⟨cleared, ?_, ?_⟩).1⟩
  · exact ⟨cleared, { lineClock none none with reset := true }, rfl, rfl⟩
  · exact Transitions.Run.of_inputs hstep (by decide)

end Ns16550a

end CppHdl.Devices
