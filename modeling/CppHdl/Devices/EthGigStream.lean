import CppHdl.Devices.EthGigMac
import CppHdl.Devices.EthGigRing

/-!
# From the engine to the transmit queue

The engine decides to send a byte when the queue has room, and presents the byte in the
clock after that. It is lost when the byte before it took the last place of the queue in
between.
-/

namespace CppHdl.Devices

open EthGigDma

variable {g : DmaGeometry}

/-! ## What a descriptor says -/

def txLen (g : DmaGeometry) (mem : BitVec g.ADDR_WIDTH → BitVec 8) (d : BitVec 32) : BitVec 32 :=
  laneAt g.DATA_BYTES mem ((d + BD_CTRL_LEN_OFFSET).setWidth g.ADDR_WIDTH) &&& BD_CTRL_LENGTH_MASK

def txBuffer (g : DmaGeometry) (mem : BitVec g.ADDR_WIDTH → BitVec 8) (d : BitVec 32) : BitVec 32 :=
  laneAt g.DATA_BYTES mem ((d + BD_BUFA_OFFSET).setWidth g.ADDR_WIDTH)

def bufferByte (mem : BitVec g.ADDR_WIDTH → BitVec 8) (buffer : BitVec 32) (k : Nat) : BitVec 8 :=
  mem ((buffer + BitVec.ofNat 32 k).setWidth g.ADDR_WIDTH)

/-- The bytes of the buffer, the final one marked. -/
def descriptorBytes (g : DmaGeometry) (mem : BitVec g.ADDR_WIDTH → BitVec 8) (d : BitVec 32) :
    List (BitVec 8 × Bool) :=
  (List.range (txLen g mem d).toNat).map fun k =>
    (bufferByte mem (txBuffer g mem d) k, decide ((txLen g mem d).toNat = k + 1))

/-- Two memories agree on a descriptor and its buffer. -/
structure Untouched (mem mem' : BitVec g.ADDR_WIDTH → BitVec 8) (d : BitVec 32) : Prop where
  len : txLen g mem' d = txLen g mem d
  buffer : txBuffer g mem' d = txBuffer g mem d
  bytes : ∀ k < (txLen g mem d).toNat,
    bufferByte mem' (txBuffer g mem d) k = bufferByte mem (txBuffer g mem d) k

theorem Untouched.descriptorBytes {mem mem' : BitVec g.ADDR_WIDTH → BitVec 8} {d : BitVec 32}
    (h : Untouched mem mem' d) : descriptorBytes g mem' d = descriptorBytes g mem d := by
  unfold CppHdl.Devices.descriptorBytes
  rw [h.len, h.buffer]
  refine List.map_congr_left fun k hk => ?_
  rw [h.bytes k (List.mem_range.mp hk)]

/-! ## Runs -/

/-- The engine, its memory, and the transmit side of the MAC. -/
structure StreamState (g : DmaGeometry) where
  sys : DmaSystem g
  mac : MacTx

structure StreamClock where
  taken : List (BitVec 8 × Bool)
  stored : Option (BitVec 8 × Bool)
  deriving DecidableEq

def taken (clocks : List StreamClock) : List (BitVec 8 × Bool) := clocks.flatMap StreamClock.taken

def stored (clocks : List StreamClock) : List (BitVec 8 × Bool) :=
  clocks.filterMap StreamClock.stored

namespace EthGigDma

/-- The descriptor and its bytes are being read. -/
def State.streaming : State → Bool
  | txNdescAr | txNdescR | txCtrlAr | txCtrlR | txBufaAr | txBufaR | txDataAr | txDataR | txSend => true
  | _ => false

theorem State.waits_of_streaming {t : State} (h : t.streaming = true) : t.waits ≠ .w := by
  intro hw
  cases t <;> first | exact Bool.false_ne_true h | exact Waits.noConfusion hw

end EthGigDma

namespace DmaSystem

/-- The byte on its way to the MAC. -/
def inFlight (n : EthGigDma g) : List (BitVec 8 × Bool) :=
  if n.macTxValid then [(n.macTxData, n.macTxLast)] else []

def startLane (n : EthGigDma g) : Nat := (n.bufferAddr + n.offset).toNat % g.DATA_BYTES

/-- The bytes of the descriptor under way that are not sent. -/
def remaining (mem : BitVec g.ADDR_WIDTH → BitVec 8) (n : EthGigDma g) :
    List (BitVec 8 × Bool) :=
  match n.state with
  | .txNdescAr | .txNdescR | .txCtrlAr | .txCtrlR | .txBufaAr | .txBufaR =>
      descriptorBytes g mem n.descAddr
  | .txDataAr | .txDataR => (descriptorBytes g mem n.descAddr).drop n.offset.toNat
  | .txSend =>
      (descriptorBytes g mem n.descAddr).drop
        (n.offset.toNat + (n.byteIndex.toNat - startLane n))
  | _ => []

end DmaSystem

namespace StreamState

variable (depth : Nat) (s : StreamState g) (c : DmaClock g) (pcsTxReady : Bool)

/-- The ready of the queue drives the engine. -/
def clock : DmaClock g := { c with macTxReady := s.mac.txReady depth }

def macInputs : MacTxInputs where
  reset := false
  txValid := s.sys.dma.macTxValid
  txData := s.sys.dma.macTxData
  txLast := s.sys.dma.macTxLast
  pcsTxReady := pcsTxReady

def next : StreamState g where
  sys := s.sys.next (s.clock depth c)
  mac := s.mac.work depth (s.macInputs pcsTxReady)

def event : StreamClock where
  taken := ((s.sys.takes (s.clock depth c)).map (descriptorBytes g s.sys.bus.mem)).getD []
  stored := if s.mac.txPush depth (s.macInputs pcsTxReady) then
      some (s.sys.dma.macTxData, s.sys.dma.macTxLast) else none

/-- A byte is not sent while the one before it takes the last place and none leaves the
queue; descriptors are not empty, and nobody changes one while it is read. -/
structure Room : Prop where
  room : s.sys.dma.state = .txSend → s.mac.txReady depth = true → s.sys.dma.macTxValid = true →
    s.mac.txCount + 1 = depth → s.mac.txPopPayload (s.macInputs pcsTxReady) = true
  length : ∀ d, s.sys.takes (s.clock depth c) = some d → txLen g s.sys.bus.mem d ≠ 0
  untouched : ∀ d, s.sys.takes (s.clock depth c) = some d ∨
      s.sys.dma.state.streaming = true ∧ d = s.sys.dma.descAddr →
    Untouched s.sys.bus.mem (overlay s.sys.bus.mem c.others) d

/-- No byte is lost, and none added. -/
structure Intact (clocks : List StreamClock) (s : StreamState g) : Prop where
  ordered : stored clocks <+: taken clocks
  complete : s.sys.dma.state.streaming = false → s.sys.dma.macTxValid = false →
    stored clocks = taken clocks

end StreamState

/-- Runs from a reset on, of clocks under a condition. -/
def streamRuns (g : DmaGeometry) (depth : Nat)
    (ok : StreamState g → DmaClock g → Bool → Prop) : Transitions (StreamState g) StreamClock where
  init s := s.sys.Starts ∧ ∃ m : MacTx, s.mac = m.cleared
  step
    | s, some e, s' => ∃ (c : DmaClock g) (pcsTxReady : Bool),
        ok s c pcsTxReady ∧ e = s.event depth c pcsTxReady ∧ s' = s.next depth c pcsTxReady
    | _, none, _ => False

/-! ## The descriptor under way -/

section

variable {mem mem' : BitVec g.ADDR_WIDTH → BitVec 8} {d : BitVec 32}

theorem txLen_lt : (txLen g mem d).toNat < 2 ^ 23 := by
  unfold txLen
  rw [BitVec.toNat_and]
  exact Nat.lt_of_le_of_lt Nat.and_le_right (by decide)

theorem length_descriptorBytes : (descriptorBytes g mem d).length = (txLen g mem d).toNat := by
  unfold descriptorBytes
  rw [List.length_map, List.length_range]

theorem drop_descriptorBytes {k : Nat} (hk : k < (txLen g mem d).toNat) :
    (descriptorBytes g mem d).drop k =
      (bufferByte mem (txBuffer g mem d) k, decide ((txLen g mem d).toNat = k + 1)) ::
        (descriptorBytes g mem d).drop (k + 1) := by
  rw [List.drop_eq_getElem_cons (by rwa [length_descriptorBytes])]
  congr 1
  unfold descriptorBytes
  rw [List.getElem_map, List.getElem_range]

theorem extractLsb'_beat {buffer offset : BitVec 32} {j : Nat}
    (hj : (buffer + offset).toNat % g.DATA_BYTES + j < g.DATA_BYTES) :
    (beatAt g.DATA_BYTES mem ((buffer + offset).setWidth g.ADDR_WIDTH)).extractLsb'
        (8 * ((buffer + offset).toNat % g.DATA_BYTES + j)) 8 =
      bufferByte mem buffer (offset.toNat + j) := by
  have hsum : buffer + BitVec.ofNat 32 (offset.toNat + j) = buffer + offset + BitVec.ofNat 32 j := by
    rw [BitVec.ofNat_add, BitVec.ofNat_toNat, BitVec.setWidth_eq, BitVec.add_assoc]
  unfold beatAt bufferByte
  rw [extractLsb'_joinBytes _ hj, hsum, DmaGeometry.beatByte_eq _ hj]

end

namespace DmaSystem

variable {mem mem' : BitVec g.ADDR_WIDTH → BitVec 8} {n : EthGigDma g}

/-- Length and buffer address are read, and bytes are left. -/
structure Addressed (mem : BitVec g.ADDR_WIDTH → BitVec 8) (n : EthGigDma g) : Prop where
  len : n.len = txLen g mem n.descAddr
  buffer : n.bufferAddr = txBuffer g mem n.descAddr
  offset : n.offset.toNat < n.len.toNat

/-- A beat of the buffer is read, and bytes of it are left. -/
structure Loaded (mem : BitVec g.ADDR_WIDTH → BitVec 8) (n : EthGigDma g) : Prop
    extends Addressed mem n where
  valid : n.beatValidBytes.toNat =
    min (n.len.toNat - n.offset.toNat) (g.DATA_BYTES - startLane n)
  first : startLane n ≤ n.byteIndex.toNat
  last : n.byteIndex.toNat < startLane n + n.beatValidBytes.toNat
  bytes : ∀ j < n.beatValidBytes.toNat,
    n.beat.extractLsb' (8 * (startLane n + j)) 8 = bufferByte mem n.bufferAddr (n.offset.toNat + j)

/-- What is known of the descriptor in each state. -/
structure Streams (mem : BitVec g.ADDR_WIDTH → BitVec 8) (n : EthGigDma g) : Prop where
  positive : n.state.streaming = true → txLen g mem n.descAddr ≠ 0
  len : n.state = .txBufaAr ∨ n.state = .txBufaR → n.len = txLen g mem n.descAddr
  addressed : n.state = .txDataAr ∨ n.state = .txDataR → Addressed mem n
  loaded : n.state = .txSend → Loaded mem n

theorem Streams.of_other (h : n.state.streaming = false) : Streams mem n := by
  constructor
  · intro hstate
    exact absurd (h.symm.trans hstate) Bool.false_ne_true
  · rintro (hstate | hstate) <;> rw [hstate] at h <;> cases h
  · rintro (hstate | hstate) <;> rw [hstate] at h <;> cases h
  · intro hstate
    rw [hstate] at h
    cases h

theorem remaining_of_other (h : n.state.streaming = false) : remaining mem n = [] := by
  unfold remaining
  cases hs : n.state <;> rw [hs] at h <;> first | rfl | cases h

theorem Streams.untouched (h : Streams mem n) (hun : Untouched mem mem' n.descAddr) :
    Streams mem' n ∧ remaining mem' n = remaining mem n := by
  have haddressed : Addressed mem n → Addressed mem' n := fun ha =>
    ⟨ha.len.trans hun.len.symm, ha.buffer.trans hun.buffer.symm, ha.offset⟩
  constructor
  · refine ⟨fun hs => ?_, fun hs => (h.len hs).trans hun.len.symm,
      fun hs => haddressed (h.addressed hs), fun hs => ?_⟩
    · rw [hun.len]
      exact h.positive hs
    · have hl := h.loaded hs
      refine ⟨haddressed hl.toAddressed, hl.valid, hl.first, hl.last, fun j hj => ?_⟩
      have hvalid := hl.valid
      rw [hl.bytes j hj, hl.buffer, hun.bytes _ (by rw [← hl.len]; omega)]
  · unfold remaining
    rw [hun.descriptorBytes]

/-! ## The states one by one -/

theorem Streams.of_early (hstate : n.state = .txNdescAr ∨ n.state = .txNdescR ∨
    n.state = .txCtrlAr ∨ n.state = .txCtrlR) (hpos : txLen g mem n.descAddr ≠ 0) :
    Streams mem n ∧ remaining mem n = descriptorBytes g mem n.descAddr := by
  unfold remaining
  rcases hstate with hs | hs | hs | hs <;> rw [hs]
  all_goals
    refine ⟨⟨fun _ => hpos, ?_, ?_, ?_⟩, rfl⟩ <;> rw [hs] <;> simp

theorem Streams.of_bufa (hstate : n.state = .txBufaAr ∨ n.state = .txBufaR)
    (hpos : txLen g mem n.descAddr ≠ 0) (hlen : n.len = txLen g mem n.descAddr) :
    Streams mem n ∧ remaining mem n = descriptorBytes g mem n.descAddr := by
  unfold remaining
  rcases hstate with hs | hs <;> rw [hs]
  all_goals
    refine ⟨⟨fun _ => hpos, fun _ => hlen, ?_, ?_⟩, rfl⟩ <;> rw [hs] <;> simp

theorem Addressed.positive (h : Addressed mem n) : txLen g mem n.descAddr ≠ 0 := by
  intro hzero
  have hoffset := h.offset
  rw [h.len, hzero] at hoffset
  exact absurd hoffset (Nat.not_lt_zero _)

theorem Streams.of_data (hstate : n.state = .txDataAr ∨ n.state = .txDataR) (h : Addressed mem n) :
    Streams mem n ∧
      remaining mem n = (descriptorBytes g mem n.descAddr).drop n.offset.toNat := by
  unfold remaining
  rcases hstate with hs | hs <;> rw [hs]
  all_goals
    refine ⟨⟨fun _ => h.positive, ?_, fun _ => h, ?_⟩, rfl⟩ <;> rw [hs] <;> simp

theorem Streams.of_send (hstate : n.state = .txSend) (h : Loaded mem n) :
    Streams mem n ∧ remaining mem n = (descriptorBytes g mem n.descAddr).drop
      (n.offset.toNat + (n.byteIndex.toNat - startLane n)) := by
  unfold remaining
  rw [hstate]
  refine ⟨⟨fun _ => h.toAddressed.positive, ?_, ?_, fun _ => h⟩, rfl⟩ <;> rw [hstate] <;> simp

section

variable {s : EthGigDma g}

theorem startLane_of_same (hsame : SameMachine s n) : startLane n = startLane s := by
  unfold startLane
  rw [hsame.bufferAddr, hsame.offset]

theorem Addressed.of_same (hsame : SameMachine s n) (h : Addressed mem s) : Addressed mem n where
  len := by rw [hsame.len, hsame.descAddr, h.len]
  buffer := by rw [hsame.bufferAddr, hsame.descAddr, h.buffer]
  offset := by
    rw [hsame.offset, hsame.len]
    exact h.offset

theorem Loaded.of_same (hsame : SameMachine s n) (h : Loaded mem s) : Loaded mem n where
  toAddressed := h.toAddressed.of_same hsame
  valid := by rw [hsame.beatValidBytes, hsame.len, hsame.offset, startLane_of_same hsame, h.valid]
  first := by
    rw [startLane_of_same hsame, hsame.byteIndex]
    exact h.first
  last := by
    rw [startLane_of_same hsame, hsame.byteIndex, hsame.beatValidBytes]
    exact h.last
  bytes := by
    rw [startLane_of_same hsame, hsame.beatValidBytes, hsame.beat, hsame.bufferAddr, hsame.offset]
    exact h.bytes

theorem Streams.of_same (hsame : SameMachine s n) (h : Streams mem s) :
    Streams mem n ∧ remaining mem n = remaining mem s := by
  constructor
  · constructor <;> rw [hsame.state]
    · rw [hsame.descAddr]
      exact h.positive
    · rw [hsame.len, hsame.descAddr]
      exact h.len
    · exact fun hs => (h.addressed hs).of_same hsame
    · exact fun hs => (h.loaded hs).of_same hsame
  · unfold remaining
    rw [hsame.state, hsame.descAddr, hsame.offset, hsame.byteIndex, startLane_of_same hsame]

end

/-! ## A clock -/

variable {s : DmaSystem g} {c : DmaClock g}

theorem inFlight_of_silent (h : n.macTxValid = false) : inFlight n = [] := by
  unfold inFlight
  rw [h, if_neg Bool.false_ne_true]

theorem macTxValid_port : (s.port c).macTxValid = false := by
  have key : ∀ n : EthGigDma g, n.macTxValid = false →
      (s.dma.registerData (s.inputs c) n).macTxValid = false := by
    intro n h
    unfold registerData writeRegister
    cases register s.dma.axiWriteAddr.toNat <;> dsimp only <;> split_ifs <;> exact h
  unfold port registerPort
  dsimp only
  apply key
  split_ifs <;> rfl

/-- What a clock does to the bytes: nothing is lost between what is left, what is on its way
and what is taken up. -/
structure Flows (s : DmaSystem g) (c : DmaClock g) (n : EthGigDma g) : Prop where
  streams : Streams s.bus.mem n
  bytes : inFlight n ++ remaining s.bus.mem n =
    remaining s.bus.mem s.dma ++ ((s.takes c).map (descriptorBytes g s.bus.mem)).getD []
  /-- The descriptor under way is the one taken up, or the one before. -/
  source : n.state.streaming = true → s.takes c = some n.descAddr ∨
    s.dma.state.streaming = true ∧ n.descAddr = s.dma.descAddr
  sends : n.macTxValid = true → s.dma.state = .txSend ∧ c.macTxReady = true

/-- A clock that neither takes up nor sends. -/
theorem Flows.of_silent (hidle : s.takes c = none) (hsilent : n.macTxValid = false)
    (hstreams : Streams s.bus.mem n) (hbytes : remaining s.bus.mem n = remaining s.bus.mem s.dma)
    (hsource : n.state.streaming = true →
      s.dma.state.streaming = true ∧ n.descAddr = s.dma.descAddr) : Flows s c n where
  streams := hstreams
  bytes := by
    rw [inFlight_of_silent hsilent, hidle, hbytes]
    exact (List.append_nil _).symm
  source hs := .inr (hsource hs)
  sends hs := absurd (hsilent.symm.trans hs) Bool.false_ne_true

/-- A clock that keeps the bytes that are left, `R` before and `R'` after. -/
theorem Flows.of_kept {R R' : List (BitVec 8 × Bool)} (hidle : s.takes c = none)
    (hsilent : n.macTxValid = false) (hafter : Streams s.bus.mem n ∧ remaining s.bus.mem n = R')
    (hbefore : remaining s.bus.mem s.dma = R) (hkept : R' = R)
    (hsource : s.dma.state.streaming = true ∧ n.descAddr = s.dma.descAddr) : Flows s c n :=
  .of_silent hidle hsilent hafter.1 ((hafter.2.trans hkept).trans hbefore.symm) fun _ => hsource

/-- A clock away from the descriptor's bytes. -/
theorem Flows.of_other (hidle : s.takes c = none) (hsilent : n.macTxValid = false)
    (hbefore : s.dma.state.streaming = false) (hafter : n.state.streaming = false) : Flows s c n :=
  .of_silent hidle hsilent (.of_other hafter)
    ((remaining_of_other hafter).trans (remaining_of_other hbefore).symm)
    fun hs => absurd (hafter.symm.trans hs) Bool.false_ne_true

theorem Flows.of_takes (hidle : s.dma.state = .idle) (htakes : s.takes c = some n.descAddr)
    (hsilent : n.macTxValid = false) (hstate : n.state = .txNdescAr)
    (hlen : txLen g s.bus.mem n.descAddr ≠ 0) : Flows s c n := by
  obtain ⟨hstreams, hremaining⟩ := Streams.of_early (.inl hstate) hlen
  have hbefore : remaining s.bus.mem s.dma = [] := remaining_of_other (by rw [hidle]; rfl)
  refine ⟨hstreams, ?_, fun _ => .inl htakes,
    fun hs => absurd (hsilent.symm.trans hs) Bool.false_ne_true⟩
  rw [inFlight_of_silent hsilent, htakes, hbefore, hremaining]
  rfl

theorem flows_request (hs : Streams s.bus.mem s.dma) (hwaits : s.dma.state.waits = .request)
    {t : EthGigDma.State} (ht : t = s.dma.state ∨ t = s.dma.state.after) :
    Flows s c (goto t (request s.dma.requestAddr (s.port c))) := by
  have hsame := sameMachine_registerPort (s := s.dma) (i := s.inputs c)
  have htakes : s.takes c = none := takes_of_ne fun hidle => by rw [hidle] at hwaits; cases hwaits
  have hbytes := congrArg (descriptorBytes g s.bus.mem) hsame.descAddr
  cases hstate : s.dma.state <;> rw [hstate] at hwaits ht <;> try cases hwaits
  case txCtrlAr =>
    have hpos := hs.positive (by rw [hstate]; rfl)
    have hpos' : txLen g s.bus.mem (s.port c).descAddr ≠ 0 := by rw [hsame.descAddr]; exact hpos
    refine .of_kept htakes macTxValid_port (Streams.of_early ?_ hpos')
      (Streams.of_early (.inr (.inr (.inl hstate))) hpos).2 hbytes
      ⟨by rw [hstate]; rfl, hsame.descAddr⟩
    rcases ht with rfl | rfl
    · exact .inr (.inr (.inl rfl))
    · exact .inr (.inr (.inr rfl))
  case txBufaAr =>
    have hpos := hs.positive (by rw [hstate]; rfl)
    have hlen := hs.len (.inl hstate)
    have hpos' : txLen g s.bus.mem (s.port c).descAddr ≠ 0 := by rw [hsame.descAddr]; exact hpos
    have hlen' : (s.port c).len = txLen g s.bus.mem (s.port c).descAddr := by
      rw [hsame.len, hsame.descAddr, hlen]
    refine .of_kept htakes macTxValid_port (Streams.of_bufa ?_ hpos' hlen')
      (Streams.of_bufa (.inl hstate) hpos hlen).2 hbytes ⟨by rw [hstate]; rfl, hsame.descAddr⟩
    rcases ht with rfl | rfl
    · exact .inl rfl
    · exact .inr rfl
  case txDataAr =>
    have haddressed := hs.addressed (.inl hstate)
    have hport := haddressed.of_same hsame
    refine .of_kept htakes macTxValid_port
      (Streams.of_data ?_ ⟨hport.len, hport.buffer, hport.offset⟩)
      (Streams.of_data (.inl hstate) haddressed).2
      (congrArg₂ (fun bytes k => bytes.drop (BitVec.toNat k)) hbytes hsame.offset)
      ⟨by rw [hstate]; rfl, hsame.descAddr⟩
    rcases ht with rfl | rfl
    · exact .inl rfl
    · exact .inr rfl
  case rxBufaAr =>
    refine .of_other htakes macTxValid_port (by rw [hstate]; rfl) ?_
    rcases ht with rfl | rfl <;> rfl

theorem loaded_answered (hc : s.Channels) (hs : Streams s.bus.mem s.dma)
    (hstate : s.dma.state = .txDataR)
    (hdata : (s.inputs c).dmaRdata = beatAt g.DATA_BYTES s.bus.mem s.dma.readAddr) :
    Loaded s.bus.mem (s.dma.readResponse (s.inputs c) (s.port c)) ∧
      (s.dma.readResponse (s.inputs c) (s.port c)).byteIndex.toNat =
        startLane (s.dma.readResponse (s.inputs c) (s.port c)) := by
  have hsame := sameMachine_registerPort (s := s.dma) (i := s.inputs c)
  have haddressed := (hs.addressed (.inr hstate)).of_same hsame
  have hstage := hc.stage
  rw [hstate] at hstage
  have htarget : s.dma.readAddr = (s.dma.bufferAddr + s.dma.offset).setWidth g.ADDR_WIDTH := by
    rw [hc.target (by unfold fetching; rw [hstate]) hstage.1.1]
    unfold requestAddr
    rw [hstate]
  have hstart : s.dma.readAddr.toNat % g.DATA_BYTES = startLane s.dma := by
    rw [htarget, DmaGeometry.toNat_setWidth_mod]
    rfl
  have hlt : startLane s.dma < g.DATA_BYTES := Nat.mod_lt _ DmaGeometry.bytes_pos
  have hle := DmaGeometry.bytes_le (g := g)
  have hbefore := (hs.addressed (.inr hstate)).offset
  have hlane : (BitVec.ofNat 32 (startLane s.dma)).toNat = startLane s.dma := by
    rw [BitVec.toNat_ofNat, Nat.mod_eq_of_lt (by omega)]
  have hlimit : (s.dma.len - s.dma.offset).toNat = s.dma.len.toNat - s.dma.offset.toNat :=
    BitVec.toNat_sub_of_le (BitVec.le_def.mpr hbefore.le)
  have hbytes : (BitVec.ofNat 32 g.DATA_BYTES).toNat = g.DATA_BYTES := by
    rw [BitVec.toNat_ofNat, Nat.mod_eq_of_lt (by omega)]
  have hroom : (BitVec.ofNat 32 g.DATA_BYTES - BitVec.ofNat 32 (startLane s.dma)).toNat =
      g.DATA_BYTES - startLane s.dma := by
    rw [BitVec.toNat_sub_of_le (BitVec.le_def.mpr (by omega)), hlane, hbytes]
  have hvalid : (if BitVec.ofNat 32 g.DATA_BYTES - BitVec.ofNat 32 (startLane s.dma) <
        s.dma.len - s.dma.offset then
      BitVec.ofNat 32 g.DATA_BYTES - BitVec.ofNat 32 (startLane s.dma)
      else s.dma.len - s.dma.offset).toNat =
      min (s.dma.len.toNat - s.dma.offset.toNat) (g.DATA_BYTES - startLane s.dma) := by
    split_ifs with hroomy <;> rw [BitVec.lt_def, hroom, hlimit] at hroomy
    · rw [hroom]
      omega
    · rw [hlimit]
      omega
  have hsameLane := startLane_of_same hsame
  unfold readResponse
  rw [hstate, hstart]
  refine ⟨⟨⟨haddressed.len, haddressed.buffer, haddressed.offset⟩, ?_, ?_, ?_, ?_⟩, ?_⟩
  · change _ = min ((s.port c).len.toNat - (s.port c).offset.toNat)
      (g.DATA_BYTES - startLane (s.port c))
    rw [hsame.len, hsame.offset, hsameLane]
    exact hvalid
  · change startLane (s.port c) ≤ (BitVec.ofNat 32 (startLane s.dma)).toNat
    rw [hsameLane, hlane]
  · change (BitVec.ofNat 32 (startLane s.dma)).toNat < startLane (s.port c) + BitVec.toNat _
    rw [hsameLane, hlane]
    refine Nat.lt_add_of_pos_right (Nat.lt_of_lt_of_eq ?_ hvalid.symm)
    omega
  · intro j hj
    have hj : j < min (s.dma.len.toNat - s.dma.offset.toNat) (g.DATA_BYTES - startLane s.dma) :=
      Nat.lt_of_lt_of_eq hj hvalid
    change (s.inputs c).dmaRdata.extractLsb' (8 * (startLane (s.port c) + j)) 8 =
      bufferByte s.bus.mem (s.port c).bufferAddr ((s.port c).offset.toNat + j)
    rw [hsameLane, hsame.bufferAddr, hsame.offset, hdata, htarget]
    refine extractLsb'_beat ?_
    change startLane s.dma + j < g.DATA_BYTES
    omega
  · change (BitVec.ofNat 32 (startLane s.dma)).toNat = startLane (s.port c)
    rw [hsameLane, hlane]

theorem flows_loaded (hc : s.Channels) (hs : Streams s.bus.mem s.dma)
    (hstate : s.dma.state = .txDataR)
    (hdata : (s.inputs c).dmaRdata = beatAt g.DATA_BYTES s.bus.mem s.dma.readAddr) :
    Flows s c (s.dma.readResponse (s.inputs c) (s.port c)) := by
  have hsame := sameMachine_registerPort (s := s.dma) (i := s.inputs c)
  have htakes : s.takes c = none := takes_of_ne fun hidle => by rw [hidle] at hstate; cases hstate
  obtain ⟨hload, hindex⟩ := loaded_answered (c := c) hc hs hstate hdata
  have hto : (s.dma.readResponse (s.inputs c) (s.port c)).state = .txSend := by
    unfold readResponse
    rw [hstate]
  have hdesc : (s.dma.readResponse (s.inputs c) (s.port c)).descAddr = s.dma.descAddr ∧
      (s.dma.readResponse (s.inputs c) (s.port c)).offset = s.dma.offset ∧
      (s.dma.readResponse (s.inputs c) (s.port c)).macTxValid = false := by
    unfold readResponse
    rw [hstate]
    exact ⟨hsame.descAddr, hsame.offset, macTxValid_port⟩
  refine .of_kept htakes hdesc.2.2 (Streams.of_send hto hload)
    (Streams.of_data (.inr hstate) (hs.addressed (.inr hstate))).2 ?_
    ⟨by rw [hstate]; rfl, hdesc.1⟩
  rw [hdesc.1, hdesc.2.1, hindex, Nat.sub_self, Nat.add_zero]

theorem flows_answered (hc : s.Channels) (hs : Streams s.bus.mem s.dma)
    (hwaits : s.dma.state.waits = .r)
    (hdata : (s.inputs c).dmaRdata = beatAt g.DATA_BYTES s.bus.mem s.dma.readAddr) :
    Flows s c (s.dma.readResponse (s.inputs c) (s.port c)) := by
  have hsame := sameMachine_registerPort (s := s.dma) (i := s.inputs c)
  have htakes : s.takes c = none := takes_of_ne fun hidle => by rw [hidle] at hwaits; cases hwaits
  have hword := dmaReadWord_eq (c := c) hc hwaits
  have hbytes := congrArg (descriptorBytes g s.bus.mem) hsame.descAddr
  have hloaded := flows_loaded (c := c) hc hs
  unfold readResponse at hloaded ⊢
  cases hstate : s.dma.state <;> rw [hstate] at hwaits hloaded <;> dsimp only <;> try cases hwaits
  case txNdescR =>
    have hpos := hs.positive (by rw [hstate]; rfl)
    have hpos' : txLen g s.bus.mem (s.port c).descAddr ≠ 0 := by rw [hsame.descAddr]; exact hpos
    exact .of_kept htakes macTxValid_port (Streams.of_early (.inr (.inr (.inl rfl))) hpos')
      (Streams.of_early (.inr (.inl hstate)) hpos).2 hbytes ⟨by rw [hstate]; rfl, hsame.descAddr⟩
  case txCtrlR =>
    have hpos := hs.positive (by rw [hstate]; rfl)
    have hpos' : txLen g s.bus.mem (s.port c).descAddr ≠ 0 := by rw [hsame.descAddr]; exact hpos
    have hlen' : s.dma.dmaReadWord (s.inputs c) &&& BD_CTRL_LENGTH_MASK =
        txLen g s.bus.mem (s.port c).descAddr := by
      rw [hword (by unfold fetching; rw [hstate]) hdata, hsame.descAddr]
      unfold requestAddr txLen
      rw [hstate]
    exact .of_kept htakes macTxValid_port (Streams.of_bufa (.inl rfl) hpos' hlen')
      (Streams.of_early (.inr (.inr (.inr hstate))) hpos).2 hbytes
      ⟨by rw [hstate]; rfl, hsame.descAddr⟩
  case txBufaR =>
    have hpos := hs.positive (by rw [hstate]; rfl)
    have hlen := hs.len (.inr hstate)
    have haddressed : Addressed s.bus.mem
        { s.port c with
          readValid := false
          bufferAddr := s.dma.dmaReadWord (s.inputs c)
          offset := 0
          state := .txDataAr } := by
      refine ⟨?_, ?_, ?_⟩
      · change (s.port c).len = txLen g s.bus.mem (s.port c).descAddr
        rw [hsame.len, hsame.descAddr, hlen]
      · change s.dma.dmaReadWord (s.inputs c) = txBuffer g s.bus.mem (s.port c).descAddr
        rw [hword (by unfold fetching; rw [hstate]) hdata, hsame.descAddr]
        unfold requestAddr txBuffer
        rw [hstate]
      · change 0 < (s.port c).len.toNat
        rw [hsame.len, hlen, Nat.pos_iff_ne_zero]
        exact fun hzero => hpos (BitVec.eq_of_toNat_eq hzero)
    exact .of_kept htakes macTxValid_port (Streams.of_data (.inl rfl) haddressed)
      (Streams.of_bufa (.inr hstate) hpos hlen).2 hbytes ⟨by rw [hstate]; rfl, hsame.descAddr⟩
  case txDataR => exact hloaded rfl hdata
  all_goals exact .of_other htakes macTxValid_port (by rw [hstate]; rfl) rfl

theorem flows_holds (hs : Streams s.bus.mem s.dma) (hidle : s.dma.state ≠ .idle) :
    Flows s c (s.port c) := by
  have hsame := sameMachine_registerPort (s := s.dma) (i := s.inputs c)
  obtain ⟨hstreams, hbytes⟩ := hs.of_same hsame
  refine .of_silent (takes_of_ne hidle) macTxValid_port hstreams hbytes fun hon => ?_
  rw [hsame.state] at hon
  exact ⟨hon, hsame.descAddr⟩

theorem flows_moves (hs : Streams s.bus.mem s.dma)
    (hwaits : s.dma.state.waits = .ar ∨ s.dma.state.waits = .aw ∨ s.dma.state.waits = .w) :
    Flows s c (goto s.dma.state.after (s.port c)) := by
  have hsame := sameMachine_registerPort (s := s.dma) (i := s.inputs c)
  have htakes : s.takes c = none := takes_of_ne fun hidle => by rw [hidle] at hwaits; simp [EthGigDma.State.waits] at hwaits
  cases hstate : s.dma.state <;> rw [hstate] at hwaits <;>
    try rcases hwaits with hwaits | hwaits | hwaits <;> cases hwaits
  case txNdescAr =>
    have hpos := hs.positive (by rw [hstate]; rfl)
    have hpos' : txLen g s.bus.mem (s.port c).descAddr ≠ 0 := by rw [hsame.descAddr]; exact hpos
    exact .of_kept htakes macTxValid_port (Streams.of_early (.inr (.inl rfl)) hpos')
      (Streams.of_early (.inl hstate) hpos).2 (congrArg (descriptorBytes g s.bus.mem) hsame.descAddr)
      ⟨by rw [hstate]; rfl, hsame.descAddr⟩
  all_goals exact .of_other htakes macTxValid_port (by rw [hstate]; rfl) rfl

theorem flows_statusAw (hstate : s.dma.state = .rxStatusAw) {t : EthGigDma.State}
    (ht : t = .rxStatusAw ∨ t = .rxStatusW) :
    Flows s c (goto t (s.dma.holdStatusAw (s.port c))) := by
  refine .of_other (takes_of_ne (by rw [hstate]; simp)) macTxValid_port (by rw [hstate]; rfl) ?_
  rcases ht with rfl | rfl <;> rfl

theorem flows_written (hwaits : s.dma.state.waits = .b) :
    Flows s c (s.dma.writeResponse (s.inputs c) (s.port c)) := by
  have htakes : s.takes c = none := takes_of_ne fun hidle => by rw [hidle] at hwaits; cases hwaits
  have hsilent := macTxValid_port (s := s) (c := c)
  unfold writeResponse
  cases hstate : s.dma.state <;> rw [hstate] at hwaits <;> dsimp only <;> try cases hwaits
  case rxWriteB =>
    split_ifs
    · exact .of_other htakes hsilent (by rw [hstate]; rfl) rfl
    · exact .of_other htakes hsilent (by rw [hstate]; rfl) rfl
  all_goals exact .of_other htakes hsilent (by rw [hstate]; rfl) rfl

/-- The byte under way, and the counts after it. -/
structure Sending (mem : BitVec g.ADDR_WIDTH → BitVec 8) (n : EthGigDma g) (consumed : BitVec 32)
    (k : Nat) : Prop where
  inside : k < (txLen g mem n.descAddr).toNat
  byte : n.beat.extractLsb' (8 * n.byteIndex.toNat) 8 =
    bufferByte mem (txBuffer g mem n.descAddr) k
  last : n.len ≤ n.offset + consumed ↔ (txLen g mem n.descAddr).toNat = k + 1
  /-- The beat is used up. -/
  ends : n.beatValidBytes ≤ consumed → (n.offset + n.beatValidBytes).toNat = k + 1
  goesOn : ¬ n.beatValidBytes ≤ consumed →
    (n.byteIndex + 1).toNat = n.byteIndex.toNat + 1 ∧
      n.byteIndex.toNat + 1 < startLane n + n.beatValidBytes.toNat

theorem Loaded.sending (h : Loaded mem n) :
    Sending mem n (n.byteIndex - BitVec.ofNat 32 (startLane n) + 1)
      (n.offset.toNat + (n.byteIndex.toNat - startLane n)) := by
  have hlt : startLane n < g.DATA_BYTES := Nat.mod_lt _ DmaGeometry.bytes_pos
  have hle := DmaGeometry.bytes_le (g := g)
  have hlen : (txLen g mem n.descAddr).toNat < 2 ^ 23 := txLen_lt
  have hoffset := h.offset
  have hvalid := h.valid
  have hfirst := h.first
  have hlast := h.last
  have hbyte := h.bytes (n.byteIndex.toNat - startLane n) (by omega)
  rw [Nat.add_sub_cancel' hfirst, h.buffer] at hbyte
  rw [← h.len] at hlen
  have hlane : (BitVec.ofNat 32 (startLane n)).toNat = startLane n := by
    rw [BitVec.toNat_ofNat, Nat.mod_eq_of_lt (by omega)]
  have hsub : (n.byteIndex - BitVec.ofNat 32 (startLane n)).toNat =
      n.byteIndex.toNat - startLane n := by
    rw [BitVec.toNat_sub_of_le (BitVec.le_def.mpr (by omega)), hlane]
  have hconsumed : (n.byteIndex - BitVec.ofNat 32 (startLane n) + 1).toNat =
      n.byteIndex.toNat - startLane n + 1 := by
    rw [BitVec.toNat_add, hsub, show (1 : BitVec 32).toNat = 1 from rfl, Nat.mod_eq_of_lt (by omega)]
  have hsent : (n.offset + (n.byteIndex - BitVec.ofNat 32 (startLane n) + 1)).toNat =
      n.offset.toNat + (n.byteIndex.toNat - startLane n + 1) := by
    rw [BitVec.toNat_add, hconsumed, Nat.mod_eq_of_lt (by omega)]
  constructor
  · rw [← h.len]
    omega
  · exact hbyte
  · rw [BitVec.le_def, hsent, ← h.len]
    omega
  · intro hends
    rw [BitVec.le_def, hconsumed] at hends
    rw [BitVec.toNat_add, Nat.mod_eq_of_lt (by omega)]
    omega
  · intro hgoes
    rw [BitVec.le_def, hconsumed] at hgoes
    constructor
    · rw [BitVec.toNat_add, show (1 : BitVec 32).toNat = 1 from rfl, Nat.mod_eq_of_lt (by omega)]
    · omega

/-- A byte on its way comes first of those that were left. -/
theorem Flows.of_sent {R : List (BitVec 8 × Bool)} (hstate : s.dma.state = .txSend)
    (hready : c.macTxReady = true) (hvalid : n.macTxValid = true)
    (hafter : Streams s.bus.mem n ∧ remaining s.bus.mem n = R)
    (hbefore : remaining s.bus.mem s.dma = (n.macTxData, n.macTxLast) :: R)
    (hsource : n.descAddr = s.dma.descAddr) : Flows s c n where
  streams := hafter.1
  bytes := by
    rw [takes_of_ne (by rw [hstate]; simp), hafter.2, hbefore]
    unfold inFlight
    rw [hvalid]
    exact (List.append_nil _).symm
  source _ := .inr ⟨by rw [hstate]; rfl, hsource⟩
  sends _ := ⟨hstate, hready⟩

theorem flows_sends (hs : Streams s.bus.mem s.dma) (hstate : s.dma.state = .txSend)
    (hready : c.macTxReady = true) : Flows s c (s.dma.send (s.port c)) := by
  have hsame := sameMachine_registerPort (s := s.dma) (i := s.inputs c)
  have hloaded := hs.loaded hstate
  have hport := hloaded.of_same hsame
  have hlane := startLane_of_same hsame
  have hsending := hloaded.sending
  obtain ⟨-, hremaining⟩ := Streams.of_send hstate hloaded
  generalize hk : s.dma.offset.toNat + (s.dma.byteIndex.toNat - startLane s.dma) = k
    at hsending hremaining
  rw [drop_descriptorBytes hsending.inside, ← hsending.byte,
    decide_eq_decide.mpr hsending.last.symm] at hremaining
  have hafter : (descriptorBytes g s.bus.mem (s.port c).descAddr).drop (k + 1) =
      (descriptorBytes g s.bus.mem s.dma.descAddr).drop (k + 1) := by
    rw [hsame.descAddr]
  unfold send
  dsimp only
  split_ifs with hends hdone
  · -- the final byte
    have hnil : (descriptorBytes g s.bus.mem s.dma.descAddr).drop (k + 1) = [] := by
      apply List.drop_eq_nil_of_le
      rw [length_descriptorBytes, ← hloaded.len, ← hsending.ends hends]
      exact BitVec.le_def.mp hdone
    rw [hnil] at hremaining
    refine .of_sent hstate hready rfl ?_ hremaining hsame.descAddr
    exact ⟨Streams.of_other rfl, rfl⟩
  · -- the beat is used up
    refine .of_sent hstate hready rfl ?_ hremaining hsame.descAddr
    have haddressed : Addressed s.bus.mem (goto .txDataAr
        { s.port c with
          macTxData := s.dma.beat.extractLsb' (8 * s.dma.byteIndex.toNat) 8
          macTxValid := true
          macTxLast := decide (s.dma.len ≤ s.dma.offset +
            (s.dma.byteIndex - BitVec.ofNat 32 (startLane s.dma) + 1))
          offset := s.dma.offset + s.dma.beatValidBytes }) := by
      refine ⟨hport.len, hport.buffer, ?_⟩
      change (s.dma.offset + s.dma.beatValidBytes).toNat < (s.port c).len.toNat
      rw [hsame.len]
      exact Nat.lt_of_not_le fun hle => hdone (BitVec.le_def.mpr hle)
    obtain ⟨hstreams, hleft⟩ := Streams.of_data (.inl rfl) haddressed
    refine ⟨hstreams, hleft.trans ?_⟩
    change (descriptorBytes g s.bus.mem (s.port c).descAddr).drop
      (s.dma.offset + s.dma.beatValidBytes).toNat = _
    rw [hsending.ends hends, hafter]
  · -- the beat has more bytes
    refine .of_sent hstate hready rfl ?_ hremaining hsame.descAddr
    obtain ⟨hindex, hlast⟩ := hsending.goesOn hends
    have hload : Loaded s.bus.mem
        { s.port c with
          macTxData := s.dma.beat.extractLsb' (8 * s.dma.byteIndex.toNat) 8
          macTxValid := true
          macTxLast := decide (s.dma.len ≤ s.dma.offset +
            (s.dma.byteIndex - BitVec.ofNat 32 (startLane s.dma) + 1))
          byteIndex := s.dma.byteIndex + 1 } := by
      refine ⟨⟨hport.len, hport.buffer, hport.offset⟩, hport.valid, ?_, ?_, hport.bytes⟩
      · change startLane (s.port c) ≤ (s.dma.byteIndex + 1).toNat
        rw [hindex, hlane]
        exact Nat.le_succ_of_le hloaded.first
      · change (s.dma.byteIndex + 1).toNat <
          startLane (s.port c) + (s.port c).beatValidBytes.toNat
        rw [hindex, hlane, hsame.beatValidBytes]
        exact hlast
    obtain ⟨hstreams, hleft⟩ := Streams.of_send (by exact hsame.state.trans hstate) hload
    refine ⟨hstreams, hleft.trans ?_⟩
    change (descriptorBytes g s.bus.mem (s.port c).descAddr).drop
      ((s.port c).offset.toNat + ((s.dma.byteIndex + 1).toNat - startLane (s.port c))) = _
    have hfirst := hloaded.first
    rw [hindex, hlane, hsame.offset, ← hafter]
    congr 1
    omega

/-- A clock in which the engine may take up a descriptor. -/
theorem flows_fetches (hidle : s.dma.state = .idle)
    (htakes : s.takes c = if s.dma.txFetches = true then some s.dma.txCdesc else none)
    (hlen : ∀ d, s.takes c = some d → txLen g s.bus.mem d ≠ 0)
    (hstate : n.state = (s.dma.advance (s.inputs c) (s.port c)).state)
    (hdesc : n.descAddr = (s.dma.advance (s.inputs c) (s.port c)).descAddr)
    (hvalid : n.macTxValid = (s.dma.advance (s.inputs c) (s.port c)).macTxValid) :
    Flows s c n := by
  have hsame := sameMachine_registerPort (s := s.dma) (i := s.inputs c)
  have hstreaming : s.dma.state.streaming = false := by rw [hidle]; rfl
  have hsilent := macTxValid_port (s := s) (c := c)
  unfold advance at hstate hdesc hvalid
  rw [hidle] at hstate hdesc hvalid
  dsimp only at hstate hdesc hvalid
  by_cases htx : s.dma.txFetches = true
  · rw [if_pos htx] at htakes hstate hdesc hvalid
    have hcdesc : n.descAddr = s.dma.txCdesc := hdesc
    rw [← hcdesc] at htakes
    exact .of_takes hidle htakes (hvalid.trans hsilent) hstate (hlen _ htakes)
  · rw [if_neg htx] at htakes hstate hvalid
    by_cases hrxf : s.dma.rxFetches = true
    · rw [if_pos hrxf] at hstate hvalid
      exact .of_other htakes (hvalid.trans hsilent) hstreaming (by rw [hstate]; rfl)
    · rw [if_neg hrxf] at hstate hvalid
      exact .of_other htakes (hvalid.trans hsilent) hstreaming
        (by rw [hstate, hsame.state]; exact hstreaming)

theorem flows_idles (hidle : s.dma.state = .idle)
    (hrx : s.dma.rxAccepts (s.inputs c) = false)
    (hlen : ∀ d, s.takes c = some d → txLen g s.bus.mem d ≠ 0) :
    Flows s c (s.dma.advance (s.inputs c) (s.port c)) := by
  refine flows_fetches hidle ?_ hlen rfl rfl rfl
  unfold takes
  rw [hrx, Bool.false_and]
  simp only [hidle, true_and, and_true]

theorem flows_accepts (hrx : s.dma.rxAccepts (s.inputs c) = true)
    (hlen : ∀ d, s.takes c = some d → txLen g s.bus.mem d ≠ 0) :
    Flows s c (s.dma.accept (s.inputs c) (s.dma.advance (s.inputs c) (s.port c))) := by
  have hidle : s.dma.state = .idle := by
    unfold rxAccepts at hrx
    simp only [Bool.and_eq_true, decide_eq_true_eq] at hrx
    exact hrx.1.1.1.1
  cases hflush : s.dma.rxFlushes (s.inputs c)
  · refine flows_fetches hidle ?_ hlen ?_ ?_ ?_
    · unfold takes
      rw [hflush, Bool.and_false]
      simp only [hidle, true_and, and_true]
    all_goals
      unfold accept
      rw [hflush, if_neg Bool.false_ne_true]
  · have htakes : s.takes c = none := by
      refine if_neg fun hall => ?_
      rw [hrx, hflush] at hall
      exact absurd hall.2.2 (Bool.noConfusion ·)
    have hsilent : (s.dma.advance (s.inputs c) (s.port c)).macTxValid = false := by
      have hport := macTxValid_port (s := s) (c := c)
      unfold advance
      rw [hidle]
      dsimp only
      split_ifs <;> exact hport
    refine .of_other htakes ?_ (by rw [hidle]; rfl) ?_
    all_goals
      unfold accept
      rw [hflush, if_pos rfl]
    · exact hsilent
    · rfl

theorem Step.flows (h : s.Step c n) (hc : s.Channels) (hs : Streams s.bus.mem s.dma)
    (hlen : ∀ d, s.takes c = some d → txLen g s.bus.mem d ≠ 0) : Flows s c n := by
  cases h with
  | holds hne _ => exact flows_holds hs hne
  | moves hwaits => exact flows_moves hs hwaits
  | requests t hwaits ht => exact flows_request hs hwaits ht
  | statusAw t hstate ht => exact flows_statusAw hstate ht
  | answered hwaits hdata => exact flows_answered hc hs hwaits hdata
  | written hwaits _ => exact flows_written hwaits
  | sends hstate hready => exact flows_sends hs hstate hready
  | idles hidle hrx => exact flows_idles hidle hrx hlen
  | accepts hrx => exact flows_accepts hrx hlen

end DmaSystem

/-! ## The queue -/

namespace MacTx

variable {depth : Nat} {m : MacTx} {i : MacTxInputs}

theorem txCount_work (h : i.reset = false) : (m.work depth i).txCount = m.txCountNext depth i := by
  unfold work
  dsimp only
  rw [h]
  rfl

theorem txPush_iff : m.txPush depth i = true ↔ i.txValid = true ∧ m.txCount ≠ depth := by
  unfold txPush txReady
  rw [Bool.and_eq_true, decide_eq_true_eq]

theorem txCountNext_le (h : m.txCount ≤ depth) : m.txCountNext depth i ≤ depth := by
  unfold txCountNext
  split_ifs with hpush hpop
  · rw [Bool.and_eq_true, txPush_iff] at hpush
    exact Nat.lt_of_le_of_ne h hpush.1.2
  · exact (Nat.sub_le _ _).trans h
  · exact h

/-- The queue fills only with a byte, and when none leaves. -/
theorem txCountNext_ne (h : m.txCount ≤ depth) (hroom : m.txCount ≠ depth)
    (hpop : i.txValid = true → m.txCount + 1 = depth → m.txPopPayload i = true) :
    m.txCountNext depth i ≠ depth := by
  unfold txCountNext
  split_ifs with hpush hpop'
  · intro hfull
    rw [Bool.and_eq_true, txPush_iff] at hpush
    have hleaves := hpop hpush.1.1 hfull
    rw [hleaves] at hpush
    exact Bool.false_ne_true hpush.2
  · intro hfull
    omega
  · exact hroom

end MacTx

/-! ## The invariant -/

theorem taken_snoc (clocks : List StreamClock) (e : StreamClock) :
    taken (clocks ++ [e]) = taken clocks ++ e.taken := by
  unfold taken
  rw [List.flatMap_append, List.flatMap_singleton]

theorem stored_snoc (clocks : List StreamClock) (e : StreamClock) :
    stored (clocks ++ [e]) = stored clocks ++ e.stored.toList := by
  unfold stored
  rw [List.filterMap_append]
  congr 1

namespace StreamState

open DmaSystem

variable {depth : Nat} {s : StreamState g} {c : DmaClock g} {pcsTxReady : Bool}
  {clocks : List StreamClock}

/-- What has been taken up is stored, on its way, or left. -/
structure Sound (depth : Nat) (clocks : List StreamClock) (s : StreamState g) : Prop where
  channels : s.sys.Channels
  streams : Streams s.sys.bus.mem s.sys.dma
  count : s.mac.txCount ≤ depth
  room : s.sys.dma.macTxValid = true → s.mac.txCount ≠ depth
  bytes : taken clocks =
    stored clocks ++ (inFlight s.sys.dma ++ remaining s.sys.bus.mem s.sys.dma)

theorem Sound.start (hstart : s.sys.Starts) (hmac : ∃ m : MacTx, s.mac = m.cleared) :
    Sound depth [] s := by
  have hchannels := hstart.channels
  obtain ⟨m, hm⟩ := hmac
  obtain ⟨a, hdma⟩ := hstart.dma
  have hsilent : s.sys.dma.macTxValid = false := by rw [hdma]; rfl
  have hidle : s.sys.dma.state.streaming = false := by rw [hdma]; rfl
  refine ⟨hchannels, .of_other hidle, ?_, ?_, ?_⟩
  · rw [hm]
    exact Nat.zero_le depth
  · intro hvalid
    exact absurd (hsilent.symm.trans hvalid) Bool.false_ne_true
  · rw [inFlight_of_silent hsilent, remaining_of_other hidle]
    rfl

theorem Sound.stored_event (h : Sound depth clocks s) :
    (s.event depth c pcsTxReady).stored.toList = inFlight s.sys.dma := by
  unfold event inFlight
  dsimp only
  cases hvalid : s.sys.dma.macTxValid
  · rw [if_neg, if_neg Bool.false_ne_true]
    · rfl
    · intro hpush
      have hon : s.sys.dma.macTxValid = true := (MacTx.txPush_iff.mp hpush).1
      exact absurd (hvalid.symm.trans hon) Bool.false_ne_true
  · rw [if_pos (MacTx.txPush_iff.mpr ⟨hvalid, h.room hvalid⟩), if_pos rfl]
    rfl

theorem Sound.next (h : Sound depth clocks s) (hroom : s.Room depth c pcsTxReady) :
    Sound depth (clocks ++ [s.event depth c pcsTxReady]) (s.next depth c pcsTxReady) := by
  obtain ⟨hstep, hchannels⟩ := h.channels.next (c := s.clock depth c)
  have hflows := hstep.flows h.channels h.streams hroom.length
  have hcount : (s.next depth c pcsTxReady).mac.txCount =
      s.mac.txCountNext depth (s.macInputs pcsTxReady) := MacTx.txCount_work rfl
  -- the descriptor under way is not changed
  have hmem : Streams (s.next depth c pcsTxReady).sys.bus.mem (s.next depth c pcsTxReady).sys.dma ∧
      remaining (s.next depth c pcsTxReady).sys.bus.mem (s.next depth c pcsTxReady).sys.dma =
        remaining s.sys.bus.mem (s.next depth c pcsTxReady).sys.dma := by
    cases hon : (s.next depth c pcsTxReady).sys.dma.state.streaming
    · exact ⟨.of_other hon, (remaining_of_other hon).trans (remaining_of_other hon).symm⟩
    · have hsource := hflows.source hon
      have hne : s.sys.dma.state.waits ≠ .w := by
        intro hw
        rcases hsource with htakes | ⟨hstreaming, -⟩
        · rw [takes_of_ne fun hidle => by rw [hidle] at hw; cases hw] at htakes
          cases htakes
        · exact EthGigDma.State.waits_of_streaming hstreaming hw
      have hnext : (s.next depth c pcsTxReady).sys.bus.mem = overlay s.sys.bus.mem c.others :=
        h.channels.mem_next_of_ne (.inl hne)
      rw [hnext]
      refine hflows.streams.untouched (hroom.untouched _ ?_)
      rcases hsource with htakes | ⟨hstreaming, hdesc⟩
      · exact .inl htakes
      · exact .inr ⟨hstreaming, hdesc⟩
  refine ⟨hchannels, hmem.1, ?_, fun hvalid => ?_, ?_⟩
  · rw [hcount]
    exact MacTx.txCountNext_le h.count
  · obtain ⟨hsend, hready⟩ := hflows.sends hvalid
    have hnotFull : s.mac.txCount ≠ depth := of_decide_eq_true hready
    rw [hcount]
    exact MacTx.txCountNext_ne h.count hnotFull fun hin => hroom.room hsend hready hin
  · have hbytes := hflows.bytes
    rw [taken_snoc, stored_snoc, h.bytes, hmem.2, h.stored_event, List.append_assoc, List.append_assoc,
      List.append_assoc]
    congr 2
    exact hbytes.symm

theorem Sound.intact (h : Sound depth clocks s) : Intact clocks s where
  ordered := by
    rw [h.bytes]
    exact List.prefix_append _ _
  complete hidle hsilent := by
    rw [h.bytes, inFlight_of_silent hsilent, remaining_of_other hidle]
    exact (List.append_nil _).symm

/-- Under the condition the queue gets the bytes of the descriptors. -/
theorem stream_intact
    (h : (streamRuns g depth fun s c pcsTxReady => s.Room depth c pcsTxReady).Traces clocks s) :
    Intact clocks s := by
  obtain ⟨s₀, ⟨hstart, hmac⟩, hrun⟩ := h
  have hsound : Sound depth clocks s := by
    refine hrun.invariant (Sound depth) (.start hstart hmac) ?_
    rintro clocks s (_ | e) s' hinv hstep
    · exact hstep.elim
    · obtain ⟨c, pcsTxReady, hok, rfl, rfl⟩ := hstep
      exact hinv.next hok
  exact hsound.intact

/-! ## Runs on given inputs -/

/-- The condition, where nobody else writes to memory. -/
def roomy (depth : Nat) (s : StreamState g) (c : DmaClock g) (pcsTxReady : Bool) : Bool :=
  (!(decide (s.sys.dma.state = .txSend) && s.mac.txReady depth && s.sys.dma.macTxValid &&
    decide (s.mac.txCount + 1 = depth)) || s.mac.txPopPayload (s.macInputs pcsTxReady)) &&
  (s.sys.takes (s.clock depth c)).all fun d => decide (txLen g s.sys.bus.mem d ≠ 0)

theorem Room.of_roomy (hothers : c.others = fun _ => none)
    (h : s.roomy depth c pcsTxReady = true) : s.Room depth c pcsTxReady := by
  unfold roomy at h
  rw [Bool.and_eq_true] at h
  refine ⟨fun hsend hready hvalid hlast => ?_, fun d hd => ?_, fun d _ => ?_⟩
  · have hroom := h.1
    rw [decide_eq_true hsend, hready, hvalid, decide_eq_true hlast] at hroom
    exact hroom
  · have hlen := h.2
    rw [hd, Option.all_some, decide_eq_true_eq] at hlen
    exact hlen
  · have hmem : overlay s.sys.bus.mem c.others = s.sys.bus.mem :=
      funext fun b => overlay_of_none (by rw [hothers])
    rw [hmem]
    exact ⟨rfl, rfl, fun _ _ => rfl⟩

/-- One descriptor of three bytes. -/
def streamMem (b : BitVec 32) : BitVec 8 :=
  if b = 0x48 then 0x80 else if b = 0x58 then 3 else if b = 0x80 then 0xa1 else
    if b = 0x81 then 0xa2 else if b = 0x82 then 0xa3 else 0

def streamStart : StreamState RingState.small where
  sys := ⟨resetState 0, streamMem, none, .free⟩
  mac := MacTx.cleared ⟨fun _ => 0, fun _ => false, 0, 0, 0, false, 0, false, .idle, 0, 0, 0, 0, 0,
    0, 0, 0⟩

/-- The three clocks of a register write. -/
def streamWrite (addr word : BitVec 32) : List (Option (BitVec 32) × Option (BitVec 32)) :=
  [(some addr, none), (none, some word), (none, none)]

/-- The descriptor is posted, and the engine runs. -/
def streamInputs : List (Option (BitVec 32) × Option (BitVec 32)) :=
  streamWrite 0x108 0x40 ++ streamWrite 0x100 1 ++ streamWrite 0x110 0x40 ++
    List.replicate 20 (none, none)

/-- The line is never ready. -/
def streamEvent (depth : Nat) (s : StreamState RingState.small)
    (x : Option (BitVec 32) × Option (BitVec 32)) : StreamClock :=
  s.event depth (RingState.smallClock x.1 x.2) false

def streamNext (depth : Nat) (s : StreamState RingState.small)
    (x : Option (BitVec 32) × Option (BitVec 32)) : StreamState RingState.small :=
  s.next depth (RingState.smallClock x.1 x.2) false

abbrev streamClocks (depth : Nat) : List StreamClock :=
  Transitions.eventsAlong (streamEvent depth) (streamNext depth) streamStart streamInputs

abbrev streamEnd (depth : Nat) : StreamState RingState.small :=
  streamInputs.foldl (streamNext depth) streamStart

theorem stream_run {ok : StreamState RingState.small → DmaClock RingState.small → Bool → Prop}
    {depth : Nat} {P : StreamState RingState.small → Option (BitVec 32) × Option (BitVec 32) → Prop}
    (hok : ∀ s x, P s x → ok s (RingState.smallClock x.1 x.2) false)
    (h : Transitions.Along P (streamNext depth) streamStart streamInputs) :
    (streamRuns RingState.small depth ok).Traces (streamClocks depth) (streamEnd depth) := by
  refine ⟨streamStart, ⟨⟨⟨0, rfl⟩, rfl, rfl⟩, ⟨_, rfl⟩⟩, Transitions.Run.of_inputs ?_ h⟩
  intro s x hx
  exact ⟨RingState.smallClock x.1 x.2, false, hok s x hx, rfl, rfl⟩

/-- Three bytes in a row meet a queue with two places: the third is lost. -/
theorem byte_is_lost :
    ¬ ∀ (clocks : List StreamClock) (s : StreamState RingState.small),
      (streamRuns RingState.small 2 fun _ _ _ => True).Traces clocks s → Intact clocks s := by
  intro h
  have hrun : (streamRuns RingState.small 2 fun _ _ _ => True).Traces (streamClocks 2)
      (streamEnd 2) :=
    stream_run (P := fun _ _ => True) (fun _ _ _ => trivial) (by decide +kernel)
  have hintact := h _ _ hrun
  have hcomplete := hintact.complete (by decide +kernel) (by decide +kernel)
  have hstored : stored (streamClocks 2) = [(0xa1, false), (0xa2, false)] := by decide +kernel
  have htaken : taken (streamClocks 2) = [(0xa1, false), (0xa2, false), (0xa3, true)] := by
    decide +kernel
  rw [hstored, htaken] at hcomplete
  cases hcomplete

/-- With a third place they are all stored. -/
theorem stream_intact_small :
    Intact (streamClocks 3) (streamEnd 3) ∧
      stored (streamClocks 3) = [(0xa1, false), (0xa2, false), (0xa3, true)] := by
  have hrun : (streamRuns RingState.small 3 fun s c pcsTxReady => s.Room 3 c pcsTxReady).Traces
      (streamClocks 3) (streamEnd 3) :=
    stream_run (P := fun s x => s.roomy 3 (RingState.smallClock x.1 x.2) false = true)
      (fun _ _ hroomy => .of_roomy rfl hroomy) (by decide +kernel)
  exact ⟨stream_intact hrun, by decide +kernel⟩

end StreamState

end CppHdl.Devices
