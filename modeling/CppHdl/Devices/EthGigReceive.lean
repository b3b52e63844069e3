import CppHdl.Devices.EthGigRing

/-!
# Frames into memory

A received frame is collected beat by beat, and each beat is written over the bytes that are
there. After the last one the engine writes the two words of the descriptor. Both directions
share the counts of the beat, and nothing keeps a transmit descriptor from being taken up
between two received bytes.
-/

namespace CppHdl.Devices

open EthGigDma

variable {g : DmaGeometry}

/-! ## What is received -/

/-- The engine, the receive descriptor and the buffer in use, and the bytes received since a
frame was complete. -/
structure ReceiveState (g : DmaGeometry) where
  sys : DmaSystem g
  desc : BitVec 32
  buffer : BitVec 32
  got : List (BitVec 8 × Bool)

/-- Only the final byte is marked. -/
def IsFrame (bytes : List (BitVec 8 × Bool)) : Prop :=
  ∃ body last, bytes = body ++ [(last, true)] ∧ ∀ x ∈ body, x.2 = false

def InWord (g : DmaGeometry) (d : BitVec 32) (b : BitVec g.ADDR_WIDTH) : Prop :=
  ∃ q < 4, b = (d + BitVec.ofNat 32 q).setWidth g.ADDR_WIDTH

instance {d : BitVec 32} {b : BitVec g.ADDR_WIDTH} : Decidable (InWord g d b) :=
  inferInstanceAs (Decidable (∃ q, q < 4 ∧ _))

def byteAddr (g : DmaGeometry) (buffer : BitVec 32) (k : Nat) : BitVec g.ADDR_WIDTH :=
  (buffer + BitVec.ofNat 32 k).setWidth g.ADDR_WIDTH

namespace EthGigDma

/-- The stages of a frame: the engine waits for bytes, reads a descriptor, reads and writes
over the bytes of a beat, has stored them, writes the length and then the status of the
descriptor, or is away at a transmit descriptor. -/
inductive Stage
  | waiting
  | opening
  | flushing
  | merged
  | stored
  | appending
  | appended
  | finishing
  | marking
  | marked
  | away
  deriving DecidableEq

def State.stage : State → Stage
  | idle => .waiting
  | rxNdescAr | rxNdescR | rxBufaAr | rxBufaR => .opening
  | rxRmwAr | rxRmwR => .flushing
  | rxWriteAw | rxWriteW => .merged
  | rxWriteB => .stored
  | rxApp4RmwAr | rxApp4RmwR | rxApp4Aw | rxApp4W => .appending
  | rxApp4B => .appended
  | rxStatusRmwAr | rxStatusRmwR => .finishing
  | rxStatusAw | rxStatusW => .marking
  | rxStatusB => .marked
  | _ => .away

theorem State.stage_after {t : State} (h : t.waits = .ar ∨ t.waits = .aw ∨ t.waits = .request) :
    t.after.stage = t.stage := by
  cases t <;> first | rfl | (rcases h with h | h | h <;> cases h)

end EthGigDma

namespace DmaSystem

variable (s : DmaSystem g) (c : DmaClock g)

/-- The buffer of a receive descriptor becomes known. -/
def opens : Bool :=
  decide (s.dma.state = .rxBufaR) && (s.bus.rvalid c.timing && s.dma.readValid)

/-- A receive descriptor is taken up, or being read. -/
def fetchesRx : Bool :=
  decide (s.dma.state.stage = .opening) || (decide (s.dma.state = .idle) && !s.dma.txFetches && s.dma.rxFetches)

def receives : Option (BitVec 8 × Bool) :=
  if s.dma.macRxReady && c.macRxValid then some (c.macRxData, c.macRxLast) else none

/-- A receive descriptor is complete. -/
def delivers : Bool := s.dma.rxWriteComplete (s.inputs c)

end DmaSystem

namespace ReceiveState

variable (r : ReceiveState g) (c : DmaClock g)

def next : ReceiveState g where
  sys := r.sys.next c
  desc := if r.sys.opens c then r.sys.dma.rxDescAddr else r.desc
  buffer := if r.sys.opens c then
      laneAt g.DATA_BYTES r.sys.bus.mem ((r.sys.dma.rxDescAddr + BD_BUFA_OFFSET).setWidth g.ADDR_WIDTH)
    else r.buffer
  got := if r.sys.opens c || r.sys.delivers c then [] else r.got ++ (r.sys.receives c).toList

def InArea (b : BitVec g.ADDR_WIDTH) : Prop := ∃ k < r.got.length, b = byteAddr g r.buffer k

/-- A frame is in its buffer, and its length in the status of its descriptor. -/
structure Delivered : Prop where
  frame : IsFrame r.got
  bytes : r.got.map Prod.fst =
    (List.range r.got.length).map fun k => r.sys.bus.mem (byteAddr g r.buffer k)
  status : laneAt g.DATA_BYTES r.sys.bus.mem ((r.desc + BD_STS_OFFSET).setWidth g.ADDR_WIDTH) =
    BD_STS_COMPLETE_MASK ||| BitVec.ofNat 32 r.got.length |||
      (BD_STS_RXSOF_MASK ||| BD_STS_RXEOF_MASK)

/-- Frames are received intact, and nothing else is written, except that a transmit
descriptor gets its status. -/
structure Receives : Prop where
  delivered : ∀ c, r.sys.delivers c = true → r.Delivered
  confined : ∀ c b, (r.sys.next c).bus.mem b ≠ overlay r.sys.bus.mem c.others b →
    r.InArea b ∨ InWord g (r.desc + BD_STS_OFFSET) b ∨ InWord g (r.desc + BD_USR4_OFFSET) b ∨
      r.sys.dma.state = .txStatusW ∧ InWord g (r.sys.dma.txCdesc + BD_STS_OFFSET) b

/-- No transmit descriptor is taken up between two bytes of a frame; frames fit the length
field and memory, and stay off the words of their descriptor; software leaves what is
received and the descriptors in use alone; descriptors are at words. -/
structure Allowed : Prop where
  apart : r.sys.takes c ≠ none → r.got = [] ∧ r.sys.receives c = none
  room : r.sys.receives c ≠ none → r.got.length + 1 < 2 ^ 23 ∧
    r.got.length + 1 ≤ 2 ^ g.ADDR_WIDTH ∧
    ¬ InWord g (r.desc + BD_STS_OFFSET) (byteAddr g r.buffer r.got.length) ∧
    ¬ InWord g (r.desc + BD_USR4_OFFSET) (byteAddr g r.buffer r.got.length)
  others : ∀ b, c.others b ≠ none → ¬ r.InArea b ∧
    (r.sys.dma.state = .rxStatusB → ¬ InWord g (r.desc + BD_STS_OFFSET) b)
  rxCdesc : r.sys.writes c .rxCdesc ≠ none →
    r.got = [] ∧ r.sys.receives c = none ∧ r.sys.fetchesRx = false ∨ r.sys.delivers c = true
  txCdesc : r.sys.dma.state.inTx = true ∨ r.sys.takes c ≠ none →
    (r.sys.port c).txCdesc = r.sys.dma.txCdesc
  rxAligned : r.sys.opens c = true → r.sys.dma.rxDescAddr.toNat % 4 = 0
  txAligned : ∀ d, r.sys.takes c = some d → d.toNat % 4 = 0

end ReceiveState

/-- Runs from a reset on, of clocks under a condition. -/
def receiveRuns (g : DmaGeometry) (ok : ReceiveState g → DmaClock g → Prop) :
    Transitions (ReceiveState g) (DmaClock g) where
  init r := r.sys.Starts ∧ r.got = []
  step
    | r, some c, r' => ok r c ∧ r' = r.next c
    | _, none, _ => False

/-! ## Stores -/

/-- A store changes bytes of its beat whose strobe is on. -/
theorem storeBeat_of_changed {w n : Nat} {mem : BitVec w → BitVec 8} {a b : BitVec w}
    {data : BitVec (8 * n)} {strobe : BitVec n} (h : storeBeat mem a data strobe b ≠ mem b) :
    b.toNat / n = a.toNat / n ∧ strobe.getLsbD (b.toNat % n) = true := by
  unfold storeBeat at h
  split_ifs at h with hon
  · exact hon
  · exact absurd rfl h

namespace DmaGeometry

/-- A byte of the beat of `x` by its distance from `x`. -/
theorem eq_of_beat {x : BitVec 32} {b : BitVec g.ADDR_WIDTH} {q : Nat}
    (hdiv : b.toNat / g.DATA_BYTES = (beatStart (g := g) x).toNat / g.DATA_BYTES)
    (hmod : b.toNat % g.DATA_BYTES = x.toNat % g.DATA_BYTES + q) :
    b = byteAddr g x q := by
  have hlt : b.toNat % g.DATA_BYTES < g.DATA_BYTES := Nat.mod_lt _ bytes_pos
  unfold byteAddr
  rw [← beatByte_eq x (by omega), ← beatStart_div, ← hdiv, ← hmod, Nat.div_add_mod']
  rw [BitVec.ofNat_toNat, BitVec.setWidth_eq]

theorem byteAddr_add (x y : BitVec 32) (j : Nat) :
    byteAddr g (x + y) j = byteAddr g x (y.toNat + j) := by
  unfold byteAddr
  rw [BitVec.ofNat_add, BitVec.ofNat_toNat, BitVec.setWidth_eq, BitVec.add_assoc]

theorem byteAddr_place {x : BitVec 32} {j : Nat} (hj : x.toNat % g.DATA_BYTES + j < g.DATA_BYTES) :
    (byteAddr g x j).toNat / g.DATA_BYTES = (beatStart (g := g) x).toNat / g.DATA_BYTES ∧
      (byteAddr g x j).toNat % g.DATA_BYTES = x.toNat % g.DATA_BYTES + j := by
  unfold byteAddr
  rw [← beatByte_eq x hj, beatByte_div bytes_dvd hj, beatByte_mod bytes_dvd hj, beatStart_div]
  exact ⟨rfl, rfl⟩

/-- Bytes of a buffer that is not larger than memory are apart. -/
theorem byteAddr_inj {x : BitVec 32} {j k : Nat} (hj : j < 2 ^ g.ADDR_WIDTH)
    (hk : k < 2 ^ g.ADDR_WIDTH) (h : byteAddr g x j = byteAddr g x k) : j = k := by
  have hnat := congrArg BitVec.toNat h
  unfold byteAddr at hnat
  rw [toNat_setWidth_add, toNat_setWidth_add] at hnat
  have hmod : j ≡ k [MOD 2 ^ g.ADDR_WIDTH] := Nat.ModEq.add_left_cancel' _ hnat
  exact Nat.ModEq.eq_of_lt_of_lt hmod hj hk

end DmaGeometry

namespace EthGigDma

variable {s n : EthGigDma g} {i : DmaInputs g}

theorem inWord_of_strobe {d : BitVec 32} {b : BitVec g.ADDR_WIDTH}
    (hdiv : b.toNat / g.DATA_BYTES = (beatStart (g := g) d).toNat / g.DATA_BYTES)
    (hstrobe : (wordWriteStrb (g := g) d).getLsbD (b.toNat % g.DATA_BYTES) = true) :
    InWord g d b := by
  have hlt : b.toNat % g.DATA_BYTES < g.DATA_BYTES := Nat.mod_lt _ DmaGeometry.bytes_pos
  unfold wordWriteStrb at hstrobe
  rw [getLsbD_withBits _ _ _ hlt] at hstrobe
  by_cases hin : d.toNat % g.DATA_BYTES ≤ b.toNat % g.DATA_BYTES ∧
      b.toNat % g.DATA_BYTES < d.toNat % g.DATA_BYTES + 4
  · exact ⟨b.toNat % g.DATA_BYTES - d.toNat % g.DATA_BYTES, by omega,
      DmaGeometry.eq_of_beat hdiv (by omega)⟩
  · rw [if_neg hin] at hstrobe
    exact absurd (BitVec.getLsbD_zero.symm.trans hstrobe) Bool.false_ne_true

theorem getLsbD_rxPayloadWriteStrb {k : Nat} (hk : k < g.DATA_BYTES) :
    s.rxPayloadWriteStrb.getLsbD k = s.inPayload k := by
  have hone : (fun (strb : BitVec g.DATA_BYTES) k =>
      if s.inPayload k then withBits strb k (1 : BitVec 1) else strb) =
      fun strb k => if s.inPayload k then withBits strb (1 * k) (1 : BitVec 1) else strb := by
    funext strb k
    rw [Nat.one_mul]
  unfold rxPayloadWriteStrb
  rw [hone, getLsbD_foldl_withBits _ _ _ _ hk, Nat.one_mul, Nat.div_one, Nat.mod_one]
  cases s.inPayload k
  · rw [if_neg (fun h => Bool.false_ne_true h.2)]
    exact BitVec.getLsbD_zero
  · rw [if_pos ⟨hk, rfl⟩]
    rfl

theorem extractLsb'_rxMergedBeat {k : Nat} (hk : k < g.DATA_BYTES) (hin : s.inPayload k = true) :
    (s.rxMergedBeat i).extractLsb' (8 * k) 8 = s.beat.extractLsb' (8 * k) 8 := by
  apply BitVec.eq_of_getLsbD_eq
  intro j hj
  have hbit : 8 * k + j < g.DATA_WIDTH := by
    unfold DmaGeometry.DATA_WIDTH
    omega
  unfold rxMergedBeat
  rw [BitVec.getLsbD_extractLsb', getLsbD_foldl_withBits _ _ _ _ hbit,
    show (8 * k + j) / 8 = k by omega, show (8 * k + j) % 8 = j by omega, if_pos ⟨by omega, hin⟩,
    decide_eq_true hj, Bool.true_and]

/-! ## The beat under reception -/

def rxLane (n : EthGigDma g) : Nat := (n.rxBufferAddr + n.offset).toNat % g.DATA_BYTES

theorem rxLane_lt : rxLane n < g.DATA_BYTES := Nat.mod_lt _ DmaGeometry.bytes_pos

/-- The received bytes are in memory, and the last few of them in the beat. -/
structure Holds (mem : BitVec g.ADDR_WIDTH → BitVec 8) (got : List (BitVec 8 × Bool))
    (n : EthGigDma g) : Prop where
  count : n.offset.toNat + n.beatValidBytes.toNat = got.length
  len : n.len = n.offset
  small : got.length < 2 ^ 23
  wraps : got.length ≤ 2 ^ g.ADDR_WIDTH
  stored : ∀ k < n.offset.toNat, got[k]?.map Prod.fst = some (mem (byteAddr g n.rxBufferAddr k))
  fits : rxLane n + n.beatValidBytes.toNat ≤ g.DATA_BYTES
  first : n.beatValidBytes ≠ 0 → n.byteIndex.toNat = rxLane n
  bytes : ∀ j < n.beatValidBytes.toNat, got[n.offset.toNat + j]?.map Prod.fst =
    some (n.beat.extractLsb' (8 * (rxLane n + j)) 8)

def InMemory (mem : BitVec g.ADDR_WIDTH → BitVec 8) (got : List (BitVec 8 × Bool))
    (buffer : BitVec 32) : Prop :=
  ∀ k < got.length, got[k]?.map Prod.fst = some (mem (byteAddr g buffer k))

/-- The beat is about to be written. -/
structure Flushes (mem : BitVec g.ADDR_WIDTH → BitVec 8) (got : List (BitVec 8 × Bool))
    (n : EthGigDma g) : Prop extends Holds mem got n where
  some : n.beatValidBytes ≠ 0
  whole : n.rxWriteLast = true → IsFrame got
  partly : n.rxWriteLast = false → ∀ x ∈ got, x.2 = false

/-- The bytes of the beat are among the data of the write. -/
def Merged (got : List (BitVec 8 × Bool)) (n : EthGigDma g) : Prop :=
  ∀ j < n.beatValidBytes.toNat, got[n.offset.toNat + j]?.map Prod.fst =
    some (n.writeData.extractLsb' (8 * (rxLane n + j)) 8)

/-- The frame is in memory, and the words of the descriptor are to be written. -/
structure Finishes (mem : BitVec g.ADDR_WIDTH → BitVec 8) (got : List (BitVec 8 × Bool))
    (n : EthGigDma g) : Prop where
  len : n.len.toNat = got.length
  small : got.length < 2 ^ 23
  whole : IsFrame got
  inMemory : InMemory mem got n.rxBufferAddr

def rxStatus (got : List (BitVec 8 × Bool)) : BitVec 32 :=
  BD_STS_COMPLETE_MASK ||| BitVec.ofNat 32 got.length ||| (BD_STS_RXSOF_MASK ||| BD_STS_RXEOF_MASK)

def statusLane (n : EthGigDma g) (data : BitVec g.DATA_WIDTH) : BitVec 32 :=
  data.extractLsb' (lane (g := g) (n.rxCdesc + BD_STS_OFFSET) * 32) 32

/-- What is known of the frame at each stage. -/
def Phase (mem : BitVec g.ADDR_WIDTH → BitVec 8) (got : List (BitVec 8 × Bool))
    (n : EthGigDma g) : Prop :=
  match n.state.stage with
  | .waiting => (n.rxBufferAddr = 0 → got = []) ∧ (n.rxBufferAddr ≠ 0 → Holds mem got n ∧
      rxLane n + n.beatValidBytes.toNat < g.DATA_BYTES ∧ ∀ x ∈ got, x.2 = false)
  | .opening => got = [] ∧ n.rxDescAddr = n.rxCdesc ∧ n.rxBufferAddr = 0
  | .flushing => n.rxBufferAddr ≠ 0 ∧ Flushes mem got n
  | .merged => n.rxBufferAddr ≠ 0 ∧ Flushes mem got n ∧ Merged got n
  | .stored => n.rxBufferAddr ≠ 0 ∧ Flushes mem got n ∧ InMemory mem got n.rxBufferAddr
  | .appending | .appended | .finishing => n.rxBufferAddr ≠ 0 ∧ Finishes mem got n
  | .marking => n.rxBufferAddr ≠ 0 ∧ Finishes mem got n ∧ statusLane n n.writeData = rxStatus got
  | .marked => n.rxBufferAddr ≠ 0 ∧ Finishes mem got n ∧ laneAt g.DATA_BYTES mem
      ((n.rxCdesc + BD_STS_OFFSET).setWidth g.ADDR_WIDTH) = rxStatus got
  | .away => got = []

/-- Where a beat of the receive side is written. -/
def rxTarget (n : EthGigDma g) : Option (BitVec 32) :=
  match n.state.stage with
  | .flushing | .merged => some (n.rxBufferAddr + n.offset)
  | .appending => some (n.rxCdesc + BD_USR4_OFFSET)
  | .finishing | .marking => some (n.rxCdesc + BD_STS_OFFSET)
  | _ => none

/-! ## What the frame depends on -/

structure SameBeat (s n : EthGigDma g) : Prop where
  rxBufferAddr : n.rxBufferAddr = s.rxBufferAddr
  len : n.len = s.len
  offset : n.offset = s.offset
  beat : n.beat = s.beat
  beatValidBytes : n.beatValidBytes = s.beatValidBytes
  byteIndex : n.byteIndex = s.byteIndex
  rxWriteLast : n.rxWriteLast = s.rxWriteLast

structure SameFrame (s n : EthGigDma g) : Prop extends SameBeat s n where
  rxCdesc : n.rxCdesc = s.rxCdesc
  rxDescAddr : n.rxDescAddr = s.rxDescAddr
  writeData : n.writeData = s.writeData

variable {mem mem' : BitVec g.ADDR_WIDTH → BitVec 8} {got : List (BitVec 8 × Bool)}

theorem SameBeat.rxLane (h : SameBeat s n) : EthGigDma.rxLane n = EthGigDma.rxLane s := by
  unfold EthGigDma.rxLane
  rw [h.rxBufferAddr, h.offset]

theorem Holds.of_same (hsame : SameBeat s n) (h : Holds mem got s) : Holds mem got n where
  count := by rw [hsame.offset, hsame.beatValidBytes, h.count]
  len := by rw [hsame.len, hsame.offset, h.len]
  small := h.small
  wraps := h.wraps
  stored := by
    rw [hsame.offset, hsame.rxBufferAddr]
    exact h.stored
  fits := by
    rw [hsame.rxLane, hsame.beatValidBytes]
    exact h.fits
  first := by
    rw [hsame.beatValidBytes, hsame.byteIndex, hsame.rxLane]
    exact h.first
  bytes := by
    rw [hsame.beatValidBytes, hsame.offset, hsame.beat, hsame.rxLane]
    exact h.bytes

theorem Flushes.of_same (hsame : SameBeat s n) (h : Flushes mem got s) : Flushes mem got n where
  toHolds := h.toHolds.of_same hsame
  some := by
    rw [hsame.beatValidBytes]
    exact h.some
  whole := by
    rw [hsame.rxWriteLast]
    exact h.whole
  partly := by
    rw [hsame.rxWriteLast]
    exact h.partly

theorem Merged.of_same (hsame : SameFrame s n) (h : Merged got s) : Merged got n := by
  unfold Merged
  rw [hsame.beatValidBytes, hsame.offset, hsame.writeData, hsame.toSameBeat.rxLane]
  exact h

theorem Finishes.of_same (hsame : SameBeat s n) (h : Finishes mem got s) : Finishes mem got n where
  len := by rw [hsame.len, h.len]
  small := h.small
  whole := h.whole
  inMemory := by
    rw [hsame.rxBufferAddr]
    exact h.inMemory

theorem Phase.of_same (hsame : SameFrame s n) (hstage : n.state.stage = s.state.stage)
    (h : Phase mem got s) : Phase mem got n := by
  have hbeat := hsame.toSameBeat
  unfold Phase statusLane at h ⊢
  rw [hstage, hsame.rxBufferAddr, hsame.rxDescAddr, hsame.rxCdesc, hbeat.rxLane,
    hsame.beatValidBytes, hsame.writeData]
  cases hs : s.state.stage <;> rw [hs] at h <;> dsimp only at h ⊢
  case waiting => exact ⟨h.1, fun hne => ⟨(h.2 hne).1.of_same hbeat, (h.2 hne).2⟩⟩
  case flushing => exact ⟨h.1, h.2.of_same hbeat⟩
  case merged => exact ⟨h.1, h.2.1.of_same hbeat, h.2.2.of_same hsame⟩
  case stored => exact ⟨h.1, h.2.1.of_same hbeat, h.2.2⟩
  case appending | appended | finishing => exact ⟨h.1, h.2.of_same hbeat⟩
  case marking | marked => exact ⟨h.1, h.2.1.of_same hbeat, h.2.2⟩
  case opening | away => exact h

/-- The area of the frame is the same in both memories. -/
def SameArea (mem mem' : BitVec g.ADDR_WIDTH → BitVec 8) (got : List (BitVec 8 × Bool))
    (buffer : BitVec 32) : Prop :=
  ∀ k < got.length, mem' (byteAddr g buffer k) = mem (byteAddr g buffer k)

theorem InMemory.of_area {buffer : BitVec 32} (harea : SameArea mem mem' got buffer)
    (h : InMemory mem got buffer) : InMemory mem' got buffer := by
  intro k hk
  rw [harea k hk]
  exact h k hk

theorem Holds.of_area (harea : SameArea mem mem' got n.rxBufferAddr) (h : Holds mem got n) :
    Holds mem' got n := by
  refine { h with stored := fun k hk => ?_ }
  have hcount := h.count
  rw [harea k (by omega)]
  exact h.stored k hk

theorem Flushes.of_area (harea : SameArea mem mem' got n.rxBufferAddr) (h : Flushes mem got n) :
    Flushes mem' got n :=
  { h with toHolds := h.toHolds.of_area harea }

theorem Finishes.of_area (harea : SameArea mem mem' got n.rxBufferAddr) (h : Finishes mem got n) :
    Finishes mem' got n :=
  { h with inMemory := h.inMemory.of_area harea }

theorem Phase.of_area (harea : n.rxBufferAddr ≠ 0 → SameArea mem mem' got n.rxBufferAddr)
    (hstatus : n.state.stage = .marked → laneAt g.DATA_BYTES mem'
        ((n.rxCdesc + BD_STS_OFFSET).setWidth g.ADDR_WIDTH) =
      laneAt g.DATA_BYTES mem ((n.rxCdesc + BD_STS_OFFSET).setWidth g.ADDR_WIDTH))
    (h : Phase mem got n) : Phase mem' got n := by
  unfold Phase at h ⊢
  cases hs : n.state.stage <;> rw [hs] at h <;> dsimp only at h ⊢
  case waiting => exact ⟨h.1, fun hne => ⟨(h.2 hne).1.of_area (harea hne), (h.2 hne).2⟩⟩
  case flushing => exact ⟨h.1, h.2.of_area (harea h.1)⟩
  case merged => exact ⟨h.1, h.2.1.of_area (harea h.1), h.2.2⟩
  case stored => exact ⟨h.1, h.2.1.of_area (harea h.1), h.2.2.of_area (harea h.1)⟩
  case appending | appended | finishing => exact ⟨h.1, h.2.of_area (harea h.1)⟩
  case marking => exact ⟨h.1, h.2.1.of_area (harea h.1), h.2.2⟩
  case marked => exact ⟨h.1, h.2.1.of_area (harea h.1), (hstatus hs).trans h.2.2⟩
  case opening | away => exact h

theorem Phase.of_away (hstage : n.state.stage = .away) (h : got = []) : Phase mem got n := by
  unfold Phase
  rw [hstage]
  exact h

/-- A beat or a frame under way has bytes. -/
theorem Flushes.ne_nil (h : Flushes mem got n) : got ≠ [] := by
  intro hnil
  have hcount := h.count
  have hpos : 0 < n.beatValidBytes.toNat := Nat.pos_of_ne_zero fun hzero =>
    h.some (BitVec.eq_of_toNat_eq hzero)
  rw [hnil, List.length_nil] at hcount
  omega

theorem Finishes.ne_nil (h : Finishes mem got n) : got ≠ [] := by
  obtain ⟨body, last, rfl, -⟩ := h.whole
  exact List.append_ne_nil_of_right_ne_nil _ (List.cons_ne_nil _ _)

/-! ## The write of a beat -/

theorem Holds.inPayload_iff (h : Holds mem got n) (hsome : n.beatValidBytes ≠ 0) {k : Nat} :
    n.inPayload k = true ↔ rxLane n ≤ k ∧ k < rxLane n + n.beatValidBytes.toNat := by
  have hle := DmaGeometry.bytes_le (g := g)
  have hfits := h.fits
  have hsum : (n.byteIndex + n.beatValidBytes).toNat = rxLane n + n.beatValidBytes.toNat := by
    rw [BitVec.toNat_add, h.first hsome, Nat.mod_eq_of_lt (by omega)]
  unfold inPayload
  rw [Bool.and_eq_true, decide_eq_true_eq, decide_eq_true_eq, hsum, h.first hsome]

/-- The bytes of the beat go to the end of the area. -/
theorem Holds.of_changed (h : Holds mem got n) (hsome : n.beatValidBytes ≠ 0)
    {data : BitVec g.DATA_WIDTH} {b : BitVec g.ADDR_WIDTH}
    (hchanged : storeBeat mem' (beatStart (n.rxBufferAddr + n.offset)) data n.rxPayloadWriteStrb b ≠
      mem' b) :
    ∃ j < n.beatValidBytes.toNat, b = byteAddr g n.rxBufferAddr (n.offset.toNat + j) := by
  have hlt : b.toNat % g.DATA_BYTES < g.DATA_BYTES := Nat.mod_lt _ DmaGeometry.bytes_pos
  obtain ⟨hdiv, hstrobe⟩ := storeBeat_of_changed hchanged
  rw [getLsbD_rxPayloadWriteStrb hlt, h.inPayload_iff hsome] at hstrobe
  refine ⟨b.toNat % g.DATA_BYTES - rxLane n, by omega, ?_⟩
  rw [← DmaGeometry.byteAddr_add]
  refine DmaGeometry.eq_of_beat hdiv ?_
  change _ = rxLane n + _
  omega

theorem Holds.inMemory (h : Holds mem got n) (hsome : n.beatValidBytes ≠ 0) (hmerged : Merged got n) :
    InMemory (storeBeat mem (beatStart (n.rxBufferAddr + n.offset)) n.writeData n.rxPayloadWriteStrb)
      got n.rxBufferAddr := by
  intro k hk
  have hcount := h.count
  have hfits := h.fits
  have hwraps := h.wraps
  by_cases hold : k < n.offset.toNat
  · -- an earlier byte is not in the beat
    have hsame : storeBeat mem (beatStart (n.rxBufferAddr + n.offset)) n.writeData
        n.rxPayloadWriteStrb (byteAddr g n.rxBufferAddr k) = mem (byteAddr g n.rxBufferAddr k) := by
      by_contra hchanged
      obtain ⟨j, hj, heq⟩ := h.of_changed hsome hchanged
      have hindex := DmaGeometry.byteAddr_inj (by omega) (by omega) heq
      omega
    rw [hsame]
    exact h.stored k hold
  · obtain ⟨j, rfl⟩ := Nat.exists_eq_add_of_le (Nat.le_of_not_lt hold)
    have hj : j < n.beatValidBytes.toNat := by omega
    have hlane : (n.rxBufferAddr + n.offset).toNat % g.DATA_BYTES + j < g.DATA_BYTES := by
      change rxLane n + j < g.DATA_BYTES
      omega
    obtain ⟨hdiv, hmod⟩ := DmaGeometry.byteAddr_place (g := g) hlane
    rw [hmerged j hj, ← DmaGeometry.byteAddr_add]
    unfold storeBeat
    have hin : n.inPayload ((n.rxBufferAddr + n.offset).toNat % g.DATA_BYTES + j) = true := by
      rw [h.inPayload_iff hsome]
      change rxLane n ≤ rxLane n + j ∧ rxLane n + j < _
      omega
    rw [hmod, getLsbD_rxPayloadWriteStrb hlane, if_pos ⟨hdiv, hin⟩]
    rfl

/-- A store of a word of the descriptor leaves the area. -/
theorem sameArea_word {d : BitVec 32} {data : BitVec g.DATA_WIDTH} {buffer : BitVec 32}
    (hoff : ∀ k < got.length, ¬ InWord g d (byteAddr g buffer k)) :
    SameArea mem (storeBeat mem (beatStart d) data (wordWriteStrb d)) got buffer := by
  intro k hk
  by_contra hchanged
  obtain ⟨hdiv, hstrobe⟩ := storeBeat_of_changed hchanged
  exact hoff k hk (inWord_of_strobe hdiv hstrobe)

theorem laneAt_congr {d : BitVec 32} (haligned : d.toNat % 4 = 0)
    (h : ∀ q < 4, mem' (byteAddr g d q) = mem (byteAddr g d q)) :
    laneAt g.DATA_BYTES mem' (d.setWidth g.ADDR_WIDTH) =
      laneAt g.DATA_BYTES mem (d.setWidth g.ADDR_WIDTH) := by
  have hfits := DmaGeometry.lane_fits (g := g) d.toNat
  have hmod : d.toNat % g.DATA_BYTES % 4 = 0 := by
    rw [Nat.mod_mod_of_dvd _ (Nat.dvd_of_mod_eq_zero DmaGeometry.bytes_mod), haligned]
  apply BitVec.eq_of_getLsbD_eq
  intro j hj
  unfold laneAt beatAt
  rw [DmaGeometry.toNat_setWidth_mod, BitVec.getLsbD_extractLsb', BitVec.getLsbD_extractLsb',
    getLsbD_joinBytes _ (by omega), getLsbD_joinBytes _ (by omega),
    show (d.toNat % g.DATA_BYTES / 4 * 32 + j) / 8 = d.toNat % g.DATA_BYTES + j / 8 by omega,
    DmaGeometry.beatByte_eq d (by omega)]
  exact congrArg (fun x => _ && BitVec.getLsbD x _) (h (j / 8) (by omega))

theorem laneAt_word {d : BitVec 32} {data : BitVec g.DATA_WIDTH} (haligned : d.toNat % 4 = 0) :
    laneAt g.DATA_BYTES (storeBeat mem (beatStart d) data (wordWriteStrb d))
        (d.setWidth g.ADDR_WIDTH) =
      data.extractLsb' (lane (g := g) d * 32) 32 := by
  have hplace := DmaGeometry.toNat_setWidth_mod (g := g) d
  unfold lane
  rw [laneAt_storeBeat DmaGeometry.bytes_dvd (DmaGeometry.beatStart_div _).symm, hplace]
  · rw [hplace]
    exact DmaGeometry.lane_fits _
  · intro q hq
    rw [hplace]
    exact DmaGeometry.getLsbD_wordWriteStrb haligned hq

/-! ## From stage to stage -/

theorem Holds.empty (hlen : n.len = 0) (hoffset : n.offset = 0) (hvalid : n.beatValidBytes = 0) :
    Holds mem [] n := by
  have hlane : rxLane n < g.DATA_BYTES := rxLane_lt
  constructor
  · rw [hoffset, hvalid]
    rfl
  · rw [hlen, hoffset]
  · exact Nat.two_pow_pos _
  · exact Nat.zero_le _
  · rw [hoffset]
    exact fun k hk => absurd hk (Nat.not_lt_zero k)
  · rw [hvalid]
    exact hlane.le
  · exact fun hne => absurd hvalid hne
  · rw [hvalid]
    exact fun j hj => absurd hj (Nat.not_lt_zero j)

/-- A frame may begin. -/
theorem Phase.of_empty (hstage : n.state.stage = .waiting) (hempty : n.rxBufferAddr ≠ 0 →
    n.len = 0 ∧ n.offset = 0 ∧ n.beatValidBytes = 0) : Phase mem [] n := by
  unfold Phase
  rw [hstage]
  refine ⟨fun _ => rfl, fun hne => ?_⟩
  obtain ⟨hlen, hoffset, hvalid⟩ := hempty hne
  refine ⟨.empty hlen hoffset hvalid, ?_, fun x hx => absurd hx List.not_mem_nil⟩
  rw [hvalid]
  exact rxLane_lt

theorem Phase.merge (hsame : SameBeat s n) (hstate : n.state = .rxWriteAw)
    (hdata : n.writeData = s.rxMergedBeat i) (hne : s.rxBufferAddr ≠ 0) (h : Flushes mem got s) :
    Phase mem got n := by
  unfold Phase
  rw [hstate]
  refine ⟨by rwa [hsame.rxBufferAddr], h.of_same hsame, fun j hj => ?_⟩
  rw [hsame.beatValidBytes] at hj
  have hfits := h.fits
  have hin : s.inPayload (rxLane s + j) = true := by
    rw [h.toHolds.inPayload_iff h.some]
    omega
  rw [hsame.offset, hsame.rxLane, hdata, h.bytes j hj, extractLsb'_rxMergedBeat (by omega) hin]

theorem Phase.acknowledge (hbuffer : n.rxBufferAddr = s.rxBufferAddr) (hne : s.rxBufferAddr ≠ 0)
    (hlen : n.len = s.len + s.beatValidBytes) (hoffset : n.offset = s.offset + s.beatValidBytes)
    (hvalid : n.beatValidBytes = 0)
    (hstage : n.state.stage = if s.rxWriteLast then .appending else .waiting)
    (h : Flushes mem got s) (hmem : InMemory mem got s.rxBufferAddr) : Phase mem got n := by
  have hcount := h.count
  have hsmall := h.small
  have hsum : (s.offset + s.beatValidBytes).toNat = got.length := by
    rw [BitVec.toNat_add, hcount, Nat.mod_eq_of_lt (by omega)]
  rw [h.len, ← hoffset] at hlen
  rw [← hoffset] at hsum
  rw [← hbuffer] at hmem hne
  unfold Phase
  rw [hstage]
  cases hlast : s.rxWriteLast
  · rw [if_neg Bool.false_ne_true]
    refine ⟨fun hzero => absurd hzero hne, fun _ => ⟨?_, ?_, h.partly hlast⟩⟩
    · refine ⟨?_, hlen, hsmall, h.wraps, fun k hk => hmem k (by omega), ?_, fun hno => absurd hvalid hno, ?_⟩
      · rw [hvalid, hsum]
        rfl
      · rw [hvalid]
        exact rxLane_lt.le
      · rw [hvalid]
        exact fun j hj => absurd hj (Nat.not_lt_zero j)
    · rw [hvalid]
      exact rxLane_lt
  · rw [if_pos rfl]
    exact ⟨hne, by rw [hlen, hsum], hsmall, h.whole hlast, hmem⟩

theorem statusWriteBeat_rx (h : Finishes mem got s) (hstate : s.state = .rxStatusRmwR) :
    s.statusWriteBeat.extractLsb' (lane (g := g) (s.rxCdesc + BD_STS_OFFSET) * 32) 32 =
      rxStatus got := by
  have hfits := DmaGeometry.lane_fits (g := g) (s.rxCdesc + BD_STS_OFFSET).toNat
  have hin : s.inRxStatus = true := by
    unfold inRxStatus
    rw [hstate]
    rfl
  have hlen : s.len &&& BD_STS_ACTUAL_LEN_MASK = BitVec.ofNat 32 got.length := by
    apply BitVec.eq_of_toNat_eq
    have hmask : (BD_STS_ACTUAL_LEN_MASK).toNat = 2 ^ 23 - 1 := rfl
    have hsmall := h.small
    rw [BitVec.toNat_and, hmask, Nat.and_two_pow_sub_one_eq_mod, h.len, BitVec.toNat_ofNat,
      Nat.mod_eq_of_lt hsmall, Nat.mod_eq_of_lt (by omega)]
  unfold statusWriteBeat rxStatus
  dsimp only
  rw [hin, if_pos rfl, if_pos rfl,
    extractLsb'_withBits _ _ _ (by unfold lane DmaGeometry.DATA_WIDTH; omega), hlen]

theorem Phase.mark (hsame : SameBeat s n) (hcdesc : n.rxCdesc = s.rxCdesc)
    (hto : n.state = .rxStatusAw) (hstate : s.state = .rxStatusRmwR)
    {x : BitVec g.DATA_WIDTH} (hdata : n.writeData =
      withBits x (lane (g := g) (s.rxCdesc + BD_STS_OFFSET) * 32)
        (s.statusWriteBeat.extractLsb' (lane (g := g) (s.rxCdesc + BD_STS_OFFSET) * 32) 32))
    (hne : s.rxBufferAddr ≠ 0) (h : Finishes mem got s) : Phase mem got n := by
  have hfits := DmaGeometry.lane_fits (g := g) (s.rxCdesc + BD_STS_OFFSET).toNat
  unfold Phase statusLane
  rw [hto, hcdesc, hdata, extractLsb'_withBits _ _ _ (by unfold lane DmaGeometry.DATA_WIDTH; omega),
    statusWriteBeat_rx h hstate]
  exact ⟨by rwa [hsame.rxBufferAddr], h.of_same hsame, rfl⟩

theorem Holds.rxStartLane (h : Holds mem got s) : s.rxStartLane.toNat = rxLane s := by
  have hle := DmaGeometry.bytes_le (g := g)
  unfold EthGigDma.rxStartLane
  split_ifs with hzero
  · rw [BitVec.toNat_ofNat]
    exact Nat.mod_eq_of_lt (Nat.lt_trans rxLane_lt (by omega))
  · exact h.first hzero

theorem Holds.accept (hsame : SameBeat s n) (h : Holds mem got s)
    (hroom : rxLane s + s.beatValidBytes.toNat < g.DATA_BYTES) (hsmall : got.length + 1 < 2 ^ 23)
    (hwraps : got.length + 1 ≤ 2 ^ g.ADDR_WIDTH) {m : EthGigDma g}
    (hbuffer : m.rxBufferAddr = s.rxBufferAddr) (hlen : m.len = s.len) (hoffset : m.offset = s.offset)
    (hbeat : m.beat = (s.accept i n).beat) (hvalid : m.beatValidBytes = (s.accept i n).beatValidBytes)
    (hindex : m.byteIndex = (s.accept i n).byteIndex) :
    Holds mem (got ++ [(i.macRxData, i.macRxLast)]) m ∧ rxLane m = rxLane s ∧
      m.beatValidBytes.toNat = s.beatValidBytes.toNat + 1 := by
  have hle := DmaGeometry.bytes_le (g := g)
  have hcount := h.count
  have hlane : rxLane m = rxLane s := by
    unfold rxLane
    rw [hbuffer, hoffset]
  have hstart := h.rxStartLane
  have hplace : (s.rxStartLane + s.beatValidBytes).toNat = rxLane s + s.beatValidBytes.toNat := by
    rw [BitVec.toNat_add, hstart, Nat.mod_eq_of_lt (by omega)]
  have haccept : (s.accept i n).beat =
        withBits s.beat (8 * (rxLane s + s.beatValidBytes.toNat)) i.macRxData ∧
      (s.accept i n).beatValidBytes = s.beatValidBytes + 1 ∧
      (s.accept i n).byteIndex = (if s.beatValidBytes = 0 then s.rxStartLane else n.byteIndex) := by
    rw [← hplace]
    unfold EthGigDma.accept
    dsimp only
    by_cases hflush : s.rxFlushes i = true
    · rw [if_pos hflush]
      exact ⟨rfl, rfl, rfl⟩
    · rw [if_neg hflush]
      exact ⟨rfl, rfl, rfl⟩
  rw [haccept.1] at hbeat
  rw [haccept.2.1] at hvalid
  rw [haccept.2.2] at hindex
  have hsucc : (s.beatValidBytes + 1).toNat = s.beatValidBytes.toNat + 1 := by
    rw [BitVec.toNat_add, show (1 : BitVec 32).toNat = 1 from rfl, Nat.mod_eq_of_lt (by omega)]
  refine ⟨⟨?_, ?_, ?_, ?_, fun k hk => ?_, ?_, fun _ => ?_, fun j hj => ?_⟩, hlane, by rw [hvalid, hsucc]⟩
  · rw [hoffset, hvalid, hsucc, List.length_append, ← hcount]
    exact (Nat.add_assoc _ _ _).symm
  · rw [hlen, hoffset, h.len]
  · rw [List.length_append]
    exact hsmall
  · rw [List.length_append]
    exact hwraps
  · rw [hoffset] at hk
    rw [hbuffer, List.getElem?_append_left (by omega)]
    exact h.stored k hk
  · rw [hlane, hvalid, hsucc]
    exact hroom
  · rw [hlane, hindex]
    split_ifs with hzero
    · exact hstart
    · rw [hsame.byteIndex]
      exact h.first hzero
  · rw [hvalid, hsucc] at hj
    rw [hoffset, hlane, hbeat]
    by_cases hlast : j = s.beatValidBytes.toNat
    · rw [hlast, hcount, List.getElem?_append_right (Nat.le_refl _), Nat.sub_self,
        extractLsb'_withBits _ _ _ (by unfold DmaGeometry.DATA_WIDTH; omega)]
      rfl
    · rw [List.getElem?_append_left (by omega),
        extractLsb'_withBits_of_disjoint _ _ _ (by unfold DmaGeometry.DATA_WIDTH; omega) (by omega)]
      exact h.bytes j (by omega)

/-- A byte that fills the beat or ends the frame. -/
theorem Phase.flush (hsame : SameBeat s n) (hne : s.rxBufferAddr ≠ 0) (h : Holds mem got s)
    (hroom : rxLane s + s.beatValidBytes.toNat < g.DATA_BYTES) (hsmall : got.length + 1 < 2 ^ 23)
    (hwraps : got.length + 1 ≤ 2 ^ g.ADDR_WIDTH) (hflags : ∀ x ∈ got, x.2 = false)
    (hflush : s.rxFlushes i = true) :
    Phase mem (got ++ [(i.macRxData, i.macRxLast)]) (s.accept i n) := by
  have hkeeps : (s.accept i n).rxBufferAddr = n.rxBufferAddr ∧ (s.accept i n).len = n.len ∧
      (s.accept i n).offset = n.offset ∧ (s.accept i n).state = .rxRmwAr ∧
      (s.accept i n).rxWriteLast = i.macRxLast := by
    unfold EthGigDma.accept
    rw [hflush]
    exact ⟨rfl, rfl, rfl, rfl, rfl⟩
  obtain ⟨hbuffer, hlen, hoffset, hstate, hlast⟩ := hkeeps
  obtain ⟨hholds, -, hvalid⟩ := h.accept hsame hroom hsmall hwraps
    (hbuffer.trans hsame.rxBufferAddr) (hlen.trans hsame.len) (hoffset.trans hsame.offset) rfl rfl rfl
  unfold Phase
  rw [hstate]
  refine ⟨by rwa [hbuffer, hsame.rxBufferAddr], hholds, ?_, fun hon => ?_, fun hoff x hx => ?_⟩
  · intro hzero
    rw [hzero] at hvalid
    cases hvalid
  · rw [hlast] at hon
    exact ⟨got, i.macRxData, by rw [hon], hflags⟩
  · rw [hlast] at hoff
    rcases List.mem_append.mp hx with hx | hx
    · exact hflags x hx
    · rw [List.mem_singleton.mp hx]
      exact hoff

theorem Phase.fill (hsame : SameBeat s n) (hstage : n.state.stage = .waiting)
    (hne : s.rxBufferAddr ≠ 0) (h : Holds mem got s)
    (hroom : rxLane s + s.beatValidBytes.toNat < g.DATA_BYTES) (hsmall : got.length + 1 < 2 ^ 23)
    (hwraps : got.length + 1 ≤ 2 ^ g.ADDR_WIDTH) (hflags : ∀ x ∈ got, x.2 = false)
    (hflush : s.rxFlushes i = false) :
    Phase mem (got ++ [(i.macRxData, i.macRxLast)]) (s.accept i n) := by
  have hkeeps : (s.accept i n).rxBufferAddr = n.rxBufferAddr ∧ (s.accept i n).len = n.len ∧
      (s.accept i n).offset = n.offset ∧ (s.accept i n).state = n.state := by
    unfold EthGigDma.accept
    rw [hflush, if_neg Bool.false_ne_true]
    exact ⟨rfl, rfl, rfl, rfl⟩
  obtain ⟨hbuffer, hlen, hoffset, hstate⟩ := hkeeps
  obtain ⟨hholds, hlane, hvalid⟩ := h.accept (i := i) hsame hroom hsmall hwraps
    (hbuffer.trans hsame.rxBufferAddr) (hlen.trans hsame.len) (hoffset.trans hsame.offset) rfl rfl rfl
  -- neither the last lane nor the last byte
  have hle := DmaGeometry.bytes_le (g := g)
  have hstart := h.rxStartLane
  unfold rxFlushes at hflush
  rw [Bool.or_eq_false_iff, decide_eq_false_iff_not] at hflush
  have hnot : rxLane s + s.beatValidBytes.toNat + 1 < g.DATA_BYTES := by
    have hsum : (s.rxStartLane + s.beatValidBytes + 1).toNat =
        rxLane s + s.beatValidBytes.toNat + 1 := by
      rw [BitVec.toNat_add, BitVec.toNat_add, hstart, show (1 : BitVec 32).toNat = 1 from rfl,
        Nat.mod_add_mod, Nat.mod_eq_of_lt (by omega)]
    have hlt := hflush.1
    rw [hsum] at hlt
    omega
  unfold Phase
  rw [hstate, hstage]
  refine ⟨fun hzero => absurd ((hbuffer.trans hsame.rxBufferAddr).symm.trans hzero) hne,
    fun _ => ⟨hholds, ?_, fun x hx => ?_⟩⟩
  · rw [hlane, hvalid]
    exact hnot
  · rcases List.mem_append.mp hx with hx | hx
    · exact hflags x hx
    · rw [List.mem_singleton.mp hx]
      exact hflush.2

/-! ## The register port -/

/-- The register port leaves the frame, or drops the buffer with a new descriptor. -/
theorem sameFrame_registerPort :
    s.registerWrite i ≠ some .rxCdesc ∧ SameFrame s (s.registerPort i) ∨
      s.registerWrite i = some .rxCdesc ∧ (s.registerPort i).rxBufferAddr = 0 := by
  have hsame := sameMachine_registerPort (s := s) (i := i)
  have key : ∀ n : EthGigDma g, n.rxCdesc = s.rxCdesc → n.rxBufferAddr = s.rxBufferAddr →
      s.registerWrite i ≠ some .rxCdesc ∧ (s.registerData i n).rxCdesc = s.rxCdesc ∧
          (s.registerData i n).rxBufferAddr = s.rxBufferAddr ∨
        s.registerWrite i = some .rxCdesc ∧ (s.registerData i n).rxBufferAddr = 0 := by
    intro n hcdesc hbuffer
    unfold registerData
    by_cases hfire : (s.axiWriteAddrValid && i.wvalid && s.wready) = true
    · have hwrite : s.registerWrite i = some (register s.axiWriteAddr.toNat) := if_pos hfire
      rw [if_pos hfire, hwrite]
      unfold writeRegister
      cases hreg : register s.axiWriteAddr.toNat <;> dsimp only
      case rxCdesc => exact .inr ⟨rfl, rfl⟩
      case txCr | rxCr => split_ifs <;> exact .inl ⟨by simp, hcdesc, hbuffer⟩
      all_goals exact .inl ⟨by simp, hcdesc, hbuffer⟩
    · have hwrite : s.registerWrite i = none := if_neg hfire
      rw [if_neg hfire, hwrite]
      split_ifs <;> exact .inl ⟨by simp, hcdesc, hbuffer⟩
  have hport : s.registerWrite i ≠ some .rxCdesc ∧ (s.registerPort i).rxCdesc = s.rxCdesc ∧
          (s.registerPort i).rxBufferAddr = s.rxBufferAddr ∨
        s.registerWrite i = some .rxCdesc ∧ (s.registerPort i).rxBufferAddr = 0 := by
    unfold registerPort
    dsimp only
    apply key <;> split_ifs <;> rfl
  exact hport.imp (fun ⟨hwrite, hcdesc, hbuffer⟩ => ⟨hwrite, ⟨hbuffer, hsame.len, hsame.offset,
    hsame.beat, hsame.beatValidBytes, hsame.byteIndex, hsame.rxWriteLast⟩, hcdesc,
    hsame.rxDescAddr, hsame.writeData⟩) id

/-! ## The engine and the observer -/

/-- The engine agrees with what was seen of the frame. -/
structure Fits (got : List (BitVec 8 × Bool)) (desc buffer : BitVec 32)
    (mem : BitVec g.ADDR_WIDTH → BitVec 8) (n : EthGigDma g) : Prop where
  phase : Phase mem got n
  known : n.rxBufferAddr ≠ 0 → n.rxBufferAddr = buffer ∧ n.rxCdesc = desc ∧ desc.toNat % 4 = 0
  target : ∀ d, rxTarget n = some d → n.writeAddr = beatStart d

variable {desc buffer : BitVec 32}

theorem Fits.of_same (hsame : SameFrame s n) (hstage : n.state.stage = s.state.stage)
    (haddr : n.writeAddr = s.writeAddr) (h : Fits got desc buffer mem s) :
    Fits got desc buffer mem n where
  phase := h.phase.of_same hsame hstage
  known := by
    rw [hsame.rxBufferAddr, hsame.rxCdesc]
    exact h.known
  target := by
    have htarget : rxTarget n = rxTarget s := by
      unfold rxTarget
      rw [hstage, hsame.rxBufferAddr, hsame.offset, hsame.rxCdesc]
    rw [htarget, haddr]
    exact h.target

/-- The area and the status word of the frame are the same in both memories. -/
structure SameMemory (got : List (BitVec 8 × Bool)) (desc buffer : BitVec 32)
    (mem mem' : BitVec g.ADDR_WIDTH → BitVec 8) (n : EthGigDma g) : Prop where
  area : SameArea mem mem' got buffer
  status : n.state.stage = .marked → laneAt g.DATA_BYTES mem'
      ((desc + BD_STS_OFFSET).setWidth g.ADDR_WIDTH) =
    laneAt g.DATA_BYTES mem ((desc + BD_STS_OFFSET).setWidth g.ADDR_WIDTH)

theorem Phase.buffer_ne_zero (h : Phase mem got n) (hstage : n.state.stage = .marked) :
    n.rxBufferAddr ≠ 0 := by
  unfold Phase at h
  rw [hstage] at h
  exact h.1

theorem Fits.of_memory (hmem : SameMemory got desc buffer mem mem' n)
    (h : Fits got desc buffer mem n) : Fits got desc buffer mem' n where
  phase := by
    refine h.phase.of_area (fun hne => ?_) fun hmarked => ?_
    · rw [(h.known hne).1]
      exact hmem.area
    · rw [(h.known (h.phase.buffer_ne_zero hmarked)).2.1]
      exact hmem.status hmarked
  known := h.known
  target := h.target

theorem Fits.of_away (hstage : n.state.stage = .away) (hnil : got = [])
    (hknown : n.rxBufferAddr ≠ 0 → n.rxBufferAddr = buffer ∧ n.rxCdesc = desc ∧ desc.toNat % 4 = 0) :
    Fits got desc buffer mem n where
  phase := .of_away hstage hnil
  known := hknown
  target := by
    unfold rxTarget
    rw [hstage]
    exact fun d hd => absurd hd (by simp)

theorem Fits.of_phase {got' : List (BitVec 8 × Bool)} (h : Fits got desc buffer mem s)
    (hbuffer : n.rxBufferAddr = s.rxBufferAddr) (hcdesc : n.rxCdesc = s.rxCdesc)
    (hphase : Phase mem' got' n) (htarget : ∀ d, rxTarget n = some d → n.writeAddr = beatStart d) :
    Fits got' desc buffer mem' n where
  phase := hphase
  known := by
    rw [hbuffer, hcdesc]
    exact h.known
  target := htarget

end EthGigDma

/-! ## The invariant -/

namespace ReceiveState

variable {r : ReceiveState g} {c : DmaClock g}

structure Sound (r : ReceiveState g) : Prop where
  channels : r.sys.Channels
  marks : r.sys.dma.Marks
  transmit : r.sys.dma.state.inTx = true →
    r.sys.dma.descAddr = r.sys.dma.txCdesc ∧ r.sys.dma.txCdesc.toNat % 4 = 0
  disjoint : ∀ k < r.got.length, ¬ InWord g (r.desc + BD_STS_OFFSET) (byteAddr g r.buffer k) ∧
    ¬ InWord g (r.desc + BD_USR4_OFFSET) (byteAddr g r.buffer k)
  fits : Fits r.got r.desc r.buffer r.sys.bus.mem r.sys.dma

theorem receives_eq : r.sys.receives c =
    if r.sys.dma.rxAccepts (r.sys.inputs c) then some (c.macRxData, c.macRxLast) else none := by
  have hiff : (r.sys.dma.macRxReady && c.macRxValid) = r.sys.dma.rxAccepts (r.sys.inputs c) := by
    have hvalid : (r.sys.inputs c).macRxValid = c.macRxValid := rfl
    unfold macRxReady rxAccepts
    rw [hvalid, Bool.eq_iff_iff]
    simp only [Bool.and_eq_true]
    tauto
  unfold DmaSystem.receives
  rw [hiff]

/-- A clock in which nothing is seen of a frame. -/
structure Silent (r : ReceiveState g) (c : DmaClock g) : Prop where
  opens : r.sys.opens c = false
  delivers : r.sys.delivers c = false
  receives : r.sys.receives c = none

theorem Silent.next (h : Silent r c) : (r.next c).got = r.got ∧ (r.next c).desc = r.desc ∧
    (r.next c).buffer = r.buffer := by
  unfold ReceiveState.next
  dsimp only
  rw [h.opens, h.delivers, h.receives]
  exact ⟨List.append_nil _, rfl, rfl⟩

theorem Silent.of_state (hopens : r.sys.dma.state ≠ .rxBufaR ∨ r.sys.bus.rvalid c.timing = false)
    (hdelivers : r.sys.dma.state ≠ .rxStatusB ∨
      (r.sys.dma.writeRespWait && r.sys.bus.bvalid c.timing) = false)
    (hreceives : r.sys.dma.state ≠ .idle ∨ r.sys.dma.rxAccepts (r.sys.inputs c) = false) :
    Silent r c := by
  refine ⟨?_, ?_, ?_⟩
  · unfold DmaSystem.opens
    rcases hopens with hstate | hr
    · rw [decide_eq_false hstate, Bool.false_and]
    · rw [hr, Bool.false_and, Bool.and_false]
  · unfold DmaSystem.delivers rxWriteComplete
    rcases hdelivers with hstate | hb
    · rw [decide_eq_false hstate, Bool.false_and, Bool.false_and]
    · rw [Bool.and_assoc]
      exact (congrArg _ hb).trans (Bool.and_false _)
  · rw [receives_eq]
    rcases hreceives with hstate | hno
    · refine if_neg fun haccepts => hstate (DmaSystem.rxAccepts_idle haccepts)
    · rw [hno, if_neg Bool.false_ne_true]

/-- Software leaves the frame alone. -/
theorem Sound.overlay (h : Sound r) (hok : r.Allowed c) :
    Fits r.got r.desc r.buffer (CppHdl.overlay r.sys.bus.mem c.others) r.sys.dma := by
  refine h.fits.of_memory ⟨fun k hk => ?_, fun hmarked => ?_⟩
  · refine overlay_of_none ?_
    by_contra hwritten
    exact (hok.others _ hwritten).1 ⟨k, hk, rfl⟩
  · have hstate : r.sys.dma.state = .rxStatusB := by
      revert hmarked
      cases r.sys.dma.state <;> decide
    have haligned := (h.fits.known (h.fits.phase.buffer_ne_zero hmarked)).2.2
    have hword : (r.desc + BD_STS_OFFSET).toNat % 4 = 0 := by
      rw [BitVec.toNat_add]
      change (r.desc.toNat + 28) % 2 ^ 32 % 4 = 0
      omega
    refine laneAt_congr hword fun q hq => overlay_of_none ?_
    by_contra hwritten
    exact (hok.others _ hwritten).2 hstate ⟨q, hq, rfl⟩

structure Ported (r : ReceiveState g) (c : DmaClock g) : Prop where
  fits : Fits r.got r.desc r.buffer (CppHdl.overlay r.sys.bus.mem c.others) (r.sys.port c)
  same : r.got ≠ [] ∨ r.sys.fetchesRx = true ∨ r.sys.receives c ≠ none →
    SameFrame r.sys.dma (r.sys.port c)
  descAddr : (r.sys.port c).rxDescAddr = r.sys.dma.rxDescAddr

theorem Sound.port (h : Sound r) (hok : r.Allowed c) (hno : r.sys.delivers c = false) :
    Ported r c := by
  have hover := h.overlay hok
  have hsame := sameMachine_registerPort (s := r.sys.dma) (i := r.sys.inputs c)
  rcases sameFrame_registerPort (s := r.sys.dma) (i := r.sys.inputs c) with
    ⟨-, hframe⟩ | ⟨hwrite, hbuffer⟩
  · exact ⟨hover.of_same hframe (congrArg _ hsame.state) hsame.writeAddr, fun _ => hframe,
      hsame.rxDescAddr⟩
  · -- a new descriptor, while nothing of a frame is received
    have hwrites : r.sys.writes c .rxCdesc ≠ none := by
      unfold DmaSystem.writes
      rw [if_pos hwrite]
      exact Option.some_ne_none _
    obtain ⟨hnil, hreceives, hfetch⟩ := (hok.rxCdesc hwrites).resolve_right (by rw [hno]; simp)
    have hstage : r.sys.dma.state.stage = .waiting ∨ r.sys.dma.state.stage = .away := by
      have hphase := h.fits.phase
      unfold Phase at hphase
      unfold DmaSystem.fetchesRx at hfetch
      rw [Bool.or_eq_false_iff] at hfetch
      cases hs : r.sys.dma.state.stage <;> rw [hs] at hphase hfetch <;> dsimp only at hphase
      case waiting => exact .inl rfl
      case away => exact .inr rfl
      case opening => exact absurd hfetch.1 (by simp)
      case flushing => exact absurd hnil hphase.2.ne_nil
      case merged | stored => exact absurd hnil hphase.2.1.ne_nil
      case appending | appended | finishing => exact absurd hnil hphase.2.ne_nil
      case marking | marked => exact absurd hnil hphase.2.1.ne_nil
    refine ⟨⟨?_, fun hne => absurd hbuffer hne, ?_⟩, ?_, hsame.rxDescAddr⟩
    · unfold Phase
      rw [hsame.state]
      rcases hstage with hs | hs <;> rw [hs]
      · exact ⟨fun _ => hnil, fun hne => absurd hbuffer hne⟩
      · exact hnil
    · unfold rxTarget
      rw [hsame.state]
      rcases hstage with hs | hs <;> rw [hs] <;> exact fun d hd => absurd hd (by simp)
    · rintro (hne | hfetches | hne)
      · exact absurd hnil hne
      · exact absurd (hfetch.symm.trans hfetches) Bool.false_ne_true
      · exact absurd hreceives hne

def Keeps (r : ReceiveState g) (c : DmaClock g) : Prop :=
  Fits (r.next c).got (r.next c).desc (r.next c).buffer (r.sys.next c).bus.mem (r.sys.next c).dma

theorem Silent.keeps (h : Silent r c)
    (hfits : Fits r.got r.desc r.buffer (r.sys.next c).bus.mem (r.sys.next c).dma) : Keeps r c := by
  obtain ⟨hgot, hdesc, hbuffer⟩ := h.next
  unfold Keeps
  rw [hgot, hdesc, hbuffer]
  exact hfits

/-- A frame that is not at its end has bytes, so that its descriptor stays. -/
theorem Sound.ne_nil (h : Sound r) (hstage : r.sys.dma.state.stage ≠ .waiting)
    (hopening : r.sys.dma.state.stage ≠ .opening) (haway : r.sys.dma.state.stage ≠ .away) :
    r.got ≠ [] := by
  have hphase := h.fits.phase
  unfold Phase at hphase
  cases hs : r.sys.dma.state.stage <;> rw [hs] at hphase hstage hopening haway <;>
    dsimp only at hphase
  case waiting => exact absurd rfl hstage
  case opening => exact absurd rfl hopening
  case away => exact absurd rfl haway
  case flushing => exact hphase.2.ne_nil
  case merged | stored => exact hphase.2.1.ne_nil
  case appending | appended | finishing => exact hphase.2.ne_nil
  case marking | marked => exact hphase.2.1.ne_nil

theorem silent_of_w (hstate : r.sys.dma.state.waits = .w) : Silent r c := by
  refine .of_state (.inl ?_) (.inl ?_) (.inl ?_) <;> intro hs <;> rw [hs] at hstate <;> cases hstate

theorem Sound.keeps_stored (h : Sound r) (hok : r.Allowed c) (hstate : r.sys.dma.state.waits = .w)
    (hw : c.timing.w = true) : Keeps r c := by
  have hsilent : Silent r c := silent_of_w hstate
  have hport := h.port hok hsilent.delivers
  have hdma := h.channels.dma_next_w (c := c) hstate
  have hover := h.overlay hok
  have hphase := hover.phase
  have htarget := hover.target
  refine hsilent.keeps ?_
  rw [hw, if_pos rfl] at hdma
  rw [hdma, h.channels.mem_next_w hstate hw]
  unfold Phase at hphase
  unfold rxTarget at htarget
  cases hs : r.sys.dma.state <;> rw [hs] at hstate hphase htarget <;> try cases hstate
  case txStatusW => exact .of_away rfl hphase hport.fits.known
  all_goals
    have hframe := hport.same (.inl (h.ne_nil (by rw [hs]; decide) (by rw [hs]; decide)
      (by rw [hs]; decide)))
  case rxWriteW =>
    obtain ⟨hne, hflushes, hmerged⟩ := hphase
    have hstrb : r.sys.dma.writeStrb = r.sys.dma.rxPayloadWriteStrb := by
      unfold writeStrb
      rw [hs]
    rw [htarget _ rfl, hstrb]
    have hmem := hflushes.toHolds.inMemory hflushes.some hmerged
    have hcount := hflushes.count
    have hflushes' : Flushes (storeBeat _ _ _ _) r.got r.sys.dma :=
      { hflushes with stored := fun k hk => hmem k (by omega) }
    refine hport.fits.of_phase rfl rfl ?_ (fun d hd => by cases hd)
    have hsame' : SameBeat r.sys.dma (goto EthGigDma.State.rxWriteW.after (r.sys.port c)) :=
      { hframe.toSameBeat with }
    refine ⟨?_, hflushes'.of_same hsame', ?_⟩
    · rw [hsame'.rxBufferAddr]
      exact hne
    · rw [hsame'.rxBufferAddr]
      exact hmem
  case rxApp4W =>
    have hstrb : r.sys.dma.writeStrb = wordWriteStrb (r.sys.dma.rxCdesc + BD_USR4_OFFSET) := by
      unfold writeStrb
      rw [hs]
    obtain ⟨hne, hfinishes⟩ := hphase
    obtain ⟨hbuffer, hcdesc, -⟩ := hover.known hne
    have harea : SameArea (CppHdl.overlay r.sys.bus.mem c.others)
          (storeBeat (CppHdl.overlay r.sys.bus.mem c.others)
        r.sys.dma.writeAddr r.sys.dma.writeData r.sys.dma.writeStrb) r.got
        r.sys.dma.rxBufferAddr := by
      rw [htarget _ rfl, hstrb, hbuffer, hcdesc]
      exact sameArea_word fun k hk => (h.disjoint k hk).2
    have hsame' : SameBeat r.sys.dma (goto EthGigDma.State.rxApp4W.after (r.sys.port c)) :=
      { hframe.toSameBeat with }
    refine hport.fits.of_phase rfl rfl ⟨?_, (hfinishes.of_area harea).of_same hsame'⟩
      (fun d hd => by cases hd)
    rw [hsame'.rxBufferAddr]
    exact hne
  case rxStatusW =>
    have hstrb : r.sys.dma.writeStrb = wordWriteStrb (r.sys.dma.rxCdesc + BD_STS_OFFSET) := by
      unfold writeStrb
      rw [hs]
    obtain ⟨hne, hfinishes, hlane⟩ := hphase
    obtain ⟨hbuffer, hcdesc, haligned⟩ := hover.known hne
    have harea : SameArea (CppHdl.overlay r.sys.bus.mem c.others)
          (storeBeat (CppHdl.overlay r.sys.bus.mem c.others)
        r.sys.dma.writeAddr r.sys.dma.writeData r.sys.dma.writeStrb) r.got
        r.sys.dma.rxBufferAddr := by
      rw [htarget _ rfl, hstrb, hbuffer, hcdesc]
      exact sameArea_word fun k hk => (h.disjoint k hk).1
    have hword : (r.sys.dma.rxCdesc + BD_STS_OFFSET).toNat % 4 = 0 := by
      rw [hcdesc, BitVec.toNat_add]
      change (r.desc.toNat + 28) % 2 ^ 32 % 4 = 0
      omega
    have hsame' : SameBeat r.sys.dma (goto EthGigDma.State.rxStatusW.after (r.sys.port c)) :=
      { hframe.toSameBeat with }
    refine hport.fits.of_phase rfl rfl ⟨?_, (hfinishes.of_area harea).of_same hsame', ?_⟩
      (fun d hd => by cases hd)
    · rw [hsame'.rxBufferAddr]
      exact hne
    · change laneAt _ _ (((r.sys.port c).rxCdesc + BD_STS_OFFSET).setWidth _) = _
      rw [hframe.rxCdesc, htarget _ rfl, hstrb, laneAt_word hword]
      exact hlane

theorem Sound.keeps_w (h : Sound r) (hok : r.Allowed c) (hstate : r.sys.dma.state.waits = .w) :
    Keeps r c := by
  cases hw : c.timing.w
  · have hsilent : Silent r c := silent_of_w hstate
    have hsame := sameMachine_registerPort (s := r.sys.dma) (i := r.sys.inputs c)
    have hdma := h.channels.dma_next_w (c := c) hstate
    rw [hw, if_neg Bool.false_ne_true, goto_self hsame.state] at hdma
    refine hsilent.keeps ?_
    rw [hdma, h.channels.mem_next_of_ne (.inr hw)]
    exact (h.port hok hsilent.delivers).fits
  · exact h.keeps_stored hok hstate hw

theorem rvalid_silent (hstate : r.sys.dma.state.waits = .r)
    (hopens : r.sys.dma.state ≠ .rxBufaR ∨ r.sys.bus.rvalid c.timing = false) : Silent r c := by
  refine .of_state hopens (.inl ?_) (.inl ?_) <;> intro hs <;> rw [hs] at hstate <;> cases hstate

theorem Sound.keeps_opened (h : Sound r) (hok : r.Allowed c) (hstate : r.sys.dma.state = .rxBufaR)
    (hr : r.sys.bus.rvalid c.timing = true) : Keeps r c := by
  have hwaits : r.sys.dma.state.waits = .r := by rw [hstate]; rfl
  have hstage := h.channels.stage
  rw [hwaits] at hstage
  have hopens : r.sys.opens c = true := by
    unfold DmaSystem.opens
    rw [decide_eq_true hstate, hr, hstage.1.1]
    rfl
  have hdelivers : r.sys.delivers c = false := by
    unfold DmaSystem.delivers rxWriteComplete
    rw [hstate]
    rfl
  have hfetch : r.sys.fetchesRx = true := by
    unfold DmaSystem.fetchesRx
    rw [hstate]
    rfl
  have hframe := (h.port hok hdelivers).same (.inr (.inl hfetch))
  have hdma := (h.channels.dma_next_r (c := c) hwaits).trans (if_pos hr)
  have hword := DmaSystem.dmaReadWord_eq h.channels hwaits (by unfold fetching; rw [hstate])
    (h.channels.rdata_eq hwaits hr)
  have hphase := h.fits.phase
  unfold Phase at hphase
  unfold requestAddr at hword
  rw [hstate] at hphase hword
  obtain ⟨-, hdesc, -⟩ := hphase
  unfold Keeps ReceiveState.next
  dsimp only
  rw [hopens, Bool.true_or, if_pos rfl, if_pos rfl, if_pos rfl, hdma]
  unfold readResponse
  rw [hstate]
  refine ⟨.of_empty rfl fun _ => ⟨rfl, rfl, rfl⟩, fun _ => ⟨hword, ?_, hok.rxAligned hopens⟩,
    fun d hd => by cases hd⟩
  exact hframe.rxCdesc.trans hdesc.symm

theorem Sound.keeps_answered (h : Sound r) (hok : r.Allowed c) (hwaits : r.sys.dma.state.waits = .r)
    (hnot : r.sys.dma.state ≠ .rxBufaR) (hr : r.sys.bus.rvalid c.timing = true) : Keeps r c := by
  have hsilent : Silent r c := rvalid_silent hwaits (.inl hnot)
  have hport := h.port hok hsilent.delivers
  have hover := h.overlay hok
  have hphase := hover.phase
  have htarget := hover.target
  have hsame := sameMachine_registerPort (s := r.sys.dma) (i := r.sys.inputs c)
  have hdma := (h.channels.dma_next_r (c := c) hwaits).trans (if_pos hr)
  refine hsilent.keeps ?_
  rw [hdma, h.channels.mem_next_of_ne (.inl (by rw [hwaits]; decide))]
  have hframe : r.sys.dma.state.stage ≠ .away → SameFrame r.sys.dma (r.sys.port c) := by
    intro haway
    by_cases hopening : r.sys.dma.state.stage = .opening
    · refine hport.same (.inr (.inl ?_))
      unfold DmaSystem.fetchesRx
      rw [decide_eq_true hopening, Bool.true_or]
    · refine hport.same (.inl (h.ne_nil ?_ hopening haway))
      intro hwaiting
      revert hwaits hwaiting
      cases r.sys.dma.state <;> decide
  unfold Phase at hphase
  unfold rxTarget at htarget
  unfold readResponse
  cases hs : r.sys.dma.state <;> rw [hs] at hwaits hphase htarget hframe hnot <;> try cases hwaits
  case rxNdescR =>
    have hframe := hframe (by decide)
    refine .of_same (s := r.sys.port c) ⟨⟨rfl, rfl, rfl, rfl, rfl, rfl, rfl⟩, rfl, rfl, rfl⟩ ?_ rfl hport.fits
    rw [hsame.state, hs]
    rfl
  case rxBufaR => exact absurd rfl hnot
  case rxRmwR =>
    obtain ⟨hne, hflushes⟩ := hphase
    have hframe := hframe (by decide)
    refine hport.fits.of_phase rfl rfl (.merge (i := r.sys.inputs c) ?_ rfl rfl hne hflushes) ?_
    · exact { hframe.toSameBeat with }
    · intro d hd
      have haddr := htarget d
      refine hsame.writeAddr.trans (haddr ?_)
      refine Eq.trans ?_ hd
      exact congrArg some (congrArg₂ (· + ·) hframe.rxBufferAddr.symm hframe.offset.symm)
  case rxStatusRmwR =>
    obtain ⟨hne, hfinishes⟩ := hphase
    have hframe := hframe (by decide)
    refine hport.fits.of_phase rfl rfl (.mark (s := r.sys.dma) ?_ hframe.rxCdesc rfl hs rfl hne hfinishes) ?_
    · exact { hframe.toSameBeat with }
    · intro d hd
      refine hsame.writeAddr.trans (htarget d (Eq.trans ?_ hd))
      exact congrArg (fun x => some (x + BD_STS_OFFSET)) hframe.rxCdesc.symm
  case rxApp4RmwR =>
    obtain ⟨hne, hfinishes⟩ := hphase
    have hframe := hframe (by decide)
    refine hport.fits.of_phase rfl rfl ⟨?_, hfinishes.of_same { hframe.toSameBeat with }⟩ ?_
    · rw [← hframe.rxBufferAddr] at hne
      exact hne
    · intro d hd
      refine hsame.writeAddr.trans (htarget d (Eq.trans ?_ hd))
      exact congrArg (fun x => some (x + BD_USR4_OFFSET)) hframe.rxCdesc.symm
  all_goals exact .of_away rfl hphase hport.fits.known

theorem Sound.keeps_r (h : Sound r) (hok : r.Allowed c) (hwaits : r.sys.dma.state.waits = .r) :
    Keeps r c := by
  cases hr : r.sys.bus.rvalid c.timing
  · have hsilent : Silent r c := rvalid_silent hwaits (.inr hr)
    have hdma := (h.channels.dma_next_r (c := c) hwaits).trans (if_neg (by rw [hr]; simp))
    refine hsilent.keeps ?_
    rw [hdma, h.channels.mem_next_of_ne (.inl (by rw [hwaits]; decide))]
    exact (h.port hok hsilent.delivers).fits
  · by_cases hstate : r.sys.dma.state = .rxBufaR
    · exact h.keeps_opened hok hstate hr
    · exact h.keeps_answered hok hwaits hstate hr

theorem Sound.keeps_written (h : Sound r) (hok : r.Allowed c) (hwaits : r.sys.dma.state.waits = .b)
    (hnot : r.sys.dma.state ≠ .rxStatusB)
    (hdma : (r.sys.next c).dma = r.sys.dma.writeResponse (r.sys.inputs c) (r.sys.port c)) :
    Keeps r c := by
  have hsilent : Silent r c := by
    refine .of_state (.inl ?_) (.inl hnot) (.inl ?_) <;> intro hs <;> rw [hs] at hwaits <;> cases hwaits
  have hport := h.port hok hsilent.delivers
  have hphase := (h.overlay hok).phase
  refine hsilent.keeps ?_
  rw [hdma, h.channels.mem_next_of_ne (.inl (by rw [hwaits]; decide))]
  have hframe : r.sys.dma.state.stage ≠ .away → SameFrame r.sys.dma (r.sys.port c) := by
    intro haway
    refine hport.same (.inl (h.ne_nil ?_ ?_ haway)) <;> intro hstage <;>
      revert hwaits hstage <;> cases r.sys.dma.state <;> decide
  unfold Phase at hphase
  unfold writeResponse
  cases hs : r.sys.dma.state <;> rw [hs] at hwaits hphase hframe hnot <;> try cases hwaits
  case txStatusB =>
    have hnil : r.got = [] := hphase
    refine hport.fits.of_phase rfl rfl ?_ (fun d hd => by cases hd)
    rw [hnil]
    exact .of_empty rfl fun _ => ⟨rfl, rfl, rfl⟩
  case rxWriteB =>
    obtain ⟨hne, hflushes, hmem⟩ := hphase
    have hframe := hframe (by decide)
    dsimp only
    cases hlast : r.sys.dma.rxWriteLast
    · rw [if_neg Bool.false_ne_true]
      refine hport.fits.of_phase rfl rfl (.acknowledge hframe.rxBufferAddr hne rfl rfl rfl ?_
        hflushes hmem) (fun d hd => by cases hd)
      rw [hlast]
      rfl
    · rw [if_pos rfl]
      refine hport.fits.of_phase rfl rfl (.acknowledge hframe.rxBufferAddr hne rfl rfl rfl ?_
        hflushes hmem) (fun d hd => ?_)
      · rw [hlast]
        rfl
      · have hd : (r.sys.port c).rxCdesc + BD_USR4_OFFSET = d := Option.some_inj.mp hd
        rw [← hd, hframe.rxCdesc]
        rfl
  case rxApp4B =>
    obtain ⟨hne, hfinishes⟩ := hphase
    have hframe := hframe (by decide)
    refine hport.fits.of_phase rfl rfl ⟨?_, hfinishes.of_same { hframe.toSameBeat with }⟩
      (fun d hd => ?_)
    · rw [← hframe.rxBufferAddr] at hne
      exact hne
    · have hd : (r.sys.port c).rxCdesc + BD_STS_OFFSET = d := Option.some_inj.mp hd
      rw [← hd, hframe.rxCdesc]
      rfl
  case rxStatusB => exact absurd rfl hnot

theorem keeps_delivered (hstate : r.sys.dma.state = .rxStatusB)
    (hwb : (r.sys.dma.writeRespWait && r.sys.bus.bvalid c.timing) = true)
    (hdma : (r.sys.next c).dma = r.sys.dma.writeResponse (r.sys.inputs c) (r.sys.port c)) :
    Keeps r c := by
  have hdelivers : r.sys.delivers c = true := by
    unfold DmaSystem.delivers rxWriteComplete
    rw [hstate, Bool.and_assoc]
    exact hwb
  unfold Keeps ReceiveState.next
  dsimp only
  rw [hdelivers, Bool.or_true, if_pos rfl, hdma]
  unfold writeResponse
  rw [hstate]
  exact ⟨.of_empty rfl fun hne => absurd rfl hne, fun hne => absurd rfl hne, fun d hd => by cases hd⟩

theorem Sound.keeps_sends (h : Sound r) (hok : r.Allowed c) (hstate : r.sys.dma.state = .txSend)
    (hdma : (r.sys.next c).dma = r.sys.dma.send (r.sys.port c)) : Keeps r c := by
  have hsilent : Silent r c := by
    refine .of_state (.inl ?_) (.inl ?_) (.inl ?_) <;> rw [hstate] <;> decide
  have hport := h.port hok hsilent.delivers
  have hsame := sameMachine_registerPort (s := r.sys.dma) (i := r.sys.inputs c)
  have hphase := h.fits.phase
  unfold Phase at hphase
  rw [hstate] at hphase
  refine hsilent.keeps ?_
  rw [hdma, h.channels.mem_next_of_ne (.inl (by rw [hstate]; decide))]
  unfold send
  dsimp only
  split_ifs
  · exact .of_away rfl hphase hport.fits.known
  · exact .of_away rfl hphase hport.fits.known
  · exact .of_away (by rw [hsame.state, hstate]; rfl) hphase hport.fits.known

theorem Sound.keeps_idles (h : Sound r) (hok : r.Allowed c) (hstate : r.sys.dma.state = .idle)
    (hno : r.sys.dma.rxAccepts (r.sys.inputs c) = false)
    (hdma : (r.sys.next c).dma = r.sys.dma.advance (r.sys.inputs c) (r.sys.port c)) :
    Keeps r c := by
  have hsilent : Silent r c := by
    refine .of_state (.inl ?_) (.inl ?_) (.inr hno) <;> rw [hstate] <;> decide
  have hport := h.port hok hsilent.delivers
  have hphase := h.fits.phase
  unfold Phase at hphase
  rw [hstate] at hphase
  refine hsilent.keeps ?_
  rw [hdma, h.channels.mem_next_of_ne (.inl (by rw [hstate]; decide))]
  unfold advance
  rw [hstate]
  dsimp only
  split_ifs with htx hrx
  · have htakes : r.sys.takes c ≠ none := by
      unfold DmaSystem.takes
      rw [if_pos ⟨hstate, htx, by rw [hno, Bool.false_and]⟩]
      exact Option.some_ne_none _
    exact .of_away rfl (hok.apart htakes).1 hport.fits.known
  · have hfetch : r.sys.fetchesRx = true := by
      unfold DmaSystem.fetchesRx
      rw [Bool.not_eq_true] at htx
      rw [hstate, htx, hrx]
      rfl
    have hframe := hport.same (.inr (.inl hfetch))
    have hzero : r.sys.dma.rxBufferAddr = 0 := by
      unfold rxFetches at hrx
      simp only [Bool.and_eq_true, decide_eq_true_eq] at hrx
      exact hrx.2
    exact hport.fits.of_phase rfl rfl ⟨hphase.1 hzero, hframe.rxCdesc.symm,
      hframe.rxBufferAddr.trans hzero⟩ (fun d hd => by cases hd)
  · exact hport.fits

/-- While a buffer is in use, no receive descriptor is taken up. -/
theorem advance_of_buffer {s n : EthGigDma g} {i : DmaInputs g} (hstate : s.state = .idle)
    (hne : s.rxBufferAddr ≠ 0) : s.advance i n = if s.txFetches then
      request (s.txCdesc + BD_NDESC_OFFSET) { n with descAddr := s.txCdesc, state := .txNdescAr }
    else n := by
  have hnorx : s.rxFetches = false := by
    unfold rxFetches
    rw [decide_eq_false hne, Bool.and_false]
  unfold advance
  rw [hstate, hnorx]
  rfl

theorem Sound.keeps_accepts (h : Sound r) (hok : r.Allowed c)
    (haccepts : r.sys.dma.rxAccepts (r.sys.inputs c) = true)
    (hdma : (r.sys.next c).dma = r.sys.dma.accept (r.sys.inputs c)
      (r.sys.dma.advance (r.sys.inputs c) (r.sys.port c))) : Keeps r c := by
  have hstate := DmaSystem.rxAccepts_idle haccepts
  have hreceives : r.sys.receives c = some (c.macRxData, c.macRxLast) := by
    rw [receives_eq, if_pos haccepts]
  have hsome : r.sys.receives c ≠ none := by rw [hreceives]; exact Option.some_ne_none _
  have hopens : r.sys.opens c = false := by
    unfold DmaSystem.opens
    rw [hstate]
    rfl
  have hdelivers : r.sys.delivers c = false := by
    unfold DmaSystem.delivers rxWriteComplete
    rw [hstate]
    rfl
  have hport := h.port hok hdelivers
  have hframe := hport.same (.inr (.inr hsome))
  have hsame := sameMachine_registerPort (s := r.sys.dma) (i := r.sys.inputs c)
  have hne : r.sys.dma.rxBufferAddr ≠ 0 := by
    unfold rxAccepts at haccepts
    simp only [Bool.and_eq_true, decide_eq_true_eq] at haccepts
    exact haccepts.2
  have hphase := (h.overlay hok).phase
  unfold Phase at hphase
  rw [hstate] at hphase
  obtain ⟨hholds, hroom, hflags⟩ := hphase.2 hne
  obtain ⟨hsmall, hwraps, -, -⟩ := hok.room hsome
  unfold Keeps ReceiveState.next
  dsimp only
  rw [hopens, hdelivers, hreceives, Bool.false_or, if_neg Bool.false_ne_true,
    if_neg Bool.false_ne_true, if_neg Bool.false_ne_true, hdma,
    h.channels.mem_next_of_ne (.inl (by rw [hstate]; decide)), advance_of_buffer hstate hne]
  cases hflush : r.sys.dma.rxFlushes (r.sys.inputs c)
  · -- a descriptor would be taken up between two bytes
    have hnotx : r.sys.dma.txFetches = false := by
      rw [← Bool.not_eq_true]
      intro htx
      have htakes : r.sys.takes c ≠ none := by
        unfold DmaSystem.takes
        rw [if_pos ⟨hstate, htx, by rw [hflush, Bool.and_false]⟩]
        exact Option.some_ne_none _
      exact hsome (hok.apart htakes).2
    have hwaiting : (r.sys.port c).state.stage = .waiting := by
      rw [hsame.state, hstate]
      rfl
    have hfill := Phase.fill (i := r.sys.inputs c) hframe.toSameBeat hwaiting hne hholds hroom hsmall
      hwraps hflags hflush
    rw [hnotx, if_neg Bool.false_ne_true]
    unfold accept at hfill ⊢
    rw [hflush, if_neg Bool.false_ne_true] at hfill ⊢
    refine hport.fits.of_phase rfl rfl hfill (fun d hd => ?_)
    unfold rxTarget at hd
    dsimp only at hd
    rw [hwaiting] at hd
    cases hd
  · -- the beat goes first
    have hkeeps : ∃ n, (if r.sys.dma.txFetches = true then request (r.sys.dma.txCdesc + BD_NDESC_OFFSET)
          { r.sys.port c with descAddr := r.sys.dma.txCdesc, state := .txNdescAr }
          else r.sys.port c) = n ∧ SameBeat r.sys.dma n ∧
        n.rxBufferAddr = (r.sys.port c).rxBufferAddr ∧ n.rxCdesc = (r.sys.port c).rxCdesc := by
      refine ⟨_, rfl, ?_⟩
      split_ifs
      · exact ⟨{ hframe.toSameBeat with }, rfl, rfl⟩
      · exact ⟨hframe.toSameBeat, rfl, rfl⟩
    obtain ⟨n, hn, hbeat, hbuffer, hcdesc⟩ := hkeeps
    have hphase := Phase.flush (i := r.sys.inputs c) hbeat hne hholds hroom hsmall hwraps hflags hflush
    rw [hn]
    unfold accept at hphase ⊢
    rw [hflush, if_pos rfl] at hphase ⊢
    refine hport.fits.of_phase hbuffer hcdesc hphase (fun d hd => ?_)
    have hd : n.rxBufferAddr + n.offset = d := Option.some_inj.mp hd
    rw [← hd, hbeat.rxBufferAddr, hbeat.offset]
    rfl

theorem Sound.keeps (h : Sound r) (hok : r.Allowed c) : Keeps r c := by
  have hstep := (h.channels.next (c := c)).1
  by_cases hw : r.sys.dma.state.waits = .w
  · exact h.keeps_w hok hw
  by_cases hr : r.sys.dma.state.waits = .r
  · exact h.keeps_r hok hr
  have hmem := h.channels.mem_next_of_ne (c := c) (.inl hw)
  have hopens : r.sys.dma.state ≠ .rxBufaR := by
    intro hs
    rw [hs] at hr
    exact hr rfl
  have hsame := sameMachine_registerPort (s := r.sys.dma) (i := r.sys.inputs c)
  generalize hdma : (r.sys.next c).dma = n at hstep
  cases hstep with
  | holds hne hquiet =>
      have hsilent : Silent r c := .of_state (.inl hopens) (.inr hquiet) (.inl hne)
      refine hsilent.keeps ?_
      rw [hdma, hmem]
      exact (h.port hok hsilent.delivers).fits
  | moves hwaits =>
      have hwaits : r.sys.dma.state.waits = .ar ∨ r.sys.dma.state.waits = .aw :=
        hwaits.imp_right fun h => h.resolve_right hw
      have hsilent : Silent r c := by
        refine .of_state (.inl hopens) (.inl ?_) (.inl ?_) <;> intro hs <;> rw [hs] at hwaits <;>
          rcases hwaits with h | h <;> cases h
      refine hsilent.keeps ?_
      rw [hdma, hmem]
      refine .of_same (s := r.sys.port c) ⟨⟨rfl, rfl, rfl, rfl, rfl, rfl, rfl⟩, rfl, rfl, rfl⟩ ?_ rfl
        (h.port hok hsilent.delivers).fits
      rw [hsame.state]
      exact State.stage_after (hwaits.imp_right .inl)
  | requests t hwaits ht =>
      have hsilent : Silent r c := by
        refine .of_state (.inl hopens) (.inl ?_) (.inl ?_) <;> intro hs <;> rw [hs] at hwaits <;>
          cases hwaits
      refine hsilent.keeps ?_
      rw [hdma, hmem]
      refine .of_same (s := r.sys.port c) ⟨⟨rfl, rfl, rfl, rfl, rfl, rfl, rfl⟩, rfl, rfl, rfl⟩ ?_ rfl
        (h.port hok hsilent.delivers).fits
      rw [hsame.state]
      rcases ht with rfl | rfl
      · rfl
      · exact State.stage_after (.inr (.inr hwaits))
  | statusAw t hstate ht =>
      have hsilent : Silent r c := by
        refine .of_state (.inl hopens) (.inl ?_) (.inl ?_) <;> rw [hstate] <;> decide
      refine hsilent.keeps ?_
      rw [hdma, hmem]
      refine .of_same (s := r.sys.port c) ⟨⟨rfl, rfl, rfl, rfl, rfl, rfl, rfl⟩, rfl, rfl, rfl⟩ ?_ rfl
        (h.port hok hsilent.delivers).fits
      rw [hsame.state, hstate]
      rcases ht with rfl | rfl <;> rfl
  | answered hwaits _ => exact absurd hwaits hr
  | written hwaits hwb =>
      by_cases hstate : r.sys.dma.state = .rxStatusB
      · exact keeps_delivered hstate hwb hdma
      · exact h.keeps_written hok hwaits hstate hdma
  | sends hstate _ => exact h.keeps_sends hok hstate hdma
  | idles hstate hno => exact h.keeps_idles hok hstate hno hdma
  | accepts haccepts => exact h.keeps_accepts hok haccepts hdma

/-- The transmit descriptor that a clock takes up. -/
theorem takes_of_txNdescAr {s : DmaSystem g} {n : EthGigDma g} (hstep : s.Step c n)
    (hstate : s.dma.state = .idle) (hto : n.state = .txNdescAr) :
    s.takes c = some s.dma.txCdesc := by
  have hsame := sameMachine_registerPort (s := s.dma) (i := s.inputs c)
  have hfetch : (s.dma.advance (s.inputs c) (s.port c)).state = .txNdescAr →
      s.dma.txFetches = true := by
    unfold advance
    rw [hstate]
    dsimp only
    split_ifs with htx hrx <;> intro hto
    · exact htx
    · cases hto
    · rw [hsame.state, hstate] at hto
      cases hto
  cases hstep with
  | holds hne _ => exact absurd hstate hne
  | moves hwaits => rw [hstate] at hwaits; rcases hwaits with h | h | h <;> cases h
  | requests t hwaits _ => rw [hstate] at hwaits; cases hwaits
  | statusAw t hs _ => rw [hstate] at hs; cases hs
  | answered hwaits _ => rw [hstate] at hwaits; cases hwaits
  | written hwaits _ => rw [hstate] at hwaits; cases hwaits
  | sends hs _ => rw [hstate] at hs; cases hs
  | idles _ hno => exact if_pos ⟨hstate, hfetch hto, by rw [hno, Bool.false_and]⟩
  | accepts haccepts =>
      unfold accept at hto
      cases hflush : s.dma.rxFlushes (s.inputs c) <;> rw [hflush] at hto
      · rw [if_neg Bool.false_ne_true] at hto
        exact if_pos ⟨hstate, hfetch hto, by rw [hflush, Bool.and_false]⟩
      · cases hto

theorem Sound.transmit_next (h : Sound r) (hok : r.Allowed c) :
    (r.sys.next c).dma.state.inTx = true →
      (r.sys.next c).dma.descAddr = (r.sys.next c).dma.txCdesc ∧
        (r.sys.next c).dma.txCdesc.toNat % 4 = 0 := by
  have hstep := (h.channels.next (c := c)).1
  have hunder : ∀ n : EthGigDma g, r.sys.dma.state.inTx = true → TxKept (r.sys.port c) n →
      n.descAddr = r.sys.dma.descAddr → n.descAddr = n.txCdesc ∧ n.txCdesc.toNat % 4 = 0 := by
    intro n hin hkept hdesc
    obtain ⟨hcur, haligned⟩ := h.transmit hin
    have hcdesc := hkept.txCdesc.trans (hok.txCdesc (.inl hin))
    exact ⟨by rw [hdesc, hcdesc, hcur], by rw [hcdesc]; exact haligned⟩
  intro hin
  cases hstep.tx with
  | completes _ _ hto _ _ _ =>
      rw [hto] at hin
      cases hin
  | fetches hstate _ hkept hto hdesc =>
      have htakes := takes_of_txNdescAr hstep hstate hto
      have hcdesc := hkept.txCdesc.trans (hok.txCdesc (.inr (by rw [htakes]; exact Option.some_ne_none _)))
      exact ⟨by rw [hdesc, hcdesc], by rw [hcdesc]; exact hok.txAligned _ htakes⟩
  | links hstate hkept _ hdesc _ => exact hunder _ (by rw [hstate]; rfl) hkept hdesc
  | goes hin' _ hkept _ _ hdesc _ => exact hunder _ hin' hkept hdesc
  | leaves _ _ hto => exact absurd (hto.symm.trans hin) Bool.false_ne_true

theorem Sound.disjoint_next (h : Sound r) (hok : r.Allowed c) :
    ∀ k < (r.next c).got.length,
      ¬ InWord g ((r.next c).desc + BD_STS_OFFSET) (byteAddr g (r.next c).buffer k) ∧
        ¬ InWord g ((r.next c).desc + BD_USR4_OFFSET) (byteAddr g (r.next c).buffer k) := by
  intro k hk
  unfold ReceiveState.next at hk ⊢
  dsimp only at hk ⊢
  cases hopens : r.sys.opens c <;> rw [hopens] at hk
  · rw [if_neg Bool.false_ne_true, if_neg Bool.false_ne_true]
    cases hdelivers : r.sys.delivers c <;> rw [hdelivers] at hk
    · rw [Bool.false_or, if_neg Bool.false_ne_true, List.length_append] at hk
      by_cases hold : k < r.got.length
      · exact h.disjoint k hold
      · have hsome : r.sys.receives c ≠ none := by
          intro hnone
          rw [hnone] at hk
          exact hold hk
        have hlast : k = r.got.length := by
          have hone := Option.length_toList_le (o := r.sys.receives c)
          omega
        rw [hlast]
        exact (hok.room hsome).2.2
    · exact absurd hk (Nat.not_lt_zero k)
  · exact absurd hk (Nat.not_lt_zero k)

theorem Sound.next (h : Sound r) (hok : r.Allowed c) : Sound (r.next c) where
  channels := h.channels.next.2
  marks := h.channels.next.1.marks h.marks fun hin => (h.transmit hin).1
  transmit := h.transmit_next hok
  disjoint := h.disjoint_next hok
  fits := h.keeps hok

theorem Sound.start (hstart : r.sys.Starts) (hnil : r.got = []) : Sound r := by
  have hchannels := hstart.channels
  obtain ⟨a, hdma⟩ := hstart.dma
  refine ⟨hchannels, ?_, ?_, ?_, ?_, ?_, ?_⟩
  · rw [hdma]
    exact .of_other rfl
  · rw [hdma]
    exact fun hin => absurd hin Bool.false_ne_true
  · rw [hnil]
    exact fun k hk => absurd hk (Nat.not_lt_zero k)
  · rw [hdma, hnil]
    exact .of_empty rfl fun hne => absurd rfl hne
  · rw [hdma]
    exact fun hne => absurd rfl hne
  · rw [hdma]
    exact fun d hd => by cases hd

theorem Sound.delivered (h : Sound r) (hdelivers : r.sys.delivers c = true) : r.Delivered := by
  have hstate : r.sys.dma.state = .rxStatusB := by
    unfold DmaSystem.delivers rxWriteComplete at hdelivers
    simp only [Bool.and_eq_true, decide_eq_true_eq] at hdelivers
    exact hdelivers.1.1
  have hphase := h.fits.phase
  unfold Phase at hphase
  rw [hstate] at hphase
  obtain ⟨hne, hfinishes, hlane⟩ := hphase
  obtain ⟨hbuffer, hcdesc, -⟩ := h.fits.known hne
  rw [hcdesc] at hlane
  refine ⟨hfinishes.whole, ?_, hlane⟩
  apply List.ext_getElem?
  intro k
  rw [List.getElem?_map, List.getElem?_map]
  by_cases hk : k < r.got.length
  · have hbyte := hfinishes.inMemory k hk
    rw [hbuffer] at hbyte
    rw [hbyte, List.getElem?_range hk]
    rfl
  · rw [List.getElem?_eq_none (Nat.le_of_not_lt hk), List.getElem?_eq_none (by simpa using hk)]
    rfl

theorem Sound.confined (h : Sound r) {b : BitVec g.ADDR_WIDTH}
    (hchanged : (r.sys.next c).bus.mem b ≠ CppHdl.overlay r.sys.bus.mem c.others b) :
    r.InArea b ∨ InWord g (r.desc + BD_STS_OFFSET) b ∨ InWord g (r.desc + BD_USR4_OFFSET) b ∨
      r.sys.dma.state = .txStatusW ∧ InWord g (r.sys.dma.txCdesc + BD_STS_OFFSET) b := by
  have hstate : r.sys.dma.state.waits = .w ∧ c.timing.w = true := by
    by_contra hnot
    refine hchanged (congrFun (h.channels.mem_next_of_ne (c := c) ?_) b)
    rw [← Bool.not_eq_true]
    tauto
  rw [h.channels.mem_next_w hstate.1 hstate.2] at hchanged
  have hphase := h.fits.phase
  have htarget := h.fits.target
  have hwaits := hstate.1
  unfold Phase at hphase
  unfold rxTarget at htarget
  unfold writeStrb at hchanged
  cases hs : r.sys.dma.state <;> rw [hs] at hwaits hphase htarget hchanged <;> try cases hwaits
  case txStatusW =>
    refine .inr (.inr (.inr ⟨rfl, ?_⟩))
    rw [h.marks.addr (by rw [hs]; rfl), (h.transmit (by rw [hs]; rfl)).1] at hchanged
    obtain ⟨hdiv, hstrobe⟩ := storeBeat_of_changed hchanged
    exact inWord_of_strobe hdiv hstrobe
  case rxWriteW =>
    obtain ⟨hne, hflushes, -⟩ := hphase
    rw [htarget _ rfl] at hchanged
    obtain ⟨j, hj, rfl⟩ := hflushes.toHolds.of_changed hflushes.some hchanged
    have hcount := hflushes.count
    exact .inl ⟨r.sys.dma.offset.toNat + j, by omega, by rw [(h.fits.known hne).1]⟩
  case rxStatusW =>
    rw [htarget _ rfl, (h.fits.known hphase.1).2.1] at hchanged
    obtain ⟨hdiv, hstrobe⟩ := storeBeat_of_changed hchanged
    exact .inr (.inl (inWord_of_strobe hdiv hstrobe))
  case rxApp4W =>
    rw [htarget _ rfl, (h.fits.known hphase.1).2.1] at hchanged
    obtain ⟨hdiv, hstrobe⟩ := storeBeat_of_changed hchanged
    exact .inr (.inr (.inl (inWord_of_strobe hdiv hstrobe)))

/-- Under the condition frames are received intact. -/
theorem frames_received {clocks : List (DmaClock g)}
    (h : (receiveRuns g Allowed).Traces clocks r) : Receives r := by
  obtain ⟨r₀, ⟨hstart, hnil⟩, hrun⟩ := h
  have hsound : Sound r := by
    refine hrun.invariant (fun _ r => Sound r) (.start hstart hnil) ?_
    rintro clocks r (_ | c) r' hinv hstep
    · exact hstep.elim
    · obtain ⟨hok, rfl⟩ := hstep
      exact hinv.next hok
  exact ⟨fun c hdelivers => hsound.delivered hdelivers, fun c b hchanged => hsound.confined hchanged⟩

/-! ## Runs on given inputs -/

/-- The condition, where nobody else writes to memory. -/
def allows (r : ReceiveState g) (c : DmaClock g) : Bool :=
  decide ((r.sys.takes c).isSome = true → r.got = [] ∧ r.sys.receives c = none) &&
    decide ((r.sys.receives c).isSome = true → r.got.length + 1 < 2 ^ 23 ∧
      r.got.length + 1 ≤ 2 ^ g.ADDR_WIDTH ∧
      ¬ InWord g (r.desc + BD_STS_OFFSET) (byteAddr g r.buffer r.got.length) ∧
      ¬ InWord g (r.desc + BD_USR4_OFFSET) (byteAddr g r.buffer r.got.length)) &&
    decide ((r.sys.writes c .rxCdesc).isSome = true →
      r.got = [] ∧ r.sys.receives c = none ∧ r.sys.fetchesRx = false ∨ r.sys.delivers c = true) &&
    decide (r.sys.dma.state.inTx = true ∨ (r.sys.takes c).isSome = true →
      (r.sys.port c).txCdesc = r.sys.dma.txCdesc) &&
    decide (r.sys.opens c = true → r.sys.dma.rxDescAddr.toNat % 4 = 0) &&
    (r.sys.takes c).all fun d => decide (d.toNat % 4 = 0)

theorem Allowed.of_allows (hothers : c.others = fun _ => none) (h : r.allows c = true) :
    r.Allowed c := by
  unfold allows at h
  simp only [Bool.and_eq_true, decide_eq_true_eq] at h
  obtain ⟨⟨⟨⟨⟨hapart, hroom⟩, hrx⟩, htx⟩, hopens⟩, htakes⟩ := h
  refine ⟨fun hne => hapart (Option.isSome_iff_ne_none.mpr hne),
    fun hne => hroom (Option.isSome_iff_ne_none.mpr hne), fun b hne => ?_,
    fun hne => hrx (Option.isSome_iff_ne_none.mpr hne),
    fun hor => htx (hor.imp_right Option.isSome_iff_ne_none.mpr), hopens, fun d hd => ?_⟩
  · rw [hothers] at hne
    exact absurd rfl hne
  · rw [hd, Option.all_some, decide_eq_true_eq] at htakes
    exact htakes

/-- A receive and a transmit descriptor, and a byte to transmit. -/
def receiveMem (b : BitVec 32) : BitVec 8 :=
  if b = 0x49 then 1 else if b = 0xc9 then 2 else if b = 0xd8 then 1 else 0

def receiveStart : ReceiveState RingState.small where
  sys := ⟨resetState 0, receiveMem, none, .free⟩
  desc := 0
  buffer := 0
  got := []

/-- A write of the register port, and a byte from the line. -/
structure ReceiveInput where
  aw : Option (BitVec 32)
  w : Option (BitVec 32)
  rx : Option (BitVec 8 × Bool)

def ReceiveInput.clock (x : ReceiveInput) : DmaClock RingState.small :=
  { RingState.smallClock x.aw x.w with
    macRxValid := x.rx.isSome
    macRxData := (x.rx.map Prod.fst).getD 0
    macRxLast := (x.rx.map Prod.snd).getD false }

def receiveWrite (addr word : BitVec 32) : List ReceiveInput :=
  [⟨some addr, none, none⟩, ⟨none, some word, none⟩, ⟨none, none, none⟩]

def receiveIdle (n : Nat) : List ReceiveInput := List.replicate n ⟨none, none, none⟩

/-- A receive descriptor is posted, and a frame of two bytes comes in; what is between the
two bytes is left open. -/
def receiveInputs (between : List ReceiveInput) (n : Nat) : List ReceiveInput :=
  receiveWrite 0x138 0x40 ++ receiveWrite 0x130 1 ++ receiveWrite 0x140 0x40 ++ receiveIdle 10 ++
    [⟨none, none, some (0xa1, false)⟩] ++ between ++ [⟨none, none, some (0xa2, true)⟩] ++ receiveIdle n

def receiveNext (r : ReceiveState RingState.small) (x : ReceiveInput) :
    ReceiveState RingState.small := r.next x.clock

/-- The state before the frame is complete. -/
abbrev receiveEnd (between : List ReceiveInput) : ReceiveState RingState.small :=
  (receiveInputs between 14).foldl receiveNext receiveStart

theorem receive_run {ok : ReceiveState RingState.small → DmaClock RingState.small → Prop}
    {P : ReceiveState RingState.small → ReceiveInput → Prop}
    (hok : ∀ r x, P r x → ok r x.clock) {xs : List ReceiveInput}
    (h : Transitions.Along P receiveNext receiveStart xs) :
    (receiveRuns RingState.small ok).Traces
      (Transitions.eventsAlong (fun _ x => x.clock) receiveNext receiveStart xs)
      (xs.foldl receiveNext receiveStart) := by
  refine ⟨receiveStart, ⟨⟨⟨0, rfl⟩, rfl, rfl⟩, rfl⟩, Transitions.Run.of_inputs ?_ h⟩
  intro r x hx
  exact ⟨hok r x hx, rfl⟩

/-- A transmit descriptor is posted and done with. -/
def transmitBetween : List ReceiveInput :=
  receiveWrite 0x108 0xc0 ++ receiveWrite 0x110 0xc0 ++ receiveWrite 0x100 1 ++ receiveIdle 30

/-- A transmit descriptor between two bytes: the status gives one byte of two. -/
theorem byte_before_transmit_is_lost :
    ¬ ∀ (clocks : List (DmaClock RingState.small)) (r : ReceiveState RingState.small),
      (receiveRuns RingState.small fun _ _ => True).Traces clocks r → Receives r := by
  intro h
  have hrun : (receiveRuns RingState.small fun _ _ => True).Traces _ (receiveEnd transmitBetween) :=
    receive_run (P := fun _ _ => True) (fun _ _ _ => trivial) (by decide +kernel)
  have hreceives := h _ _ hrun
  have hdelivered := hreceives.delivered (ReceiveInput.clock ⟨none, none, none⟩) (by decide +kernel)
  have hstatus := hdelivered.status
  revert hstatus
  decide +kernel

/-- Without it both bytes are there. -/
theorem frames_received_small :
    Receives (receiveEnd []) ∧
      (receiveEnd []).sys.delivers (ReceiveInput.clock ⟨none, none, none⟩) = true ∧
      (receiveEnd []).got = [(0xa1, false), (0xa2, true)] := by
  have hrun : (receiveRuns RingState.small Allowed).Traces _ (receiveEnd []) :=
    receive_run (P := fun r x => r.allows x.clock = true)
      (fun _ _ hallows => .of_allows rfl hallows) (by decide +kernel)
  exact ⟨frames_received hrun, by decide +kernel, by decide +kernel⟩

end ReceiveState

end CppHdl.Devices
