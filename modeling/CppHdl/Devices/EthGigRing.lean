import CppHdl.Devices.EthGigSystem

/-!
# The transmit ring

Software posts descriptors by moving the tail along the links of a ring, and the engine
transmits and completes them in the order of the links. It knows what is posted from its
two pointers and a flag for a completed tail, and takes an empty ring for one whose
current descriptor is above the tail.
-/

namespace CppHdl.Devices

open EthGigDma

/-! ## Segments of a ring -/

variable {ring : BitVec 32 → BitVec 32}

/-- The descriptors follow each other from `p` on. -/
def IsSegment (ring : BitVec 32 → BitVec 32) : BitVec 32 → List (BitVec 32) → Prop
  | _, [] => True
  | p, d :: ds => d = p ∧ IsSegment ring (ring d) ds

def segmentEnd (ring : BitVec 32 → BitVec 32) : BitVec 32 → List (BitVec 32) → BitVec 32
  | p, [] => p
  | _, d :: ds => segmentEnd ring (ring d) ds

instance IsSegment.decidable : ∀ (p : BitVec 32) (ds : List (BitVec 32)),
    Decidable (IsSegment ring p ds)
  | _, [] => inferInstanceAs (Decidable True)
  | p, d :: ds =>
      have : Decidable (IsSegment ring (ring d) ds) := IsSegment.decidable _ ds
      inferInstanceAs (Decidable (d = p ∧ _))

theorem isSegment_append {p : BitVec 32} {ds es : List (BitVec 32)} :
    IsSegment ring p (ds ++ es) ↔ IsSegment ring p ds ∧ IsSegment ring (segmentEnd ring p ds) es := by
  induction ds generalizing p with
  | nil => exact (and_iff_right trivial).symm
  | cons d ds ih =>
      change d = p ∧ IsSegment ring (ring d) (ds ++ es) ↔ (d = p ∧ _) ∧ _
      rw [ih, and_assoc]
      rfl

theorem segmentEnd_append {p : BitVec 32} {ds es : List (BitVec 32)} :
    segmentEnd ring p (ds ++ es) = segmentEnd ring (segmentEnd ring p ds) es := by
  induction ds generalizing p with
  | nil => rfl
  | cons d ds ih => exact ih

/-! ## Runs -/

/-- The engine, and what software knows of its ring: the descriptor it posts next, and
those that are posted and not complete. -/
structure RingState (g : DmaGeometry) where
  sys : DmaSystem g
  position : BitVec 32
  waiting : List (BitVec 32)

structure RingClock where
  start : Option (BitVec 32)
  posts : List (BitVec 32)
  completes : Option (BitVec 32)
  deriving DecidableEq

def posted (clocks : List RingClock) : List (BitVec 32) := clocks.flatMap RingClock.posts

def completed (clocks : List RingClock) : List (BitVec 32) := clocks.filterMap RingClock.completes

namespace DmaSystem

variable {g : DmaGeometry} (s : DmaSystem g) (c : DmaClock g)

def writes (r : Register) : Option (BitVec 32) :=
  if s.dma.registerWrite (s.inputs c) = some r then some (s.dma.mmioWriteWord (s.inputs c)) else none

/-- The transmit descriptor whose status is acknowledged. -/
def completes : Option (BitVec 32) :=
  if s.dma.state = .txStatusB ∧ (s.dma.writeRespWait && s.bus.bvalid c.timing) = true then
    some s.dma.descAddr
  else none

end DmaSystem

namespace RingState

variable {g : DmaGeometry}

/-- What software posts in a clock: nothing without a write of the tail, and else the links
from its position to the tail, none of which is posted already. -/
structure Posts (ring : BitVec 32 → BitVec 32) (r : RingState g) (c : DmaClock g)
    (posts : List (BitVec 32)) : Prop where
  none : r.sys.writes c .txTdesc = none → posts = []
  tail : ∀ w, r.sys.writes c .txTdesc = some w → posts.getLast? = some w
  segment : IsSegment ring r.position posts
  owned : (r.waiting ++ posts).Nodup
  nonzero : 0 ∉ posts
  /-- The ring is in memory. -/
  links : ∀ d ∈ r.waiting, laneAt g.DATA_BYTES r.sys.bus.mem
    ((d + BD_NDESC_OFFSET).setWidth g.ADDR_WIDTH) = ring d

def clock (r : RingState g) (c : DmaClock g) (posts : List (BitVec 32)) : RingClock where
  start := r.sys.writes c .txCdesc
  posts := posts
  completes := r.sys.completes c

def next (ring : BitVec 32 → BitVec 32) (r : RingState g) (c : DmaClock g)
    (posts : List (BitVec 32)) : RingState g where
  sys := r.sys.next c
  position := (r.sys.writes c .txCdesc).getD (segmentEnd ring r.position posts)
  waiting := (if (r.sys.completes c).isSome then r.waiting.tail else r.waiting) ++ posts

end RingState

/-- Runs from a reset on, of clocks under a condition. -/
def ringRuns (g : DmaGeometry) (ring : BitVec 32 → BitVec 32)
    (ok : RingState g → DmaClock g → List (BitVec 32) → Prop) :
    Transitions (RingState g) RingClock where
  init r := r.sys.Starts ∧ r.position = 0 ∧ r.waiting = []
  step
    | r, some e, r' => ∃ (c : DmaClock g) (posts : List (BitVec 32)),
        r.Posts ring c posts ∧ ok r c posts ∧ e = r.clock c posts ∧ r' = r.next ring c posts
    | _, none, _ => False

namespace RingState

variable {g : DmaGeometry}

structure InOrder (ring : BitVec 32 → BitVec 32)
    (ok : RingState g → DmaClock g → List (BitVec 32) → Prop) (clocks : List RingClock)
    (r : RingState g) : Prop where
  /-- What is complete was posted, in that order and each once. -/
  ordered : completed clocks <+: posted clocks
  /-- An idle engine takes up the next posted descriptor. -/
  served : ∀ c posts, r.Posts ring c posts → ok r c posts → r.sys.dma.state = .idle →
    r.sys.dma.txRun = true → completed clocks ≠ posted clocks →
      r.sys.dma.txFetches = true ∧
        (posted clocks)[(completed clocks).length]? = some r.sys.dma.txCdesc
  /-- What completes is the next posted descriptor. -/
  next : ∀ c d, r.sys.completes c = some d → (posted clocks)[(completed clocks).length]? = some d
  /-- Its status word is marked. -/
  marked : ∀ c d, r.sys.dma.state = .txStatusW → c.timing.w = true →
    (posted clocks)[(completed clocks).length]? = some d → d.toNat % 4 = 0 →
      (laneAt g.DATA_BYTES (r.sys.next c).bus.mem
        ((d + BD_STS_OFFSET).setWidth g.ADDR_WIDTH)).getLsbD 31 = true

/-- The ring starts while nothing is posted; after the tail completed, one descriptor is
posted at a time; nothing is posted in the clock in which the last descriptor completes; an
idle engine finds its current descriptor not above the tail exactly when something is
posted. -/
structure Allowed (r : RingState g) (c : DmaClock g) (posts : List (BitVec 32)) : Prop where
  start : (r.sys.writes c .txCdesc).isSome = true → r.waiting = []
  single : r.sys.dma.txTailDone = true → posts.length ≤ 1
  apart : (r.sys.completes c).isSome = true → r.waiting.length = 1 → posts = []
  ascending : r.sys.dma.state = .idle → r.waiting ≠ [] → r.sys.dma.txCdesc ≤ r.sys.dma.txTdesc
  empty : r.sys.dma.state = .idle → r.waiting = [] → r.sys.dma.txFetches = false

end RingState

/-! ## The two pointers -/

namespace EthGigDma

variable {g : DmaGeometry} {s n : EthGigDma g} {i : DmaInputs g}

/-- What a register write does to the pointers. -/
structure TxWritten (s : EthGigDma g) (i : DmaInputs g) (n : EthGigDma g) : Prop where
  txCdesc : n.txCdesc = match s.registerWrite i with
    | some .txCdesc => s.mmioWriteWord i
    | some .txTdesc => if s.txTailDone then s.mmioWriteWord i else s.txCdesc
    | _ => s.txCdesc
  txTdesc : n.txTdesc = match s.registerWrite i with
    | some .txTdesc => s.mmioWriteWord i
    | _ => s.txTdesc
  txTailDone : n.txTailDone = match s.registerWrite i with
    | some .txCdesc => false
    | some .txTdesc => false
    | _ => s.txTailDone

theorem txWritten_registerPort : TxWritten s i (s.registerPort i) := by
  have key : ∀ n : EthGigDma g, n.txCdesc = s.txCdesc → n.txTdesc = s.txTdesc →
      n.txTailDone = s.txTailDone → TxWritten s i (s.registerData i n) := by
    intro n hcdesc htdesc hdone
    unfold registerData
    by_cases hfire : (s.axiWriteAddrValid && i.wvalid && s.wready) = true
    · have hwrite : s.registerWrite i = some (register s.axiWriteAddr.toNat) := if_pos hfire
      rw [if_pos hfire]
      unfold writeRegister
      cases hreg : register s.axiWriteAddr.toNat <;> rw [hreg] at hwrite <;> dsimp only
      case txTdesc =>
        constructor <;> rw [hwrite]
        dsimp only
        rw [hcdesc]
      case txCr | rxCr =>
        split_ifs <;> constructor <;> rw [hwrite] <;>
          first | exact hcdesc | exact htdesc | exact hdone
      all_goals
        constructor <;> rw [hwrite] <;> first | rfl | exact hcdesc | exact htdesc | exact hdone
    · have hwrite : s.registerWrite i = none := if_neg hfire
      rw [if_neg hfire]
      split_ifs <;> constructor <;> rw [hwrite] <;>
        first | exact hcdesc | exact htdesc | exact hdone
  unfold registerPort
  dsimp only
  apply key <;> split_ifs <;> rfl

namespace State

/-- A transmit descriptor is under way. -/
def inTx : State → Bool
  | txNdescAr | txNdescR | txCtrlAr | txCtrlR | txBufaAr | txBufaR | txDataAr | txDataR | txSend => true
  | txStatusRmwAr | txStatusRmwR | txStatusAw | txStatusW | txStatusB => true
  | _ => false

def linking (t : State) : Bool := decide (t = txNdescAr) || decide (t = txNdescR)

/-- The address of the status word is out. -/
def marking (t : State) : Bool :=
  decide (t = txStatusRmwAr) || decide (t = txStatusRmwR) || decide (t = txStatusAw) ||
    decide (t = txStatusW)

theorem after_inTx (t : State) : t.after.inTx = t.inTx ∧ t.after.linking = t.linking := by
  cases t <;> exact ⟨rfl, rfl⟩

end State

/-- The status of the descriptor under way, up to its word on the bus. -/
structure Marks (s : EthGigDma g) : Prop where
  addr : s.state.marking = true → s.writeAddr = beatStart (s.descAddr + BD_STS_OFFSET)
  data : s.state = .txStatusAw ∨ s.state = .txStatusW →
    (s.writeData.extractLsb' (lane (g := g) (s.descAddr + BD_STS_OFFSET) * 32) 32).getLsbD 31 = true

theorem getLsbD_statusWriteBeat :
    (s.statusWriteBeat.extractLsb'
      (lane (g := g) ((if s.inRxStatus then s.rxCdesc else s.txCdesc) + BD_STS_OFFSET) * 32)
      32).getLsbD 31 = true := by
  have hfits := DmaGeometry.lane_fits (g := g)
    ((if s.inRxStatus then s.rxCdesc else s.txCdesc) + BD_STS_OFFSET).toNat
  unfold statusWriteBeat
  dsimp only
  rw [extractLsb'_withBits _ _ _ (by unfold lane DmaGeometry.DATA_WIDTH; omega)]
  split_ifs <;> simp [BD_STS_COMPLETE_MASK]

theorem Marks.of_other (h : n.state.marking = false) : Marks n := by
  constructor
  · intro hstate
    exact absurd (h.symm.trans hstate) Bool.false_ne_true
  · rintro (hstate | hstate) <;> rw [hstate] at h <;> cases h

/-- The pointers of the register port stay. -/
structure TxKept (n n' : EthGigDma g) : Prop where
  txCdesc : n'.txCdesc = n.txCdesc
  txTdesc : n'.txTdesc = n.txTdesc
  txTailDone : n'.txTailDone = n.txTailDone

end EthGigDma

namespace DmaSystem

variable {g : DmaGeometry} {s : DmaSystem g} {c : DmaClock g} {n : EthGigDma g}

/-- What a clock does to the transmit descriptor: it completes, its link is read, or it goes
on. -/
inductive TxStep (s : DmaSystem g) (c : DmaClock g) (n : EthGigDma g) : Prop
  | completes : s.dma.state = .txStatusB →
      (s.dma.writeRespWait && s.bus.bvalid c.timing) = true → n.state = .idle →
      n.txCdesc = s.dma.txNextDesc → n.txTdesc = (s.port c).txTdesc →
      n.txTailDone = (if s.dma.descAddr = s.dma.txTdesc then true else (s.port c).txTailDone) →
      TxStep s c n
  | fetches : s.dma.state = .idle → s.dma.txFetches = true → TxKept (s.port c) n →
      n.state = .txNdescAr → n.descAddr = s.dma.txCdesc → TxStep s c n
  | links : s.dma.state = .txNdescR → TxKept (s.port c) n → n.state = .txCtrlAr →
      n.descAddr = s.dma.descAddr →
      n.txNextDesc = laneAt g.DATA_BYTES s.bus.mem s.dma.readAddr → TxStep s c n
  | goes : s.dma.state.inTx = true → (s.dma.state = .txStatusB →
        (s.dma.writeRespWait && s.bus.bvalid c.timing) = false) →
      TxKept (s.port c) n → n.state.inTx = true →
      n.state.linking = s.dma.state.linking → n.descAddr = s.dma.descAddr →
      n.txNextDesc = s.dma.txNextDesc → TxStep s c n
  | leaves : s.dma.state.inTx = false → TxKept (s.port c) n → n.state.inTx = false → TxStep s c n

theorem rxAccepts_idle {s : EthGigDma g} {i : DmaInputs g} (h : s.rxAccepts i = true) :
    s.state = .idle := by
  unfold rxAccepts at h
  simp only [Bool.and_eq_true, decide_eq_true_eq] at h
  exact h.1.1.1.1

theorem advance_marking (hstate : s.dma.state = .idle) (hport : (s.port c).state = .idle) :
    (s.dma.advance (s.inputs c) (s.port c)).state.marking = false := by
  unfold advance
  rw [hstate]
  dsimp only
  split_ifs
  · rfl
  · rfl
  · rw [hport]
    rfl

theorem advance_txKept (hstate : s.dma.state = .idle) :
    TxKept (s.port c) (s.dma.advance (s.inputs c) (s.port c)) := by
  unfold advance
  rw [hstate]
  dsimp only
  split_ifs <;> exact ⟨rfl, rfl, rfl⟩

theorem TxStep.of_advance (hstate : s.dma.state = .idle) (hport : (s.port c).state = .idle) :
    s.TxStep c (s.dma.advance (s.inputs c) (s.port c)) := by
  have hkept := advance_txKept (c := c) hstate
  have hout : s.dma.state.inTx = false := by rw [hstate]; rfl
  unfold advance at hkept ⊢
  rw [hstate] at hkept ⊢
  dsimp only at hkept ⊢
  by_cases htx : s.dma.txFetches = true
  · rw [if_pos htx] at hkept ⊢
    exact .fetches hstate htx hkept rfl rfl
  · rw [if_neg htx] at hkept ⊢
    split_ifs at hkept ⊢
    · exact .leaves hout hkept rfl
    · exact .leaves hout hkept (by rw [hport]; rfl)

/-- Only the transmit registers and the state count. -/
theorem TxStep.congr {n' : EthGigDma g} (h : s.TxStep c n) (hkept : TxKept n n')
    (hstate : n'.state = n.state) (hdesc : n'.descAddr = n.descAddr)
    (hnext : n'.txNextDesc = n.txNextDesc) : s.TxStep c n' := by
  have htrans : TxKept (s.port c) n → TxKept (s.port c) n' := fun h =>
    ⟨hkept.txCdesc.trans h.txCdesc, hkept.txTdesc.trans h.txTdesc,
      hkept.txTailDone.trans h.txTailDone⟩
  cases h with
  | completes hs hwb hto hc ht hd =>
      exact .completes hs hwb (hstate.trans hto) (hkept.txCdesc.trans hc) (hkept.txTdesc.trans ht)
        (hkept.txTailDone.trans hd)
  | fetches hs hf hk hto hd =>
      exact .fetches hs hf (htrans hk) (hstate.trans hto) (hdesc.trans hd)
  | links hs hk hto hd hn =>
      exact .links hs (htrans hk) (hstate.trans hto) (hdesc.trans hd) (hnext.trans hn)
  | goes hs hl hk hto hlink hd hn =>
      exact .goes hs hl (htrans hk) (by rw [hstate]; exact hto) (by rw [hstate]; exact hlink)
        (hdesc.trans hd) (hnext.trans hn)
  | leaves hs hk hto => exact .leaves hs (htrans hk) (by rw [hstate]; exact hto)

theorem Step.tx (h : s.Step c n) : s.TxStep c n := by
  have hsame := sameMachine_registerPort (s := s.dma) (i := s.inputs c)
  cases h with
  | holds hne hquiet =>
      cases htx : s.dma.state.inTx
      · exact .leaves htx ⟨rfl, rfl, rfl⟩ (by rw [hsame.state]; exact htx)
      · exact .goes htx (fun _ => hquiet) ⟨rfl, rfl, rfl⟩ (by rw [hsame.state]; exact htx)
          (by rw [hsame.state]) hsame.descAddr hsame.txNextDesc
  | moves hwaits =>
      obtain ⟨hin, hlink⟩ := EthGigDma.State.after_inTx s.dma.state
      cases htx : s.dma.state.inTx
      · exact .leaves htx ⟨rfl, rfl, rfl⟩ (hin.trans htx)
      · refine .goes htx (fun hlast => ?_) ⟨rfl, rfl, rfl⟩ (hin.trans htx) hlink hsame.descAddr
          hsame.txNextDesc
        rw [hlast] at hwaits
        rcases hwaits with h | h | h <;> cases h
  | requests t hwaits ht =>
      have hto : t.inTx = s.dma.state.inTx ∧ t.linking = s.dma.state.linking := by
        rcases ht with rfl | rfl
        · exact ⟨rfl, rfl⟩
        · exact EthGigDma.State.after_inTx _
      cases htx : s.dma.state.inTx
      · exact .leaves htx ⟨rfl, rfl, rfl⟩ (hto.1.trans htx)
      · refine .goes htx (fun hlast => ?_) ⟨rfl, rfl, rfl⟩ (hto.1.trans htx) hto.2 hsame.descAddr
          hsame.txNextDesc
        rw [hlast] at hwaits
        cases hwaits
  | statusAw t hstate ht =>
      refine .leaves (by rw [hstate]; rfl) ⟨rfl, rfl, rfl⟩ ?_
      rcases ht with rfl | rfl <;> rfl
  | answered hwaits hdata =>
      have hword : s.dma.dmaReadWord (s.inputs c) = laneAt g.DATA_BYTES s.bus.mem s.dma.readAddr := by
        unfold dmaReadWord
        rw [hdata]
        rfl
      unfold readResponse
      cases hs : s.dma.state <;> rw [hs] at hwaits <;> dsimp only
      case txNdescR => exact .links hs ⟨rfl, rfl, rfl⟩ rfl hsame.descAddr hword
      case txCtrlR | txBufaR | txDataR | txStatusRmwR =>
        exact .goes (by rw [hs]; rfl) (fun h => by rw [hs] at h; cases h) ⟨rfl, rfl, rfl⟩ rfl
          (by rw [hs]; rfl) hsame.descAddr hsame.txNextDesc
      case rxNdescR | rxBufaR | rxRmwR | rxStatusRmwR | rxApp4RmwR =>
        exact .leaves (by rw [hs]; rfl) ⟨rfl, rfl, rfl⟩ rfl
      all_goals cases hwaits
  | written hwaits hwb =>
      unfold writeResponse
      cases hs : s.dma.state <;> rw [hs] at hwaits <;> dsimp only
      case txStatusB => exact .completes hs hwb rfl rfl rfl rfl
      case rxWriteB => split_ifs <;> exact .leaves (by rw [hs]; rfl) ⟨rfl, rfl, rfl⟩ rfl
      case rxApp4B | rxStatusB => exact .leaves (by rw [hs]; rfl) ⟨rfl, rfl, rfl⟩ rfl
      all_goals cases hwaits
  | sends hstate hready =>
      have hin : s.dma.state.inTx = true := by rw [hstate]; rfl
      have hlast : s.dma.state = .txStatusB → (s.dma.writeRespWait && s.bus.bvalid c.timing) = false :=
        fun h => by rw [hstate] at h; cases h
      have hport : (s.port c).state = .txSend := hsame.state.trans hstate
      unfold send
      dsimp only
      split_ifs
      · exact .goes hin hlast ⟨rfl, rfl, rfl⟩ rfl (by rw [hstate]; rfl) hsame.descAddr
          hsame.txNextDesc
      · exact .goes hin hlast ⟨rfl, rfl, rfl⟩ rfl (by rw [hstate]; rfl) hsame.descAddr
          hsame.txNextDesc
      · exact .goes hin hlast ⟨rfl, rfl, rfl⟩ (by rw [hport]; rfl) (by rw [hport, hstate])
          hsame.descAddr hsame.txNextDesc
  | idles hstate hno =>
      have hport : (s.port c).state = .idle := hsame.state.trans hstate
      exact .of_advance hstate hport
  | accepts haccepts =>
      have hstate := rxAccepts_idle haccepts
      have hport : (s.port c).state = .idle := hsame.state.trans hstate
      have hadvance : s.TxStep c (s.dma.advance (s.inputs c) (s.port c)) := .of_advance hstate hport
      unfold accept
      dsimp only
      by_cases hflush : s.dma.rxFlushes (s.inputs c) = true
      · rw [if_pos hflush]
        exact .leaves (by rw [hstate]; rfl) { advance_txKept (c := c) hstate with } rfl
      · rw [if_neg hflush]
        exact hadvance.congr ⟨rfl, rfl, rfl⟩ rfl rfl rfl

theorem Step.marks (h : s.Step c n) (hm : s.dma.Marks)
    (hcur : s.dma.state.inTx = true → s.dma.descAddr = s.dma.txCdesc) : n.Marks := by
  have hsame := sameMachine_registerPort (s := s.dma) (i := s.inputs c)
  cases h with
  | holds hne hquiet =>
      constructor <;> rw [hsame.state, hsame.descAddr]
      · rw [hsame.writeAddr]
        exact hm.addr
      · rw [hsame.writeData]
        exact hm.data
  | moves hwaits =>
      have hto : (goto s.dma.state.after (s.port c)).state = s.dma.state.after := rfl
      have haddr : (goto s.dma.state.after (s.port c)).writeAddr = s.dma.writeAddr := hsame.writeAddr
      have hdata : (goto s.dma.state.after (s.port c)).writeData = s.dma.writeData := hsame.writeData
      have hdesc : (goto s.dma.state.after (s.port c)).descAddr = s.dma.descAddr := hsame.descAddr
      have hmark : s.dma.state.after.marking = true → s.dma.state.marking = true := by
        cases s.dma.state <;> decide
      have hlate : s.dma.state.after = .txStatusAw ∨ s.dma.state.after = .txStatusW →
          s.dma.state = .txStatusAw ∨ s.dma.state = .txStatusW := by
        cases s.dma.state <;> decide
      constructor <;> rw [hto, hdesc]
      · rw [haddr]
        exact fun hs => hm.addr (hmark hs)
      · rw [hdata]
        exact fun hs => hm.data (hlate hs)
  | requests t hwaits ht =>
      apply Marks.of_other
      change t.marking = false
      rcases ht with rfl | rfl <;> revert hwaits <;> cases s.dma.state <;> decide
  | statusAw t hstate ht =>
      apply Marks.of_other
      rcases ht with rfl | rfl <;> rfl
  | answered hwaits hdata =>
      by_cases hs : s.dma.state = .txStatusRmwR
      · have hcur := hcur (by rw [hs]; rfl)
        have hfits := DmaGeometry.lane_fits (g := g) (s.dma.txCdesc + BD_STS_OFFSET).toNat
        have hmark := getLsbD_statusWriteBeat (s := s.dma)
        rw [show s.dma.inRxStatus = false by unfold inRxStatus; rw [hs]; rfl,
          if_neg Bool.false_ne_true] at hmark
        have haddr := hm.addr (by rw [hs]; rfl)
        unfold readResponse
        rw [hs]
        constructor
        · intro _
          exact (hsame.writeAddr.trans haddr).trans
            (congrArg (fun d => beatStart (d + BD_STS_OFFSET)) hsame.descAddr.symm)
        · intro _
          change (BitVec.extractLsb' (EthGigDma.lane (g := g) ((s.port c).descAddr + BD_STS_OFFSET) * 32) 32
            (withBits _ _ _)).getLsbD 31 = true
          rw [hsame.descAddr, hcur, extractLsb'_withBits _ _ _ (by unfold EthGigDma.lane DmaGeometry.DATA_WIDTH; omega)]
          exact hmark
      · apply Marks.of_other
        unfold readResponse
        revert hwaits hs
        cases s.dma.state <;> intro hwaits hs <;>
          first | rfl | exact absurd rfl hs | cases hwaits
  | written hwaits hwb =>
      apply Marks.of_other
      unfold writeResponse
      cases hs : s.dma.state <;> rw [hs] at hwaits <;> dsimp only <;>
        first
        | rfl
        | (split_ifs <;> rfl)
        | cases hwaits
  | sends hstate hready =>
      have hport : (s.port c).state = .txSend := hsame.state.trans hstate
      unfold send
      dsimp only
      split_ifs
      · constructor
        · intro _
          exact congrArg (fun d => beatStart (d + BD_STS_OFFSET)) hsame.descAddr.symm
        · rintro (h | h) <;> cases h
      · exact .of_other rfl
      · exact .of_other (by rw [hport]; rfl)
  | idles hstate hno =>
      apply Marks.of_other
      exact advance_marking hstate (hsame.state.trans hstate)
  | accepts haccepts =>
      have hstate := rxAccepts_idle haccepts
      apply Marks.of_other
      unfold accept
      dsimp only
      by_cases hflush : s.dma.rxFlushes (s.inputs c) = true
      · rw [if_pos hflush]
        rfl
      · rw [if_neg hflush]
        exact advance_marking hstate (hsame.state.trans hstate)

end DmaSystem

namespace RingState

variable {g : DmaGeometry} {r : RingState g} {c : DmaClock g} {posts : List (BitVec 32)}
  {clocks : List RingClock}

/-- The registers know the ring: the current descriptor heads the posted ones, the tail is
the last of them, and the descriptor under way is the current one. -/
structure Sound (ring : BitVec 32 → BitVec 32) (clocks : List RingClock) (r : RingState g) :
    Prop where
  channels : r.sys.Channels
  ordered : posted clocks = completed clocks ++ r.waiting
  segment : IsSegment ring r.sys.dma.txCdesc r.waiting
  position : segmentEnd ring r.sys.dma.txCdesc r.waiting = r.position
  nodup : r.waiting.Nodup
  nonzero : 0 ∉ r.waiting
  tail : r.waiting ≠ [] →
    r.sys.dma.txTailDone = false ∧ r.waiting.getLast? = some r.sys.dma.txTdesc
  underWay : r.sys.dma.state.inTx = true →
    r.waiting ≠ [] ∧ r.sys.dma.descAddr = r.sys.dma.txCdesc
  linked : r.sys.dma.state.inTx = true → r.sys.dma.state.linking = false →
    r.sys.dma.txNextDesc = ring r.sys.dma.txCdesc

theorem Sound.start (h : r.sys.Starts) (hposition : r.position = 0) (hwaiting : r.waiting = []) :
    Sound ring [] r := by
  obtain ⟨a, hdma⟩ := h.dma
  have hzero : r.sys.dma.txCdesc = 0 := by rw [hdma]; rfl
  have hidle : r.sys.dma.state.inTx = false := by rw [hdma]; rfl
  constructor <;> try rw [hwaiting]
  case channels => exact h.channels
  case ordered => rfl
  case segment => trivial
  case position => exact hzero.trans hposition.symm
  case nodup => exact List.nodup_nil
  case nonzero => exact List.not_mem_nil
  case tail => exact fun h => absurd rfl h
  all_goals intro h; exact absurd (hidle.symm.trans h) Bool.false_ne_true

/-- The registers and the posts after the register port. -/
structure Ported (ring : BitVec 32 → BitVec 32) (r : RingState g) (c : DmaClock g)
    (posts : List (BitVec 32)) : Prop where
  segment : IsSegment ring (r.sys.port c).txCdesc (r.waiting ++ posts)
  position : segmentEnd ring (r.sys.port c).txCdesc (r.waiting ++ posts) =
    (r.next ring c posts).position
  tail : r.waiting ++ posts ≠ [] → (r.sys.port c).txTailDone = false ∧
    (r.waiting ++ posts).getLast? = some (r.sys.port c).txTdesc
  current : r.waiting ≠ [] → (r.sys.port c).txCdesc = r.sys.dma.txCdesc

theorem Sound.append (h : Sound ring clocks r) (hposts : r.Posts ring c posts) :
    IsSegment ring r.sys.dma.txCdesc (r.waiting ++ posts) ∧
      segmentEnd ring r.sys.dma.txCdesc (r.waiting ++ posts) = segmentEnd ring r.position posts := by
  rw [isSegment_append, segmentEnd_append, h.position]
  exact ⟨⟨h.segment, hposts.segment⟩, rfl⟩

theorem Sound.ported (h : Sound ring clocks r) (hposts : r.Posts ring c posts)
    (hok : r.Allowed c posts) : Ported ring r c posts := by
  have htx := txWritten_registerPort (s := r.sys.dma) (i := r.sys.inputs c)
  have hwrites : ∀ reg, r.sys.writes c reg =
      if r.sys.dma.registerWrite (r.sys.inputs c) = some reg then
        some (r.sys.dma.mmioWriteWord (r.sys.inputs c)) else none := fun _ => rfl
  have hposition : (r.next ring c posts).position =
      (r.sys.writes c .txCdesc).getD (segmentEnd ring r.position posts) := rfl
  obtain ⟨hsegment, hend⟩ := h.append hposts
  by_cases hstart : r.sys.dma.registerWrite (r.sys.inputs c) = some .txCdesc
  · -- the ring starts at the value written
    have hcdesc := (hwrites .txCdesc).trans (if_pos hstart)
    have hempty : r.waiting = [] := hok.start (by rw [hcdesc]; rfl)
    have hnone : posts = [] := by
      apply hposts.none
      rw [hwrites, hstart]
      rfl
    have hnow : (r.sys.port c).txCdesc = r.sys.dma.mmioWriteWord (r.sys.inputs c) := by
      rw [htx.txCdesc, hstart]
    subst hnone
    constructor <;> rw [hempty]
    case segment => trivial
    case position => rw [hposition, hcdesc, ← hnow]; rfl
    case tail => exact fun hne => absurd rfl hne
    case current => exact fun hne => absurd rfl hne
  rw [hwrites, if_neg hstart] at hposition
  by_cases hpost : r.sys.dma.registerWrite (r.sys.inputs c) = some .txTdesc
  · -- a segment is posted
    have htdesc := (hwrites .txTdesc).trans (if_pos hpost)
    have hlast := hposts.tail _ htdesc
    have hne : posts ≠ [] := by
      rintro rfl
      cases hlast
    have hport : (r.sys.port c).txCdesc = r.sys.dma.txCdesc := by
      rw [htx.txCdesc, hpost]
      dsimp only
      by_cases hdone : r.sys.dma.txTailDone = true
      · -- nothing is posted, and the one descriptor now posted is the current one
        have hempty : r.waiting = [] := by
          by_contra hwaiting
          exact absurd ((h.tail hwaiting).1.symm.trans hdone) Bool.false_ne_true
        obtain ⟨d, rfl⟩ : ∃ d, posts = [d] := by
          refine List.length_eq_one_iff.mp (Nat.le_antisymm (hok.single hdone) ?_)
          exact List.length_pos_iff.mpr hne
        rw [if_pos hdone]
        rw [hempty] at hsegment
        cases hlast
        exact hsegment.1
      · rw [if_neg hdone]
    refine ⟨by rw [hport]; exact hsegment, by rw [hport, hend, hposition]; rfl, fun _ => ⟨?_, ?_⟩,
      fun _ => hport⟩
    · rw [htx.txTailDone, hpost]
    · rw [htx.txTdesc, hpost, List.getLast?_append, hlast]
      rfl
  · have hnone : posts = [] := hposts.none (by rw [hwrites, if_neg hpost])
    have hport : (r.sys.port c).txCdesc = r.sys.dma.txCdesc := by
      rw [htx.txCdesc]
      split <;> first | rfl | (exfalso; apply hstart; assumption) | (exfalso; apply hpost; assumption)
    refine ⟨by rw [hport]; exact hsegment, by rw [hport, hend, hposition]; rfl, ?_, fun _ => hport⟩
    rw [hnone, List.append_nil]
    intro hne
    obtain ⟨hdone, hlast⟩ := h.tail hne
    rw [htx.txTailDone, htx.txTdesc]
    constructor
    · split <;> first | rfl | exact hdone
    · split
      · exfalso
        apply hpost
        assumption
      · exact hlast

theorem Sound.of_kept (h : Sound ring clocks r) (hposts : r.Posts ring c posts)
    (hok : r.Allowed c posts) (hnone : r.sys.completes c = none)
    (hkept : TxKept (r.sys.port c) (r.sys.next c).dma)
    (hunder : (r.sys.next c).dma.state.inTx = true → r.waiting ≠ [] ∧
      (r.sys.next c).dma.descAddr = r.sys.dma.txCdesc)
    (hlinked : (r.sys.next c).dma.state.inTx = true → (r.sys.next c).dma.state.linking = false →
      (r.sys.next c).dma.txNextDesc = ring r.sys.dma.txCdesc) :
    Sound ring (clocks ++ [r.clock c posts]) (r.next ring c posts) := by
  have hport := h.ported hposts hok
  have hwaiting : (r.next ring c posts).waiting = r.waiting ++ posts := by
    unfold next
    rw [hnone]
    rfl
  have hcdesc : (r.next ring c posts).sys.dma.txCdesc = (r.sys.port c).txCdesc := hkept.txCdesc
  constructor <;> try rw [hwaiting]
  case channels => exact h.channels.next.2
  case ordered =>
    have hclock : (r.clock c posts).completes = none := hnone
    unfold posted completed
    rw [List.flatMap_append, List.filterMap_append]
    have hordered : clocks.flatMap RingClock.posts =
        clocks.filterMap RingClock.completes ++ r.waiting := h.ordered
    rw [hordered, List.filterMap_cons_none hclock, List.filterMap_nil, List.append_nil,
      List.flatMap_singleton, List.append_assoc]
    rfl
  case segment =>
    rw [hcdesc]
    exact hport.segment
  case position =>
    rw [hcdesc]
    exact hport.position
  case nodup => exact hposts.owned
  case nonzero => exact fun hmem => (List.mem_append.mp hmem).elim h.nonzero hposts.nonzero
  case tail =>
    intro hne
    rw [show (r.next ring c posts).sys.dma.txTailDone = _ from hkept.txTailDone,
      show (r.next ring c posts).sys.dma.txTdesc = _ from hkept.txTdesc]
    exact hport.tail hne
  case underWay =>
    intro hin
    obtain ⟨hne, hdesc⟩ := hunder hin
    refine ⟨?_, ?_⟩
    · intro hnil
      exact hne (List.append_eq_nil_iff.mp hnil).1
    · rw [hcdesc, hport.current hne]
      exact hdesc
  case linked =>
    intro hin hlink
    rw [hcdesc, hport.current (hunder hin).1]
    exact hlinked hin hlink

theorem Sound.of_completes (h : Sound ring clocks r) (hposts : r.Posts ring c posts)
    (hok : r.Allowed c posts) (hstate : r.sys.dma.state = .txStatusB)
    (hwb : (r.sys.dma.writeRespWait && r.sys.bus.bvalid c.timing) = true)
    (hto : (r.sys.next c).dma.state = .idle)
    (hcdesc : (r.sys.next c).dma.txCdesc = r.sys.dma.txNextDesc)
    (htdesc : (r.sys.next c).dma.txTdesc = (r.sys.port c).txTdesc)
    (hdone : (r.sys.next c).dma.txTailDone =
      if r.sys.dma.descAddr = r.sys.dma.txTdesc then true else (r.sys.port c).txTailDone) :
    Sound ring (clocks ++ [r.clock c posts]) (r.next ring c posts) := by
  have hport := h.ported hposts hok
  obtain ⟨hne, hdesc⟩ := h.underWay (by rw [hstate]; rfl)
  have hsome : r.sys.completes c = some r.sys.dma.descAddr := if_pos ⟨hstate, hwb⟩
  have hlink := h.linked (by rw [hstate]; rfl) (by rw [hstate]; rfl)
  obtain ⟨d, rest, hwait⟩ := List.exists_cons_of_ne_nil hne
  have hwaiting : (r.next ring c posts).waiting = rest ++ posts := by
    unfold next
    rw [hsome, hwait]
    rfl
  have hsegment := hport.segment
  have hend := hport.position
  rw [hport.current hne, hwait] at hsegment hend
  have hd : d = r.sys.dma.txCdesc := hsegment.1
  have hcdesc' : (r.next ring c posts).sys.dma.txCdesc = ring d := by
    rw [hd, ← hlink]
    exact hcdesc
  have hidle : (r.next ring c posts).sys.dma.state.inTx = false := by
    rw [show (r.next ring c posts).sys.dma.state = _ from hto]
    rfl
  have hnodup := h.nodup
  have hnonzero := h.nonzero
  have howned := hposts.owned
  rw [hwait] at hnodup hnonzero howned
  constructor <;> try rw [hwaiting]
  case channels => exact h.channels.next.2
  case ordered =>
    have hclock : (r.clock c posts).completes = some d := hsome.trans (by rw [hdesc, hd])
    unfold posted completed
    rw [List.flatMap_append, List.filterMap_append]
    have hordered : clocks.flatMap RingClock.posts =
        clocks.filterMap RingClock.completes ++ r.waiting := h.ordered
    rw [hordered, List.filterMap_cons_some hclock, List.filterMap_nil, List.flatMap_singleton, hwait,
      List.append_assoc, List.append_assoc]
    rfl
  case segment =>
    rw [hcdesc']
    exact hsegment.2
  case position =>
    rw [hcdesc']
    exact hend
  case nodup => exact (List.nodup_cons.mp howned).2
  case nonzero =>
    intro hmem
    rcases List.mem_append.mp hmem with hmem | hmem
    · exact hnonzero (List.mem_cons_of_mem d hmem)
    · exact hposts.nonzero hmem
  case tail =>
    intro hmore
    have hrest : rest ≠ [] := by
      rintro rfl
      have hposts' : posts = [] := hok.apart (by rw [hsome]; rfl) (by rw [hwait]; rfl)
      exact hmore (by rw [hposts']; rfl)
    obtain ⟨hnotdone, hlast⟩ := h.tail hne
    rw [hwait, List.getLast?_cons_of_ne_nil hrest] at hlast
    -- the tail is another descriptor than the one that completes
    have hother : r.sys.dma.descAddr ≠ r.sys.dma.txTdesc := by
      intro heq
      apply (List.nodup_cons.mp hnodup).1
      rw [hd, ← hdesc, heq]
      exact List.mem_of_getLast? hlast
    obtain ⟨hnotdone', hlast'⟩ := hport.tail (by rw [hwait]; simp)
    rw [hwait, List.cons_append, List.getLast?_cons_of_ne_nil hmore] at hlast'
    rw [show (r.next ring c posts).sys.dma.txTailDone = _ from hdone, if_neg hother,
      show (r.next ring c posts).sys.dma.txTdesc = _ from htdesc]
    exact ⟨hnotdone', hlast'⟩
  all_goals intro hin; exact absurd (hidle.symm.trans hin) Bool.false_ne_true

theorem Sound.current_mem (h : Sound ring clocks r) (hne : r.waiting ≠ []) :
    r.sys.dma.txCdesc ∈ r.waiting := by
  obtain ⟨d, rest, hwait⟩ := List.exists_cons_of_ne_nil hne
  have hsegment := h.segment
  rw [hwait] at hsegment ⊢
  rw [← hsegment.1]
  exact List.mem_cons_self

theorem Sound.next (h : Sound ring clocks r) (hposts : r.Posts ring c posts)
    (hok : r.Allowed c posts) :
    Sound ring (clocks ++ [r.clock c posts]) (r.next ring c posts) := by
  have hnone : ∀ t, r.sys.dma.state = t → (t = .txStatusB →
      (r.sys.dma.writeRespWait && r.sys.bus.bvalid c.timing) = false) →
        r.sys.completes c = none := by
    intro t hstate hquiet
    refine if_neg fun hboth => ?_
    exact absurd ((hquiet (hstate ▸ hboth.1)).symm.trans hboth.2) Bool.false_ne_true
  cases h.channels.next.1.tx with
  | completes hstate hwb hto hcdesc htdesc hdone =>
      exact h.of_completes hposts hok hstate hwb hto hcdesc htdesc hdone
  | fetches hstate hfetch hkept hto hdesc =>
      have hne : r.waiting ≠ [] := by
        intro hempty
        exact absurd ((hok.empty hstate hempty).symm.trans hfetch) Bool.false_ne_true
      refine h.of_kept hposts hok (hnone _ hstate (by simp)) hkept (fun _ => ⟨hne, hdesc⟩) ?_
      intro _ hlink
      rw [hto] at hlink
      cases hlink
  | links hstate hkept hto hdesc hnext =>
      obtain ⟨hne, hcur⟩ := h.underWay (by rw [hstate]; rfl)
      refine h.of_kept hposts hok (hnone _ hstate (by simp)) hkept
        (fun _ => ⟨hne, hdesc.trans hcur⟩) (fun _ _ => ?_)
      have hstage := h.channels.stage
      rw [hstate] at hstage
      have haddr := h.channels.target (by unfold fetching; rw [hstate]) hstage.1.1
      unfold requestAddr at haddr
      rw [hstate] at haddr
      rw [hnext, haddr, hcur]
      exact hposts.links _ (h.current_mem hne)
  | goes hin hquiet hkept hto hlink hdesc hnext =>
      obtain ⟨hne, hcur⟩ := h.underWay hin
      refine h.of_kept hposts hok (hnone _ rfl hquiet) hkept (fun _ => ⟨hne, hdesc.trans hcur⟩)
        (fun _ hoff => ?_)
      rw [hnext]
      exact h.linked hin (hlink.symm.trans hoff)
  | leaves hout hkept hto =>
      have hstate : r.sys.dma.state ≠ .txStatusB := by
        intro hstate
        rw [hstate] at hout
        cases hout
      refine h.of_kept hposts hok (hnone _ rfl fun heq => absurd heq hstate) hkept ?_ ?_
      all_goals intro hin; exact absurd (hto.symm.trans hin) Bool.false_ne_true

/-- What is posted next is the current descriptor. -/
theorem Sound.upcoming (h : Sound ring clocks r) (hne : r.waiting ≠ []) :
    (posted clocks)[(completed clocks).length]? = some r.sys.dma.txCdesc := by
  obtain ⟨d, rest, hwait⟩ := List.exists_cons_of_ne_nil hne
  have hsegment := h.segment
  rw [hwait] at hsegment
  rw [h.ordered, List.getElem?_append_right (Nat.le_refl _), Nat.sub_self, hwait, ← hsegment.1]
  rfl

theorem Sound.marked (h : Sound ring clocks r) (hm : r.sys.dma.Marks) {d : BitVec 32}
    (hstate : r.sys.dma.state = .txStatusW) (hw : c.timing.w = true)
    (hnext : (posted clocks)[(completed clocks).length]? = some d) (haligned : d.toNat % 4 = 0) :
    (laneAt g.DATA_BYTES (r.sys.next c).bus.mem
      ((d + BD_STS_OFFSET).setWidth g.ADDR_WIDTH)).getLsbD 31 = true := by
  obtain ⟨hne, hdesc⟩ := h.underWay (by rw [hstate]; rfl)
  have hd : r.sys.dma.txCdesc = d := Option.some_inj.mp ((h.upcoming hne).symm.trans hnext)
  have haddr : r.sys.dma.writeAddr = beatStart (d + BD_STS_OFFSET) := by
    rw [hm.addr (by rw [hstate]; rfl), hdesc, hd]
  have hdata := hm.data (.inr hstate)
  rw [hdesc, hd] at hdata
  have hword : (d + BD_STS_OFFSET).toNat % 4 = 0 := by
    rw [BitVec.toNat_add]
    change (d.toNat + 28) % 2 ^ 32 % 4 = 0
    omega
  have hplace := DmaGeometry.toNat_setWidth_mod (g := g) (d + BD_STS_OFFSET)
  rw [h.channels.mem_next_w (by rw [hstate]; rfl) hw, haddr,
    laneAt_storeBeat DmaGeometry.bytes_dvd (DmaGeometry.beatStart_div _).symm, hplace]
  · exact hdata
  · rw [hplace]
    exact DmaGeometry.lane_fits _
  · intro q hq
    have hstrb : r.sys.dma.writeStrb = wordWriteStrb (d + BD_STS_OFFSET) := by
      unfold writeStrb
      rw [hstate, hd]
    rw [hplace, hstrb]
    exact DmaGeometry.getLsbD_wordWriteStrb hword hq

theorem Sound.inOrder (h : Sound ring clocks r) (hm : r.sys.dma.Marks) :
    InOrder ring Allowed clocks r where
  ordered := by
    rw [h.ordered]
    exact List.prefix_append _ _
  served c posts hposts hok hidle hrun hmore := by
    have hne : r.waiting ≠ [] := by
      intro hempty
      apply hmore
      rw [h.ordered, hempty, List.append_nil]
    obtain ⟨hdone, hlast⟩ := h.tail hne
    have hcdesc : r.sys.dma.txCdesc ≠ 0 := fun hzero =>
      h.nonzero (hzero ▸ h.current_mem hne)
    have htdesc : r.sys.dma.txTdesc ≠ 0 := fun hzero =>
      h.nonzero (hzero ▸ List.mem_of_getLast? hlast)
    refine ⟨?_, h.upcoming hne⟩
    unfold txFetches
    rw [hrun, hdone, decide_eq_true hcdesc, decide_eq_true htdesc,
      decide_eq_true (hok.ascending hidle hne)]
    rfl
  next c d hcompletes := by
    unfold DmaSystem.completes at hcompletes
    split_ifs at hcompletes with hboth
    obtain ⟨hne, hdesc⟩ := h.underWay (by rw [hboth.1]; rfl)
    rw [h.upcoming hne, ← hdesc]
    exact hcompletes
  marked c d hstate hw hnext haligned := h.marked hm hstate hw hnext haligned

instance : Decidable (Posts ring r c posts) :=
  decidable_of_iff
    ((r.sys.writes c .txTdesc = none → posts = []) ∧
      ((r.sys.writes c .txTdesc).all fun w => decide (posts.getLast? = some w)) = true ∧
      IsSegment ring r.position posts ∧ (r.waiting ++ posts).Nodup ∧ 0 ∉ posts ∧
      (r.waiting.all fun d => decide (laneAt g.DATA_BYTES r.sys.bus.mem
        ((d + BD_NDESC_OFFSET).setWidth g.ADDR_WIDTH) = ring d)) = true) <| by
    constructor
    · rintro ⟨hnone, htail, hsegment, howned, hnonzero, hlinks⟩
      refine ⟨hnone, fun w hw => ?_, hsegment, howned, hnonzero,
        fun d hd => of_decide_eq_true (List.all_eq_true.mp hlinks d hd)⟩
      rw [hw, Option.all_some, decide_eq_true_eq] at htail
      exact htail
    · intro h
      refine ⟨h.none, ?_, h.segment, h.owned, h.nonzero,
        List.all_eq_true.mpr fun d hd => decide_eq_true (h.links d hd)⟩
      cases hw : r.sys.writes c .txTdesc with
      | none => rfl
      | some w => exact decide_eq_true (h.tail w hw)

instance : Decidable (Allowed r c posts) :=
  decidable_of_iff
    (((r.sys.writes c .txCdesc).isSome = true → r.waiting = []) ∧
      (r.sys.dma.txTailDone = true → posts.length ≤ 1) ∧
      ((r.sys.completes c).isSome = true → r.waiting.length = 1 → posts = []) ∧
      (r.sys.dma.state = .idle → r.waiting ≠ [] → r.sys.dma.txCdesc ≤ r.sys.dma.txTdesc) ∧
      (r.sys.dma.state = .idle → r.waiting = [] → r.sys.dma.txFetches = false))
    ⟨fun ⟨h₁, h₂, h₃, h₄, h₅⟩ => ⟨h₁, h₂, h₃, h₄, h₅⟩,
      fun h => ⟨h.start, h.single, h.apart, h.ascending, h.empty⟩⟩

def clocksAlong (ring : BitVec 32 → BitVec 32) :
    RingState g → List (DmaClock g × List (BitVec 32)) → List RingClock
  | _, [] => []
  | r, (c, posts) :: xs => r.clock c posts :: clocksAlong ring (r.next ring c posts) xs

theorem run_of_inputs {ok : RingState g → DmaClock g → List (BitVec 32) → Prop}
    {xs : List (DmaClock g × List (BitVec 32))}
    (h : Transitions.Along (fun r x => r.Posts ring x.1 x.2 ∧ ok r x.1 x.2)
      (fun r x => r.next ring x.1 x.2) r xs) :
    (ringRuns g ring ok).Run r (clocksAlong ring r xs)
      (xs.foldl (fun r x => r.next ring x.1 x.2) r) := by
  induction xs generalizing r with
  | nil => exact .refl r
  | cons x xs ih =>
      have hone : (ringRuns g ring ok).Run r [r.clock x.1 x.2] (r.next ring x.1 x.2) :=
        (Transitions.Run.refl r).shows ⟨x.1, x.2, h.1.1, h.1.2, rfl, rfl⟩
      exact hone.trans (ih h.2)

def small : DmaGeometry := ⟨32, 2, by decide, by decide⟩

def smallRing (d : BitVec 32) : BitVec 32 := if d = 0x80 then 0x40 else 0x80

/-- Their links, lengths of one byte, and nothing else in memory. -/
def smallMem (b : BitVec 32) : BitVec 8 :=
  if b = 0x80 then 0x40 else if b = 0x40 then 0x80 else if b = 0x58 ∨ b = 0x98 then 1 else 0

def smallStart : RingState small where
  sys := ⟨resetState 0, smallMem, none, .free⟩
  position := 0
  waiting := []

def smallClock (aw w : Option (BitVec 32)) : DmaClock small where
  awvalid := aw.isSome
  awaddr := aw.getD 0
  wvalid := w.isSome
  wdata := w.getD 0
  bready := true
  macTxReady := true
  macRxValid := false
  macRxData := 0
  macRxLast := false
  timing := ⟨true, true, true, true, true⟩
  others _ := none

/-- A register write, and what it posts. -/
def smallWrite (addr word : BitVec 32) (posts : List (BitVec 32)) :
    List (DmaClock small × List (BitVec 32)) :=
  [(smallClock (some addr) none, []), (smallClock none (some word), posts), (smallClock none none, [])]

/-- The start of the ring, the run bit, and the tail. -/
def smallPost (start tail : BitVec 32) (posts : List (BitVec 32)) :
    List (DmaClock small × List (BitVec 32)) :=
  smallWrite 0x108 start [] ++ smallWrite 0x100 1 [] ++ smallWrite 0x110 tail posts

theorem small_init : (ringRuns small smallRing fun _ _ _ => True).init smallStart :=
  ⟨⟨⟨0, rfl⟩, rfl, rfl⟩, rfl, rfl⟩

end RingState

end CppHdl.Devices
