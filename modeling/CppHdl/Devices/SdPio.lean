import CppHdl.Devices.SdController

/-!
# The byte streams of the SD card controller

In a write, software puts bytes into the transmit FIFO and the controller sends them behind
the header. In a read, a byte of the card is accepted into the receive register, moves from
there to the receive FIFO, and is read by software. The register frees the card to show the
next byte, but the FIFO stores what the card shows.
-/

namespace CppHdl.Devices

/-! ## FIFOs -/

namespace SdFifo

variable {α : Type*} {f : SdFifo α} {depth : Nat}

/-- The words of the FIFO, oldest first. -/
def held (f : SdFifo α) (depth : Nat) : List α := ring depth f.data f.rd f.count

structure InPlace (f : SdFifo α) (depth : Nat) : Prop where
  rd : f.rd < depth
  count : f.count ≤ depth
  wr : f.wr = (f.rd + f.count) % depth

/-- A clock: a word may be stored, and the oldest one may leave. -/
def next (f : SdFifo α) (depth : Nat) (push pop : Bool) (x : α) : SdFifo α :=
  let n := if push then f.store depth x else f
  let n := if pop then n.advanceRd depth else n
  f.recount push pop n

theorem ptrNext_eq {ptr : Nat} (h : ptr < depth) : ptrNext depth ptr = (ptr + 1) % depth := by
  unfold ptrNext
  by_cases hwrap : ptr + 1 ≥ depth
  · rw [if_pos hwrap, show ptr + 1 = depth by omega, Nat.mod_self]
  · rw [if_neg hwrap, Nat.mod_eq_of_lt (by omega)]

theorem next_eq (push pop : Bool) (x : α) (hpop : pop = true → 0 < f.count) :
    f.next depth push pop x =
      { data := if push then Function.update f.data f.wr x else f.data
        rd := if pop then ptrNext depth f.rd else f.rd
        wr := if push then ptrNext depth f.wr else f.wr
        count := f.count - pop.toNat + push.toNat } := by
  cases push <;> cases pop
  · rfl
  · rfl
  · rfl
  · have hcount := hpop rfl
    have hsame : f.count - 1 + 1 = f.count := by omega
    exact congrArg (SdFifo.mk _ _ _) hsame.symm

theorem inPlace_cleared (hdepth : 0 < depth) (n : SdFifo α) : n.cleared.InPlace depth :=
  ⟨hdepth, Nat.zero_le _, (Nat.zero_mod depth).symm⟩

theorem InPlace.next (h : f.InPlace depth) {push pop : Bool} (x : α)
    (hpush : push = true → f.count < depth) (hpop : pop = true → 0 < f.count) :
    (f.next depth push pop x).InPlace depth ∧
      f.held depth ++ (if push then [x] else []) =
        (if pop then [f.front] else []) ++ (f.next depth push pop x).held depth := by
  have hdepth : 0 < depth := Nat.lt_of_le_of_lt (Nat.zero_le _) h.rd
  have hwr : f.wr < depth := by
    rw [h.wr]
    exact Nat.mod_lt _ hdepth
  have hstep := @ring_step _ depth f.data f.rd _ pop push hpop
    (fun h => Nat.lt_of_lt_of_le (hpush h) (Nat.le_add_right _ _)) x
  have htail := @ring_tail depth f.rd _ pop push hpop
  rw [Nat.mod_eq_of_lt h.rd, ← h.wr] at hstep
  rw [← h.wr] at htail
  have hlists : ∀ (b : Bool) (x : α),
      (if b then some x else none).toList = if b then [x] else [] := by
    intro b x
    cases b <;> rfl
  rw [hlists, hlists] at hstep
  rw [next_eq push pop x hpop, ptrNext_eq h.rd, ptrNext_eq hwr]
  refine ⟨⟨?_, ?_, htail⟩, hstep⟩
  · change (if pop then (f.rd + 1) % depth else f.rd) < depth
    split_ifs
    · exact Nat.mod_lt _ hdepth
    · exact h.rd
  · change f.count - pop.toNat + push.toNat ≤ depth
    have hcount := h.count
    cases push with
    | false => exact Nat.le_trans (Nat.sub_le _ _) hcount
    | true => exact Nat.lt_of_le_of_lt (Nat.sub_le _ _) (hpush rfl)

end SdFifo

namespace SdController

variable {g : SdGeometry} {s : SdController g} {i : SdInputs g}

/-! ## A clock -/

/-- What the parts of a clock keep: the FIFOs, and the registers at the card. -/
structure SameBytes (n n' : SdController g) : Prop where
  tx : n'.tx = n.tx
  rx : n'.rx = n.rx
  txValid : n'.txValid = n.txValid
  txData : n'.txData = n.txData
  rxValid : n'.rxValid = n.rxValid
  rxData : n'.rxData = n.rxData

theorem readPort_same (n : SdController g) : SameBytes n (s.readPort i n) := by
  unfold readPort
  dsimp only
  split_ifs <;> exact ⟨rfl, rfl, rfl, rfl, rfl, rfl⟩

theorem writeControl_same (word : BitVec 32) (n : SdController g) :
    SameBytes n (s.writeControl word n) := by
  unfold writeControl
  dsimp only
  split_ifs <;> exact ⟨rfl, rfl, rfl, rfl, rfl, rfl⟩

theorem advance_same (n : SdController g) : SameBytes n (s.advance i n) := by
  unfold advance dmaReceive dmaSend dmaLoadDesc
  dsimp only
  cases s.state <;> dsimp only <;> (try split_ifs) <;> exact ⟨rfl, rfl, rfl, rfl, rfl, rfl⟩

def txByteIn (i : SdInputs g) : BitVec 8 := (writeWord i).setWidth 8

/-- A byte stored in the transmit FIFO, or nothing. -/
def stored (stores : Bool) (i : SdInputs g) (n : SdController g) : SdController g :=
  if stores then { n with tx := n.tx.store g.FIFO_DEPTH (txByteIn i) } else n

/-- A register write stores at most a byte. -/
theorem writeRegister_same (n : SdController g) :
    SameBytes (stored (decide (sdRegister s.writeAddr = .txData) && !s.txFull) i n)
      (s.writeRegister i n) := by
  unfold writeRegister
  dsimp only
  cases sdRegister s.writeAddr with
  | control => exact writeControl_same _ _
  | dmaDescPush | irqPending =>
      dsimp only
      split_ifs <;> exact ⟨rfl, rfl, rfl, rfl, rfl, rfl⟩
  | txData =>
      unfold stored
      cases s.txFull <;> exact ⟨rfl, rfl, rfl, rfl, rfl, rfl⟩
  | _ => exact ⟨rfl, rfl, rfl, rfl, rfl, rfl⟩

theorem writePort_same (n : SdController g) :
    SameBytes (stored (s.txPush i) i n) (s.writePort i n) := by
  have hresponse : ∀ n n' : SdController g, SameBytes n n' →
      SameBytes n (if s.writeRespValid && i.bready then { n' with writeRespValid := false } else n') := by
    intro n n' h
    split_ifs
    · exact ⟨h.tx, h.rx, h.txValid, h.txData, h.rxValid, h.rxData⟩
    · exact h
  unfold writePort txPush
  dsimp only
  apply hresponse
  cases s.writeFires i with
  | false =>
      rw [if_neg Bool.false_ne_true]
      split_ifs <;> exact ⟨rfl, rfl, rfl, rfl, rfl, rfl⟩
  | true =>
      rw [if_pos rfl, Bool.true_and]
      have h := fun n => writeRegister_same (s := s) (i := i) n
      unfold stored at h ⊢
      split_ifs at h ⊢ <;>
        exact ⟨(h _).tx, (h _).rx, (h _).txValid, (h _).txData, (h _).rxValid, (h _).rxData⟩

theorem byteFifos_tx (n : SdController g) :
    (s.byteFifos i n).tx = s.tx.recount (s.txPush i) s.txPop
      (if s.txPop then n.tx.advanceRd g.FIFO_DEPTH else n.tx) := by
  unfold byteFifos
  dsimp only
  split_ifs <;> rfl

theorem byteFifos_rx (n : SdController g) (hrx : n.rx = s.rx) :
    (s.byteFifos i n).rx = s.rx.next g.FIFO_DEPTH s.rxPush (s.rxPop i) i.sdRspData := by
  unfold byteFifos SdFifo.next
  dsimp only
  split_ifs <;> dsimp only <;> rw [hrx]

theorem byteFifos_card (n : SdController g) :
    (s.byteFifos i n).txValid = n.txValid ∧ (s.byteFifos i n).txData = n.txData ∧
      (s.byteFifos i n).rxValid = n.rxValid ∧ (s.byteFifos i n).rxData = n.rxData := by
  unfold byteFifos
  dsimp only
  split_ifs <;> exact ⟨rfl, rfl, rfl, rfl⟩

theorem cardPorts_fifos (n : SdController g) :
    (s.cardPorts i n).tx = n.tx ∧ (s.cardPorts i n).rx = n.rx := by
  unfold cardPorts
  dsimp only
  split_ifs <;> exact ⟨rfl, rfl⟩

/-- The registers at the card after a clock. -/
structure CardPorts (s : SdController g) (i : SdInputs g) (n : SdController g) : Prop where
  txValid : n.txValid =
    if !s.txValid && s.phyTxValid then true else s.txValid && !i.sdCmdReady
  txData : n.txData = if !s.txValid && s.phyTxValid then s.phyTxData else s.txData
  rxValid : n.rxValid =
    if !s.rxValid && i.sdRspValid then true else s.rxValid && !s.phyRxReady
  rxData : n.rxData = if !s.rxValid && i.sdRspValid then i.sdRspData else s.rxData

theorem cardPorts_card {n : SdController g} (h : SameBytes s n) :
    CardPorts s i (s.cardPorts i n) := by
  unfold cardPorts
  dsimp only
  constructor
  · split_ifs <;> simp_all [h.txValid]
  · split_ifs <;> simp_all [h.txData]
  · split_ifs <;> simp_all [h.rxValid]
  · split_ifs <;> simp_all [h.rxData]

structure Moved (s : SdController g) (i : SdInputs g) (n : SdController g) : Prop where
  tx : n.tx = s.tx.next g.FIFO_DEPTH (s.txPush i) s.txPop (txByteIn i)
  rx : n.rx = s.rx.next g.FIFO_DEPTH s.rxPush (s.rxPop i) i.sdRspData
  card : CardPorts s i n

theorem moved_work (hreset : i.reset = false) : Moved s i (s.work i) := by
  unfold work
  dsimp only
  rw [hreset, if_neg Bool.false_ne_true]
  obtain ⟨n₀, hn₀⟩ : ∃ n, n = { s with dmaWriteComplete := false } := ⟨_, rfl⟩
  obtain ⟨n₁, hn₁⟩ : ∃ n, n = s.readPort i (s.cardPorts i n₀) := ⟨_, rfl⟩
  obtain ⟨n₂, hn₂⟩ : ∃ n, n = s.byteFifos i (s.writePort i n₁) := ⟨_, rfl⟩
  rw [← hn₀, ← hn₁, ← hn₂]
  have hsame₀ : SameBytes s n₀ := by rw [hn₀]; exact ⟨rfl, rfl, rfl, rfl, rfl, rfl⟩
  have hcard := cardPorts_card (i := i) hsame₀
  obtain ⟨htx₀, hrx₀⟩ := cardPorts_fifos (s := s) (i := i) n₀
  have hsame₁ := readPort_same (s := s) (i := i) (s.cardPorts i n₀)
  rw [← hn₁] at hsame₁
  have hsame₂ := writePort_same (s := s) (i := i) n₁
  have hsame₃ := advance_same (s := s) (i := i) n₂
  obtain ⟨htv, htd, hrv, hrd⟩ := byteFifos_card (s := s) (i := i) (s.writePort i n₁)
  rw [← hn₂] at htv htd hrv hrd
  have hstored : ∀ b : Bool, (stored b i n₁).rx = n₁.rx ∧ (stored b i n₁).txValid = n₁.txValid ∧
      (stored b i n₁).txData = n₁.txData ∧ (stored b i n₁).rxValid = n₁.rxValid ∧
      (stored b i n₁).rxData = n₁.rxData := by
    intro b
    cases b <;> exact ⟨rfl, rfl, rfl, rfl, rfl⟩
  obtain ⟨hsrx, hstv, hstd, hsrv, hsrd⟩ := hstored (s.txPush i)
  have htx₁ : n₁.tx = s.tx := by rw [hsame₁.tx, htx₀, hsame₀.tx]
  have hrx₁ : n₁.rx = s.rx := by rw [hsame₁.rx, hrx₀, hsame₀.rx]
  refine ⟨?_, ?_, ⟨?_, ?_, ?_, ?_⟩⟩
  · change (s.advance i n₂).tx = _
    rw [hsame₃.tx, hn₂, byteFifos_tx, hsame₂.tx]
    unfold SdFifo.next stored
    dsimp only
    rw [← htx₁]
    cases s.txPush i <;> cases s.txPop <;> rfl
  · change (s.advance i n₂).rx = _
    rw [hsame₃.rx, hn₂]
    exact byteFifos_rx _ (by rw [hsame₂.rx, hsrx, hrx₁])
  · change (s.advance i n₂).txValid = _
    rw [hsame₃.txValid, htv, hsame₂.txValid, hstv, hsame₁.txValid]
    exact hcard.txValid
  · change (s.advance i n₂).txData = _
    rw [hsame₃.txData, htd, hsame₂.txData, hstd, hsame₁.txData]
    exact hcard.txData
  · change (s.advance i n₂).rxValid = _
    rw [hsame₃.rxValid, hrv, hsame₂.rxValid, hsrv, hsame₁.rxValid]
    exact hcard.rxValid
  · change (s.advance i n₂).rxData = _
    rw [hsame₃.rxData, hrd, hsame₂.rxData, hsrd, hsame₁.rxData]
    exact hcard.rxData

/-! ## Answers -/

/-- What the other parts of a clock keep of the read channel. -/
structure SameAnswer (n n' : SdController g) : Prop where
  addr : n'.readAddr = n.readAddr
  data : n'.readData = n.readData

theorem writePort_answer (n : SdController g) : SameAnswer n (s.writePort i n) := by
  have hregister : ∀ n : SdController g, SameAnswer n (s.writeRegister i n) := by
    intro n
    unfold writeRegister writeControl
    dsimp only
    cases sdRegister s.writeAddr <;> dsimp only <;> (try split_ifs) <;> exact ⟨rfl, rfl⟩
  unfold writePort
  dsimp only
  split_ifs <;> first | exact ⟨rfl, rfl⟩ | exact ⟨(hregister _).addr, (hregister _).data⟩

theorem byteFifos_answer (n : SdController g) : SameAnswer n (s.byteFifos i n) := by
  unfold byteFifos
  dsimp only
  split_ifs <;> exact ⟨rfl, rfl⟩

theorem advance_answer (n : SdController g) : SameAnswer n (s.advance i n) := by
  unfold advance dmaReceive dmaSend dmaLoadDesc
  dsimp only
  cases s.state <;> dsimp only <;> (try split_ifs) <;> exact ⟨rfl, rfl⟩

theorem getLsbD_onLanes (word : BitVec 32) {lane k : Nat} (hlane : lane < g.DATA_BYTES / 4)
    (hk : k < 32) : (onLanes g word).getLsbD (32 * lane + k) = word.getLsbD k := by
  have hfits : 32 * lane + k < g.DATA_WIDTH := by
    unfold SdGeometry.DATA_WIDTH
    omega
  have hbits := getLsbD_foldl_withBits (fun _ => true) (fun _ => word) (0 : BitVec g.DATA_WIDTH)
    (g.DATA_BYTES / 4) hfits
  simp only [if_true, and_true] at hbits
  unfold onLanes
  rw [hbits, if_pos (by omega), Nat.mul_add_mod, Nat.mod_eq_of_lt hk]

/-- The byte of the answer: the lowest one on the lane of the address. -/
def answer (n : SdController g) : BitVec 8 :=
  n.readData.extractLsb' (32 * ((n.readAddr.setWidth 32).toNat % g.DATA_BYTES / 4)) 8

theorem answer_work (hreset : i.reset = false) (hfire : (i.arvalid && s.arready) = true) :
    (s.work i).answer = (s.readWord (sdRegister i.araddr)).setWidth 8 := by
  have hwork : SameAnswer (s.readPort i (s.cardPorts i { s with dmaWriteComplete := false }))
      (s.work i) := by
    unfold work
    dsimp only
    rw [hreset, if_neg Bool.false_ne_true]
    have h₁ := writePort_answer (s := s) (i := i)
      (s.readPort i (s.cardPorts i { s with dmaWriteComplete := false }))
    have h₂ := byteFifos_answer (s := s) (i := i) (s.writePort i
      (s.readPort i (s.cardPorts i { s with dmaWriteComplete := false })))
    have h₃ := advance_answer (s := s) (i := i) (s.byteFifos i (s.writePort i
      (s.readPort i (s.cardPorts i { s with dmaWriteComplete := false }))))
    exact ⟨h₃.addr.trans (h₂.addr.trans h₁.addr), h₃.data.trans (h₂.data.trans h₁.data)⟩
  have hport : ∀ n, (s.readPort i n).readAddr = i.araddr ∧
      (s.readPort i n).readData = onLanes g (s.readWord (sdRegister i.araddr)) := by
    intro n
    unfold readPort
    dsimp only
    rw [if_pos hfire]
    split_ifs <;> exact ⟨rfl, rfl⟩
  obtain ⟨haddr, hdata⟩ := hport (s.cardPorts i { s with dmaWriteComplete := false })
  unfold answer
  rw [hwork.addr, hwork.data, haddr, hdata]
  have hlane : (i.araddr.setWidth 32).toNat % g.DATA_BYTES / 4 < g.DATA_BYTES / 4 := by
    have hlt := Nat.mod_lt (i.araddr.setWidth 32).toNat g.words.1
    have hwords := g.words.2
    omega
  apply BitVec.eq_of_getLsbD_eq
  intro k hk
  rw [BitVec.getLsbD_extractLsb', decide_eq_true hk, Bool.true_and, getLsbD_onLanes _ hlane (by omega),
    BitVec.getLsbD_setWidth, decide_eq_true hk, Bool.true_and]

end SdController

/-! ## Runs -/

structure SdClock where
  /-- Accepted from the card. -/
  accepted : Option (BitVec 8)
  /-- The byte in the receive register is an acknowledge, or goes to memory. -/
  taken : Bool
  /-- Answered by a read of the receive data register. -/
  read : Option (BitVec 8)
  /-- Written to the transmit data register. -/
  written : Option (BitVec 8)
  /-- Accepted by the card, of the bytes of the transmit FIFO. -/
  sent : Option (BitVec 8)

/-- The accepted bytes but those that are taken otherwise. -/
def received (clocks : List SdClock) : List (BitVec 8) :=
  clocks.foldl (fun l c => (if c.taken then l.dropLast else l) ++ c.accepted.toList) []

/-- The controller, and whether its transmit register has a byte of the transmit FIFO. -/
structure SdPio (g : SdGeometry) where
  sys : SdController g
  payload : Bool

namespace SdPio

variable {g : SdGeometry} (r : SdPio g) (i : SdInputs g)

/-- The byte in the receive register leaves, and not to the FIFO. -/
def takes : Bool :=
  r.sys.rxValid && (decide (r.sys.state = .dmaReadRecv) || decide (r.sys.state = .waitAck))

def clock : SdClock where
  accepted := if i.sdRspValid && r.sys.sdRspReady then some i.sdRspData else none
  taken := r.takes
  read := if r.sys.rxPop i then some (r.sys.work i).answer else none
  written :=
    if r.sys.writeFires i && decide (sdRegister r.sys.writeAddr = .txData) then
      some (SdController.txByteIn i)
    else none
  sent := if r.sys.txValid && i.sdCmdReady && r.payload then some r.sys.txData else none

def next : SdPio g where
  sys := r.sys.work i
  payload :=
    if r.sys.txPop then true
    else if !r.sys.txValid && r.sys.phyTxValid then false
    else r.payload

/-- The bytes in the registers at the card. -/
def rxHeld : List (BitVec 8) := if r.sys.rxValid then [r.sys.rxData] else []

def txHeld : List (BitVec 8) := if r.sys.txValid && r.payload then [r.sys.txData] else []

/-- Nothing is lost, nothing comes twice, and the FIFOs have room for what they hold. -/
structure Lossless (r : SdPio g) (clocks : List SdClock) : Prop where
  received : received clocks =
    clocks.filterMap SdClock.read ++ (r.sys.rx.held g.FIFO_DEPTH ++ r.rxHeld)
  sent : clocks.filterMap SdClock.written =
    clocks.filterMap SdClock.sent ++ (r.txHeld ++ r.sys.tx.held g.FIFO_DEPTH)
  rx : r.sys.rx.InPlace g.FIFO_DEPTH
  tx : r.sys.tx.InPlace g.FIFO_DEPTH

end SdPio

/-- Runs from a reset on, of clocks under a condition. -/
def sdRuns (g : SdGeometry) (ok : SdController g → SdInputs g → Prop) :
    Transitions (SdPio g) SdClock where
  init r := ∃ (s : SdController g) (i : SdInputs g), i.reset = true ∧ r = ⟨s.work i, false⟩
  step
    | r, some e, r' => ∃ i : SdInputs g,
        i.reset = false ∧ ok r.sys i ∧ e = r.clock i ∧ r' = r.next i
    | _, none, _ => False

/-- While the byte of the receive register is stored, the card still shows it. -/
def SdController.Shown {g : SdGeometry} (s : SdController g) (i : SdInputs g) : Prop :=
  s.rxPush = true → i.sdRspData = s.rxData

instance SdController.Shown.decidable {g : SdGeometry} (s : SdController g) (i : SdInputs g) :
    Decidable (s.Shown i) :=
  inferInstanceAs (Decidable (s.rxPush = true → i.sdRspData = s.rxData))

namespace SdPio

variable {g : SdGeometry} {r : SdPio g} {i : SdInputs g} {clocks : List SdClock}

theorem received_append (clocks : List SdClock) (c : SdClock) :
    Devices.received (clocks ++ [c]) =
      (if c.taken then (Devices.received clocks).dropLast else Devices.received clocks) ++
        c.accepted.toList := by
  unfold Devices.received
  rw [List.foldl_append]
  rfl

/-- A byte in the receive register leaves to the FIFO, or otherwise. -/
theorem phyRxReady_eq (hvalid : r.sys.rxValid = true) :
    r.sys.phyRxReady = (r.sys.rxPush || r.takes) ∧ (r.sys.rxPush && r.takes) = false := by
  unfold SdController.phyRxReady SdController.rxPush takes
  rw [hvalid]
  cases r.sys.state <;> cases r.sys.rxFull <;> exact ⟨rfl, rfl⟩

theorem rxPush_room (h : r.sys.rx.InPlace g.FIFO_DEPTH) (hpush : r.sys.rxPush = true) :
    r.sys.rx.count < g.FIFO_DEPTH := by
  unfold SdController.rxPush SdController.rxFull SdFifo.full at hpush
  simp only [Bool.and_eq_true, Bool.not_eq_true', beq_eq_false_iff_ne] at hpush
  exact Nat.lt_of_le_of_ne h.count hpush.2

theorem rxPop_held (hpop : r.sys.rxPop i = true) : 0 < r.sys.rx.count := by
  unfold SdController.rxPop SdFifo.valid at hpop
  simp only [Bool.and_eq_true, bne_iff_ne] at hpop
  exact Nat.pos_of_ne_zero hpop.2

theorem read_clock (hreset : i.reset = false) :
    (r.clock i).read.toList = if r.sys.rxPop i then [r.sys.rx.front] else [] := by
  unfold clock
  dsimp only
  by_cases hpop : r.sys.rxPop i = true
  · have hpop' := hpop
    unfold SdController.rxPop at hpop'
    simp only [Bool.and_eq_true, decide_eq_true_eq] at hpop'
    obtain ⟨⟨⟨hvalid, hready⟩, hregister⟩, hheld⟩ := hpop'
    rw [if_pos hpop, if_pos hpop, SdController.answer_work hreset (by rw [hvalid, hready]; rfl),
      hregister]
    unfold SdController.readWord
    rw [if_pos hheld, BitVec.setWidth_setWidth_of_le _ (by decide), BitVec.setWidth_eq]
    rfl
  · rw [if_neg hpop, if_neg hpop]
    rfl

theorem rx_step (h : r.Lossless clocks) (hreset : i.reset = false) (hshown : r.sys.Shown i) :
    Devices.received (clocks ++ [r.clock i]) = (clocks ++ [r.clock i]).filterMap SdClock.read ++
        ((r.next i).sys.rx.held g.FIFO_DEPTH ++ (r.next i).rxHeld) ∧
      (r.next i).sys.rx.InPlace g.FIFO_DEPTH := by
  have hmoved := SdController.moved_work (s := r.sys) hreset
  obtain ⟨hplace, hqueue⟩ := h.rx.next i.sdRspData (rxPush_room h.rx) (rxPop_held (r := r) (i := i))
  rw [← hmoved.rx] at hplace hqueue
  refine ⟨?_, hplace⟩
  have hread : (clocks ++ [r.clock i]).filterMap SdClock.read =
      clocks.filterMap SdClock.read ++ if r.sys.rxPop i then [r.sys.rx.front] else [] := by
    rw [List.filterMap_append, ← read_clock hreset]
    cases hread : (r.clock i).read <;> simp [hread]
  have hvalid' := hmoved.card.rxValid
  have hdata' := hmoved.card.rxData
  rw [received_append, h.received, hread]
  change (if r.takes then _ else _) ++
    (if i.sdRspValid && r.sys.sdRspReady then some i.sdRspData else none).toList =
      _ ++ ((r.sys.work i).rx.held g.FIFO_DEPTH ++
        (if (r.sys.work i).rxValid then [(r.sys.work i).rxData] else []))
  unfold rxHeld SdController.sdRspReady
  cases hvalid : r.sys.rxValid with
  | false =>
      have htakes : r.takes = false := by unfold takes; rw [hvalid]; rfl
      have hpush : r.sys.rxPush = false := by
        unfold SdController.rxPush
        rw [hvalid, Bool.and_false, Bool.false_and]
      rw [hpush, if_neg Bool.false_ne_true, List.append_nil] at hqueue
      rw [hvalid] at hvalid' hdata'
      rw [htakes, if_neg Bool.false_ne_true, if_neg Bool.false_ne_true, List.append_nil, hqueue,
        hvalid', hdata']
      cases i.sdRspValid <;> simp
  | true =>
      obtain ⟨hleaves, hone⟩ := phyRxReady_eq hvalid
      rw [hvalid, hleaves] at hvalid'
      rw [hvalid] at hdata'
      simp only [Bool.not_true, Bool.false_and, Bool.false_eq_true, if_false, Bool.true_and]
        at hvalid' hdata'
      simp only [if_true, Bool.not_true, Bool.and_false, Bool.false_eq_true, if_false,
        Option.toList_none, List.append_nil]
      rw [hvalid', hdata']
      cases hpush : r.sys.rxPush with
      | true =>
          rw [hpush, Bool.true_and] at hone
          rw [hpush, if_pos rfl, hshown hpush] at hqueue
          rw [hone, if_neg Bool.false_ne_true, hqueue]
          simp
      | false =>
          rw [hpush, if_neg Bool.false_ne_true, List.append_nil] at hqueue
          cases htakes : r.takes with
          | true =>
              rw [if_pos rfl, hqueue, ← List.append_assoc, List.dropLast_concat]
              simp
          | false =>
              rw [if_neg Bool.false_ne_true, hqueue]
              simp

/-- A write of the transmit data register waits for room. -/
theorem written_clock : (r.clock i).written.toList =
    if r.sys.txPush i then [SdController.txByteIn i] else [] := by
  have hpush : r.sys.txPush i =
      (r.sys.writeFires i && decide (sdRegister r.sys.writeAddr = .txData)) := by
    unfold SdController.txPush SdController.writeFires SdController.wready
    by_cases hregister : sdRegister r.sys.writeAddr = .txData
    · rw [hregister]
      cases r.sys.txFull <;> simp
    · rw [decide_eq_false hregister, Bool.and_false, Bool.false_and]
  unfold clock
  dsimp only
  rw [hpush]
  split_ifs <;> rfl

theorem txPush_room (h : r.sys.tx.InPlace g.FIFO_DEPTH) (hpush : r.sys.txPush i = true) :
    r.sys.tx.count < g.FIFO_DEPTH := by
  unfold SdController.txPush SdController.txFull SdFifo.full at hpush
  simp only [Bool.and_eq_true, Bool.not_eq_true', beq_eq_false_iff_ne] at hpush
  exact Nat.lt_of_le_of_ne h.count hpush.2

theorem txPop_held (hpop : r.sys.txPop = true) : 0 < r.sys.tx.count := by
  unfold SdController.txPop SdFifo.valid at hpop
  simp only [Bool.and_eq_true, bne_iff_ne] at hpop
  exact Nat.pos_of_ne_zero hpop.2

/-- The bytes of the FIFO pass the transmit register one at a time. -/
theorem txHeld_next (hreset : i.reset = false) :
    r.txHeld ++ (if r.sys.txPop then [r.sys.tx.front] else []) =
      (r.clock i).sent.toList ++ (r.next i).txHeld := by
  have hmoved := SdController.moved_work (s := r.sys) hreset
  have hvalid' := hmoved.card.txValid
  have hdata' := hmoved.card.txData
  have hloads : r.sys.txPop = true → r.sys.txValid = false ∧ r.sys.phyTxValid = true ∧
      r.sys.phyTxData = r.sys.tx.front := by
    unfold SdController.txPop SdController.phyTxValid SdController.phyTxData
    simp only [Bool.and_eq_true, decide_eq_true_eq, Bool.not_eq_true']
    rintro ⟨⟨hstate, hvalid⟩, hheld⟩
    rw [hstate]
    exact ⟨hvalid, hheld, rfl⟩
  unfold txHeld clock next
  dsimp only
  rw [hvalid', hdata']
  cases hpop : r.sys.txPop with
  | true =>
      obtain ⟨hvalid, hphy, hdata⟩ := hloads hpop
      rw [hvalid, hphy, hdata]
      rfl
  | false =>
      cases r.sys.txValid <;> cases r.sys.phyTxValid <;> cases i.sdCmdReady <;>
        cases r.payload <;> rfl

theorem tx_step (h : r.Lossless clocks) (hreset : i.reset = false) :
    (clocks ++ [r.clock i]).filterMap SdClock.written =
        (clocks ++ [r.clock i]).filterMap SdClock.sent ++
          ((r.next i).txHeld ++ (r.next i).sys.tx.held g.FIFO_DEPTH) ∧
      (r.next i).sys.tx.InPlace g.FIFO_DEPTH := by
  have hmoved := SdController.moved_work (s := r.sys) hreset
  obtain ⟨hplace, hqueue⟩ := h.tx.next (SdController.txByteIn i) (txPush_room h.tx)
    (txPop_held (r := r))
  rw [← hmoved.tx] at hplace hqueue
  refine ⟨?_, hplace⟩
  have hone : ∀ f : SdClock → Option (BitVec 8),
      (clocks ++ [r.clock i]).filterMap f = clocks.filterMap f ++ (f (r.clock i)).toList := by
    intro f
    rw [List.filterMap_append]
    cases hf : f (r.clock i) <;> simp [hf]
  have hregister := txHeld_next (r := r) hreset
  calc (clocks ++ [r.clock i]).filterMap SdClock.written
      = clocks.filterMap SdClock.sent ++ (r.txHeld ++ (r.sys.tx.held g.FIFO_DEPTH ++
          if r.sys.txPush i then [SdController.txByteIn i] else [])) := by
        rw [hone, h.sent, written_clock, List.append_assoc, List.append_assoc]
    _ = clocks.filterMap SdClock.sent ++ ((r.txHeld ++
          if r.sys.txPop then [r.sys.tx.front] else []) ++
            (r.sys.work i).tx.held g.FIFO_DEPTH) := by rw [hqueue, List.append_assoc]
    _ = _ := by
        rw [hregister, hone, List.append_assoc, List.append_assoc]
        rfl

end SdPio

/-- In runs where the card still shows each byte that is stored, both streams are lossless. -/
theorem pio_lossless {g : SdGeometry} {clocks : List SdClock} {r : SdPio g}
    (h : (sdRuns g SdController.Shown).Traces clocks r) : r.Lossless clocks := by
  obtain ⟨r₀, ⟨s, i, hreset, rfl⟩, hrun⟩ := h
  refine hrun.invariant (fun clocks r => r.Lossless clocks) ?_ ?_
  · obtain ⟨tx, rx, desc, hn⟩ : ∃ tx rx desc, s.work i = .afterReset tx rx desc := by
      unfold SdController.work
      dsimp only
      rw [if_pos hreset]
      exact ⟨_, _, _, rfl⟩
    rw [hn]
    exact ⟨rfl, rfl, SdFifo.inPlace_cleared g.depth rx, SdFifo.inPlace_cleared g.depth tx⟩
  · rintro clocks r e r' hlossless hstep
    cases e with
    | none => exact hstep.elim
    | some c =>
        obtain ⟨i, hreset, hshown, rfl, rfl⟩ := hstep
        obtain ⟨hreceived, hrx⟩ := SdPio.rx_step hlossless hreset hshown
        obtain ⟨hsent, htx⟩ := SdPio.tx_step hlossless hreset
        exact ⟨hreceived, hsent, hrx, htx⟩

/-! ## A read of two bytes -/

/-- A word bus, and FIFOs of three bytes. -/
def wordSd : SdGeometry := ⟨8, 1, 4, 3, by decide, by decide⟩

namespace SdPio

/-- A clock in which the card shows a byte, and software reads the register at an address. -/
def cardClock (shows : Option (BitVec 8)) (addr : Option (BitVec 8)) : SdInputs wordSd where
  reset := false
  sdCmdReady := true
  sdRspValid := shows.isSome
  sdRspData := shows.getD 0
  sdRspLast := false
  awvalid := false
  awaddr := 0
  awid := 0
  wvalid := false
  wdata := 0
  bready := true
  arvalid := addr.isSome
  araddr := addr.getD 0
  arid := 0
  rready := true
  dmaAwready := false
  dmaWready := false
  dmaBvalid := false
  dmaArready := false
  dmaRvalid := false
  dmaRdata := 0

/-- A read of the card starts, and its header is sent. -/
def startClocks : List (SdInputs wordSd) :=
  [{ cardClock none none with awvalid := true }, { cardClock none none with wvalid := true, wdata := 1 }] ++
    List.replicate 18 (cardClock none none)

/-- Three bytes are shown, the first two of them each for a clock longer than it takes. -/
def heldClocks : List (SdInputs wordSd) :=
  startClocks ++ [cardClock (some 0x11) none, cardClock (some 0x11) none, cardClock (some 0x22) none,
    cardClock (some 0x22) none, cardClock none (some 0x1c), cardClock none none,
    cardClock none (some 0x1c)]

/-- Each byte is shown until it is accepted. -/
def nextClocks : List (SdInputs wordSd) :=
  startClocks ++ [cardClock (some 0x11) none, cardClock (some 0x22) none, cardClock (some 0x22) none,
    cardClock (some 0x33) none, cardClock none (some 0x1c), cardClock none none,
    cardClock none (some 0x1c)]

/-- The controller after a reset with empty FIFOs. -/
def started : SdPio wordSd :=
  ⟨.afterReset ⟨fun _ => 0, 0, 0, 0⟩ ⟨fun _ => 0, 0, 0, 0⟩ ⟨fun _ => 0, 0, 0, 0⟩, false⟩

def shown (is : List (SdInputs wordSd)) : List SdClock :=
  Transitions.eventsAlong clock next started is

theorem traces_started {ok : SdController wordSd → SdInputs wordSd → Prop}
    {is : List (SdInputs wordSd)}
    (h : Transitions.Along (fun (r : SdPio wordSd) i => i.reset = false ∧ ok r.sys i) next started is) :
    (sdRuns wordSd ok).Traces (shown is) (is.foldl next started) := by
  have hstep : ∀ (r : SdPio wordSd) (i : SdInputs wordSd), i.reset = false ∧ ok r.sys i →
      (sdRuns wordSd ok).step r (some (r.clock i)) (r.next i) :=
    fun r i hi => ⟨i, hi.1, hi.2, rfl, rfl⟩
  refine ⟨started, ⟨started.sys, { cardClock none none with reset := true }, rfl, rfl⟩, ?_⟩
  exact Transitions.Run.of_inputs hstep h

end SdPio

open SdPio

/-- The bytes that are read are those that were accepted. -/
theorem pio_lossless_held :
    (shown heldClocks).filterMap SdClock.read = [0x11, 0x22] ∧
      received (shown heldClocks) = [0x11, 0x22] ∧
      (heldClocks.foldl next started).Lossless (shown heldClocks) := by
  refine ⟨by decide +kernel, by decide +kernel, pio_lossless (traces_started ?_)⟩
  decide +kernel

/-- When the card shows the next byte as soon as one is accepted, a byte is lost, and the next
one is read in its place. -/
theorem pio_loses_next :
    ¬ ∀ (g : SdGeometry) (clocks : List SdClock) (r : SdPio g),
      (sdRuns g fun _ _ => True).Traces clocks r → r.Lossless clocks := by
  intro h
  have hlossless := h wordSd (shown nextClocks) (nextClocks.foldl next started)
    (traces_started (by decide +kernel))
  have hread : (shown nextClocks).filterMap SdClock.read = [0x22, 0x33] := by decide +kernel
  have hreceived : received (shown nextClocks) = [0x11, 0x22] := by decide +kernel
  have hbytes := hlossless.received
  rw [hread, hreceived] at hbytes
  exact absurd (List.cons.inj hbytes).1 (by decide)

end CppHdl.Devices
