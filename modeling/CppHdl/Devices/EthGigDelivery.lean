import CppHdl.Devices.EthGigTransmit

/-!
# Frames from one MAC to another

The line takes the bytes of one MAC and brings them to the receive side of another one in
promiscuous mode, with any delay and with bits altered in some frames. Every clock the user,
the line in both directions and the reader may stall. A frame comes out as it was pushed, with
zeros up to the least length, if nothing of it was altered, and not at all after a burst of at
most 32 altered bits.
-/

namespace CppHdl.Devices

open EthGigMac

/-- A frame, and the bits of its padded payload and check sequence that are altered on the line. -/
structure Transmission where
  payload : List (BitVec 8)
  error : List (BitVec 8)

namespace Transmission

def Intact (f : Transmission) : Prop := ∀ e ∈ f.error, e = 0

instance : DecidablePred Intact := fun f => inferInstanceAs (Decidable (∀ e ∈ f.error, e = 0))

structure Admitted (FIFO_DEPTH : Nat) (f : Transmission) : Prop where
  pos : 1 ≤ f.payload.length
  le : f.payload.length ≤ FIFO_DEPTH - 4
  length_error : f.error.length = (frameBody f.payload).length
  altered : f.Intact ∨ Crc.Burst 32 (allBits f.error)

/-- The error in the order of the line; a preamble arrives as it is. -/
def lineError (f : Transmission) : List (BitVec 8) := List.replicate 8 0 ++ f.error

def arrived (f : Transmission) : List (BitVec 8) := addError (frameBody f.payload) f.error

end Transmission

/-- The stalls of a clock, and the addresses of the receiver. -/
structure LinkClock where
  offer : Bool
  pcsTxReady : Bool
  arrives : Bool
  rxReady : Bool
  localMac : BitVec 48
  localIp : BitVec 32
  localMask : BitVec 32

def LinkClock.Unstalled (c : LinkClock) : Prop :=
  c.offer = true ∧ c.pcsTxReady = true ∧ c.arrives = true ∧ c.rxReady = true

structure MacLink where
  tx : MacTx
  rx : MacRx
  pushed : Nat
  sent : List (BitVec 8 × Bool)
  accepted : Nat
  read : List (BitVec 8 × Bool)

namespace MacLink

variable (FIFO_DEPTH : Nat) (frames : List Transmission) (w : MacLink) (c : LinkClock)

def toPush : List (BitVec 8 × Bool) := (frames.map Transmission.payload).flatMap marked

def errors : List (BitVec 8) := frames.flatMap Transmission.lineError

def txInputs : MacTxInputs where
  reset := false
  txValid := c.offer && decide (w.pushed < (toPush frames).length)
  txData := ((toPush frames).getD w.pushed (0, false)).1
  txLast := ((toPush frames).getD w.pushed (0, false)).2
  pcsTxReady := c.pcsTxReady

/-- The next byte of those that were sent, as it arrives. -/
def arriving : BitVec 8 × Bool :=
  let b := w.sent.getD w.accepted (0, false)
  (b.1 ^^^ (errors frames).getD w.accepted 0, b.2)

def rxInputs : MacRxInputs where
  reset := false
  localMac := c.localMac
  localIp := c.localIp
  localMask := c.localMask
  promisc := true
  pcsRxValid := c.arrives && decide (w.accepted < w.sent.length)
  pcsRxData := (w.arriving frames).1
  pcsRxLast := (w.arriving frames).2
  rxReady := c.rxReady

def clock : MacLink where
  tx := w.tx.work FIFO_DEPTH (w.txInputs frames c)
  rx := w.rx.work FIFO_DEPTH (w.rxInputs frames c)
  pushed := w.pushed + (w.tx.txPush FIFO_DEPTH (w.txInputs frames c)).toNat
  sent := w.sent ++ w.tx.given (w.txInputs frames c)
  accepted := w.accepted + (w.rx.rxByteIn (w.rxInputs frames c)).toNat
  read := w.read ++
    if w.rx.rxPop (w.rxInputs frames c) then [(w.rx.rxDataOut, w.rx.rxLastOut)] else []

/-- Both MACs after a reset. -/
def start (tx : MacTx) (rx : MacRx) : MacLink := ⟨tx.cleared, rx.cleared, 0, [], 0, []⟩

def run (cs : List LinkClock) : MacLink := cs.foldl (clock FIFO_DEPTH frames) w

/-- What the reader gets when everything is through. -/
def delivered : List (BitVec 8 × Bool) :=
  (frames.filter Transmission.Intact).flatMap fun f => marked (pad f.payload)

variable {FIFO_DEPTH} {frames} {w} {c}

/-! ## The bytes that arrive -/

def arrivals (frames : List Transmission) : List (BitVec 8 × Bool) :=
  frames.flatMap fun f => line f.arrived

def alter (b : BitVec 8 × Bool) (e : BitVec 8) : BitVec 8 × Bool := (b.1 ^^^ e, b.2)

theorem marked_addError {bytes err : List (BitVec 8)} (h : bytes.length = err.length) :
    marked (addError bytes err) = List.zipWith alter (marked bytes) err := by
  induction bytes generalizing err with
  | nil => rfl
  | cons b bytes ih =>
      cases err with
      | nil => cases h
      | cons e err =>
          have hlen : bytes.length = err.length := Nat.succ.inj h
          have hempty : (addError bytes err).isEmpty = bytes.isEmpty := by
            cases bytes <;> cases err <;> first | rfl | cases hlen
          rw [marked_cons, List.zipWith_cons_cons, ← ih hlen, ← hempty]
          exact marked_cons _ _

theorem length_marked (bytes : List (BitVec 8)) : (marked bytes).length = bytes.length := by
  induction bytes with
  | nil => rfl
  | cons b bytes ih => rw [marked_cons, List.length_cons, ih, List.length_cons]

theorem length_line (body : List (BitVec 8)) : (line body).length = 8 + body.length := by
  unfold line
  rw [List.length_append, length_marked]
  rfl

theorem arrivals_eq (hframes : ∀ f ∈ frames, f.Admitted FIFO_DEPTH) :
    arrivals frames =
      List.zipWith alter (lines (frames.map Transmission.payload)) (errors frames) := by
  induction frames with
  | nil => rfl
  | cons f frames ih =>
      have hlen := (hframes f List.mem_cons_self).length_error
      have hpre : List.zipWith alter (unmarked preamble) (List.replicate 8 0) = unmarked preamble :=
        rfl
      have height : (unmarked preamble).length = (List.replicate 8 (0 : BitVec 8)).length := rfl
      have hline : line f.arrived = List.zipWith alter (line (frameBody f.payload)) f.lineError := by
        unfold line Transmission.arrived Transmission.lineError
        rw [List.zipWith_append height, hpre, marked_addError hlen.symm]
      show line f.arrived ++ arrivals frames =
        List.zipWith alter (line (frameBody f.payload) ++ lines (frames.map Transmission.payload))
          (f.lineError ++ errors frames)
      rw [List.zipWith_append (by
          rw [length_line, Transmission.lineError, List.length_append, List.length_replicate, hlen]),
        ← hline, ← ih fun g hg => hframes g (List.mem_cons_of_mem _ hg)]

theorem length_errors (hframes : ∀ f ∈ frames, f.Admitted FIFO_DEPTH) :
    (errors frames).length = (lines (frames.map Transmission.payload)).length := by
  induction frames with
  | nil => rfl
  | cons f frames ih =>
      show (f.lineError ++ errors frames).length =
        (line (frameBody f.payload) ++ lines (frames.map Transmission.payload)).length
      rw [List.length_append, List.length_append, ih fun g hg => hframes g (List.mem_cons_of_mem _ hg),
        length_line, Transmission.lineError, List.length_append, List.length_replicate,
        (hframes f List.mem_cons_self).length_error]

/-- What all that arrives is taken apart to. -/
theorem foldl_take_arrivals (h64 : 64 ≤ FIFO_DEPTH)
    (hframes : ∀ f ∈ frames, f.Admitted FIFO_DEPTH) (before : List (List (BitVec 8))) :
    (arrivals frames).foldl (Deframer.take FIFO_DEPTH) ⟨.seek 0, before⟩ =
      ⟨.seek 0, before ++ (frames.filter Transmission.Intact).map fun f => pad f.payload⟩ := by
  induction frames generalizing before with
  | nil => exact congrArg (Deframer.mk _) (List.append_nil _).symm
  | cons f frames ih =>
      obtain ⟨hpos, hle, herror, haltered⟩ := hframes f List.mem_cons_self
      have hlen : f.arrived.length = max f.payload.length 60 + 4 := by
        unfold Transmission.arrived addError
        rw [List.length_zipWith, herror, Nat.min_self, length_frameBody]
      have hcheck : (if crcOf 0xffffffff f.arrived = ETHERNET_CRC_RESIDUE then
          [f.arrived.take (f.arrived.length - 4)] else []) =
          if f.Intact then [pad f.payload] else [] := by
        by_cases hintact : f.Intact
        · have hsame : f.arrived = frameBody f.payload := by
            have hzero : f.error = List.replicate (frameBody f.payload).length 0 :=
              List.eq_replicate_iff.mpr ⟨herror, hintact⟩
            unfold Transmission.arrived addError
            rw [hzero]
            apply List.ext_getElem
            · simp
            · intro k h₁ h₂
              simp
          rw [if_pos hintact, hsame, if_pos (crcOf_frameBody _), length_frameBody,
            Nat.add_sub_cancel, ← length_pad]
          exact congrArg (fun l => [l]) List.take_left
        · have hburst := haltered.resolve_left hintact
          rw [if_neg hintact, if_neg]
          exact crcOf_addError herror.symm hburst
      show (line f.arrived ++ arrivals frames).foldl _ _ = _
      rw [List.foldl_append, Deframer.foldl_take_line (by omega) (by omega), hcheck,
        ih fun g hg => hframes g (List.mem_cons_of_mem _ hg)]
      by_cases hintact : f.Intact
      · rw [if_pos hintact, List.filter_cons_of_pos (by simpa using hintact), List.map_cons,
          List.append_assoc]
        rfl
      · rw [if_neg hintact, List.filter_cons_of_neg (by simpa using hintact), List.append_nil]

/-! ## Runs -/

/-- The registers and the words that went where. -/
structure Follows (FIFO_DEPTH : Nat) (frames : List Transmission) (w : MacLink) : Prop where
  tx : ∃ popped, MacTx.Transmits FIFO_DEPTH w.tx (popped.foldl FrameReader.read .empty)
      (w.sent ++ w.tx.waiting) ∧
    popped ++ w.tx.queue FIFO_DEPTH = (toPush frames).take w.pushed
  rx : MacRx.Follows FIFO_DEPTH w.rx
    (((arrivals frames).take w.accepted).foldl (Deframer.take FIFO_DEPTH) ⟨.seek 0, []⟩) w.read
  pushed_le : w.pushed ≤ (toPush frames).length
  accepted_le : w.accepted ≤ w.sent.length

theorem follows_start (h : 0 < FIFO_DEPTH) (tx : MacTx) (rx : MacRx) :
    Follows FIFO_DEPTH frames (start tx rx) where
  tx := ⟨[], MacTx.transmits_cleared h tx, rfl⟩
  rx := MacRx.follows_cleared h rx
  pushed_le := Nat.zero_le _
  accepted_le := Nat.zero_le _

theorem nil_not_mem (hframes : ∀ f ∈ frames, f.Admitted FIFO_DEPTH) :
    [] ∉ frames.map Transmission.payload := by
  rw [List.mem_map]
  rintro ⟨f, hf, hnil⟩
  have hpos := (hframes f hf).pos
  rw [hnil] at hpos
  exact Nat.not_succ_le_zero _ hpos

/-- What the reader of the popped words has, and that a word in the queue has a frame. -/
theorem reads_popped (hframes : ∀ f ∈ frames, f.Admitted FIFO_DEPTH)
    {popped queue : List (BitVec 8 × Bool)} {n : Nat}
    (h : popped ++ queue = (toPush frames).take n) :
    let r := popped.foldl FrameReader.read .empty
    r.Reads (frames.map Transmission.payload) ∧ (r.part = [] → queue ≠ [] →
      ∃ payload, r.done ++ [payload] <+: frames.map Transmission.payload) := by
  intro r
  have hprefix : popped ++ queue <+: toPush frames := h ▸ List.take_prefix _ _
  have hreads : r.Reads (frames.map Transmission.payload) :=
    FrameReader.reads_of_prefix (nil_not_mem hframes)
      ((List.prefix_append popped queue).trans hprefix)
  refine ⟨hreads, fun hpart hqueue => ?_⟩
  have hwords : r.done.flatMap marked ++ unmarked r.part = popped :=
    FrameReader.words_foldl_read .empty popped
  obtain ⟨rest, hrest⟩ := hreads.done
  cases rest with
  | cons payload rest =>
      refine ⟨payload, rest, ?_⟩
      rw [List.append_assoc]
      exact hrest
  | nil =>
      -- all frames are popped, so that no word is left
      rw [List.append_nil] at hrest
      rw [hpart, hrest] at hwords
      have hall : toPush frames = popped := (List.append_nil _).symm.trans hwords
      have hlen := hprefix.length_le
      rw [hall, List.length_append] at hlen
      exact absurd (List.length_eq_zero_iff.mp (by omega)) hqueue

variable (h32 : FIFO_DEPTH < 2 ^ 32) (hframes : ∀ f ∈ frames, f.Admitted FIFO_DEPTH)

include hframes in
theorem Follows.on_line (h : Follows FIFO_DEPTH frames w) :
    w.sent ++ w.tx.waiting <+: lines (frames.map Transmission.payload) := by
  obtain ⟨popped, htx, hpopped⟩ := h.tx
  obtain ⟨hreads, hmore⟩ := reads_popped hframes hpopped
  refine htx.prefix_lines hreads fun hpart hcount => hmore hpart fun hnil => hcount ?_
  exact length_ring.symm.trans (List.length_eq_zero_iff.mpr hnil)

include hframes in
theorem arrivals_accepted (hline : w.sent <+: lines (frames.map Transmission.payload))
    (hlt : w.accepted < w.sent.length) :
    (arrivals frames)[w.accepted]? = some (w.arriving frames) := by
  have hlen := length_errors hframes
  have hle := hline.length_le
  have hsent : (lines (frames.map Transmission.payload))[w.accepted]? =
      some (w.sent.getD w.accepted (0, false)) := by
    obtain ⟨rest, hrest⟩ := hline
    rw [← hrest, List.getElem?_append_left hlt, List.getD_eq_getElem?_getD,
      List.getElem?_eq_getElem hlt]
    rfl
  have herror : (errors frames)[w.accepted]? = some ((errors frames).getD w.accepted 0) := by
    rw [List.getD_eq_getElem?_getD, List.getElem?_eq_getElem (by omega)]
    rfl
  rw [arrivals_eq hframes, List.getElem?_zipWith, hsent, herror]
  rfl

include h32 hframes in
theorem Follows.clock (h : Follows FIFO_DEPTH frames w) :
    Follows FIFO_DEPTH frames (w.clock FIFO_DEPTH frames c) := by
  obtain ⟨popped, htx, hpopped⟩ := h.tx
  obtain ⟨hreads, -⟩ := reads_popped hframes hpopped
  have hpart : (popped.foldl FrameReader.read .empty).part.length + 1 < 2 ^ 32 := by
    by_cases hnil : (popped.foldl FrameReader.read .empty).part = []
    · rw [hnil]
      decide
    · obtain ⟨rest, hrest, hnext⟩ := hreads.part hnil
      obtain ⟨f, hf, hpayload⟩ := List.mem_map.mp
        (hnext.subset (List.mem_append_right _ (List.mem_singleton_self _)))
      have hle := (hframes f hf).le
      have hpos := List.length_pos_iff.mpr hrest
      rw [hpayload, List.length_append] at hle
      omega
  obtain ⟨htx', hqueue⟩ := htx.work (i := w.txInputs frames c) rfl hpart
  have hrx' := h.rx.work (i := w.rxInputs frames c) rfl rfl
  have hpush : w.tx.txPush FIFO_DEPTH (w.txInputs frames c) = true →
      w.pushed < (toPush frames).length := by
    simp only [MacTx.txPush, txInputs, Bool.and_eq_true, decide_eq_true_eq]
    exact fun hp => hp.1.2
  have hin : w.rx.rxByteIn (w.rxInputs frames c) = true → w.accepted < w.sent.length := by
    simp only [MacRx.rxByteIn, rxInputs, Bool.and_eq_true, decide_eq_true_eq]
    exact fun hi => hi.1.2
  refine ⟨⟨popped ++ w.tx.popped (w.txInputs frames c), ?_, ?_⟩, ?_, ?_, ?_⟩
  · rw [List.foldl_append]
    exact htx'
  · show popped ++ _ ++ (w.tx.work FIFO_DEPTH (w.txInputs frames c)).queue FIFO_DEPTH =
      (toPush frames).take (w.pushed + (w.tx.txPush FIFO_DEPTH (w.txInputs frames c)).toNat)
    rw [List.append_assoc, ← hqueue, ← List.append_assoc, hpopped]
    cases hp : w.tx.txPush FIFO_DEPTH (w.txInputs frames c) with
    | false => exact List.append_nil _
    | true =>
        rw [Bool.toNat_true, List.take_add_one, List.getElem?_eq_getElem (hpush hp), if_pos rfl]
        simp only [txInputs, List.getD_eq_getElem?_getD, List.getElem?_eq_getElem (hpush hp)]
        rfl
  · show MacRx.Follows FIFO_DEPTH _ (((arrivals frames).take
      (w.accepted + (w.rx.rxByteIn (w.rxInputs frames c)).toNat)).foldl _ _) _
    cases hi : w.rx.rxByteIn (w.rxInputs frames c) with
    | false =>
        rw [hi] at hrx'
        exact hrx'
    | true =>
        rw [hi] at hrx'
        rw [Bool.toNat_true, List.take_add_one, arrivals_accepted hframes
          ((List.prefix_append _ _).trans (h.on_line hframes)) (hin hi), List.foldl_append]
        exact hrx'
  · have hle := h.pushed_le
    show w.pushed + _ ≤ _
    cases hp : w.tx.txPush FIFO_DEPTH (w.txInputs frames c) with
    | false => exact hle
    | true => exact hpush hp
  · have hle := h.accepted_le
    show w.accepted + _ ≤ (w.sent ++ _).length
    rw [List.length_append]
    cases hi : w.rx.rxByteIn (w.rxInputs frames c) with
    | false => exact Nat.le_add_right_of_le hle
    | true => exact Nat.le_add_right_of_le (hin hi)

include h32 hframes in
theorem Follows.run (h : Follows FIFO_DEPTH frames w) (cs : List LinkClock) :
    Follows FIFO_DEPTH frames (w.run FIFO_DEPTH frames cs) := by
  induction cs generalizing w with
  | nil => exact h
  | cons c cs ih => exact ih (h.clock h32 hframes)

theorem Follows.read_of_delivered (h64 : 64 ≤ FIFO_DEPTH)
    (hframes : ∀ f ∈ frames, f.Admitted FIFO_DEPTH) (h : Follows FIFO_DEPTH frames w) :
    w.read <+: delivered frames := by
  have hall := foldl_take_arrivals h64 hframes []
  rw [← List.take_append_drop w.accepted (arrivals frames), List.foldl_append] at hall
  have hgrows := @Deframer.frames_foldl_take FIFO_DEPTH
    (((arrivals frames).take w.accepted).foldl (Deframer.take FIFO_DEPTH) ⟨.seek 0, []⟩)
    ((arrivals frames).drop w.accepted)
  rw [hall] at hgrows
  obtain ⟨rest, hrest⟩ := hgrows
  simp only [List.nil_append] at hrest
  have hsame : delivered frames = ((frames.filter Transmission.Intact).map
      fun f => pad f.payload).flatMap marked := by
    unfold delivered
    rw [List.flatMap_map]
  rw [hsame, ← hrest, List.flatMap_append, ← h.rx.frames, List.append_assoc]
  exact List.prefix_append _ _

/-! ## Progress -/

/-- Clocks without stalls until everything is read, or more. -/
def toDo (frames : List Transmission) (w : MacLink) : Nat :=
  200 * ((toPush frames).length - w.pushed) + w.tx.toDo +
    (3 * ((arrivals frames).length - w.accepted) + w.rx.toDo)

theorem length_arrivals (hframes : ∀ f ∈ frames, f.Admitted FIFO_DEPTH) :
    (arrivals frames).length = (lines (frames.map Transmission.payload)).length := by
  rw [arrivals_eq hframes, List.length_zipWith, length_errors hframes, Nat.min_self]

include hframes in
/-- Where no word is left to push, to send, to take and to read, everything is read. -/
theorem Follows.read_eq (h64 : 64 ≤ FIFO_DEPTH) (h : Follows FIFO_DEPTH frames w)
    (hpushed : w.pushed = (toPush frames).length) (hcount : w.tx.txCount = 0)
    (hidle : w.tx.txState = .idle ∨ w.tx.txState = .payload)
    (haccepted : w.accepted = w.sent.length) (hrx : w.rx.rxState ≠ .copy)
    (hread : w.rx.rxCount = 0) : w.read = delivered frames := by
  obtain ⟨popped, htx, hpopped⟩ := h.tx
  have hqueue : w.tx.queue FIFO_DEPTH = [] := by
    unfold MacTx.queue
    rw [hcount]
    rfl
  rw [hqueue, List.append_nil, hpushed, List.take_length] at hpopped
  have hall : popped.foldl FrameReader.read .empty = ⟨frames.map Transmission.payload, []⟩ := by
    rw [hpopped]
    exact FrameReader.foldl_read_frames _ rfl (nil_not_mem hframes)
  rw [hall] at htx
  have hstate : w.tx.txState = .idle :=
    hidle.resolve_right fun hp => htx.started (.inr ⟨hp, rfl⟩) hcount
  have hphase := htx.phase
  unfold MacTx.Phase MacTx.waiting at hphase
  rw [hstate] at hphase
  obtain ⟨-, hvalid, hsent⟩ := hphase
  rw [hvalid, if_neg Bool.false_ne_true, List.append_nil] at hsent
  have htaken : (arrivals frames).take w.accepted = arrivals frames := by
    rw [haccepted, hsent]
    exact List.take_of_length_le (length_arrivals hframes).le
  have hframes' := h.rx.frames
  have hempty : w.rx.queue FIFO_DEPTH ++ w.rx.left = [] := by
    unfold MacRx.queue MacRx.left
    rw [hread, if_neg hrx]
    rfl
  rw [htaken, foldl_take_arrivals h64 hframes, hempty, List.append_nil, List.nil_append] at hframes'
  rw [hframes', delivered, List.flatMap_map]

include hframes in
theorem Follows.toDo_clock (h64 : 64 ≤ FIFO_DEPTH) (h : Follows FIFO_DEPTH frames w)
    (hc : c.Unstalled) :
    (w.clock FIFO_DEPTH frames c).toDo frames < w.toDo frames ∨ w.read = delivered frames := by
  obtain ⟨hoffer, htxReady, harrives, hrxReady⟩ := hc
  obtain ⟨popped, htx, hpopped⟩ := h.tx
  have htxStep := htx.toDo_work (i := w.txInputs frames c) rfl htxReady
  have hrxStep := h.rx.toDo_work (i := w.rxInputs frames c) rfl hrxReady
  have hle := h.pushed_le
  have hacc := h.accepted_le
  have hsent := ((List.prefix_append _ _).trans (h.on_line hframes)).length_le
  rw [← length_arrivals hframes] at hsent
  have hpush : (w.tx.txPush FIFO_DEPTH (w.txInputs frames c)).toNat =
      if w.pushed < (toPush frames).length ∧ w.tx.txCount ≠ FIFO_DEPTH then 1 else 0 := by
    simp only [MacTx.txPush, MacTx.txReady, txInputs, hoffer, Bool.true_and]
    rw [← Bool.decide_and, Bool.toNat, Bool.cond_decide]
  have hin : (w.rx.rxByteIn (w.rxInputs frames c)).toNat =
      if w.accepted < w.sent.length ∧ w.rx.rxState ≠ .copy then 1 else 0 := by
    simp only [MacRx.rxByteIn, MacRx.pcsRxReady, rxInputs, harrives, Bool.true_and]
    rw [← Bool.decide_and, Bool.toNat, Bool.cond_decide]
  by_cases hdone : w.pushed = (toPush frames).length ∧ w.tx.txCount = 0 ∧
      (w.tx.txState = .idle ∨ w.tx.txState = .payload) ∧ w.accepted = w.sent.length ∧
      w.rx.rxState ≠ .copy ∧ w.rx.rxCount = 0
  · obtain ⟨hpushed, hcount, hidle, haccepted, hrx, hread⟩ := hdone
    exact .inr (h.read_eq hframes h64 hpushed hcount hidle haccepted hrx hread)
  left
  show 200 * ((toPush frames).length - (w.pushed +
      (w.tx.txPush FIFO_DEPTH (w.txInputs frames c)).toNat)) +
      (w.tx.work FIFO_DEPTH (w.txInputs frames c)).toDo +
    (3 * ((arrivals frames).length - (w.accepted +
      (w.rx.rxByteIn (w.rxInputs frames c)).toNat)) +
      (w.rx.work FIFO_DEPTH (w.rxInputs frames c)).toDo) < _
  unfold toDo
  rw [hpush] at htxStep ⊢
  rw [hin] at hrxStep ⊢
  by_cases hstuck : (w.tx.txCount = 0 ∧ (w.tx.txState = .idle ∨ w.tx.txState = .payload)) ∧
      ¬ (w.rx.rxState = .copy ∨ w.rx.rxCount ≠ 0)
  · -- both sides wait, so that a word is pushed or a byte is taken, and worth less there
    obtain ⟨hwait, hbusy⟩ := hstuck
    have hroom : w.tx.txCount ≠ FIFO_DEPTH := by omega
    rw [not_or, not_not] at hbusy
    by_cases hmore : w.pushed < (toPush frames).length ∧ w.tx.txCount ≠ FIFO_DEPTH
    · rw [if_pos hmore] at htxStep ⊢
      split_ifs at htxStep hrxStep ⊢ <;> omega
    · have hbyte : w.accepted < w.sent.length ∧ w.rx.rxState ≠ .copy := by
        refine ⟨Nat.lt_of_le_of_ne hacc fun haccepted => ?_, hbusy.1⟩
        have hall : ¬ w.pushed < (toPush frames).length := fun hlt => hmore ⟨hlt, hroom⟩
        exact hdone ⟨by omega, hwait.1, hwait.2, haccepted, hbusy⟩
      rw [if_pos hbyte] at hrxStep ⊢
      split_ifs at htxStep hrxStep ⊢ <;> omega
  · rw [not_and_or, not_not] at hstuck
    rcases hstuck with hgoes | hgoes
    · rw [if_neg hgoes] at htxStep
      split_ifs at htxStep hrxStep ⊢ <;> omega
    · rw [if_pos hgoes] at hrxStep
      split_ifs at htxStep hrxStep ⊢ <;> omega

theorem read_prefix_run (cs : List LinkClock) : w.read <+: (w.run FIFO_DEPTH frames cs).read := by
  induction cs generalizing w with
  | nil => exact List.prefix_rfl
  | cons c cs ih =>
      have hstep : w.read <+: (w.clock FIFO_DEPTH frames c).read := List.prefix_append _ _
      exact hstep.trans ih

include h32 hframes in
theorem Follows.delivers (h64 : 64 ≤ FIFO_DEPTH) (h : Follows FIFO_DEPTH frames w)
    {cs : List LinkClock} (hcs : ∀ c ∈ cs, c.Unstalled) (hlen : w.toDo frames ≤ cs.length) :
    (w.run FIFO_DEPTH frames cs).read = delivered frames := by
  have hstop : ∀ {w : MacLink} {cs : List LinkClock}, Follows FIFO_DEPTH frames w →
      w.read = delivered frames → (w.run FIFO_DEPTH frames cs).read = delivered frames := by
    intro w cs h hdone
    have hmono : w.read <+: (w.run FIFO_DEPTH frames cs).read := read_prefix_run cs
    rw [hdone] at hmono
    exact ((h.run h32 hframes cs).read_of_delivered h64 hframes).eq_of_length_le hmono.length_le
  induction cs generalizing w with
  | nil =>
      rcases h.toDo_clock hframes h64 (c := ⟨true, true, true, true, 0, 0, 0⟩)
        ⟨rfl, rfl, rfl, rfl⟩ with hless | hdone
      · exact absurd (Nat.lt_of_lt_of_le hless hlen) (Nat.not_lt_zero _)
      · exact hdone
  | cons c cs ih =>
      rcases h.toDo_clock hframes h64 (hcs c List.mem_cons_self) with hless | hdone
      · exact ih (h.clock h32 hframes) (fun c' hc' => hcs c' (List.mem_cons_of_mem _ hc'))
          (Nat.le_of_lt_succ (Nat.lt_of_lt_of_le hless hlen))
      · exact hstop h hdone

/-- From a reset on, whatever stalls, the bytes on the line begin the frames with their preambles,
zeros and check sequences, and what is read begins the payloads, filled with zeros, of the
frames that were not altered, in order; when nothing stalls for long enough, all of these are
read. -/
theorem frames_delivered (h64 : 64 ≤ FIFO_DEPTH) (h32 : FIFO_DEPTH < 2 ^ 32)
    (hframes : ∀ f ∈ frames, f.Admitted FIFO_DEPTH) (tx : MacTx) (rx : MacRx)
    (cs : List LinkClock) :
    ((start tx rx).run FIFO_DEPTH frames cs).sent <+: lines (frames.map Transmission.payload) ∧
    ((start tx rx).run FIFO_DEPTH frames cs).read <+: delivered frames ∧
    ∃ n, ∀ more : List LinkClock, n ≤ more.length → (∀ c ∈ more, c.Unstalled) →
      ((start tx rx).run FIFO_DEPTH frames (cs ++ more)).read = delivered frames := by
  have hstart : Follows FIFO_DEPTH frames (start tx rx) := follows_start (by omega) tx rx
  have h := hstart.run h32 hframes cs
  refine ⟨(List.prefix_append _ _).trans (h.on_line hframes), h.read_of_delivered h64 hframes,
    ((start tx rx).run FIFO_DEPTH frames cs).toDo frames, fun more hlen hmore => ?_⟩
  have hrun := h.delivers h32 hframes h64 hmore hlen
  rw [run, List.foldl_append]
  exact hrun

/-! ## Frames of one byte -/

def blankTx : MacTx :=
  ⟨fun _ => 0, fun _ => false, 0, 0, 0, false, 0, false, .idle, 0, 0, 0, 0, 0, 0, 0, 0⟩

def blankRx : MacRx :=
  ⟨fun _ => 0, fun _ => false, 0, 0, 0, fun _ => 0, 0, 0, 0, 0, .seek, 0, 0, 0⟩

/-- A frame that is not altered, and one with its first bit altered. -/
def twoFrames : List Transmission :=
  [⟨[7], List.replicate 64 0⟩, ⟨[8], 1 :: List.replicate 63 0⟩]

theorem admitted_twoFrames : ∀ f ∈ twoFrames, f.Admitted 64 := by
  have hbits : allBits (1 :: List.replicate 63 0) = true :: List.replicate 511 false := by
    decide +kernel
  intro f hf
  rcases List.mem_cons.mp hf with rfl | hf
  · exact ⟨by decide, by decide, by decide +kernel, .inl (by decide)⟩
  · obtain rfl := List.mem_singleton.mp hf
    refine ⟨by decide, by decide, by decide +kernel, .inr ⟨?_, 0, fun i hi => ?_⟩⟩
    · rw [hbits]
      exact List.mem_cons_self
    rw [hbits] at hi
    cases i with
    | zero => decide
    | succ i =>
        rw [List.getElem?_cons_succ, List.getElem?_replicate] at hi
        split_ifs at hi with hlt
        simp at hi

def unstalled : LinkClock := ⟨true, true, true, true, 0, 0, 0⟩

theorem frames_delivered_twoFrames :
    ∃ n, ∀ more : List LinkClock, n ≤ more.length → (∀ c ∈ more, c.Unstalled) →
      ((start blankTx blankRx).run 64 twoFrames
        ([⟨true, false, true, false, 0, 0, 0⟩] ++ more)).read =
        marked (7 :: List.replicate 59 0) := by
  have hout : delivered twoFrames = marked (7 :: List.replicate 59 0) := by decide +kernel
  rw [← hout]
  exact (frames_delivered (by decide) (by decide) admitted_twoFrames blankTx blankRx
    [⟨true, false, true, false, 0, 0, 0⟩]).2.2

/-- A queue of 32 words holds the payload, but a receiver with such queues drops the frame. -/
theorem short_queue_drops :
    let frames : List Transmission := [⟨[7], List.replicate 64 0⟩]
    let w := (start blankTx blankRx).run 32 frames (List.replicate 120 unstalled)
    (∀ f ∈ frames, f.payload.length ≤ 32 - 4) ∧ w.sent = lines [[7]] ∧ w.accepted = w.sent.length ∧
      w.tx.txIdle = true ∧ w.rx.rxState = .seek ∧ w.rx.rxCount = 0 ∧ w.read = [] ∧
      delivered frames ≠ [] := by
  decide +kernel

end MacLink

end CppHdl.Devices
