import CppHdl.Devices.EthGigFrame
import CppHdl.Lib.FrameStream
import CppHdl.Lib.Queue

/-!
# The receive side of the Ethernet MAC

What the receive side gives out is determined by the bytes that came in: a `Deframer` reads
the line byte by byte, and the registers keep where it is.
-/

namespace CppHdl.Devices

namespace EthGigMac

/-- Seven bytes of preamble and the start delimiter. -/
def preamble : List (BitVec 8) := List.replicate 7 0x55 ++ [0xd5]

def line (body : List (BitVec 8)) : List (BitVec 8 × Bool) := unmarked preamble ++ marked body

def lines (payloads : List (List (BitVec 8))) : List (BitVec 8 × Bool) :=
  payloads.flatMap fun payload => line (frameBody payload)

theorem lines_append (xs ys : List (List (BitVec 8))) : lines (xs ++ ys) = lines xs ++ lines ys :=
  List.flatMap_append

theorem lines_singleton (payload : List (BitVec 8)) : lines [payload] = line (frameBody payload) :=
  List.flatMap_singleton _ _

theorem crcOf_append_singleton (crc : BitVec 32) (bytes : List (BitVec 8)) (b : BitVec 8) :
    crcOf crc (bytes ++ [b]) = crc32Next (crcOf crc bytes) b := crcOf_append

theorem nextIndex_eq {FIFO_DEPTH index : Nat} (h : index < FIFO_DEPTH) :
    nextIndex FIFO_DEPTH index = (index + 1) % FIFO_DEPTH := by
  unfold nextIndex
  split_ifs with hend
  · rw [show index + 1 = FIFO_DEPTH by omega, Nat.mod_self]
  · rw [Nat.mod_eq_of_lt (by omega)]

/-- `tx_count_reg` and `rx_count_reg` after a clock. -/
theorem countNext_eq {pop push : Bool} {count : Nat} (hpop : pop → 0 < count) :
    (if (push && !pop) = true then count + 1 else if (!push && pop) = true then count - 1
      else count) = count - pop.toNat + push.toNat := by
  cases pop <;> cases push
  · rfl
  · rfl
  · rfl
  · have := hpop rfl
    show count = count - 1 + 1
    omega

theorem update_pair {α β : Type*} (f : Nat → α) (g : Nat → β) (i : Nat) (a : α) (b : β) :
    (fun k => (Function.update f i a k, Function.update g i b k)) =
      Function.update (fun k => (f k, g k)) i (a, b) := by
  funext k
  by_cases hk : k = i
  · subst hk
    simp
  · simp [hk]

end EthGigMac

open EthGigMac

inductive LineMode
  | seek (preambleCount : Nat)
  | payload (bytes : List (BitVec 8))
  | drop

/-- The frames that passed their check, without the check sequence. -/
structure Deframer where
  mode : LineMode
  frames : List (List (BitVec 8))

namespace Deframer

variable (FIFO_DEPTH : Nat)

def take (d : Deframer) (b : BitVec 8 × Bool) : Deframer :=
  match d.mode with
  | .seek n =>
      if b.1 = 0x55 ∧ n < 7 then { d with mode := .seek (n + 1) }
      else if b.1 = 0xd5 ∧ 7 ≤ n then { d with mode := .payload [] }
      else if b.1 = 0x55 then { d with mode := .seek 1 }
      else { d with mode := .seek 0 }
  | .drop => if b.2 then { d with mode := .seek 0 } else d
  | .payload bytes =>
      let all := bytes ++ [b.1]
      if b.2 then
        if 64 ≤ all.length ∧ crcOf 0xffffffff all = ETHERNET_CRC_RESIDUE then
          ⟨.seek 0, d.frames ++ [all.take (all.length - 4)]⟩
        else { d with mode := .seek 0 }
      else if all.length = FIFO_DEPTH then { d with mode := .drop }
      else { d with mode := .payload all }

variable {FIFO_DEPTH} {frames : List (List (BitVec 8))}

theorem frames_take (d : Deframer) (b : BitVec 8 × Bool) :
    d.frames <+: (d.take FIFO_DEPTH b).frames := by
  unfold take
  split
  · split_ifs <;> exact List.prefix_rfl
  · split_ifs <;> exact List.prefix_rfl
  · dsimp only
    split_ifs
    · exact List.prefix_append _ _
    · exact List.prefix_rfl
    · exact List.prefix_rfl
    · exact List.prefix_rfl

theorem frames_foldl_take (d : Deframer) (bs : List (BitVec 8 × Bool)) :
    d.frames <+: (bs.foldl (take FIFO_DEPTH) d).frames := by
  induction bs generalizing d with
  | nil => exact List.prefix_rfl
  | cons b bs ih => exact (frames_take d b).trans (ih _)

/-- The rest of a frame that is not too long. -/
theorem foldl_take_marked {bytes body : List (BitVec 8)} (hbody : body ≠ [])
    (hlen : bytes.length + body.length ≤ FIFO_DEPTH) :
    (marked body).foldl (take FIFO_DEPTH) ⟨.payload bytes, frames⟩ =
      ⟨.seek 0, frames ++ if 64 ≤ (bytes ++ body).length ∧
          crcOf 0xffffffff (bytes ++ body) = ETHERNET_CRC_RESIDUE then
        [(bytes ++ body).take ((bytes ++ body).length - 4)] else []⟩ := by
  induction body generalizing bytes with
  | nil => exact absurd rfl hbody
  | cons b body ih =>
      cases body with
      | nil =>
          show take FIFO_DEPTH ⟨.payload bytes, frames⟩ (b, true) = _
          unfold take
          dsimp only
          rw [if_pos rfl]
          split_ifs
          · rfl
          · rw [List.append_nil]
      | cons c body =>
          have hmore : (bytes ++ [b]).length ≠ FIFO_DEPTH := by
            simp only [List.length_cons, List.length_append, List.length_nil] at hlen ⊢
            omega
          have hnext : take FIFO_DEPTH ⟨.payload bytes, frames⟩ (b, false) =
              ⟨.payload (bytes ++ [b]), frames⟩ := by
            unfold take
            dsimp only
            rw [if_neg Bool.false_ne_true, if_neg hmore]
          show (marked (c :: body)).foldl (take FIFO_DEPTH)
            (take FIFO_DEPTH ⟨.payload bytes, frames⟩ (b, false)) = _
          rw [hnext, ih (List.cons_ne_nil _ _) (by simp at hlen ⊢; omega), List.append_assoc]
          rfl

/-- A frame on the line comes out if its check is right. -/
theorem foldl_take_line {body : List (BitVec 8)} (hbody : 64 ≤ body.length)
    (hle : body.length ≤ FIFO_DEPTH) :
    (line body).foldl (take FIFO_DEPTH) ⟨.seek 0, frames⟩ =
      ⟨.seek 0, frames ++ if crcOf 0xffffffff body = ETHERNET_CRC_RESIDUE then
        [body.take (body.length - 4)] else []⟩ := by
  have hne : body ≠ [] := by
    rintro rfl
    simp at hbody
  have hstart : (unmarked preamble).foldl (take FIFO_DEPTH) ⟨.seek 0, frames⟩ =
      ⟨.payload [], frames⟩ := rfl
  unfold line
  rw [List.foldl_append, hstart, foldl_take_marked hne (by simpa using hle)]
  simp [hbody]

end Deframer

namespace MacRx

variable {FIFO_DEPTH : Nat} {s : MacRx} {i : MacRxInputs} {d : Deframer}
  {read : List (BitVec 8 × Bool)}

def held (s : MacRx) : List (BitVec 8) := (List.range s.rxFrameCount).map s.rxFrameData

/-- The bytes of a frame that are not copied. -/
def toCopy (s : MacRx) : List (BitVec 8) :=
  (List.range (s.rxPayloadCount - s.rxCopyIndex)).map fun k => s.rxFrameData (s.rxCopyIndex + k)

def queue (FIFO_DEPTH : Nat) (s : MacRx) : List (BitVec 8 × Bool) :=
  ring FIFO_DEPTH (fun k => (s.rxData k, s.rxLast k)) s.rxRd s.rxCount

def mode (s : MacRx) : LineMode :=
  match s.rxState with
  | .seek => .seek s.rxPreambleCount
  | .payload => .payload s.held
  | .copy => .seek 0
  | .drop => .drop

def left (s : MacRx) : List (BitVec 8 × Bool) :=
  if s.rxState = .copy then marked s.toCopy else []

/-- The registers after the bytes that `d` read, with the words `read` given out. -/
structure Follows (FIFO_DEPTH : Nat) (s : MacRx) (d : Deframer) (read : List (BitVec 8 × Bool)) :
    Prop where
  rd_lt : s.rxRd < FIFO_DEPTH
  count_le : s.rxCount ≤ FIFO_DEPTH
  wr : s.rxWr = (s.rxRd + s.rxCount) % FIFO_DEPTH
  mode : s.mode = d.mode
  payload : s.rxState = .payload → s.rxFrameCount < FIFO_DEPTH ∧ s.rxPreambleCount = 0 ∧
    s.rxCrc = crcOf 0xffffffff s.held
  copy : s.rxState = .copy → s.rxCopyIndex < s.rxPayloadCount ∧ s.rxPreambleCount = 0
  frames : read ++ (s.queue FIFO_DEPTH ++ s.left) = d.frames.flatMap marked

theorem follows_cleared (h : 0 < FIFO_DEPTH) (s : MacRx) :
    Follows FIFO_DEPTH s.cleared ⟨.seek 0, []⟩ [] where
  rd_lt := h
  count_le := Nat.zero_le _
  wr := (Nat.mod_eq_of_lt h).symm
  mode := rfl
  payload := nofun
  copy := nofun
  frames := rfl

theorem held_update (byte : BitVec 8) :
    (List.range (s.rxFrameCount + 1)).map
      (Function.update s.rxFrameData s.rxFrameCount byte) = s.held ++ [byte] := by
  unfold held
  rw [List.range_succ, List.map_append, List.map_singleton, Function.update_self]
  congr 1
  refine List.map_congr_left fun k hk => ?_
  exact Function.update_of_ne (Nat.ne_of_lt (List.mem_range.mp hk)) _ _

theorem length_held : s.held.length = s.rxFrameCount := by
  unfold held
  rw [List.length_map, List.length_range]

theorem Follows.byteIn (h : Follows FIFO_DEPTH s d read) (hcopy : s.rxState ≠ .copy)
    (hpromisc : i.promisc = true) :
    Follows FIFO_DEPTH (s.byteIn FIFO_DEPTH i s)
      (d.take FIFO_DEPTH (i.pcsRxData, i.pcsRxLast)) read := by
  have hmode := h.mode
  have hframes := h.frames
  have haccept : s.rxFrameAccept i = true := by
    unfold rxFrameAccept
    rw [if_pos hpromisc]
  unfold MacRx.mode at hmode
  unfold left at hframes
  rw [if_neg hcopy] at hframes
  -- only the registers of the frame that comes in change
  have hfollow : ∀ {n : MacRx} {d' : Deframer}, n.rxRd = s.rxRd → n.rxCount = s.rxCount →
      n.rxWr = s.rxWr → n.queue FIFO_DEPTH = s.queue FIFO_DEPTH → n.rxState ≠ .copy →
      n.mode = d'.mode → d'.frames = d.frames →
      (n.rxState = .payload → n.rxFrameCount < FIFO_DEPTH ∧ n.rxPreambleCount = 0 ∧
        n.rxCrc = crcOf 0xffffffff n.held) → Follows FIFO_DEPTH n d' read := by
    intro n d' hrd hcount hwr hqueue hn hmode' hsame hpayload
    refine ⟨hrd ▸ h.rd_lt, hcount ▸ h.count_le, by rw [hwr, hrd, hcount, h.wr], hmode', hpayload,
      fun hc => absurd hc hn, ?_⟩
    unfold left
    rw [if_neg hn, hqueue, hsame, hframes]
  unfold MacRx.byteIn Deframer.take
  cases hstate : s.rxState with
  | copy => exact absurd hstate hcopy
  | seek =>
      rw [hstate] at hmode
      rw [← hmode]
      dsimp only
      split_ifs with h₁ h₂ h₃
      · exact hfollow rfl rfl rfl rfl nofun rfl rfl nofun
      · exact hfollow rfl rfl rfl rfl nofun rfl rfl
          (fun _ => ⟨Nat.lt_of_le_of_lt (Nat.zero_le _) h.rd_lt, rfl, rfl⟩)
      · exact hfollow rfl rfl rfl rfl nofun rfl rfl nofun
      · exact hfollow rfl rfl rfl rfl nofun rfl rfl nofun
  | drop =>
      rw [hstate] at hmode
      rw [← hmode]
      dsimp only
      split_ifs
      · exact hfollow rfl rfl rfl rfl nofun rfl rfl nofun
      · exact hfollow rfl rfl rfl rfl hcopy (by simp [MacRx.mode, hstate, ← hmode]) rfl
          (by simp [hstate])
  | payload =>
      obtain ⟨hlt, hpreamble, hcrc⟩ := h.payload hstate
      have hall := held_update (s := s) i.pcsRxData
      have hnext : crc32Next s.rxCrc i.pcsRxData = crcOf 0xffffffff (s.held ++ [i.pcsRxData]) := by
        rw [crcOf_append_singleton, hcrc]
      have hlen : (s.held ++ [i.pcsRxData]).length = s.rxFrameCount + 1 := by
        rw [List.length_append, length_held]
        rfl
      rw [hstate] at hmode
      rw [← hmode]
      dsimp only
      rw [hlen, ← hnext]
      cases hlast : i.pcsRxLast with
      | false =>
          by_cases hend : s.rxFrameCount + 1 = FIFO_DEPTH
          · simp only [hend, and_self, if_true, Bool.false_eq_true, if_false]
            exact hfollow rfl rfl rfl rfl nofun rfl rfl nofun
          · simp only [hend, false_and, Bool.false_eq_true, if_false]
            refine hfollow rfl rfl rfl rfl nofun ?_ rfl fun _ => ?_
            · exact congrArg LineMode.payload hall
            · exact ⟨by show s.rxFrameCount + 1 < _; omega, hpreamble, hnext.trans (congrArg _ hall.symm)⟩
      | true =>
          simp only [Bool.true_eq_false, and_false, if_false, if_true, haccept, and_true]
          split_ifs with hgood
          · -- the frame is complete, and stands in the frame memory
            refine ⟨h.rd_lt, h.count_le, h.wr, rfl, by simp, fun _ => ?_, ?_⟩
            · exact ⟨by show 0 < s.rxFrameCount + 1 - 4; omega, hpreamble⟩
            · rw [List.flatMap_append, ← hframes, List.append_nil, List.append_assoc,
                List.flatMap_singleton]
              show read ++ (s.queue FIFO_DEPTH ++ marked ((List.range (s.rxFrameCount + 1 - 4)).map
                fun k => Function.update s.rxFrameData s.rxFrameCount i.pcsRxData (0 + k))) = _
              rw [← hall, ← List.map_take, List.take_range, Nat.min_eq_left (Nat.sub_le _ _)]
              simp only [Nat.zero_add]
          · exact hfollow rfl rfl rfl rfl nofun rfl rfl nofun

theorem toCopy_cons (h : s.rxCopyIndex < s.rxPayloadCount) :
    s.toCopy = s.rxFrameData s.rxCopyIndex ::
      (List.range (s.rxPayloadCount - (s.rxCopyIndex + 1))).map
        fun k => s.rxFrameData (s.rxCopyIndex + 1 + k) := by
  unfold toCopy
  rw [show s.rxPayloadCount - s.rxCopyIndex = s.rxPayloadCount - (s.rxCopyIndex + 1) + 1 by omega,
    List.range_succ_eq_map, List.map_cons, List.map_map]
  congr 1
  refine List.map_congr_left fun k _ => ?_
  show s.rxFrameData (s.rxCopyIndex + (k + 1)) = _
  congr 1
  omega

/-- The word that is copied goes behind the queue. -/
theorem Follows.copied (h : Follows FIFO_DEPTH s d read) (hstate : s.rxState = .copy)
    (hroom : s.rxCount < FIFO_DEPTH) :
    Follows FIFO_DEPTH { s.copyOut FIFO_DEPTH s with rxCount := s.rxCount + 1 } d read := by
  obtain ⟨hlt, hpreamble⟩ := h.copy hstate
  have hframes := h.frames
  have hmode := h.mode
  unfold left at hframes
  unfold MacRx.mode at hmode
  rw [hstate] at hmode
  rw [if_pos hstate, toCopy_cons hlt, marked_cons] at hframes
  have hwr : nextIndex FIFO_DEPTH s.rxWr = (s.rxRd + (s.rxCount + 1)) % FIFO_DEPTH := by
    rw [h.wr, nextIndex_eq (Nat.mod_lt _ (by omega)), Nat.mod_add_mod, Nat.add_assoc]
  have hqueue : ∀ last, ring FIFO_DEPTH (fun k =>
        (Function.update s.rxData s.rxWr (s.rxFrameData s.rxCopyIndex) k,
          Function.update s.rxLast s.rxWr last k)) s.rxRd (s.rxCount + 1) =
      s.queue FIFO_DEPTH ++ [(s.rxFrameData s.rxCopyIndex, last)] := by
    intro last
    rw [update_pair, h.wr]
    exact ring_push hroom _
  unfold copyOut
  by_cases hlast : s.rxPayloadCount ≤ s.rxCopyIndex + 1
  · rw [Nat.sub_eq_zero_of_le hlast] at hframes
    simp only [hlast, decide_true, if_true]
    refine ⟨h.rd_lt, hroom, hwr, ?_, nofun, nofun, ?_⟩
    · exact (congrArg LineMode.seek hpreamble).trans hmode
    · show read ++ (ring FIFO_DEPTH _ s.rxRd (s.rxCount + 1) ++ []) = _
      rw [hqueue, List.append_nil]
      exact hframes
  · simp only [hlast, decide_false, Bool.false_eq_true, if_false]
    refine ⟨h.rd_lt, hroom, hwr, ?_, ?_, fun _ => ⟨?_, hpreamble⟩, ?_⟩
    · unfold MacRx.mode
      simp only [hstate]
      exact hmode
    · simp [hstate]
    · show s.rxCopyIndex + 1 < s.rxPayloadCount
      omega
    · have hmore : s.rxPayloadCount - (s.rxCopyIndex + 1) ≠ 0 := by omega
      have hempty : ((List.range (s.rxPayloadCount - (s.rxCopyIndex + 1))).map
          fun k => s.rxFrameData (s.rxCopyIndex + 1 + k)).isEmpty = false := by
        simp [hmore]
      rw [hempty] at hframes
      unfold queue left
      rw [if_pos hstate]
      show read ++ (ring FIFO_DEPTH _ s.rxRd (s.rxCount + 1) ++ _) = _
      rw [hqueue, List.append_assoc]
      exact hframes

theorem Follows.popped (h : Follows FIFO_DEPTH s d read) (hcount : 0 < s.rxCount) :
    Follows FIFO_DEPTH
      { s with rxRd := nextIndex FIFO_DEPTH s.rxRd, rxCount := s.rxCount - 1 } d
      (read ++ [(s.rxData s.rxRd, s.rxLast s.rxRd)]) := by
  obtain ⟨count, hsucc⟩ : ∃ count, s.rxCount = count + 1 := ⟨s.rxCount - 1, by omega⟩
  have hrd := nextIndex_eq h.rd_lt
  have hle := h.count_le
  have hframes := h.frames
  unfold queue at hframes
  rw [hsucc, ring_pop, Nat.mod_eq_of_lt h.rd_lt] at hframes
  rw [hsucc, hrd, Nat.add_sub_cancel]
  refine ⟨Nat.mod_lt _ (by omega), by show count ≤ FIFO_DEPTH; omega, ?_, h.mode, h.payload, h.copy, ?_⟩
  · show s.rxWr = ((s.rxRd + 1) % FIFO_DEPTH + count) % FIFO_DEPTH
    rw [h.wr, hsucc, Nat.mod_add_mod, Nat.add_assoc, Nat.add_comm 1]
  · rw [List.append_assoc]
    exact hframes

theorem byteIn_moved (rd count : Nat) :
    ({ s with rxRd := rd, rxCount := count } : MacRx).byteIn FIFO_DEPTH i
        { s with rxRd := rd, rxCount := count } =
      { s.byteIn FIFO_DEPTH i s with rxRd := rd, rxCount := count } := by
  have haccept : ({ s with rxRd := rd, rxCount := count } : MacRx).rxFrameAccept i =
      s.rxFrameAccept i := rfl
  unfold MacRx.byteIn
  rw [haccept]
  cases hstate : s.rxState
  · dsimp only
    split_ifs <;> simp
  · dsimp only
    split_ifs <;> rfl
  · simp [hstate]
  · dsimp only
    split_ifs
    · rfl
    · simp [hstate]

theorem copyOut_moved (rd count count' : Nat) :
    ({ ({ s with rxRd := rd, rxCount := count } : MacRx).copyOut FIFO_DEPTH
        { s with rxRd := rd, rxCount := count } with rxCount := count' } : MacRx) =
      { s.copyOut FIFO_DEPTH s with rxRd := rd, rxCount := count' } := by
  unfold copyOut
  dsimp only
  split_ifs <;> rfl

/-- A word that is read leaves the queue. -/
def afterPop (FIFO_DEPTH : Nat) (s : MacRx) (i : MacRxInputs) : MacRx :=
  { s with
    rxRd := if s.rxPop i then nextIndex FIFO_DEPTH s.rxRd else s.rxRd
    rxCount := s.rxCount - (s.rxPop i).toNat }

theorem pos_of_rxPop (h : s.rxPop i = true) : 0 < s.rxCount := by
  simp only [rxPop, rxValid, Bool.and_eq_true, decide_eq_true_eq] at h
  omega

/-- A clock takes a byte from the line, or copies one, after a word left the queue. -/
theorem work_eq (hreset : i.reset = false) :
    let p := s.afterPop FIFO_DEPTH i
    s.work FIFO_DEPTH i =
      if s.rxByteIn i then p.byteIn FIFO_DEPTH i p
      else if s.rxFifoPush FIFO_DEPTH then
        { p.copyOut FIFO_DEPTH p with rxCount := p.rxCount + 1 }
      else p := by
  intro p
  have hcount := @countNext_eq (s.rxPop i) (s.rxFifoPush FIFO_DEPTH) _ pos_of_rxPop
  have htaken : p.byteIn FIFO_DEPTH i p =
      { s.byteIn FIFO_DEPTH i s with rxRd := p.rxRd, rxCount := p.rxCount } := byteIn_moved _ _
  have hcopied : ({ p.copyOut FIFO_DEPTH p with rxCount := p.rxCount + 1 } : MacRx) =
      { s.copyOut FIFO_DEPTH s with rxRd := p.rxRd, rxCount := p.rxCount + 1 } :=
    copyOut_moved _ _ _
  unfold MacRx.work rxCountNext
  rw [hcount, hreset, htaken, hcopied]
  simp only [p, afterPop]
  cases hin : s.rxByteIn i with
  | false =>
      cases s.rxFifoPush FIFO_DEPTH <;> cases s.rxPop i
      · rfl
      · rfl
      · exact copyOut_moved s.rxRd s.rxCount _
      · rfl
  | true =>
      have hstay : s.rxFifoPush FIFO_DEPTH = false := by
        revert hin
        simp only [rxByteIn, pcsRxReady, rxFifoPush]
        cases s.rxState <;> simp
      rw [hstay]
      cases s.rxPop i
      · exact congrArg (fun n : MacRx => { n with rxCount := s.rxCount })
          (byteIn_moved s.rxRd s.rxCount)
      · rfl

theorem Follows.work (h : Follows FIFO_DEPTH s d read) (hreset : i.reset = false)
    (hpromisc : i.promisc = true) :
    Follows FIFO_DEPTH (s.work FIFO_DEPTH i)
      (if s.rxByteIn i then d.take FIFO_DEPTH (i.pcsRxData, i.pcsRxLast) else d)
      (read ++ if s.rxPop i then [(s.rxDataOut, s.rxLastOut)] else []) := by
  have hafter : Follows FIFO_DEPTH (s.afterPop FIFO_DEPTH i) d
      (read ++ if s.rxPop i then [(s.rxDataOut, s.rxLastOut)] else []) := by
    unfold afterPop
    cases hpopped : s.rxPop i with
    | false =>
        simp only [Bool.false_eq_true, if_false, List.append_nil]
        exact h
    | true => exact h.popped (pos_of_rxPop hpopped)
  rw [work_eq hreset]
  cases hin : s.rxByteIn i with
  | true =>
      have hcopy : (s.afterPop FIFO_DEPTH i).rxState ≠ .copy := by
        simp only [rxByteIn, pcsRxReady, Bool.and_eq_true, decide_eq_true_eq] at hin
        exact hin.2
      exact hafter.byteIn hcopy hpromisc
  | false =>
      cases hpush : s.rxFifoPush FIFO_DEPTH with
      | true =>
          simp only [rxFifoPush, Bool.and_eq_true, decide_eq_true_eq] at hpush
          have hle := h.count_le
          refine hafter.copied hpush.1 ?_
          show s.rxCount - (s.rxPop i).toNat < FIFO_DEPTH
          omega
      | false => exact hafter

/-- Clocks until a frame that came in is copied and read, or more. -/
def copying (s : MacRx) : Nat :=
  match s.rxState with
  | .payload => 2 * s.rxFrameCount
  | .copy => 2 * (s.rxPayloadCount - s.rxCopyIndex)
  | _ => 0

def toDo (s : MacRx) : Nat := s.rxCount + s.copying

theorem toDo_byteIn (hcopy : s.rxState ≠ .copy) :
    (s.byteIn FIFO_DEPTH i s).toDo ≤ s.toDo + 2 := by
  unfold MacRx.byteIn toDo copying
  cases hstate : s.rxState
  · dsimp only
    split_ifs <;> simp
  · dsimp only
    split_ifs <;> simp [restart] <;> omega
  · exact absurd hstate hcopy
  · dsimp only
    split_ifs <;> simp [restart, hstate]

theorem copying_copyOut (hstate : s.rxState = .copy) (hlt : s.rxCopyIndex < s.rxPayloadCount) :
    (s.copyOut FIFO_DEPTH s).copying + 2 = s.copying := by
  unfold copyOut copying
  rw [hstate]
  by_cases hlast : s.rxPayloadCount ≤ s.rxCopyIndex + 1
  · simp only [hlast, decide_true, if_true]
    omega
  · simp only [hlast, decide_false, Bool.false_eq_true, if_false]
    omega

theorem Follows.toDo_work (h : Follows FIFO_DEPTH s d read) (hreset : i.reset = false)
    (hready : i.rxReady = true) :
    (s.work FIFO_DEPTH i).toDo + (if s.rxState = .copy ∨ s.rxCount ≠ 0 then 1 else 0) ≤
      s.toDo + 2 * (s.rxByteIn i).toNat := by
  have hpop : (s.rxPop i).toNat = if s.rxCount = 0 then 0 else 1 := by
    unfold rxPop rxValid
    rw [hready]
    by_cases hcount : s.rxCount = 0 <;> simp [hcount]
  have hafter : (s.afterPop FIFO_DEPTH i).toDo + (s.rxPop i).toNat = s.toDo := by
    show s.rxCount - (s.rxPop i).toNat + s.copying + (s.rxPop i).toNat = s.rxCount + s.copying
    rw [hpop]
    split_ifs <;> omega
  rw [work_eq hreset]
  cases hin : s.rxByteIn i with
  | true =>
      have hcopy : s.rxState ≠ .copy := by
        simp only [rxByteIn, pcsRxReady, Bool.and_eq_true, decide_eq_true_eq] at hin
        exact hin.2
      have hle : ((s.afterPop FIFO_DEPTH i).byteIn FIFO_DEPTH i (s.afterPop FIFO_DEPTH i)).toDo ≤ _ :=
        toDo_byteIn hcopy
      simp only [hcopy, false_or, if_true, Bool.toNat_true]
      split_ifs at hpop ⊢ <;> first | contradiction | omega
  | false =>
      cases hpush : s.rxFifoPush FIFO_DEPTH with
      | true =>
          simp only [rxFifoPush, Bool.and_eq_true, decide_eq_true_eq] at hpush
          have hcopied := @copying_copyOut FIFO_DEPTH (s.afterPop FIFO_DEPTH i) hpush.1
            (h.copy hpush.1).1
          simp only [hpush.1, true_or, if_true, Bool.false_eq_true, if_false, Bool.toNat_false]
          show (s.afterPop FIFO_DEPTH i).rxCount + 1 +
            ((s.afterPop FIFO_DEPTH i).copyOut FIFO_DEPTH (s.afterPop FIFO_DEPTH i)).copying + 1 ≤ _
          have hsplit : (s.afterPop FIFO_DEPTH i).toDo = (s.afterPop FIFO_DEPTH i).rxCount +
            (s.afterPop FIFO_DEPTH i).copying := rfl
          omega
      | false =>
          have hstate : s.rxState = .copy → s.rxCount ≠ 0 := by
            intro hcopy hzero
            have hlt := h.rd_lt
            simp only [rxFifoPush, hcopy, decide_true, Bool.true_and, decide_eq_false_iff_not, ne_eq,
              not_not] at hpush
            omega
          simp only [Bool.false_eq_true, if_false, Bool.toNat_false]
          split_ifs with hmore
          · have hne : s.rxCount ≠ 0 := hmore.elim hstate id
            rw [if_neg hne] at hpop
            omega
          · omega

end MacRx

end CppHdl.Devices
