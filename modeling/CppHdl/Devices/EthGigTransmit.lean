import CppHdl.Devices.EthGigLine

/-!
# The transmit side of the Ethernet MAC

What is on the line is determined by the words that left the transmit queue. A frame is
begun when its first word waits in the queue, and pauses where the next word is late.
-/

namespace CppHdl.Devices

open EthGigMac

namespace MacTx

variable {FIFO_DEPTH : Nat} {s : MacTx} {i : MacTxInputs} {r : FrameReader (BitVec 8)}
  {out : List (BitVec 8 × Bool)}

def queue (FIFO_DEPTH : Nat) (s : MacTx) : List (BitVec 8 × Bool) :=
  ring FIFO_DEPTH (fun k => (s.txData k, s.txLast k)) s.txRd s.txCount

def waiting (s : MacTx) : List (BitVec 8 × Bool) :=
  if s.pcsTxValid then [(s.pcsTxData, s.pcsTxLast)] else []

/-- What is on the line, or waits for it, when the words that `r` read left the queue. -/
def Phase (s : MacTx) (r : FrameReader (BitVec 8)) (out : List (BitVec 8 × Bool)) : Prop :=
  match s.txState with
  | .idle => r.part = [] ∧ s.pcsTxValid = false ∧ out = lines r.done
  | .preamble => r.part = [] ∧ s.txPreambleIndex ≤ 7 ∧ s.txCrc = 0xffffffff ∧
      s.txPayloadLen = 0 ∧ out = lines r.done ++ unmarked (List.replicate s.txPreambleIndex 0x55)
  | .payload => s.txCrc = crcOf 0xffffffff r.part ∧
      s.txPayloadLen = BitVec.ofNat 32 r.part.length ∧
      out = lines r.done ++ unmarked (preamble ++ r.part)
  | .pad => r.part = [] ∧ ∃ done payload k, r.done = done ++ [payload] ∧
      payload.length + k < 60 ∧ s.txCrc = crcOf 0xffffffff (payload ++ List.replicate k 0) ∧
      s.txPayloadLen = BitVec.ofNat 32 (payload.length + k) ∧
      out = lines done ++ unmarked (preamble ++ (payload ++ List.replicate k 0))
  | .fcs => r.part = [] ∧ ∃ done payload, r.done = done ++ [payload] ∧ s.txFcsIndex < 4 ∧
      s.txFcs = fcsOf (pad payload) ∧ out = lines done ++
        unmarked (preamble ++ (pad payload ++ (fcsBytes (fcsOf (pad payload))).take s.txFcsIndex))
  | .ipg => r.part = [] ∧ s.txIpgCount < 12 ∧ out = lines r.done

/-- A word of the queue is read with the clock. -/
def taken (s : MacTx) : List (BitVec 8 × Bool) :=
  if s.txState = .payload ∧ s.txCount ≠ 0 then [(s.txData s.txRd, s.txLast s.txRd)] else []

theorem pad_of_le {payload : List (BitVec 8)} (h : 60 ≤ payload.length) : pad payload = payload := by
  unfold pad
  rw [Nat.sub_eq_zero_of_le h]
  exact List.append_nil _

theorem toNat_length {n : Nat} (h : n < 2 ^ 32) : (BitVec.ofNat 32 n).toNat = n := by
  rw [BitVec.toNat_ofNat]
  exact Nat.mod_eq_of_lt h

theorem ofNat_succ (n : Nat) : BitVec.ofNat 32 n + 1 = BitVec.ofNat 32 (n + 1) := by
  rw [BitVec.ofNat_add]
  rfl

/-- The framing of a clock, whatever the queue. -/
theorem Phase.frame (h : Phase s r out) (hpart : r.part.length + 1 < 2 ^ 32)
    (txData : Nat → BitVec 8) (txLast : Nat → Bool) (txWr : Nat) :
    let n := s.frame { s with txData := txData, txLast := txLast, txWr := txWr }
    Phase n (s.taken.foldl FrameReader.read r) (out ++ n.waiting) := by
  intro n
  cases hstate : s.txState with
  | idle =>
      simp only [Phase, hstate] at h
      obtain ⟨hr, -, rfl⟩ := h
      simp only [n, frame, hstate, taken, reduceCtorEq, false_and, if_false, List.foldl_nil]
      split_ifs
      · exact ⟨hr, Nat.zero_le _, rfl, rfl, rfl⟩
      · simp only [Phase, waiting]
        exact ⟨hr, trivial, List.append_nil _⟩
  | preamble =>
      simp only [Phase, hstate] at h
      obtain ⟨hr, hindex, hcrc, hlen, rfl⟩ := h
      simp only [n, frame, hstate, taken, reduceCtorEq, false_and, if_false, List.foldl_nil]
      split_ifs with hlt
      · simp only [Phase, waiting, if_true]
        refine ⟨hr, hlt, hcrc, hlen, ?_⟩
        rw [List.replicate_succ', unmarked_append, List.append_assoc]
        rfl
      · have hseven : s.txPreambleIndex = 7 := by omega
        simp only [Phase, waiting, if_true]
        refine ⟨by rw [hcrc, hr]; rfl, by rw [hlen, hr]; rfl, ?_⟩
        rw [hseven, hr, List.append_nil, List.append_assoc]
        rfl
  | payload =>
      simp only [Phase, hstate] at h
      obtain ⟨hcrc, hlen, rfl⟩ := h
      by_cases hcount : s.txCount = 0
      · simp only [n, frame, hstate, taken, hcount, ne_eq, not_true_eq_false, and_false, if_false,
          List.foldl_nil, Phase, waiting]
        exact ⟨hcrc, hlen, List.append_nil _⟩
      · have hbyte : ∀ rest, lines r.done ++ unmarked (preamble ++ r.part) ++
            (s.txData s.txRd, false) :: rest =
            lines r.done ++ unmarked (preamble ++ (r.part ++ [s.txData s.txRd])) ++ rest := by
          intro rest
          simp [unmarked]
        have hnext : crc32Next s.txCrc (s.txData s.txRd) =
            crcOf 0xffffffff (r.part ++ [s.txData s.txRd]) := by
          rw [crcOf_append_singleton, hcrc]
        have hlength : (r.part ++ [s.txData s.txRd]).length = r.part.length + 1 := List.length_append
        simp only [n, frame, hstate, taken, hcount, ne_eq, not_false_eq_true, and_self, if_true,
          List.foldl_cons, List.foldl_nil, emit, startFcs, hlen, ofNat_succ, toNat_length hpart,
          hnext, FrameReader.read]
        cases s.txLast s.txRd with
        | false =>
            simp only [Bool.false_eq_true, if_false, Phase, waiting, if_true]
            exact ⟨trivial, by rw [hlength], (hbyte []).trans (List.append_nil _)⟩
        | true =>
            simp only [if_true]
            split_ifs with hshort
            · simp only [Phase, waiting, if_true]
              refine ⟨trivial, r.done, _, 0, rfl, by rw [hlength]; exact hshort, ?_, ?_, ?_⟩
              · rw [List.replicate_zero, List.append_nil]
              · rw [hlength]
              · rw [List.replicate_zero, List.append_nil]
                exact (hbyte []).trans (List.append_nil _)
            · have hpad : pad (r.part ++ [s.txData s.txRd]) = r.part ++ [s.txData s.txRd] :=
                pad_of_le (by rw [hlength]; exact Nat.le_of_not_lt hshort)
              simp only [Phase, waiting, if_true]
              refine ⟨trivial, r.done, _, rfl, by omega, ?_, ?_⟩
              · rw [hpad]
                rfl
              · rw [hpad, List.take_zero, List.append_nil]
                exact (hbyte []).trans (List.append_nil _)
  | pad =>
      simp only [Phase, hstate] at h
      obtain ⟨hr, done, payload, k, hdone, hk, hcrc, hlen, rfl⟩ := h
      have hzeros : payload ++ List.replicate (k + 1) (0 : BitVec 8) = payload ++ List.replicate k 0 ++ [0] := by
        rw [List.replicate_succ', List.append_assoc]
      have hnext : crc32Next s.txCrc 0 =
          crcOf 0xffffffff (payload ++ List.replicate (k + 1) 0) := by
        rw [hzeros, crcOf_append_singleton, hcrc]
      have hbyte : lines done ++ unmarked (preamble ++ (payload ++ List.replicate k 0)) ++
          [(0, false)] =
          lines done ++ unmarked (preamble ++ (payload ++ List.replicate (k + 1) 0)) := by
        rw [hzeros]
        simp [unmarked]
      simp only [n, frame, hstate, taken, reduceCtorEq, false_and, if_false, List.foldl_nil, emit,
        startFcs, hlen, ofNat_succ, toNat_length (show payload.length + k + 1 < 2 ^ 32 by omega),
        hnext, ETHERNET_MIN_PAYLOAD_BYTES]
      split_ifs with hfull
      · have hpad : pad payload = payload ++ List.replicate (k + 1) 0 := by
          unfold pad ETHERNET_MIN_PAYLOAD_BYTES
          rw [show 60 - payload.length = k + 1 by omega]
        simp only [Phase, waiting, if_true]
        refine ⟨hr, done, payload, hdone, by omega, ?_, ?_⟩
        · rw [hpad]
          rfl
        · rw [hpad, List.take_zero, List.append_nil]
          exact hbyte
      · simp only [Phase, waiting, if_true]
        refine ⟨hr, done, payload, k + 1, hdone, by omega, rfl, rfl, hbyte⟩
  | fcs =>
      simp only [Phase, hstate] at h
      obtain ⟨hr, done, payload, hdone, hindex, hfcs, rfl⟩ := h
      simp only [n, frame, hstate, taken, reduceCtorEq, false_and, if_false, List.foldl_nil]
      have hget : (fcsBytes (fcsOf (pad payload)))[s.txFcsIndex]? =
          some ((fcsOf (pad payload)).extractLsb' (s.txFcsIndex * 8) 8) := by
        unfold fcsBytes
        rw [List.getElem?_map, List.getElem?_range hindex]
        rfl
      have htake := List.take_add_one (l := fcsBytes (fcsOf (pad payload))) (i := s.txFcsIndex)
      rw [hget, Option.toList_some] at htake
      split_ifs with hlast
      · simp only [Phase, waiting, if_true]
        refine ⟨hr, by omega, ?_⟩
        have hall : fcsBytes (fcsOf (pad payload)) =
            (fcsBytes (fcsOf (pad payload))).take s.txFcsIndex ++
              [(fcsOf (pad payload)).extractLsb' (s.txFcsIndex * 8) 8] := by
          rw [← htake, hlast]
          rfl
        have hline : line (frameBody payload) = unmarked (preamble ++
            (pad payload ++ (fcsBytes (fcsOf (pad payload))).take s.txFcsIndex)) ++
              [((fcsOf (pad payload)).extractLsb' (s.txFcsIndex * 8) 8, true)] := by
          unfold line frameBody
          conv_lhs => rw [hall]
          rw [← List.append_assoc (pad payload), marked_append_singleton, ← List.append_assoc,
            ← unmarked_append]
        rw [hdone, lines_append, lines_singleton, hfcs, hline, List.append_assoc, hlast]
        rfl
      · simp only [Phase, waiting, if_true]
        refine ⟨hr, done, payload, hdone, by omega, hfcs, ?_⟩
        rw [htake, hfcs]
        simp [unmarked, hlast]
  | ipg =>
      simp only [Phase, hstate] at h
      obtain ⟨hr, hcount, rfl⟩ := h
      simp only [n, frame, hstate, taken, reduceCtorEq, false_and, if_false, List.foldl_nil]
      split_ifs with hend
      · simp only [Phase, waiting]
        exact ⟨hr, trivial, List.append_nil _⟩
      · simp only [Phase, waiting]
        exact ⟨hr, by simp at hend ⊢; omega, List.append_nil _⟩

/-- The registers when the words that `r` read left the queue. -/
structure Transmits (FIFO_DEPTH : Nat) (s : MacTx) (r : FrameReader (BitVec 8))
    (out : List (BitVec 8 × Bool)) : Prop where
  rd_lt : s.txRd < FIFO_DEPTH
  count_le : s.txCount ≤ FIFO_DEPTH
  wr : s.txWr = (s.txRd + s.txCount) % FIFO_DEPTH
  phase : s.Phase r out
  started : s.txState = .preamble ∨ s.txState = .payload ∧ r.part = [] → s.txCount ≠ 0

theorem transmits_cleared (h : 0 < FIFO_DEPTH) (s : MacTx) :
    Transmits FIFO_DEPTH s.cleared .empty [] where
  rd_lt := h
  count_le := Nat.zero_le _
  wr := (Nat.mod_eq_of_lt h).symm
  phase := ⟨rfl, rfl, rfl⟩
  started := by simp [cleared]

/-- A frame that is under way has a word in the queue until its first one is read. -/
theorem Transmits.started_frame (h : Transmits FIFO_DEPTH s r out) (n : MacTx)
    (hstate : n.txState = s.txState)
    (hn : (s.frame n).txState = .preamble ∨ (s.frame n).txState = .payload ∧
      (s.taken.foldl FrameReader.read r).part = []) : s.txCount ≠ 0 ∧ s.taken = [] := by
  have htaken : s.txState ≠ .payload → s.taken = [] := fun hne => if_neg fun hp => hne hp.1
  cases hs : s.txState <;> rw [hs] at hstate
  · refine ⟨fun hzero => ?_, htaken (by simp [hs])⟩
    simp [frame, hs, hzero, hstate] at hn
  · exact ⟨h.started (.inl hs), htaken (by simp [hs])⟩
  · exfalso
    by_cases hzero : s.txCount = 0
    · have hpart : r.part ≠ [] := fun hpart => h.started (.inr ⟨hs, hpart⟩) hzero
      simp [frame, taken, hs, hzero, hstate, hpart] at hn
    · cases hlast : s.txLast s.txRd
      · simp [frame, taken, hs, hzero, hlast, hstate, emit, FrameReader.read] at hn
      · simp only [frame, hs, ne_eq, hzero, not_false_eq_true, if_true, hlast, emit, startFcs] at hn
        split_ifs at hn <;> simp at hn
  · simp only [frame, hs, emit, startFcs] at hn
    split_ifs at hn <;> simp [hstate] at hn
  · simp only [frame, hs] at hn
    split_ifs at hn <;> simp [hstate] at hn
  · simp only [frame, hs] at hn
    split_ifs at hn <;> simp [hstate] at hn

theorem frame_queue (n : MacTx) : (s.frame n).txData = n.txData ∧ (s.frame n).txLast = n.txLast ∧
    (s.frame n).txWr = n.txWr ∧ (s.frame n).txRd = n.txRd ∧ (s.frame n).txBytes = n.txBytes := by
  unfold frame
  cases s.txState <;> dsimp only <;> split_ifs <;> exact ⟨rfl, rfl, rfl, rfl, rfl⟩

/-- The word that leaves the queue with a clock. -/
def popped (s : MacTx) (i : MacTxInputs) : List (BitVec 8 × Bool) :=
  if s.txPopPayload i then [(s.txData s.txRd, s.txLast s.txRd)] else []

/-- The byte that the line takes with a clock. -/
def given (s : MacTx) (i : MacTxInputs) : List (BitVec 8 × Bool) :=
  if s.pcsTxValid && i.pcsTxReady then [(s.pcsTxData, s.pcsTxLast)] else []

def withPush (FIFO_DEPTH : Nat) (s : MacTx) (i : MacTxInputs) : MacTx :=
  { s with
    txData := if s.txPush FIFO_DEPTH i then Function.update s.txData s.txWr i.txData else s.txData
    txLast := if s.txPush FIFO_DEPTH i then Function.update s.txLast s.txWr i.txLast else s.txLast
    txWr := if s.txPush FIFO_DEPTH i then nextIndex FIFO_DEPTH s.txWr else s.txWr }

theorem work_eq (hreset : i.reset = false) :
    s.work FIFO_DEPTH i =
      { (if s.txCanEmit i then s.frame (s.withPush FIFO_DEPTH i) else s.withPush FIFO_DEPTH i) with
        txRd := if s.txPopPayload i then nextIndex FIFO_DEPTH s.txRd else s.txRd
        txBytes := if s.txPopPayload i then s.txBytes + 1 else s.txBytes
        txCount := s.txCountNext FIFO_DEPTH i } := by
  set n := s.withPush FIFO_DEPTH i with hn
  obtain ⟨-, -, -, hrd, hbytes⟩ := s.frame_queue n
  have hrd' : (s.frame n).txRd = s.txRd := hrd
  have hbytes' : (s.frame n).txBytes = s.txBytes := hbytes
  unfold MacTx.work
  have hpushed : (if s.txPush FIFO_DEPTH i = true then
      { s with
        txData := Function.update s.txData s.txWr i.txData
        txLast := Function.update s.txLast s.txWr i.txLast
        txWr := nextIndex FIFO_DEPTH s.txWr }
      else s) = n := by
    simp only [hn, withPush]
    cases s.txPush FIFO_DEPTH i <;> rfl
  rw [hpushed, hreset]
  cases s.txPopPayload i <;> cases s.txCanEmit i
  · rfl
  · simp [hrd', hbytes']
  · rfl
  · rfl

theorem Transmits.work {sent : List (BitVec 8 × Bool)}
    (h : Transmits FIFO_DEPTH s r (sent ++ s.waiting)) (hreset : i.reset = false)
    (hpart : r.part.length + 1 < 2 ^ 32) :
    Transmits FIFO_DEPTH (s.work FIFO_DEPTH i) ((s.popped i).foldl FrameReader.read r)
        (sent ++ s.given i ++ (s.work FIFO_DEPTH i).waiting) ∧
      s.queue FIFO_DEPTH ++ (if s.txPush FIFO_DEPTH i then [(i.txData, i.txLast)] else []) =
        s.popped i ++ (s.work FIFO_DEPTH i).queue FIFO_DEPTH := by
  have hpop : s.txPopPayload i = true → 0 < s.txCount := by
    simp only [txPopPayload, Bool.and_eq_true, decide_eq_true_eq]
    exact fun hp => Nat.pos_of_ne_zero hp.2
  have hpush : s.txPush FIFO_DEPTH i = true → s.txCount < FIFO_DEPTH := by
    have hle := h.count_le
    simp only [txPush, txReady, Bool.and_eq_true, decide_eq_true_eq]
    exact fun hp => Nat.lt_of_le_of_ne hle hp.2
  have hcount : s.txCountNext FIFO_DEPTH i =
      s.txCount - (s.txPopPayload i).toNat + (s.txPush FIFO_DEPTH i).toNat :=
    countNext_eq hpop
  have hpos : 0 < FIFO_DEPTH := Nat.lt_of_le_of_lt (Nat.zero_le _) h.rd_lt
  have hroom : s.txPush FIFO_DEPTH i = true →
      s.txCount < FIFO_DEPTH + (s.txPopPayload i).toNat :=
    fun hp => Nat.lt_of_lt_of_le (hpush hp) (Nat.le_add_right _ _)
  set n := s.withPush FIFO_DEPTH i with hn
  set f := if s.txCanEmit i then s.frame n else n with hf
  have hqueue : f.txData = n.txData ∧ f.txLast = n.txLast ∧ f.txWr = n.txWr := by
    obtain ⟨hdata, hlast, hwr, -, -⟩ := s.frame_queue n
    rw [hf]
    split_ifs
    · exact ⟨hdata, hlast, hwr⟩
    · exact ⟨rfl, rfl, rfl⟩
  -- what leaves the queue is what the framing reads
  have hstep : Phase f ((s.popped i).foldl FrameReader.read r) (sent ++ s.given i ++ f.waiting) ∧
      (f.txState = .preamble ∨ f.txState = .payload ∧
        ((s.popped i).foldl FrameReader.read r).part = [] →
          s.txCount ≠ 0 ∧ s.txPopPayload i = false) := by
    cases hemit : s.txCanEmit i with
    | true =>
        have hpopped : s.popped i = s.taken := by
          simp only [popped, taken, txPopPayload, hemit, Bool.true_and, Bool.and_eq_true,
            decide_eq_true_eq]
        have hgiven : s.given i = s.waiting := by
          revert hemit
          unfold given waiting txCanEmit
          cases s.pcsTxValid <;> cases i.pcsTxReady <;> simp
        rw [hf, hemit, if_pos rfl, hpopped, hgiven]
        refine ⟨h.phase.frame hpart _ _ _, fun hstarted => ?_⟩
        obtain ⟨hne, hnone⟩ := h.started_frame n rfl hstarted
        refine ⟨hne, ?_⟩
        rw [← hpopped, popped] at hnone
        cases hp : s.txPopPayload i with
        | false => rfl
        | true => simp [hp] at hnone
    | false =>
        have hpopped : s.txPopPayload i = false := by
          simp [txPopPayload, hemit]
        have hgiven : s.given i = [] := by
          revert hemit
          unfold given txCanEmit
          cases s.pcsTxValid <;> cases i.pcsTxReady <;> simp
        rw [hf, hemit, if_neg Bool.false_ne_true, hgiven, List.append_nil, popped, hpopped,
          if_neg Bool.false_ne_true]
        exact ⟨h.phase, fun hstarted => ⟨h.started hstarted, rfl⟩⟩
  rw [work_eq hreset]
  refine ⟨⟨?_, ?_, ?_, hstep.1, fun hstarted => ?_⟩, ?_⟩
  · show (if s.txPopPayload i then _ else _) < _
    rw [nextIndex_eq h.rd_lt]
    split_ifs
    · exact Nat.mod_lt _ hpos
    · exact h.rd_lt
  · have hle := h.count_le
    show s.txCountNext FIFO_DEPTH i ≤ _
    rw [hcount]
    cases hp : s.txPush FIFO_DEPTH i with
    | false => simp only [Bool.toNat_false]; omega
    | true => have := hpush hp; simp only [Bool.toNat_true]; omega
  · show f.txWr = ((if s.txPopPayload i then _ else _) + s.txCountNext FIFO_DEPTH i) % _
    rw [hqueue.2.2, nextIndex_eq h.rd_lt, hcount, ← ring_tail hpop, hn, ← h.wr]
    simp only [withPush, nextIndex_eq (h.wr ▸ Nat.mod_lt _ hpos : s.txWr < FIFO_DEPTH)]
  · obtain ⟨hne, hnone⟩ := hstep.2 hstarted
    show s.txCountNext FIFO_DEPTH i ≠ 0
    rw [hcount, hnone, Bool.toNat_false]
    omega
  · have hring := @ring_step _ FIFO_DEPTH (fun k => (s.txData k, s.txLast k)) s.txRd s.txCount _ _
      hpop hroom (i.txData, i.txLast)
    show s.queue FIFO_DEPTH ++ _ = s.popped i ++ ring FIFO_DEPTH (fun k => (f.txData k, f.txLast k))
      (if s.txPopPayload i then _ else _) (s.txCountNext FIFO_DEPTH i)
    have hcells : (fun k => (f.txData k, f.txLast k)) =
        if s.txPush FIFO_DEPTH i then Function.update (fun k => (s.txData k, s.txLast k))
          ((s.txRd + s.txCount) % FIFO_DEPTH) (i.txData, i.txLast)
        else fun k => (s.txData k, s.txLast k) := by
      rw [hqueue.1, hqueue.2.1, hn, ← h.wr, ← update_pair]
      unfold withPush
      cases s.txPush FIFO_DEPTH i <;> rfl
    rw [hcells, nextIndex_eq h.rd_lt, hcount]
    refine Eq.trans ?_ (hring.trans ?_)
    · cases s.txPush FIFO_DEPTH i <;> rfl
    · rw [Nat.mod_eq_of_lt h.rd_lt]
      congr 1
      unfold popped
      cases s.txPopPayload i <;> rfl

theorem unmarked_prefix_line {xs ys : List (BitVec 8)} (hys : ys ≠ []) :
    unmarked (preamble ++ xs) <+: line (xs ++ ys) := by
  unfold line
  rw [unmarked_append]
  exact (List.prefix_append_right_inj _).mpr (unmarked_prefix_marked hys)

theorem lines_mono {done payloads : List (List (BitVec 8))} (h : done <+: payloads) :
    lines done <+: lines payloads := by
  obtain ⟨rest, rfl⟩ := h
  rw [lines_append]
  exact List.prefix_append _ _

theorem lines_prefix_line {done payloads : List (List (BitVec 8))} {payload : List (BitVec 8)}
    {part : List (BitVec 8 × Bool)} (h : done ++ [payload] <+: payloads)
    (hpart : part <+: line (frameBody payload)) : lines done ++ part <+: lines payloads := by
  refine List.IsPrefix.trans ?_ (lines_mono h)
  rw [lines_append, lines_singleton]
  exact (List.prefix_append_right_inj _).mpr hpart

/-- What is on the line begins the frames that are pushed, as long as another one follows where
one is under way. -/
theorem Transmits.prefix_lines (h : Transmits FIFO_DEPTH s r out)
    {payloads : List (List (BitVec 8))} (hr : r.Reads payloads)
    (hmore : r.part = [] → s.txCount ≠ 0 → ∃ payload, r.done ++ [payload] <+: payloads) :
    out <+: lines payloads := by
  have hphase := h.phase
  have hfcs : ∀ w, fcsBytes w ≠ [] := by
    intro w hnil
    have := congrArg List.length hnil
    simp [fcsBytes] at this
  unfold Phase at hphase
  cases hstate : s.txState <;> rw [hstate] at hphase <;> dsimp only at hphase
  · rw [hphase.2.2]
    exact lines_mono hr.done
  · obtain ⟨hpart, hindex, -, -, rfl⟩ := hphase
    obtain ⟨payload, hnext⟩ := hmore hpart (h.started (.inl hstate))
    refine lines_prefix_line hnext ?_
    have hpre : List.replicate s.txPreambleIndex (0x55 : BitVec 8) <+: preamble := by
      unfold preamble
      rw [show 7 = s.txPreambleIndex + (7 - s.txPreambleIndex) by omega, ← List.replicate_append_replicate,
        List.append_assoc]
      exact List.prefix_append _ _
    exact (hpre.map _).trans (List.prefix_append _ _)
  · obtain ⟨-, -, rfl⟩ := hphase
    by_cases hpart : r.part = []
    · obtain ⟨payload, hnext⟩ := hmore hpart (h.started (.inr ⟨hstate, hpart⟩))
      refine lines_prefix_line hnext ?_
      rw [hpart, List.append_nil]
      exact List.prefix_append _ _
    · obtain ⟨rest, hrest, hnext⟩ := hr.part hpart
      refine lines_prefix_line hnext ?_
      unfold frameBody pad
      rw [List.append_assoc, List.append_assoc]
      exact unmarked_prefix_line (by simp [hrest])
  · obtain ⟨-, done, payload, k, hdone, hk, -, -, rfl⟩ := hphase
    refine lines_prefix_line (hdone ▸ hr.done) ?_
    unfold frameBody pad ETHERNET_MIN_PAYLOAD_BYTES
    rw [show 60 - payload.length = k + (60 - payload.length - k) by omega,
      ← List.replicate_append_replicate, ← List.append_assoc payload, List.append_assoc _ _ (fcsBytes _)]
    exact unmarked_prefix_line (by simp [hfcs])
  · obtain ⟨-, done, payload, hdone, hindex, -, rfl⟩ := hphase
    refine lines_prefix_line (hdone ▸ hr.done) ?_
    have hsplit : frameBody payload =
        pad payload ++ (fcsBytes (fcsOf (pad payload))).take s.txFcsIndex ++
          (fcsBytes (fcsOf (pad payload))).drop s.txFcsIndex := by
      rw [List.append_assoc, List.take_append_drop]
      rfl
    rw [hsplit]
    refine unmarked_prefix_line ?_
    rw [Ne, List.drop_eq_nil_iff]
    simp [fcsBytes]
    omega
  · rw [hphase.2.2]
    exact lines_mono hr.done

/-- Clocks until a frame that is under way has ended, paid for by its words. -/
def framing (s : MacTx) : Nat :=
  match s.txState with
  | .idle => 116
  | .preamble => 115 - s.txPreambleIndex
  | .payload => 105
  | .pad => 140 + (60 - s.txPayloadLen.toNat)
  | .fcs => 138 - s.txFcsIndex
  | .ipg => 132 - s.txIpgCount

def toDo (s : MacTx) : Nat := 100 * s.txCount + s.framing

/-- The framing goes on, unless it waits for a word. -/
theorem Phase.framing_frame (h : Phase s r out) (n : MacTx) (hn : n.txState = s.txState) :
    (s.frame n).framing +
        (if s.txCount = 0 ∧ (s.txState = .idle ∨ s.txState = .payload) then 0 else 1) ≤
      s.framing + 100 * s.taken.length := by
  cases hstate : s.txState <;> rw [hstate] at hn <;> simp only [Phase, hstate] at h <;>
    simp only [MacTx.framing, MacTx.frame, taken, hstate]
  · by_cases hcount : s.txCount = 0 <;> simp [hcount, hn]
  · obtain ⟨-, hindex, -⟩ := h
    split_ifs <;> simp [hn] <;> omega
  · by_cases hcount : s.txCount = 0
    · simp [hcount, hn]
    · simp only [hcount, ne_eq, not_false_eq_true, if_true, and_self, false_and, if_false, emit,
        startFcs]
      split_ifs <;> simp [hn]
      omega
  · obtain ⟨-, -, payload, k, -, hk, -, hlen', -⟩ := h
    have hnow : s.txPayloadLen.toNat = payload.length + k := by
      rw [hlen', toNat_length (by omega)]
    have hnext : (s.txPayloadLen + 1).toNat = payload.length + k + 1 := by
      rw [hlen', ofNat_succ, toNat_length (by omega)]
    simp only [emit, startFcs]
    split_ifs <;> simp [hn] <;> omega
  · obtain ⟨-, -, -, -, hindex, -⟩ := h
    split_ifs <;> simp [hn] <;> omega
  · obtain ⟨-, hcount, -⟩ := h
    simp only [ETHERNET_IPG_BYTES]
    split_ifs <;> simp [hn] <;> omega

theorem Transmits.toDo_work (h : Transmits FIFO_DEPTH s r out) (hreset : i.reset = false)
    (hready : i.pcsTxReady = true) :
    (s.work FIFO_DEPTH i).toDo +
        (if s.txCount = 0 ∧ (s.txState = .idle ∨ s.txState = .payload) then 0 else 1) ≤
      s.toDo + 100 * (s.txPush FIFO_DEPTH i).toNat := by
  have hemit : s.txCanEmit i = true := by
    simp [txCanEmit, hready]
  have hframing := h.phase.framing_frame (s.withPush FIFO_DEPTH i) rfl
  have hpop : s.txPopPayload i = true → 0 < s.txCount := by
    simp only [txPopPayload, Bool.and_eq_true, decide_eq_true_eq]
    exact fun hp => Nat.pos_of_ne_zero hp.2
  have htaken : s.taken.length = (s.txPopPayload i).toNat := by
    unfold taken txPopPayload
    rw [hemit]
    by_cases hstate : s.txState = .payload <;> by_cases hcount : s.txCount = 0 <;>
      simp [hstate, hcount]
  rw [work_eq hreset, hemit, if_pos rfl]
  show 100 * s.txCountNext FIFO_DEPTH i + (s.frame (s.withPush FIFO_DEPTH i)).framing + _ ≤ _
  have hcount : s.txCountNext FIFO_DEPTH i =
      s.txCount - (s.txPopPayload i).toNat + (s.txPush FIFO_DEPTH i).toNat := countNext_eq hpop
  rw [htaken] at hframing
  rw [hcount]
  unfold toDo
  cases hp : s.txPopPayload i with
  | false =>
      rw [hp, Bool.toNat_false] at hframing
      rw [Bool.toNat_false]
      omega
  | true =>
      have := hpop hp
      rw [hp, Bool.toNat_true] at hframing
      rw [Bool.toNat_true]
      omega

end MacTx

end CppHdl.Devices
