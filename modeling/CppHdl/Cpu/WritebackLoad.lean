import CppHdl.Cpu.WritebackMem

/-!
# What the memory writeback stage loads

A load's clocks in the stage are its stay: it begins after the clock in which the
load before it retired or in which there was none. The raw word is that of a
memory onto which the responses of the stay and then the forwarded stores are
written, so that nothing that arrived before the stay is in it.
-/

namespace CppHdl.Cpu.WritebackMem

open Beat

namespace Inputs

variable (i : Inputs)

/-- The load is still in the stage after the clock. -/
def stays : Bool := i.isLoad && !i.retire && !i.reset

/-- A response the load takes: to its address, or to a word of a split load. -/
def accepts : Bool :=
  i.dcacheReadValid &&
    if i.splitLoad then
      decide (i.dcacheReadAddr = i.splitLoadLowAddr) || decide (i.dcacheReadAddr = i.splitLoadHighAddr)
    else decide (i.dcacheReadAddr = i.aluResult)

def response : Beat := ⟨i.dcacheReadAddr, i.dcacheReadData, 15⟩

def store : Beat := ⟨i.dcacheWriteAddr, i.dcacheWriteData, i.dcacheWriteMask⟩

/-- A split load asks for the two words its bytes lie in. -/
def SplitPorts : Prop :=
  i.splitLoadLowAddr = i.aluResult - (i.aluResult &&& 3) ∧
    i.splitLoadHighAddr = i.splitLoadLowAddr + 4 ∧ i.aluResult &&& 3 ≠ 0

/-- The load of clock `c` is the one in the stage a clock later. -/
structure Continues (d c : Inputs) : Prop where
  state : d.state = c.state
  splitLoad : d.splitLoad = c.splitLoad
  ports : d.splitLoad = true → d.aluResult = c.aluResult ∧
    d.splitLoadLowAddr = c.splitLoadLowAddr ∧ d.splitLoadHighAddr = c.splitLoadHighAddr

end Inputs

/-- One load at a time: a load that does not retire is in the stage until it does
or is flushed. The history is newest first. -/
def OneLoad : List Inputs → Prop
  | d :: c :: history => (c.stays = true → d.isLoad = true → d.Continues c) ∧ OneLoad (c :: history)
  | _ => True

/-- The clocks of the load in the stage, newest first. -/
def stay (history : List Inputs) : List Inputs := history.takeWhile (·.stays)

/-- The responses a load takes in some clocks. -/
def accepted (clocks : List Inputs) : List Beat := (clocks.filter (·.accepts)).map (·.response)

/-- The stores that are forwarded after a history: the last two of those written
in an unbroken row of clocks, a repetition of the last one counting once. -/
def recent : List Inputs → List Beat
  | [] => []
  | i :: history =>
      if i.reset then []
      else if i.isStore then
        if (recent history).head? = some i.store then recent history
        else (i.store :: recent history).take 2
      else []

/-- The stores laid over a load that is assembled in clock `c`. -/
def forwarded (c : Inputs) (stores : List Beat) : List Beat :=
  if c.allowStoreForward then stores else []

/-- The raw word was assembled in a clock `c` of the stay, after a clock `d`: it is
the word at the load's address in a memory written by the responses of the stay
up to `d` and by the forwarded stores, whatever was in that memory before. -/
def Assembled (history : List Inputs) (raw : BitVec 32) : Prop :=
  ∃ after c d before, history = after ++ c :: d :: before ∧
    (∀ i ∈ after, i.stays = true) ∧ c.stays = true ∧ d.stays = true ∧
      ∀ mem, raw = wordAt (written (forwarded c (recent (d :: before)))
        (written (accepted (stay (d :: before))) mem)) d.aluResult

/-! ## The stores -/

theorem length_recent (history : List Inputs) : (recent history).length ≤ 2 := by
  induction history with
  | nil => exact Nat.zero_le _
  | cons i history ih =>
      unfold recent
      split_ifs
      · exact Nat.zero_le _
      · exact ih
      · rw [List.length_take]
        omega
      · exact Nat.zero_le _

structure SlotHolds (slot : ForwardSlot) (b : Beat) : Prop where
  valid : slot.valid = true
  addr : slot.addr = b.addr
  data : slot.data = b.data
  mask : slot.mask = b.mask
  byteAddr : ∀ lane, slot.byteAddr lane = b.addr + BitVec.ofNat 32 lane
  byteData : ∀ lane, slot.byteData lane = b.data.extractLsb' (8 * lane) 8
  byteValid : ∀ lane, slot.byteValid lane = b.mask.getLsbD lane

/-- A slot holds a store or nothing. -/
def SlotIs (slot : ForwardSlot) : Option Beat → Prop
  | some b => SlotHolds slot b
  | none => slot.valid = false ∧ ∀ lane, slot.byteValid lane = false

theorem slotHolds_slot (i : Inputs) : SlotHolds i.slot i.store :=
  ⟨rfl, rfl, rfl, rfl, fun _ => rfl, fun _ => rfl, fun _ => rfl⟩

theorem sameHead_iff {s : WritebackMem} {o : Option Beat} (h : SlotIs (s.storeForward 0) o)
    (i : Inputs) : s.sameHead i = true ↔ o = some i.store := by
  cases o with
  | none => simp [sameHead, h.1]
  | some b =>
      unfold sameHead
      rw [h.valid, h.addr, h.data, h.mask]
      simp only [Bool.true_and, Bool.and_eq_true, decide_eq_true_eq, Option.some.injEq]
      constructor
      · rintro ⟨⟨haddr, hdata⟩, hmask⟩
        cases b
        simp_all [Inputs.store]
      · rintro rfl
        exact ⟨⟨rfl, rfl⟩, rfl⟩

structure SlotsHold (s : WritebackMem) (stores : List Beat) : Prop where
  newer : SlotIs (s.storeForward 0) stores[0]?
  older : SlotIs (s.storeForward 1) stores[1]?

theorem SlotsHold.next {s : WritebackMem} {history : List Inputs}
    (h : SlotsHold s (recent history)) {i : Inputs} (hreset : i.reset = false) :
    SlotsHold { s with storeForward := s.storeForwardNext i } (recent (i :: history)) := by
  have hhead : (recent history).head? = (recent history)[0]? := by cases recent history <;> rfl
  unfold recent storeForwardNext
  rw [hreset, hhead]
  simp only [Bool.false_eq_true, if_false]
  cases hstore : i.isStore with
  | false =>
      simp only [Bool.false_eq_true, if_false]
      exact ⟨⟨rfl, fun _ => rfl⟩, ⟨rfl, fun _ => rfl⟩⟩
  | true =>
      simp only [if_true]
      have hsame := sameHead_iff h.newer i
      by_cases hnew : (recent history)[0]? = some i.store
      · rw [if_pos hnew]
        refine ⟨?_, ?_⟩
        · rw [hnew]
          exact slotHolds_slot i
        · simp only [hsame.mpr hnew]
          exact h.older
      · rw [if_neg hnew]
        have hdiffers : s.sameHead i = false := by
          rw [← Bool.not_eq_true, hsame]
          exact hnew
        refine ⟨slotHolds_slot i, ?_⟩
        simp only [hdiffers]
        have := h.newer
        rw [List.getElem?_take_of_lt (by omega), List.getElem?_cons_succ]
        exact this

theorem matchSlot_of_holds {slot : ForwardSlot} {b : Beat} (h : SlotHolds slot b)
    (mem : BitVec 32 → BitVec 8) (x : BitVec 32) :
    matchSlot slot x (mem x) = storeAt mem b.addr b.data b.mask x := by
  have hlane : ∀ j : Fin 4, x = b.addr + BitVec.ofNat 32 j ↔ (x - b.addr).toNat = j := by
    intro j
    have := j.isLt
    have hj : (BitVec.ofNat 32 j).toNat = j := by
      rw [BitVec.toNat_ofNat, Nat.mod_eq_of_lt (by omega)]
    constructor
    · rintro rfl
      rw [BitVec.add_comm, BitVec.add_sub_cancel, hj]
    · intro hx
      bv_omega
  have hfin : List.finRange 4 = [0, 1, 2, 3] := rfl
  unfold matchSlot storeAt
  simp only [hfin, List.foldl_cons, List.foldl_nil, h.byteAddr, h.byteData, h.byteValid, hlane]
  generalize (x - b.addr).toNat = k
  by_cases hk : k < 4
  · match k, hk with
    | 0, _ | 1, _ | 2, _ | 3, _ => simp
  · have h₀ : k ≠ 0 := by omega
    have h₁ : k ≠ 1 := by omega
    have h₂ : k ≠ 2 := by omega
    have h₃ : k ≠ 3 := by omega
    simp [hk, h₀, h₁, h₂, h₃]

theorem matchSlot_of_none {slot : ForwardSlot} (h : SlotIs slot none) (x : BitVec 32)
    (byte : BitVec 8) : matchSlot slot x byte = byte := by
  have hfin : List.finRange 4 = [0, 1, 2, 3] := rfl
  unfold matchSlot
  simp only [hfin, List.foldl_cons, List.foldl_nil, h.2]
  simp

theorem matchSlots {s : WritebackMem} {history : List Inputs} (h : SlotsHold s (recent history))
    (mem : BitVec 32 → BitVec 8) (x : BitVec 32) :
    matchSlot (s.storeForward 0) x (matchSlot (s.storeForward 1) x (mem x)) =
      written (recent history) mem x := by
  obtain ⟨hnewer, holder⟩ := h
  have hlen := length_recent history
  match hstores : recent history, hlen with
  | [], _ =>
      rw [hstores] at hnewer holder
      rw [matchSlot_of_none hnewer, matchSlot_of_none holder]
      rfl
  | [b], _ =>
      rw [hstores] at hnewer holder
      rw [matchSlot_of_none holder]
      exact matchSlot_of_holds hnewer mem x
  | [b, c], _ =>
      rw [hstores] at hnewer holder
      rw [matchSlot_of_holds holder mem x]
      exact matchSlot_of_holds hnewer _ x

/-! ## The responses -/

/-- What the word registers hold: the response of the clock before where the load
is not split, the newest responses to both words where it is. -/
structure Collected (s : WritebackMem) (history : List Inputs) : Prop where
  whole : s.loadDataValid = true → s.loadResultValid = false →
    ∃ d rest, history = d :: rest ∧ d.stays = true ∧ d.splitLoad = false ∧ d.accepts = true ∧
      d.dcacheReadData = s.loadData
  kind : ∀ d rest, history = d :: rest → d.stays = true → s.loadDataValid = true →
    d.splitLoad = false
  low : s.splitLoadLowValid = true → ∃ d rest, history = d :: rest ∧ d.stays = true ∧
    d.splitLoad = true ∧ (accepted (stay history)).find? (·.addr = d.splitLoadLowAddr) =
      some ⟨d.splitLoadLowAddr, s.splitLoadLow, 15⟩
  high : s.splitLoadHighValid = true → ∃ d rest, history = d :: rest ∧ d.stays = true ∧
    d.splitLoad = true ∧ (accepted (stay history)).find? (·.addr = d.splitLoadHighAddr) =
      some ⟨d.splitLoadHighAddr, s.splitLoadHigh, 15⟩

/-- Throughout a stay the ports of a split load are the same. -/
theorem stay_same {history : List Inputs} {d : Inputs} (h : OneLoad (d :: history))
    (hd : d.isLoad = true) : ∀ c ∈ stay history, c.splitLoad = d.splitLoad ∧
      (d.splitLoad = true → c.aluResult = d.aluResult ∧
        c.splitLoadLowAddr = d.splitLoadLowAddr ∧ c.splitLoadHighAddr = d.splitLoadHighAddr) := by
  induction history generalizing d with
  | nil => intro c hc; cases hc
  | cons e history ih =>
      intro c hc
      unfold stay at hc
      rw [List.takeWhile_cons] at hc
      split_ifs at hc with he
      · obtain ⟨hcontinues, hrest⟩ := h
        have hsame := hcontinues he hd
        have hload : e.isLoad = true := by
          simp only [Inputs.stays, Bool.and_eq_true] at he
          exact he.1.1
        rcases List.mem_cons.mp hc with rfl | hc'
        · refine ⟨hsame.splitLoad.symm, fun hsplit => ?_⟩
          obtain ⟨ha, hl, hh⟩ := hsame.ports hsplit
          exact ⟨ha.symm, hl.symm, hh.symm⟩
        · obtain ⟨hkind, hports⟩ := ih hrest hload c hc'
          refine ⟨hkind.trans hsame.splitLoad.symm, fun hsplit => ?_⟩
          obtain ⟨ha, hl, hh⟩ := hports (hsame.splitLoad ▸ hsplit)
          obtain ⟨ha', hl', hh'⟩ := hsame.ports hsplit
          exact ⟨ha.trans ha'.symm, hl.trans hl'.symm, hh.trans hh'.symm⟩
      · cases hc

/-- All responses a split load takes are whole words at its two addresses. -/
theorem accepted_split {clocks : List Inputs} {low high : BitVec 32}
    (h : ∀ c ∈ clocks, c.splitLoad = true ∧ c.splitLoadLowAddr = low ∧ c.splitLoadHighAddr = high) :
    ∀ b ∈ accepted clocks, (b.addr = low ∨ b.addr = high) ∧ b.mask = 15 := by
  intro b hb
  obtain ⟨c, hc, rfl⟩ := List.mem_map.mp hb
  obtain ⟨hmem, haccepts⟩ := List.mem_filter.mp hc
  obtain ⟨hsplit, rfl, rfl⟩ := h c hmem
  simp only [Inputs.accepts, hsplit, if_true, Bool.and_eq_true, Bool.or_eq_true,
    decide_eq_true_eq] at haccepts
  exact ⟨haccepts.2, rfl⟩

theorem toNat_eight_mul {x : BitVec 32} {m : Nat} (hx : x.toNat = m) (hm : m < 4) :
    (x * 8).toNat = 8 * m ∧ (32 - x * 8).toNat = 32 - 8 * m := by
  have : (x * 8).toNat = 8 * m := by
    rw [BitVec.toNat_mul, hx, show (8 : BitVec 32).toNat = 8 from rfl]
    omega
  refine ⟨this, ?_⟩
  rw [BitVec.toNat_sub, this, show (32 : BitVec 32).toNat = 32 from rfl]
  omega

/-- The bytes of two neighbouring words, shifted together. -/
theorem extractLsb'_shifted (low high : BitVec 32) {m k : Nat} (hm : 0 < m) (hm' : m < 4)
    (hk : k < 4) :
    ((low >>> (8 * m)) ||| (high <<< (32 - 8 * m))).extractLsb' (8 * k) 8 =
      if m + k < 4 then low.extractLsb' (8 * (m + k)) 8
      else high.extractLsb' (8 * (m + k - 4)) 8 := by
  apply BitVec.eq_of_getLsbD_eq
  intro j hj
  split_ifs with h
  · simp only [BitVec.getLsbD_extractLsb', BitVec.getLsbD_or, BitVec.getLsbD_ushiftRight,
      BitVec.getLsbD_shiftLeft, hj, decide_true, Bool.true_and]
    have hlt : 8 * k + j < 32 - 8 * m := by omega
    rw [show 8 * m + (8 * k + j) = 8 * (m + k) + j by omega]
    simp [hlt]
  · simp only [BitVec.getLsbD_extractLsb', BitVec.getLsbD_or, BitVec.getLsbD_ushiftRight,
      BitVec.getLsbD_shiftLeft, hj, decide_true, Bool.true_and]
    have hge : ¬ 8 * k + j < 32 - 8 * m := by omega
    have hlt : 8 * k + j < 32 := by omega
    rw [BitVec.getLsbD_of_ge low _ (by omega),
      show 8 * k + j - (32 - 8 * m) = 8 * (m + k - 4) + j by omega]
    simp [hge, hlt]

/-! ## Assembly -/

/-- A candidate is the word of a memory with the forwarded stores over it. -/
theorem loadCandidateRaw_eq {s : WritebackMem} {i : Inputs} {history : List Inputs}
    (hslots : SlotsHold s (recent history)) {mem : BitVec 32 → BitVec 8} {a : BitVec 32}
    (hbyte : ∀ lane, s.loadByteAddr lane = a + BitVec.ofNat 32 lane)
    (hraw : ∀ k < 4, (s.responseRaw i).extractLsb' (8 * k) 8 = mem (a + BitVec.ofNat 32 k)) :
    s.loadCandidateRaw i = wordAt (written (forwarded i (recent history)) mem) a := by
  have hlane : ∀ lane : Fin 4, (if i.allowStoreForward then
      matchSlot (s.storeForward 0) (s.loadByteAddr lane) (matchSlot (s.storeForward 1)
        (s.loadByteAddr lane) ((s.responseRaw i).extractLsb' (8 * lane) 8))
      else (s.responseRaw i).extractLsb' (8 * lane) 8) =
        written (forwarded i (recent history)) mem (a + BitVec.ofNat 32 lane) := by
    intro lane
    rw [hbyte, hraw lane lane.isLt]
    unfold forwarded
    split_ifs
    · exact matchSlots hslots mem _
    · rfl
  have hzero : a + BitVec.ofNat 32 (0 : Fin 4) = a := BitVec.add_zero a
  unfold loadCandidateRaw wordOfBytes wordAt
  simp only [hlane]
  rw [hzero]
  rfl

theorem accepted_cons_of_accepts {i : Inputs} (clocks : List Inputs) (h : i.accepts = true) :
    accepted (i :: clocks) = i.response :: accepted clocks := by
  unfold accepted
  rw [List.filter_cons_of_pos h, List.map_cons]

theorem accepted_cons_of_not {i : Inputs} (clocks : List Inputs) (h : i.accepts = false) :
    accepted (i :: clocks) = accepted clocks := by
  unfold accepted
  rw [List.filter_cons_of_neg (by simp [h])]

theorem stay_cons_of_stays {i : Inputs} (history : List Inputs) (h : i.stays = true) :
    stay (i :: history) = i :: stay history := by
  unfold stay
  rw [List.takeWhile_cons, if_pos h]

/-- The word of a load that is not split. -/
theorem responseRaw_whole {s : WritebackMem} {i d : Inputs} (hi : i.splitLoad = false)
    (hvalid : s.loadDataValid = true) (hstays : d.stays = true) (hd : d.splitLoad = false)
    (haccepts : d.accepts = true) (hdata : d.dcacheReadData = s.loadData) (rest : List Inputs)
    (mem : BitVec 32 → BitVec 8) {k : Nat} (hk : k < 4) :
    (s.responseRaw i).extractLsb' (8 * k) 8 =
      written (accepted (stay (d :: rest))) mem (d.aluResult + BitVec.ofNat 32 k) := by
  have haddr : d.dcacheReadAddr = d.aluResult := by
    simp only [Inputs.accepts, hd, Bool.false_eq_true, if_false, Bool.and_eq_true,
      decide_eq_true_eq] at haccepts
    exact haccepts.2
  rw [stay_cons_of_stays rest hstays, accepted_cons_of_accepts _ haccepts, written_cons]
  have hraw : s.responseRaw i = s.loadData := by simp [responseRaw, hi, hvalid]
  change _ = storeAt _ d.dcacheReadAddr d.dcacheReadData 15 _
  rw [hraw, haddr, storeAt_whole hk, hdata]

theorem responseRaw_split {s : WritebackMem} {i : Inputs} (hi : i.splitLoad = true)
    (hports : i.SplitPorts) (hlow : s.splitLoadLowValid = true)
    (hhigh : s.splitLoadHighValid = true) {beats : List Beat}
    (hbeats : ∀ b ∈ beats, (b.addr = i.splitLoadLowAddr ∨ b.addr = i.splitLoadHighAddr) ∧
      b.mask = 15)
    (hfindLow : beats.find? (·.addr = i.splitLoadLowAddr) =
      some ⟨i.splitLoadLowAddr, s.splitLoadLow, 15⟩)
    (hfindHigh : beats.find? (·.addr = i.splitLoadHighAddr) =
      some ⟨i.splitLoadHighAddr, s.splitLoadHigh, 15⟩)
    (mem : BitVec 32 → BitVec 8) {k : Nat} (hk : k < 4) :
    (s.responseRaw i).extractLsb' (8 * k) 8 =
      written beats mem (i.aluResult + BitVec.ofNat 32 k) := by
  obtain ⟨hlowAddr, hhighAddr, hcrosses⟩ := hports
  rw [hhighAddr] at hbeats hfindHigh
  have hlt : (i.aluResult &&& 3).toNat < 4 := by
    rw [BitVec.toNat_and]
    exact Nat.lt_of_le_of_lt Nat.and_le_right (by decide)
  have hpos : 0 < (i.aluResult &&& 3).toNat := by
    rw [Nat.pos_iff_ne_zero]
    exact fun h => hcrosses (BitVec.eq_of_toNat_eq h)
  obtain ⟨hshift, hback⟩ := toNat_eight_mul (rfl : (i.aluResult &&& 3).toNat = _) hlt
  have hraw : s.responseRaw i = (s.splitLoadLow >>> (8 * (i.aluResult &&& 3).toNat)) |||
      (s.splitLoadHigh <<< (32 - 8 * (i.aluResult &&& 3).toNat)) := by
    simp only [responseRaw, hi, if_true, splitLoadLowData, hlow, splitLoadHighData, hhigh,
      BitVec.ushiftRight_eq', BitVec.shiftLeft_eq', hshift, hback]
  rw [hraw, extractLsb'_shifted _ _ hpos hlt hk]
  have haddr : i.aluResult = i.splitLoadLowAddr + (i.aluResult &&& 3) := by
    rw [hlowAddr, BitVec.sub_add_cancel]
  generalize hm : (i.aluResult &&& 3).toNat = m at *
  have hmask : i.aluResult &&& 3 = BitVec.ofNat 32 m := by
    rw [← hm, BitVec.ofNat_toNat, BitVec.setWidth_eq]
  split_ifs with h
  · have hx : i.aluResult + BitVec.ofNat 32 k = i.splitLoadLowAddr + BitVec.ofNat 32 (m + k) := by
      rw [haddr, hmask, BitVec.add_assoc, BitVec.ofNat_add]
    rw [hx, written_of_find (.inl rfl) hbeats hfindLow mem h]
  · have hx : i.aluResult + BitVec.ofNat 32 k =
        i.splitLoadLowAddr + 4 + BitVec.ofNat 32 (m + k - 4) := by
      rw [haddr, hmask, BitVec.add_assoc, BitVec.add_assoc, ← BitVec.ofNat_add,
        show (4 : BitVec 32) = BitVec.ofNat 32 4 from rfl, ← BitVec.ofNat_add]
      congr 2
      omega
    rw [hx, written_of_find (.inr rfl) hbeats hfindHigh mem (by omega)]

/-! ## One clock -/

section Work

variable {s : WritebackMem} {i : Inputs}

theorem work_of_reset (h : i.reset = true) : s.work i = {} := by
  unfold work
  rw [if_pos h]

theorem storeForward_work (h : i.reset = false) :
    (s.work i).storeForward = s.storeForwardNext i := by
  unfold work
  simp only [h, Bool.false_eq_true, if_false]
  split_ifs <;> rfl

/-- Nothing is valid after a clock in which no load stays. -/
theorem work_of_not_stays (h : i.stays = false) :
    (s.work i).loadDataValid = false ∧ (s.work i).loadResultValid = false ∧
      (s.work i).splitLoadLowValid = false ∧ (s.work i).splitLoadHighValid = false := by
  cases hreset : i.reset with
  | true => rw [work_of_reset hreset]; exact ⟨rfl, rfl, rfl, rfl⟩
  | false =>
      have hgone : (i.retire || !i.isLoad) = true := by
        simp only [Inputs.stays, hreset, Bool.not_false, Bool.and_true] at h
        cases hload : i.isLoad <;> cases hretire : i.retire <;> simp_all
      unfold work
      simp [hreset, hgone]

theorem of_stays (h : i.stays = true) : i.isLoad = true ∧ i.retire = false ∧ i.reset = false := by
  simp only [Inputs.stays, Bool.and_eq_true, Bool.not_eq_true'] at h
  exact ⟨h.1.1, h.1.2, h.2⟩

/-- A clock in which a load stays. The result register is filled once, when the
words are held. -/
theorem work_of_stays (h : i.stays = true) :
    s.work i =
      { loadData := if !i.splitLoad && nonSplitCurrentValid i then i.dcacheReadData else s.loadData
        loadAddr := if !i.splitLoad && nonSplitCurrentValid i then i.dcacheReadAddr else s.loadAddr
        loadDataValid := s.loadDataValid || (!i.splitLoad && nonSplitCurrentValid i)
        loadRawResult := if !s.loadResultValid && s.held i then s.loadCandidateRaw i
          else s.loadRawResult
        loadResultValid := s.loadResultValid || s.held i
        splitLoadLow := if i.splitLoad && splitLoadCurrentLowValid i then i.dcacheReadData
          else s.splitLoadLow
        splitLoadHigh := if i.splitLoad && splitLoadCurrentHighValid i then i.dcacheReadData
          else s.splitLoadHigh
        splitLoadLowValid := s.splitLoadLowValid || (i.splitLoad && splitLoadCurrentLowValid i)
        splitLoadHighValid := s.splitLoadHighValid || (i.splitLoad && splitLoadCurrentHighValid i)
        storeForward := s.storeForwardNext i
        loadByteAddr := fun lane => i.aluResult + BitVec.ofNat 32 lane } := by
  obtain ⟨hload, hretire, hreset⟩ := of_stays h
  unfold work
  simp only [hload, hretire, hreset, Bool.false_eq_true, if_false, if_true, Bool.true_and,
    Bool.not_true, Bool.or_self]
  cases i.splitLoad <;> cases nonSplitCurrentValid i <;> cases splitLoadCurrentLowValid i <;>
    cases splitLoadCurrentHighValid i <;> cases s.loadResultValid <;> cases s.held i <;> simp

end Work

/-! ## The invariant -/

/-- What holds of the registers after a history. -/
structure Holds (history : List Inputs) (s : WritebackMem) : Prop where
  slots : SlotsHold s (recent history)
  collected : Collected s history
  byteAddr : ∀ d rest, history = d :: rest → d.stays = true →
    ∀ lane, s.loadByteAddr lane = d.aluResult + BitVec.ofNat 32 lane
  idle : (∀ d rest, history = d :: rest → d.stays = false) →
    s.loadDataValid = false ∧ s.loadResultValid = false ∧ s.splitLoadLowValid = false ∧
      s.splitLoadHighValid = false
  result : s.loadResultValid = true → Assembled history s.loadRawResult

theorem holds_nil : Holds [] {} where
  slots := ⟨⟨rfl, fun _ => rfl⟩, ⟨rfl, fun _ => rfl⟩⟩
  collected := ⟨fun h => absurd h Bool.false_ne_true, fun _ _ h => absurd h (List.cons_ne_nil _ _).symm,
    fun h => absurd h Bool.false_ne_true, fun h => absurd h Bool.false_ne_true⟩
  byteAddr _ _ h := absurd h (List.cons_ne_nil _ _).symm
  idle _ := ⟨rfl, rfl, rfl, rfl⟩
  result h := absurd h Bool.false_ne_true

theorem Holds.work_of_not_stays {history : List Inputs} {s : WritebackMem}
    (h : Holds history s) {i : Inputs} (hi : i.stays = false) :
    Holds (i :: history) (s.work i) := by
  obtain ⟨hdata, hresult, hlow, hhigh⟩ := WritebackMem.work_of_not_stays (s := s) hi
  refine ⟨?_, ⟨?_, ?_, ?_, ?_⟩, ?_, fun _ => ⟨hdata, hresult, hlow, hhigh⟩, ?_⟩
  · cases hreset : i.reset with
    | true =>
        rw [work_of_reset hreset]
        have hnone : recent (i :: history) = [] := by
          unfold recent
          rw [if_pos hreset]
        rw [hnone]
        exact holds_nil.slots
    | false =>
        obtain ⟨hnewer, holder⟩ := h.slots.next hreset
        rw [← storeForward_work hreset] at hnewer holder
        exact ⟨hnewer, holder⟩
  · exact fun h => absurd (hdata.symm.trans h) Bool.false_ne_true
  · exact fun _ _ _ _ h => absurd (hdata.symm.trans h) Bool.false_ne_true
  · exact fun h => absurd (hlow.symm.trans h) Bool.false_ne_true
  · exact fun h => absurd (hhigh.symm.trans h) Bool.false_ne_true
  · rintro d rest hd hstays
    obtain ⟨rfl, -⟩ := List.cons.inj hd
    rw [hi] at hstays
    cases hstays
  · exact fun h => absurd (hresult.symm.trans h) Bool.false_ne_true

theorem Holds.continues {history : List Inputs} {i : Inputs} (hone : OneLoad (i :: history))
    (hi : i.stays = true) {d : Inputs} {rest : List Inputs} (hd : history = d :: rest)
    (hstays : d.stays = true) : i.Continues d := by
  subst hd
  exact hone.1 hstays (of_stays hi).1

/-- The words that are held give the raw word. -/
theorem Holds.assembled {history : List Inputs} {s : WritebackMem} (h : Holds history s)
    {i : Inputs} (hone : OneLoad (i :: history)) (hports : i.splitLoad = true → i.SplitPorts)
    (hi : i.stays = true) (hresult : s.loadResultValid = false) (hheld : s.held i = true) :
    Assembled (i :: history) (s.loadCandidateRaw i) := by
  unfold held at hheld
  cases hsplit : i.splitLoad with
  | false =>
      rw [hsplit] at hheld
      simp only [Bool.false_eq_true, if_false] at hheld
      obtain ⟨d, rest, rfl, hd, hkind, haccepts, hdata⟩ := h.collected.whole hheld hresult
      refine ⟨[], i, d, rest, rfl, fun _ h => absurd h List.not_mem_nil, hi, hd, fun mem => ?_⟩
      exact loadCandidateRaw_eq h.slots (h.byteAddr d rest rfl hd) fun k hk =>
        responseRaw_whole hsplit hheld hd hkind haccepts hdata rest mem hk
  | true =>
      rw [hsplit] at hheld
      simp only [if_true, Bool.and_eq_true] at hheld
      obtain ⟨hlow, hhigh⟩ := hheld
      obtain ⟨d, rest, rfl, hd, hkind, hfindLow⟩ := h.collected.low hlow
      obtain ⟨d', rest', hd', -, -, hfindHigh⟩ := h.collected.high hhigh
      obtain ⟨rfl, rfl⟩ := List.cons.inj hd'
      have hcontinues := Holds.continues hone hi rfl hd
      obtain ⟨ha, hl, hh⟩ := hcontinues.ports hsplit
      have hstay := stay_same hone (of_stays hi).1
      have hclocks : ∀ c ∈ stay (d :: rest), c.splitLoad = true ∧
          c.splitLoadLowAddr = i.splitLoadLowAddr ∧ c.splitLoadHighAddr = i.splitLoadHighAddr := by
        intro c hc
        obtain ⟨hs, hp⟩ := hstay c hc
        obtain ⟨-, hl', hh'⟩ := hp hsplit
        exact ⟨hs.trans hsplit, hl', hh'⟩
      have hbeats := accepted_split hclocks
      rw [← hl] at hfindLow
      rw [← hh] at hfindHigh
      refine ⟨[], i, d, rest, rfl, fun _ h => absurd h List.not_mem_nil, hi, hd, fun mem => ?_⟩
      exact loadCandidateRaw_eq h.slots (h.byteAddr d rest rfl hd) fun k hk => by
        rw [← ha]
        exact responseRaw_split hsplit (hports hsplit) hlow hhigh hbeats hfindLow hfindHigh mem hk

/-- A valid word register belongs to the load that stays. -/
theorem Holds.splitLoad_of_loadData {history : List Inputs} {s : WritebackMem}
    (h : Holds history s) {i : Inputs} (hone : OneLoad (i :: history)) (hi : i.stays = true)
    (hvalid : s.loadDataValid = true) : i.splitLoad = false := by
  by_cases hnone : ∀ d rest, history = d :: rest → d.stays = false
  · exact absurd ((h.idle hnone).1.symm.trans hvalid) Bool.false_ne_true
  · push Not at hnone
    obtain ⟨d, rest, hd, hne⟩ := hnone
    have hstays := Bool.eq_true_of_not_eq_false hne
    rw [(Holds.continues hone hi hd hstays).splitLoad]
    exact h.collected.kind d rest hd hstays hvalid

theorem accepts_of_low {i : Inputs} (h : (i.splitLoad && splitLoadCurrentLowValid i) = true) :
    i.accepts = true ∧ i.dcacheReadAddr = i.splitLoadLowAddr := by
  simp only [splitLoadCurrentLowValid, Bool.and_eq_true, decide_eq_true_eq] at h
  obtain ⟨hsplit, hvalid, haddr⟩ := h
  exact ⟨by simp [Inputs.accepts, hsplit, hvalid, haddr], haddr⟩

theorem accepts_of_high {i : Inputs} (h : (i.splitLoad && splitLoadCurrentHighValid i) = true) :
    i.accepts = true ∧ i.dcacheReadAddr = i.splitLoadHighAddr := by
  simp only [splitLoadCurrentHighValid, Bool.and_eq_true, decide_eq_true_eq] at h
  obtain ⟨hsplit, hvalid, haddr⟩ := h
  exact ⟨by simp [Inputs.accepts, hsplit, hvalid, haddr], haddr⟩

/-- A clock whose response is not to an address leaves its newest response. -/
theorem find?_accepted_cons {i : Inputs} (clocks : List Inputs) {a : BitVec 32}
    (h : i.accepts = true → i.dcacheReadAddr ≠ a) :
    (accepted (i :: clocks)).find? (·.addr = a) = (accepted clocks).find? (·.addr = a) := by
  cases haccepts : i.accepts with
  | false => rw [accepted_cons_of_not _ haccepts]
  | true =>
      rw [accepted_cons_of_accepts _ haccepts, List.find?_cons]
      have hne : i.response.addr ≠ a := h haccepts
      simp [hne]

/-- A clock whose response is to an address holds its newest response. -/
theorem find?_accepted_self {i : Inputs} (clocks : List Inputs) (h : i.accepts = true) :
    (accepted (i :: clocks)).find? (·.addr = i.dcacheReadAddr) = some i.response := by
  rw [accepted_cons_of_accepts _ h, List.find?_cons]
  simp [Inputs.response]

theorem Holds.collected_work {history : List Inputs} {s : WritebackMem} (h : Holds history s)
    {i : Inputs} (hone : OneLoad (i :: history)) (hi : i.stays = true) :
    Collected (s.work i) (i :: history) := by
  rw [work_of_stays hi]
  refine ⟨fun hvalid hresult => ⟨i, history, rfl, hi, ?_⟩, fun d rest hd _ hvalid => ?_,
    fun hvalid => ⟨i, history, rfl, hi, ?_⟩, fun hvalid => ⟨i, history, rfl, hi, ?_⟩⟩
  · -- a word that was held already would have filled the result register
    have hnew : (!i.splitLoad && nonSplitCurrentValid i) = true := by
      rcases Bool.or_eq_true_iff.mp hvalid with hold | hnew
      · have hsplit := h.splitLoad_of_loadData hone hi hold
        simp [held, hsplit, hold] at hresult
      · exact hnew
    simp only [Bool.and_eq_true, Bool.not_eq_true', nonSplitCurrentValid, decide_eq_true_eq] at hnew
    obtain ⟨hsplit, hread, haddr⟩ := hnew
    refine ⟨hsplit, by simp [Inputs.accepts, hsplit, hread, haddr], ?_⟩
    simp [hsplit, nonSplitCurrentValid, hread, haddr]
  · obtain ⟨rfl, rfl⟩ := List.cons.inj hd
    rcases Bool.or_eq_true_iff.mp hvalid with hold | hnew
    · exact h.splitLoad_of_loadData hone hi hold
    · simp only [Bool.and_eq_true, Bool.not_eq_true'] at hnew
      exact hnew.1
  · rw [stay_cons_of_stays _ hi]
    cases hnew : (i.splitLoad && splitLoadCurrentLowValid i) with
    | true =>
        obtain ⟨haccepts, haddr⟩ := accepts_of_low hnew
        refine ⟨(Bool.and_eq_true_iff.mp hnew).1, ?_⟩
        rw [← haddr, find?_accepted_self _ haccepts]
        rfl
    | false =>
        simp only [hnew, Bool.or_false] at hvalid
        obtain ⟨d, rest, hd, hstays, hsplit, hfind⟩ := h.collected.low hvalid
        have hcontinues := Holds.continues hone hi hd hstays
        have hi' : i.splitLoad = true := hcontinues.splitLoad.trans hsplit
        refine ⟨hi', ?_⟩
        rw [find?_accepted_cons, (hcontinues.ports hi').2.1]
        · exact hfind
        · intro haccepts haddr
          simp only [Inputs.accepts, Bool.and_eq_true] at haccepts
          simp [hi', splitLoadCurrentLowValid, haccepts.1, haddr] at hnew
  · rw [stay_cons_of_stays _ hi]
    cases hnew : (i.splitLoad && splitLoadCurrentHighValid i) with
    | true =>
        obtain ⟨haccepts, haddr⟩ := accepts_of_high hnew
        refine ⟨(Bool.and_eq_true_iff.mp hnew).1, ?_⟩
        rw [← haddr, find?_accepted_self _ haccepts]
        rfl
    | false =>
        simp only [hnew, Bool.or_false] at hvalid
        obtain ⟨d, rest, hd, hstays, hsplit, hfind⟩ := h.collected.high hvalid
        have hcontinues := Holds.continues hone hi hd hstays
        have hi' : i.splitLoad = true := hcontinues.splitLoad.trans hsplit
        refine ⟨hi', ?_⟩
        rw [find?_accepted_cons, (hcontinues.ports hi').2.2]
        · exact hfind
        · intro haccepts haddr
          simp only [Inputs.accepts, Bool.and_eq_true] at haccepts
          simp [hi', splitLoadCurrentHighValid, haccepts.1, haddr] at hnew

theorem Assembled.cons {history : List Inputs} {raw : BitVec 32} (h : Assembled history raw)
    {i : Inputs} (hi : i.stays = true) : Assembled (i :: history) raw := by
  obtain ⟨after, c, d, before, rfl, hafter, hc, hd, hraw⟩ := h
  refine ⟨i :: after, c, d, before, rfl, fun x hx => ?_, hc, hd, hraw⟩
  rcases List.mem_cons.mp hx with rfl | hx'
  · exact hi
  · exact hafter x hx'

theorem Holds.work_of_stays {history : List Inputs} {s : WritebackMem} (h : Holds history s)
    {i : Inputs} (hone : OneLoad (i :: history)) (hports : i.splitLoad = true → i.SplitPorts)
    (hi : i.stays = true) : Holds (i :: history) (s.work i) := by
  obtain ⟨hload, -, hreset⟩ := of_stays hi
  refine ⟨?_, h.collected_work hone hi, ?_, fun hnone => ?_, ?_⟩
  · obtain ⟨hnewer, holder⟩ := h.slots.next hreset
    rw [← storeForward_work hreset] at hnewer holder
    exact ⟨hnewer, holder⟩
  · rintro d rest hd -
    obtain ⟨rfl, -⟩ := List.cons.inj hd
    rw [WritebackMem.work_of_stays hi]
    exact fun _ => rfl
  · exact absurd (hi.symm.trans (hnone i history rfl)) (Bool.false_ne_true ∘ Eq.symm)
  · rw [WritebackMem.work_of_stays hi]
    intro hvalid
    cases hresult : s.loadResultValid with
    | true =>
        have := (h.result hresult).cons hi
        simpa [hresult] using this
    | false =>
        simp only [hresult, Bool.false_or] at hvalid
        have := h.assembled hone hports hi hresult hvalid
        simpa [hresult, hvalid] using this

/-- The invariant holds along every history with one load at a time. -/
theorem holds_run {history : List Inputs} (hone : OneLoad history)
    (hports : ∀ c ∈ history, c.isLoad = true → c.splitLoad = true → c.SplitPorts) :
    Holds history (run history) := by
  induction history with
  | nil => exact holds_nil
  | cons i history ih =>
      have hbefore := ih (by cases history with | nil => trivial | cons c rest => exact hone.2)
        fun c hc => hports c (List.mem_cons_of_mem _ hc)
      cases hi : i.stays with
      | true => exact hbefore.work_of_stays hone (hports i List.mem_cons_self (of_stays hi).1) hi
      | false => exact hbefore.work_of_not_stays hi

/-! ## The result -/

/-- A halfword load from the last byte of a word. -/
def halfwordLoad : Inputs where
  state := { (default : State) with valid := true, wbOp := .mem, funct3 := 1 }
  aluResult := 0x103
  splitLoad := true
  splitLoadLowAddr := 0x100
  splitLoadHighAddr := 0x104

/-- The high word arrives first, then the low one with a store to its last byte. -/
def splitHistory : List Inputs :=
  [halfwordLoad,
    { halfwordLoad with
      dcacheReadValid := true
      dcacheReadAddr := 0x100
      dcacheReadData := 0x11223344
      dcacheWriteValid := true
      dcacheWriteAddr := 0x103
      dcacheWriteData := 0x99
      dcacheWriteMask := 1 },
    { halfwordLoad with
      dcacheReadValid := true
      dcacheReadAddr := 0x104
      dcacheReadData := 0x55667788 }]

/-- A clock, the number of the load in the stage and that of the load its response
answers. -/
structure Numbered where
  inputs : Inputs
  load : Nat
  owner : Nat

/-- A load has the number after that of the load before it, and responses answer
loads that have been in the stage. -/
def InOrder : List Numbered → Prop
  | d :: c :: history =>
      (d.load = if c.inputs.stays && d.inputs.isLoad then c.load else c.load + 1) ∧
        d.owner ≤ d.load ∧ InOrder (c :: history)
  | [d] => d.owner ≤ d.load
  | [] => True

/-- A load that is ready has had a response of its own. -/
def OwnResponses : Prop :=
  ∀ (history : List Numbered) (d : Numbered), InOrder (d :: history) →
    OneLoad ((d :: history).map (·.inputs)) →
    (∀ c ∈ history, c.inputs.isLoad = true → c.inputs.splitLoad = true → c.inputs.SplitPorts) →
    (run (history.map (·.inputs))).loadReady d.inputs = true →
      ∃ c ∈ history, c.inputs.dcacheReadValid = true ∧ c.owner = d.load

/-- A load of the word `0x100`. -/
def wordLoad : Inputs where
  state := { (default : State) with valid := true, wbOp := .mem, funct3 := 2 }
  aluResult := 0x100

def wordResponse : Inputs :=
  { wordLoad with dcacheReadValid := true, dcacheReadAddr := 0x100, dcacheReadData := 0xd1 }

/-- The load retires in its third clock; its response comes once more while the same
instruction is in the stage again. -/
def lateHistory : List Numbered :=
  [⟨wordLoad, 1, 0⟩, ⟨wordResponse, 1, 0⟩, ⟨{ wordLoad with retire := true }, 0, 0⟩,
    ⟨wordLoad, 0, 0⟩, ⟨wordResponse, 0, 0⟩]

end CppHdl.Cpu.WritebackMem
