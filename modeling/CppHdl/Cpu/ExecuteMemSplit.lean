import CppHdl.Cpu.ExecuteMem
import CppHdl.Lib.Alignment
import CppHdl.Lib.WordMemory

/-!
# Accesses and their requests

However long an access is stalled or held, the requests of a store write its bytes and no
others, and an access that crosses a cache line is two requests on its sides.
-/

namespace CppHdl.Cpu

/-! ## Accesses -/

/-- A store of a byte, a half word or a word. -/
def State.IsStore (state : State) : Prop :=
  state.memOp = .store ∧ (state.funct3 = 0 ∨ state.funct3 = 1 ∨ state.funct3 = 2)

/-- A load of a byte, a half word or a word. -/
def State.IsLoad (state : State) : Prop :=
  state.memOp = .load ∧ (state.funct3 = 0 ∨ state.funct3 = 1 ∨ state.funct3 = 2 ∨
    state.funct3 = 4 ∨ state.funct3 = 5)

instance (state : State) : Decidable state.IsStore := by unfold State.IsStore; infer_instance

/-- An access crosses a cache line. -/
def Crosses (addr : BitVec 32) (size : Nat) : Prop := 32 < addr.toNat % 32 + size

instance (addr : BitVec 32) (size : Nat) : Decidable (Crosses addr size) := by
  unfold Crosses
  infer_instance

/-- The first byte of the aligned word of an address. -/
def wordOf (addr : BitVec 32) : BitVec 32 := addr &&& ~~~3

theorem toNat_wordOf (addr : BitVec 32) : (wordOf addr).toNat = addr.toNat / 4 * 4 :=
  toNat_clearLow (k := 2) addr (by decide)

theorem toNat_and_low (addr : BitVec 32) {k : Nat} (hk : k ≤ 32) :
    (addr &&& BitVec.ofNat 32 (2 ^ k - 1)).toNat = addr.toNat % 2 ^ k := by
  have hlt : 2 ^ k - 1 < 2 ^ 32 := by
    have := Nat.pow_le_pow_right (n := 2) (by decide) hk
    have hpos := Nat.two_pow_pos k
    omega
  rw [BitVec.toNat_and, BitVec.toNat_ofNat, Nat.mod_eq_of_lt hlt, Nat.and_two_pow_sub_one_eq_mod]

/-- An instruction that the memory stage takes in a clock. -/
structure ExecuteMem.Takes (s : ExecuteMem) (i : ExecuteMemInputs) : Prop where
  reset : i.reset = false
  memStall : i.memStall = false
  hold : i.hold = false
  memSplitPending : s.memSplitPending = false
  atomicPending : s.atomicPending = false
  valid : i.state.valid = true
  amoOp : i.state.amoOp = .amonone
  aluResult : i.aluResult = i.state.rs1Val + i.state.imm

section

variable {state : State}

theorem memSize_cases (hamo : state.amoOp = .amonone) (h : state.IsStore ∨ state.IsLoad) :
    memSize state = 1 ∨ memSize state = 2 ∨ memSize state = 4 := by
  unfold memSize
  rw [if_neg (fun hne => hne hamo)]
  rcases h with ⟨-, hfunct⟩ | ⟨-, hfunct⟩
  · rcases hfunct with hfunct | hfunct | hfunct
    · simp [hfunct]
    · simp [hfunct]
    · simp [hfunct]
  · rcases hfunct with hfunct | hfunct | hfunct | hfunct | hfunct
    · simp [hfunct]
    · simp [hfunct]
    · simp [hfunct]
    · simp [hfunct]
    · simp [hfunct]

/-- The low bits of the operands decide whether an access is split. -/
theorem memSplit_iff (hvalid : state.valid = true) (hamo : state.amoOp = .amonone)
    (h : state.IsStore ∨ state.IsLoad) :
    memSplit state = true ↔ Crosses (state.rs1Val + state.imm) (memSize state).toNat := by
  have hmem : (decide (state.memOp = .load) || decide (state.memOp = .store)) = true := by
    rcases h with h | h
    · simp [h.1]
    · simp [h.1]
  have hsize := memSize_cases hamo h
  have hoffset : (((state.rs1Val &&& 0x1f) + (state.imm &&& 0x1f)) &&& 0x1f).toNat =
      (state.rs1Val + state.imm).toNat % 32 := by
    have hlow : ∀ x : BitVec 32, (x &&& 0x1f).toNat = x.toNat % 32 := fun x =>
      toNat_and_low x (k := 5) (by decide)
    rw [hlow, BitVec.toNat_add, hlow, hlow, BitVec.toNat_add]
    omega
  unfold memSplit Crosses
  dsimp only
  rw [hvalid, hmem, hamo, decide_eq_true rfl, Bool.true_and, Bool.true_and, Bool.true_and,
    Bool.and_eq_true, decide_eq_true_iff, decide_eq_true_iff, gt_iff_lt, BitVec.lt_def,
    BitVec.toNat_add, hoffset]
  rcases hsize with hsize | hsize | hsize
  · rw [hsize]
    simp
    omega
  · rw [hsize]
    simp
    omega
  · rw [hsize]
    simp
    omega

/-- How far an access that crosses a line is from its aligned word, and its size. -/
theorem crosses_cases {addr : BitVec 32}
    (hsize : memSize state = 1 ∨ memSize state = 2 ∨ memSize state = 4)
    (h : Crosses addr (memSize state).toNat) :
    (addr &&& 3 = 3#32 ∧ memSize state = 2#32) ∨ (addr &&& 3 = 1#32 ∧ memSize state = 4#32) ∨
      (addr &&& 3 = 2#32 ∧ memSize state = 4#32) ∨ (addr &&& 3 = 3#32 ∧ memSize state = 4#32) := by
  have hlow : ∀ o : Nat, o < 4 → addr.toNat % 4 = o → addr &&& 3 = BitVec.ofNat 32 o := by
    intro o ho hmod
    apply BitVec.eq_of_toNat_eq
    rw [show addr &&& 3 = addr &&& BitVec.ofNat 32 (2 ^ 2 - 1) from rfl, toNat_and_low _ (by decide),
      BitVec.toNat_ofNat]
    omega
  unfold Crosses at h
  rcases hsize with hsize | hsize | hsize
  · rw [hsize] at h
    simp at h
    omega
  · rw [hsize] at h
    simp at h
    exact .inl ⟨hlow 3 (by decide) (by omega), hsize⟩
  · rw [hsize] at h
    simp at h
    have hcases : addr.toNat % 4 = 1 ∨ addr.toNat % 4 = 2 ∨ addr.toNat % 4 = 3 := by omega
    rcases hcases with hmod | hmod | hmod
    · exact .inr (.inl ⟨hlow 1 (by decide) hmod, hsize⟩)
    · exact .inr (.inr (.inl ⟨hlow 2 (by decide) hmod, hsize⟩))
    · exact .inr (.inr (.inr ⟨hlow 3 (by decide) hmod, hsize⟩))

end

namespace ExecuteMem

/-! ## Requests -/

structure WriteRequest where
  addr : BitVec 32
  data : BitVec 32
  mask : BitVec 8

def writes (s : ExecuteMem) : List WriteRequest :=
  if s.memWrite then [⟨s.memAddr, s.memData, s.memMask⟩] else []

def reads (s : ExecuteMem) : List (BitVec 32) := if s.memRead then [s.memAddr] else []

/-- What the write request does to a memory. -/
def effect (mem : BitVec 32 → BitVec 8) (s : ExecuteMem) : BitVec 32 → BitVec 8 :=
  s.writes.foldl (fun mem r => storeAt mem r.addr r.data r.mask) mem

/-- The request writes bytes of a store, and stays in a line. -/
def WriteRequest.Within (r : WriteRequest) (addr data : BitVec 32) (size : Nat) : Prop :=
  ∀ k < 4, r.mask.getLsbD k = true →
    (∃ n < size, r.addr + BitVec.ofNat 32 k = addr + BitVec.ofNat 32 n ∧
      r.data.extractLsb' (8 * k) 8 = data.extractLsb' (8 * n) 8) ∧
    (r.addr + BitVec.ofNat 32 k).toNat / 32 = r.addr.toNat / 32

def port (s : ExecuteMem) : ExecuteMem := { s with reservationValid := false }

theorem writes_of_port {s t : ExecuteMem} (h : s.port = t.port) : s.writes = t.writes := by
  change s.port.writes = t.port.writes
  rw [h]

theorem reads_of_port {s t : ExecuteMem} (h : s.port = t.port) : s.reads = t.reads := by
  change s.port.reads = t.port.reads
  rw [h]

/-- What a clock reads of the registers besides the reservation. -/
theorem pending_of_port {s t : ExecuteMem} (h : s.port = t.port) :
    s.atomicPending = t.atomicPending ∧ s.memSplitPending = t.memSplitPending ∧
      s.secondHalf.port = t.secondHalf.port := by
  refine ⟨?_, ?_, ?_⟩
  · change s.port.atomicPending = t.port.atomicPending
    rw [h]
  · change s.port.memSplitPending = t.port.memSplitPending
    rw [h]
  · change s.port.secondHalf = t.port.secondHalf
    rw [h]

theorem work_port (s : ExecuteMem) (i : ExecuteMemInputs) (hreset : i.reset = false) :
    (s.work i).port = (s.doMemory i).port := by
  unfold work
  simp only [hreset, Bool.false_eq_true, if_false]
  by_cases hlost : s.reservationLost i = true
  · rw [if_pos hlost]
    rfl
  · rw [if_neg hlost]

/-! ## After an access is taken -/

def presented (s : ExecuteMem) : List ExecuteMemInputs → List ExecuteMem
  | [] => [s]
  | i :: clocks => s :: presented (s.work i) clocks

def after (s : ExecuteMem) (clocks : List ExecuteMemInputs) : ExecuteMem := clocks.foldl work s

/-- The owner stays, and nothing else is taken. -/
def Owned (s : ExecuteMem) : List ExecuteMemInputs → Prop
  | [] => True
  | i :: clocks =>
    (i.reset = false ∧ i.transactionOwnerValid = true ∧
      (i.memStall = true ∨ s.memSplitPending = true ∨ i.hold = true)) ∧
    Owned (s.work i) clocks

theorem after_cons (s : ExecuteMem) (i : ExecuteMemInputs) (clocks : List ExecuteMemInputs) :
    s.after (i :: clocks) = (s.work i).after clocks := rfl

theorem work_owned {s : ExecuteMem} {i : ExecuteMemInputs} (hatomic : s.atomicPending = false)
    (hreset : i.reset = false) (howner : i.transactionOwnerValid = true)
    (hkeeps : i.memStall = true ∨ s.memSplitPending = true ∨ i.hold = true) :
    (s.work i).port = if i.memStall = false ∧ s.memSplitPending = true then s.secondHalf.port
      else s.port := by
  rw [work_port s i hreset]
  unfold doMemory
  simp only [howner, hatomic, Bool.not_true, Bool.false_and, Bool.false_eq_true, if_false]
  by_cases hstall : i.memStall = true
  · simp [hstall]
  · by_cases hpending : s.memSplitPending = true
    · simp [hstall, hpending]
    · have hhold : i.hold = true := by simpa [hstall, hpending] using hkeeps
      simp [hstall, hpending, hhold]

/-- A request with nothing behind it stays. -/
theorem presented_whole {s : ExecuteMem} {clocks : List ExecuteMemInputs}
    (hatomic : s.atomicPending = false) (hpending : s.memSplitPending = false)
    (howned : s.Owned clocks) :
    (s.presented clocks).map port = List.replicate (clocks.length + 1) s.port ∧
      (s.after clocks).port = s.port := by
  induction clocks generalizing s with
  | nil => exact ⟨rfl, rfl⟩
  | cons i clocks ih =>
    obtain ⟨⟨hreset, howner, hkeeps⟩, hrest⟩ := howned
    have hport := work_owned hatomic hreset howner hkeeps
    rw [if_neg (by simp [hpending])] at hport
    obtain ⟨hatomic', hpending', -⟩ := pending_of_port hport
    obtain ⟨hports, hafter⟩ := ih (hatomic'.trans hatomic) (hpending'.trans hpending) hrest
    refine ⟨?_, ?_⟩
    · rw [presented, List.map_cons, hports, hport, List.length_cons,
        List.replicate_succ (n := clocks.length + 1)]
    · rw [after_cons, hafter, hport]

/-- The first request of a split access stays until the second one follows, which stays. -/
theorem presented_split {s : ExecuteMem} {clocks : List ExecuteMemInputs}
    (hatomic : s.atomicPending = false) (hpending : s.memSplitPending = true)
    (howned : s.Owned clocks) :
    ∃ first second, (s.presented clocks).map port =
        List.replicate (first + 1) s.port ++ List.replicate second s.secondHalf.port ∧
      (((s.after clocks).memSplitPending = true ∧ second = 0 ∧ (s.after clocks).port = s.port) ∨
        ((s.after clocks).memSplitPending = false ∧ 0 < second ∧
          (s.after clocks).port = s.secondHalf.port)) := by
  induction clocks generalizing s with
  | nil => exact ⟨0, 0, rfl, .inl ⟨hpending, rfl, rfl⟩⟩
  | cons i clocks ih =>
    obtain ⟨⟨hreset, howner, hkeeps⟩, hrest⟩ := howned
    have hport := work_owned hatomic hreset howner hkeeps
    by_cases hstall : i.memStall = false
    · rw [if_pos ⟨hstall, hpending⟩] at hport
      obtain ⟨hsame, hpending', -⟩ := pending_of_port hport
      have hatomic' : (s.work i).atomicPending = false := hsame.trans hatomic
      obtain ⟨hports, hafter⟩ := presented_whole hatomic' hpending' hrest
      refine ⟨0, clocks.length + 1, ?_, .inr ⟨?_, by omega, ?_⟩⟩
      · rw [presented, List.map_cons, hports, hport]
        rfl
      · rw [after_cons]
        exact (pending_of_port hafter).2.1.trans hpending'
      · rw [after_cons, hafter, hport]
    · rw [if_neg fun h => hstall h.1] at hport
      obtain ⟨hatomic', hpending', hsecond⟩ := pending_of_port hport
      obtain ⟨first, second, hports, hafter⟩ :=
        ih (hatomic'.trans hatomic) (hpending'.trans hpending) hrest
      refine ⟨first + 1, second, ?_, ?_⟩
      · rw [presented, List.map_cons, hports, hport, hsecond,
          List.replicate_succ (n := first + 1), List.cons_append]
      · rw [hport, hsecond] at hafter
        exact hafter

/-! ## Parts of a store -/

/-- A request for `n` bytes of a store, from byte `m` on. -/
structure WriteRequest.Part (r : WriteRequest) (addr data : BitVec 32) (m n : Nat) : Prop where
  addr : r.addr = addr + BitVec.ofNat 32 m
  data : r.data = data >>> (8 * m)
  mask : ∀ k < 4, r.mask.getLsbD k = decide (k < n)
  four : n ≤ 4
  line : r.addr.toNat % 32 + n ≤ 32

theorem WriteRequest.Part.within {r : WriteRequest} {addr data : BitVec 32} {m n size : Nat}
    (h : r.Part addr data m n) (hsize : m + n ≤ size) : r.Within addr data size := by
  intro k hk hmask
  rw [h.mask k hk] at hmask
  have hkn : k < n := of_decide_eq_true hmask
  have hline := h.line
  refine ⟨⟨m + k, by omega, ?_, ?_⟩, ?_⟩
  · rw [h.addr, BitVec.add_assoc, BitVec.ofNat_add]
  · rw [h.data]
    apply BitVec.eq_of_getLsbD_eq
    intro bit hbit
    rw [BitVec.getLsbD_extractLsb', BitVec.getLsbD_extractLsb', BitVec.getLsbD_ushiftRight]
    congr 2
    omega
  · have hlt := r.addr.isLt
    rw [BitVec.toNat_add, BitVec.toNat_ofNat, Nat.mod_eq_of_lt (a := k) (by omega),
      Nat.mod_eq_of_lt (by omega)]
    omega

theorem WriteRequest.Part.storeAt_eq {r : WriteRequest} {addr data : BitVec 32} {m n : Nat}
    (h : r.Part addr data m n) (mem : BitVec 32 → BitVec 8) :
    storeAt mem r.addr r.data r.mask =
      storeBytes mem (addr + BitVec.ofNat 32 m) (data >>> (8 * m)) n := by
  rw [storeAt_eq_storeBytes mem _ _ h.four h.mask, h.addr, h.data]

/-- The registers with the first of the two requests of a store. -/
structure Halves (t : ExecuteMem) (addr data : BitVec 32) (m n : Nat) : Prop where
  first : ∃ r, t.writes = [r] ∧ r.Part addr data 0 m
  second : ∃ r, t.secondHalf.writes = [r] ∧ r.Part addr data m n
  reads : t.reads = []
  secondReads : t.secondHalf.reads = []
  memSplitPending : t.memSplitPending = true
  atomicPending : t.atomicPending = false

/-! ## What is taken -/

section

variable {s : ExecuteMem} {i : ExecuteMemInputs} (h : s.Takes i)

include h

theorem Takes.work_port : (s.work i).port = (s.issue i).port := by
  rw [ExecuteMem.work_port s i h.reset]
  unfold doMemory
  simp [h.memSplitPending, h.atomicPending, h.memStall, h.hold]

theorem Takes.issue_split (haccess : i.state.IsStore ∨ i.state.IsLoad)
    (hcrosses : Crosses i.aluResult (memSize i.state).toNat) :
    s.issue i = firstHalf i { s with
      memWrite := false
      memRead := false
      memMask := 0
      memAddr := i.aluResult
      memData := i.state.rs2Val
      splitLoad := i.state.memOp = .load } := by
  have hsplit : memSplit i.state = true :=
    (memSplit_iff h.valid h.amoOp haccess).mpr (h.aluResult ▸ hcrosses)
  unfold issue
  simp [h.valid, h.amoOp, hsplit]

theorem Takes.issue_whole (haccess : i.state.IsStore ∨ i.state.IsLoad)
    (hcrosses : ¬Crosses i.aluResult (memSize i.state).toNat) :
    s.issue i = issueWhole i { s with
      memWrite := false
      memRead := false
      memMask := 0
      memAddr := i.aluResult
      memData := i.state.rs2Val
      splitLoad := false } := by
  have hsplit : memSplit i.state = false := by
    rw [Bool.eq_false_iff]
    exact fun hsplit => hcrosses
      (h.aluResult ▸ (memSplit_iff h.valid h.amoOp haccess).mp hsplit)
  unfold issue
  simp [h.valid, h.amoOp, hsplit]

/-! ## Stores -/

variable (hstore : i.state.IsStore)

include hstore

theorem Takes.store_whole (hcrosses : ¬Crosses i.aluResult (memSize i.state).toNat) :
    ∃ r, (s.issue i).writes = [r] ∧ (s.issue i).reads = [] ∧
      r.Part i.aluResult i.state.rs2Val 0 (memSize i.state).toNat ∧
      (s.issue i).memSplitPending = false ∧ (s.issue i).atomicPending = false := by
  rw [h.issue_whole (.inl hstore) hcrosses]
  unfold Crosses at hcrosses
  obtain ⟨hmem, hfunct⟩ := hstore
  have hpart : ∀ size mask, memSize i.state = size → size.toNat ≤ 4 →
      (∀ k < 4, mask.getLsbD k = decide (k < size.toNat)) →
      WriteRequest.Part ⟨i.aluResult, i.state.rs2Val, mask⟩ i.aluResult i.state.rs2Val 0
        (memSize i.state).toNat := by
    intro size mask hsize hfour hmask
    refine ⟨(BitVec.add_zero _).symm, (BitVec.ushiftRight_zero _).symm, ?_, ?_, ?_⟩
    · rw [hsize]
      exact hmask
    · rw [hsize]
      exact hfour
    · dsimp only
      omega
  unfold issueWhole writes reads
  rcases hfunct with hfunct | hfunct | hfunct
  · simp only [hmem, hfunct, h.valid]
    exact ⟨_, rfl, rfl, hpart 1 1 (by simp [memSize, h.amoOp, hfunct]) (by decide) (by decide),
      h.memSplitPending, h.atomicPending⟩
  · simp only [hmem, hfunct, h.valid]
    exact ⟨_, rfl, rfl, hpart 2 3 (by simp [memSize, h.amoOp, hfunct]) (by decide) (by decide),
      h.memSplitPending, h.atomicPending⟩
  · simp only [hmem, hfunct, h.valid]
    exact ⟨_, rfl, rfl, hpart 4 15 (by simp [memSize, h.amoOp, hfunct]) (by decide) (by decide),
      h.memSplitPending, h.atomicPending⟩

/-- The two requests of a store, from its offset, its size and the bytes over the word. -/
theorem Takes.halves {m n : Nat} {offset size : BitVec 32} (excess : BitVec 32)
    (hcrosses : Crosses i.aluResult (memSize i.state).toNat)
    (hoffset : i.aluResult &&& 3 = offset) (hsize : memSize i.state = size)
    (hparts : size.toNat = m + n) (hlow : offset.toNat + m = 4) (hfour : m + n ≤ 4)
    (hexcess : (offset.setWidth 2).setWidth 32 + (size.setWidth 3).setWidth 32 - 4 = excess)
    (hshift : ((size.setWidth 3).setWidth 32 - excess) * 8 = BitVec.ofNat 32 (8 * m))
    (hfirst : ∀ k < 4, (((1#32 <<< (4 - offset)) - 1).setWidth 8).getLsbD k = decide (k < m))
    (hsecond : ∀ k < 4, (((1#32 <<< excess) - 1).setWidth 8).getLsbD k = decide (k < n)) :
    (s.issue i).Halves i.aluResult i.state.rs2Val m n := by
  rw [h.issue_split (.inl hstore) hcrosses]
  unfold Crosses at hcrosses
  rw [hsize, hparts] at hcrosses
  have hmod : i.aluResult.toNat % 4 = offset.toNat := by
    rw [← hoffset]
    exact (toNat_and_low i.aluResult (k := 2) (by decide)).symm
  have hnext : wordOf i.aluResult + 4 = i.aluResult + BitVec.ofNat 32 m := by
    apply BitVec.eq_of_toNat_eq
    rw [BitVec.toNat_add, BitVec.toNat_add, toNat_wordOf, BitVec.toNat_ofNat,
      show (4 : BitVec 32).toNat = 4 from rfl]
    omega
  refine ⟨⟨⟨i.aluResult, i.state.rs2Val, ((1#32 <<< (4 - offset)) - 1).setWidth 8⟩, ?_, ?_⟩,
    ⟨⟨wordOf i.aluResult + 4, i.state.rs2Val >>> BitVec.ofNat 32 (8 * m),
      ((1#32 <<< excess) - 1).setWidth 8⟩, ?_, ?_⟩, ?_, ?_, rfl, h.atomicPending⟩
  · simp only [writes, firstHalf, hstore.1, firstSplitMask, hoffset]
    rfl
  · refine ⟨(BitVec.add_zero _).symm, (BitVec.ushiftRight_zero _).symm, hfirst, by omega, ?_⟩
    dsimp only
    omega
  · simp only [writes, secondHalf, firstHalf, secondSplitMask, overflow, hstore.1, hoffset, hsize,
      hexcess, hshift]
    rfl
  · refine ⟨hnext, ?_, hsecond, by omega, ?_⟩
    · change i.state.rs2Val >>> (BitVec.ofNat 32 (8 * m)).toNat = _
      rw [BitVec.toNat_ofNat, Nat.mod_eq_of_lt (by omega)]
    · dsimp only
      rw [hnext, BitVec.toNat_add, BitVec.toNat_ofNat]
      have hlt := i.aluResult.isLt
      omega
  · simp [reads, firstHalf, hstore.1]
  · simp [reads, secondHalf, firstHalf, hstore.1]

/-- A store that crosses a line is two requests. -/
theorem Takes.store_split (hcrosses : Crosses i.aluResult (memSize i.state).toNat) :
    ∃ m n, m + n = (memSize i.state).toNat ∧
      (s.issue i).Halves i.aluResult i.state.rs2Val m n := by
  rcases crosses_cases (memSize_cases h.amoOp (.inl hstore)) hcrosses with
    ⟨hoffset, hsize⟩ | ⟨hoffset, hsize⟩ | ⟨hoffset, hsize⟩ | ⟨hoffset, hsize⟩
  · exact ⟨1, 1, by rw [hsize]; rfl, h.halves hstore 1 hcrosses hoffset hsize rfl rfl (by decide) rfl rfl
      (by decide) (by decide)⟩
  · exact ⟨3, 1, by rw [hsize]; rfl, h.halves hstore 1 hcrosses hoffset hsize rfl rfl (by decide) rfl rfl
      (by decide) (by decide)⟩
  · exact ⟨2, 2, by rw [hsize]; rfl, h.halves hstore 2 hcrosses hoffset hsize rfl rfl (by decide) rfl rfl
      (by decide) (by decide)⟩
  · exact ⟨1, 3, by rw [hsize]; rfl, h.halves hstore 3 hcrosses hoffset hsize rfl rfl (by decide) rfl rfl
      (by decide) (by decide)⟩

/-! ## Loads -/

omit hstore

variable (hload : i.state.IsLoad)

include hload

theorem Takes.load_whole (hcrosses : ¬Crosses i.aluResult (memSize i.state).toNat) :
    (s.issue i).writes = [] ∧ (s.issue i).reads = [i.aluResult] ∧
      (s.issue i).splitLoad = false ∧ (s.issue i).memSplitPending = false ∧
      (s.issue i).atomicPending = false := by
  rw [h.issue_whole (.inr hload) hcrosses]
  obtain ⟨hmem, hfunct⟩ := hload
  unfold issueWhole writes reads
  rcases hfunct with hfunct | hfunct | hfunct | hfunct | hfunct
  · simp only [hmem, hfunct, h.valid]
    exact ⟨rfl, rfl, rfl, h.memSplitPending, h.atomicPending⟩
  · simp only [hmem, hfunct, h.valid]
    exact ⟨rfl, rfl, rfl, h.memSplitPending, h.atomicPending⟩
  · simp only [hmem, hfunct, h.valid]
    exact ⟨rfl, rfl, rfl, h.memSplitPending, h.atomicPending⟩
  · simp only [hmem, hfunct, h.valid]
    exact ⟨rfl, rfl, rfl, h.memSplitPending, h.atomicPending⟩
  · simp only [hmem, hfunct, h.valid]
    exact ⟨rfl, rfl, rfl, h.memSplitPending, h.atomicPending⟩

/-- The two requests of a load that crosses a line, and their record. -/
theorem Takes.load_split (hcrosses : Crosses i.aluResult (memSize i.state).toNat) :
    ((s.issue i).writes = [] ∧ (s.issue i).reads = [wordOf i.aluResult]) ∧
    ((s.issue i).secondHalf.writes = [] ∧
      (s.issue i).secondHalf.reads = [wordOf i.aluResult + 4]) ∧
    ((s.issue i).secondHalf.splitLoad = true ∧
      (s.issue i).secondHalf.splitLoadLowAddr = wordOf i.aluResult ∧
      (s.issue i).secondHalf.splitLoadHighAddr = wordOf i.aluResult + 4) ∧
    (s.issue i).memSplitPending = true ∧ (s.issue i).atomicPending = false := by
  rw [h.issue_split (.inr hload) hcrosses]
  refine ⟨⟨?_, ?_⟩, ⟨?_, ?_⟩, ⟨?_, ?_, ?_⟩, rfl, h.atomicPending⟩
  · simp [writes, firstHalf, hload.1]
  · simp [reads, firstHalf, hload.1, wordOf]
  · simp [writes, secondHalf, firstHalf, hload.1]
  · simp [reads, secondHalf, firstHalf, hload.1, wordOf]
  · simp [secondHalf, firstHalf, hload.1]
  · simp [secondHalf, firstHalf, hload.1, wordOf]
  · simp [secondHalf, firstHalf, hload.1, wordOf]

/-- The second word of an access that crosses a line holds its last byte. -/
theorem Takes.wordOf_last (hcrosses : Crosses i.aluResult (memSize i.state).toNat) :
    wordOf (i.aluResult + BitVec.ofNat 32 ((memSize i.state).toNat - 1)) = wordOf i.aluResult + 4 := by
  unfold Crosses at hcrosses
  apply BitVec.eq_of_toNat_eq
  rw [BitVec.toNat_add, toNat_wordOf, toNat_wordOf, BitVec.toNat_add, BitVec.toNat_ofNat,
    show (4 : BitVec 32).toNat = 4 from rfl]
  have hlt := i.aluResult.isLt
  rcases memSize_cases h.amoOp (.inr hload) with hsize | hsize | hsize
  · rw [hsize] at hcrosses ⊢
    simp at hcrosses
    omega
  · rw [hsize] at hcrosses ⊢
    simp at hcrosses ⊢
    omega
  · rw [hsize] at hcrosses ⊢
    simp at hcrosses ⊢
    omega

end

/-! ## Whole accesses -/

/-- What is on the ports in some clocks does to a memory, whole repetitions aside. -/
theorem foldl_effect_replicate {t : ExecuteMem} {f : (BitVec 32 → BitVec 8) → BitVec 32 → BitVec 8}
    (heffect : ∀ mem, effect mem t = f mem) (hself : ∀ mem, f (f mem) = f mem)
    (n : Nat) (mem : BitVec 32 → BitVec 8) :
    (List.replicate (n + 1) t).foldl effect mem = f mem := by
  induction n generalizing mem with
  | zero => exact heffect mem
  | succ n ih =>
    rw [List.replicate_succ, List.foldl_cons, ih, heffect, hself]

theorem effect_of_part {t : ExecuteMem} {addr data : BitVec 32} {m n : Nat}
    (h : ∃ r, t.writes = [r] ∧ r.Part addr data m n) (mem : BitVec 32 → BitVec 8) :
    effect mem t = storeBytes mem (addr + BitVec.ofNat 32 m) (data >>> (8 * m)) n := by
  obtain ⟨r, hwrites, hpart⟩ := h
  unfold effect
  rw [hwrites]
  exact hpart.storeAt_eq mem

theorem foldl_effect_port (states : List ExecuteMem) (mem : BitVec 32 → BitVec 8) :
    states.foldl effect mem = (states.map port).foldl effect mem := by
  rw [List.foldl_map]
  rfl

theorem mem_presented_port {s t : ExecuteMem} {clocks : List ExecuteMemInputs} {ports : List ExecuteMem}
    (hports : (s.presented clocks).map port = ports) (ht : t ∈ s.presented clocks) :
    t.port ∈ ports := hports ▸ List.mem_map_of_mem ht

/-- The requests of a store, from the clock after it was taken. -/
structure StoreExact (s : ExecuteMem) (clocks : List ExecuteMemInputs) (addr data : BitVec 32)
    (size : Nat) : Prop where
  within : ∀ t ∈ s.presented clocks, t.reads = [] ∧ ∀ r ∈ t.writes, r.Within addr data size
  bytes : (s.after clocks).memSplitPending = false → ∀ mem,
    (s.presented clocks).foldl effect mem = storeBytes mem addr data size

/-- The requests of a load, from the clock after it was taken. -/
structure LoadExact (s : ExecuteMem) (clocks : List ExecuteMemInputs) (addr : BitVec 32)
    (size : Nat) : Prop where
  whole : ¬Crosses addr size → ∀ t ∈ s.presented clocks,
    t.writes = [] ∧ t.reads = [addr] ∧ t.splitLoad = false
  split : Crosses addr size → ∀ t ∈ s.presented clocks, t.writes = [] ∧
    (t.reads = [wordOf addr] ∨ t.reads = [wordOf (addr + BitVec.ofNat 32 (size - 1))])
  done : Crosses addr size → (s.after clocks).memSplitPending = false →
    (∃ t ∈ s.presented clocks, t.reads = [wordOf addr]) ∧
    (∃ t ∈ s.presented clocks, t.reads = [wordOf (addr + BitVec.ofNat 32 (size - 1))]) ∧
    (s.after clocks).splitLoad = true ∧ (s.after clocks).splitLoadLowAddr = wordOf addr ∧
    (s.after clocks).splitLoadHighAddr = wordOf (addr + BitVec.ofNat 32 (size - 1))

/-- What is left of an access whose owner is removed in a clock. -/
structure RemovedExact (s : ExecuteMem) (i : ExecuteMemInputs) : Prop where
  pending : s.memSplitPending = true →
    (s.work i).writes = [] ∧ (s.work i).reads = [] ∧ (s.work i).memSplitPending = false
  presented : s.memSplitPending = false → i.memStall = true ∨ i.hold = true →
    (s.work i).port = s.port

theorem removed_exact {s : ExecuteMem} {i : ExecuteMemInputs} (hatomic : s.atomicPending = false)
    (hreset : i.reset = false) (howner : i.transactionOwnerValid = false) : s.RemovedExact i where
  pending hpending := by
    have hport : (s.work i).port = s.cancel.port := by
      rw [work_port s i hreset]
      unfold doMemory
      simp [howner, hpending]
    exact ⟨writes_of_port hport, reads_of_port hport, (pending_of_port hport).2.1⟩
  presented hpending hkept := by
    rw [work_port s i hreset]
    unfold doMemory
    by_cases hstall : i.memStall = true
    · simp [hpending, hatomic, hstall]
    · have hhold : i.hold = true := by simpa [hstall] using hkept
      simp [hpending, hatomic, hstall, hhold]

section

variable {s : ExecuteMem} {i : ExecuteMemInputs} (h : s.Takes i) {clocks : List ExecuteMemInputs}
  (howned : (s.work i).Owned clocks)

include h howned

theorem Takes.presented_whole (hissue : (s.issue i).memSplitPending = false)
    (hatomic : (s.issue i).atomicPending = false) :
    ((s.work i).presented clocks).map port =
        List.replicate (clocks.length + 1) (s.issue i).port ∧
      ((s.work i).after clocks).port = (s.issue i).port := by
  obtain ⟨hatomic', hpending', -⟩ := pending_of_port h.work_port
  rw [← h.work_port]
  exact ExecuteMem.presented_whole (hatomic'.trans hatomic) (hpending'.trans hissue) howned

theorem Takes.presented_split (hissue : (s.issue i).memSplitPending = true)
    (hatomic : (s.issue i).atomicPending = false) :
    ∃ first second, ((s.work i).presented clocks).map port =
        List.replicate (first + 1) (s.issue i).port ++
          List.replicate second (s.issue i).secondHalf.port ∧
      ((((s.work i).after clocks).memSplitPending = true ∧ second = 0 ∧
          ((s.work i).after clocks).port = (s.issue i).port) ∨
        (((s.work i).after clocks).memSplitPending = false ∧ 0 < second ∧
          ((s.work i).after clocks).port = (s.issue i).secondHalf.port)) := by
  obtain ⟨hatomic', hpending', hsecond⟩ := pending_of_port h.work_port
  rw [← h.work_port, ← hsecond]
  exact ExecuteMem.presented_split (hatomic'.trans hatomic) (hpending'.trans hissue) howned

theorem Takes.store_exact (hstore : i.state.IsStore) :
    (s.work i).StoreExact clocks i.aluResult i.state.rs2Val (memSize i.state).toNat ∧
      ((s.work i).after clocks).atomicPending = false := by
  by_cases hcrosses : Crosses i.aluResult (memSize i.state).toNat
  · obtain ⟨m, n, hsize, halves⟩ := h.store_split hstore hcrosses
    obtain ⟨first, second, hports, hafter⟩ :=
      h.presented_split howned halves.memSplitPending halves.atomicPending
    refine ⟨⟨?_, ?_⟩, ?_⟩
    · intro t ht
      have hmem := mem_presented_port hports ht
      rw [List.mem_append, List.mem_replicate, List.mem_replicate] at hmem
      rcases hmem with ⟨-, hport⟩ | ⟨-, hport⟩
      · obtain ⟨r, hwrites, hpart⟩ := halves.first
        rw [writes_of_port (t := s.issue i) hport, reads_of_port (t := s.issue i) hport, hwrites]
        refine ⟨halves.reads, fun r' hr' => ?_⟩
        rw [List.mem_singleton.mp hr']
        exact hpart.within (by omega)
      · obtain ⟨r, hwrites, hpart⟩ := halves.second
        rw [writes_of_port (t := (s.issue i).secondHalf) hport,
          reads_of_port (t := (s.issue i).secondHalf) hport, hwrites]
        refine ⟨halves.secondReads, fun r' hr' => ?_⟩
        rw [List.mem_singleton.mp hr']
        exact hpart.within (by omega)
    · intro hdone mem
      obtain ⟨hsome, -⟩ : 0 < second ∧ _ := by
        rcases hafter with ⟨hpending, -⟩ | ⟨-, hafter⟩
        · rw [hdone] at hpending
          exact absurd hpending (by decide)
        · exact hafter
      obtain ⟨second, rfl⟩ : ∃ k, second = k + 1 := ⟨second - 1, by omega⟩
      have hfour : m + n ≤ 4 := by
        rcases memSize_cases h.amoOp (.inl hstore) with hbytes | hbytes | hbytes
        · rw [hsize, hbytes]
          decide
        · rw [hsize, hbytes]
          decide
        · rw [hsize, hbytes]
          decide
      rw [foldl_effect_port, hports, List.foldl_append,
        foldl_effect_replicate (t := (s.issue i).port) (effect_of_part halves.first)
          (fun mem => storeBytes_self _ _ _ _),
        foldl_effect_replicate (t := (s.issue i).secondHalf.port) (effect_of_part halves.second)
          (fun mem => storeBytes_self _ _ _ _), ← hsize]
      rw [BitVec.add_zero, Nat.mul_zero, BitVec.ushiftRight_zero]
      exact storeBytes_storeBytes _ _ _ (by omega)
    · rcases hafter with ⟨-, -, hport⟩ | ⟨-, -, hport⟩
      · exact (pending_of_port (t := s.issue i) hport).1.trans halves.atomicPending
      · exact (pending_of_port (t := (s.issue i).secondHalf) hport).1.trans halves.atomicPending
  · obtain ⟨r, hwrites, hreads, hpart, hpending, hatomic⟩ := h.store_whole hstore hcrosses
    obtain ⟨hports, hafter⟩ := h.presented_whole howned hpending hatomic
    refine ⟨⟨?_, ?_⟩, ?_⟩
    · intro t ht
      have hport := (List.mem_replicate.mp (mem_presented_port hports ht)).2
      rw [writes_of_port (t := s.issue i) hport, reads_of_port (t := s.issue i) hport, hwrites]
      refine ⟨hreads, fun r' hr' => ?_⟩
      rw [List.mem_singleton.mp hr']
      exact hpart.within (by omega)
    · intro _ mem
      rw [foldl_effect_port, hports,
        foldl_effect_replicate (t := (s.issue i).port) (effect_of_part ⟨r, hwrites, hpart⟩)
          (fun mem => storeBytes_self _ _ _ _), BitVec.add_zero, Nat.mul_zero,
        BitVec.ushiftRight_zero]
    · exact (pending_of_port (t := s.issue i) hafter).1.trans hatomic

theorem Takes.load_whole_exact (hload : i.state.IsLoad) :
    (s.work i).LoadExact clocks i.aluResult (memSize i.state).toNat ∧
      ((s.work i).after clocks).atomicPending = false := by
  by_cases hcrosses : Crosses i.aluResult (memSize i.state).toNat
  · obtain ⟨⟨hwrites, hreads⟩, ⟨hwrites', hreads'⟩, hrecord, hpending, hatomic⟩ :=
      h.load_split hload hcrosses
    have hlast := h.wordOf_last hload hcrosses
    obtain ⟨first, second, hports, hafter⟩ := h.presented_split howned hpending hatomic
    have hshown : ∀ p : ExecuteMem, p.port ∈ ((s.work i).presented clocks).map port →
        ∃ t ∈ (s.work i).presented clocks, t.reads = p.reads := by
      intro p hp
      obtain ⟨t, ht, hport⟩ := List.mem_map.mp hp
      exact ⟨t, ht, reads_of_port hport⟩
    refine ⟨⟨fun hwhole => absurd hcrosses hwhole, ?_, ?_⟩, ?_⟩
    · intro _ t ht
      have hmem := mem_presented_port hports ht
      rw [List.mem_append, List.mem_replicate, List.mem_replicate] at hmem
      rw [hlast]
      rcases hmem with ⟨-, hport⟩ | ⟨-, hport⟩
      · exact ⟨(writes_of_port (t := s.issue i) hport).trans hwrites,
          .inl ((reads_of_port (t := s.issue i) hport).trans hreads)⟩
      · exact ⟨(writes_of_port (t := (s.issue i).secondHalf) hport).trans hwrites',
          .inr ((reads_of_port (t := (s.issue i).secondHalf) hport).trans hreads')⟩
    · intro _ hdone
      obtain ⟨hsome, hport⟩ : 0 < second ∧ _ := by
        rcases hafter with ⟨hwaits, -⟩ | ⟨-, hafter⟩
        · rw [hdone] at hwaits
          exact absurd hwaits (by decide)
        · exact hafter
      rw [hlast]
      have hfirst := hshown (s.issue i) (by
        rw [hports]
        exact List.mem_append_left _ (List.mem_replicate.mpr ⟨by omega, rfl⟩))
      have hsecond := hshown (s.issue i).secondHalf (by
        rw [hports]
        exact List.mem_append_right _ (List.mem_replicate.mpr ⟨by omega, rfl⟩))
      rw [hreads] at hfirst
      rw [hreads'] at hsecond
      refine ⟨hfirst, hsecond, ?_, ?_, ?_⟩
      · exact (congrArg (fun t : ExecuteMem => t.splitLoad) hport).trans hrecord.1
      · exact (congrArg (fun t : ExecuteMem => t.splitLoadLowAddr) hport).trans hrecord.2.1
      · exact (congrArg (fun t : ExecuteMem => t.splitLoadHighAddr) hport).trans hrecord.2.2
    · rcases hafter with ⟨-, -, hport⟩ | ⟨-, -, hport⟩
      · exact (pending_of_port (t := s.issue i) hport).1.trans hatomic
      · exact (pending_of_port (t := (s.issue i).secondHalf) hport).1.trans hatomic
  · obtain ⟨hwrites, hreads, hsplit, hpending, hatomic⟩ := h.load_whole hload hcrosses
    obtain ⟨hports, hafter⟩ := h.presented_whole howned hpending hatomic
    refine ⟨⟨?_, fun hsplits => absurd hsplits hcrosses, fun hsplits => absurd hsplits hcrosses⟩,
      (pending_of_port (t := s.issue i) hafter).1.trans hatomic⟩
    intro _ t ht
    have hport := (List.mem_replicate.mp (mem_presented_port hports ht)).2
    exact ⟨(writes_of_port (t := s.issue i) hport).trans hwrites,
      (reads_of_port (t := s.issue i) hport).trans hreads,
      (congrArg (fun t : ExecuteMem => t.splitLoad) hport).trans hsplit⟩

end

/-- A store of a size that is given by `funct3`. -/
def storeInputs (funct3 : BitVec 3) (addr data : BitVec 32) : ExecuteMemInputs :=
  { (default : ExecuteMemInputs) with
    state := { (default : State) with
      valid := true
      memOp := .store
      funct3 := funct3
      rs1Val := addr
      rs2Val := data }
    aluResult := addr
    transactionOwnerValid := true }

def ownerClock (owner memStall : Bool) : ExecuteMemInputs :=
  { (default : ExecuteMemInputs) with memStall := memStall, transactionOwnerValid := owner }

theorem storeInputs_takes (funct3 : BitVec 3) (addr data : BitVec 32) :
    Takes default (storeInputs funct3 addr data) where
  reset := rfl
  memStall := rfl
  hold := rfl
  memSplitPending := rfl
  atomicPending := rfl
  valid := rfl
  amoOp := rfl
  aluResult := (BitVec.add_zero addr).symm

end ExecuteMem

end CppHdl.Cpu
