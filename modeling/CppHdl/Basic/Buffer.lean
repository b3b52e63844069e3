import CppHdl.Basic.Clog2
import CppHdl.Lib.Queue
import CppHdl.Words.Logic

/-!
# The handshake buffer

`Buffer` holds up to `DEPTH` words between a producer and a consumer with
valid/ready handshakes; an empty one passes a word through in the same clock.
It is a queue for every depth below 2^32. From 2^32 + 2 on `clog2` sees the low
bits of the depth only and the registers are too narrow.
-/

namespace CppHdl.Basic

open Words

def indexBits (DEPTH : Nat) : Nat := if DEPTH ≤ 1 then 1 else clog2 (.ofNat DEPTH)

def countBits (DEPTH : Nat) : Nat := clog2 (.ofNat (DEPTH + 1))

/-- The registers. `dataReg` has `DEPTH` cells. -/
structure Buffer (WIDTH DEPTH : Nat) where
  dataReg : Nat → Logic WIDTH
  headReg : BitVec (indexBits DEPTH)
  tailReg : BitVec (indexBits DEPTH)
  countReg : BitVec (countBits DEPTH)

/-- The values of the ports in a clock. -/
structure BufferClock (WIDTH : Nat) where
  reset : Bool
  validIn : Bool
  dataIn : Logic WIDTH
  readyOut : Bool
  validOut : Bool
  dataOut : Logic WIDTH
  readyIn : Bool

namespace Buffer

variable {WIDTH DEPTH : Nat}

def readyComb (s : Buffer WIDTH DEPTH) (readyIn : Bool) : Bool :=
  decide ((s.countReg.setWidth 32).toNat < DEPTH) || readyIn

def validComb (s : Buffer WIDTH DEPTH) (validIn : Bool) : Bool :=
  s.countReg.setWidth 32 != 0#32 || validIn

def dataComb (s : Buffer WIDTH DEPTH) (dataIn : Logic WIDTH) : Logic WIDTH :=
  if s.countReg.setWidth 32 != 0#32 then s.dataReg (s.headReg.setWidth 32).toNat else dataIn

/-- `(index + 1) % DEPTH` in 32 bits. -/
def advance (DEPTH : Nat) (index : BitVec 32) : BitVec 32 :=
  BitVec.ofNat 32 ((index + 1#32).toNat % DEPTH)

/-- `_work` and the strobe after it. -/
def work (s : Buffer WIDTH DEPTH) (reset validIn : Bool) (dataIn : Logic WIDTH) (readyIn : Bool) :
    Buffer WIDTH DEPTH :=
  if reset then
    { s with headReg := 0, tailReg := 0, countReg := 0 }
  else
    let inputFire := validIn && s.readyComb readyIn
    let outputFire := s.validComb validIn && readyIn
    let head := s.headReg.setWidth 32
    let tail := s.tailReg.setWidth 32
    let count := s.countReg.setWidth 32
    let hadStored := count != 0#32
    let pop := outputFire && count != 0#32
    let push := inputFire && (hadStored || !outputFire)
    let count := if pop then count - 1#32 else count
    { dataReg := if push then Function.update s.dataReg tail.toNat dataIn else s.dataReg
      headReg := (if pop then advance DEPTH head else head).setWidth _
      tailReg := (if push then advance DEPTH tail else tail).setWidth _
      countReg := (if push then count + 1#32 else count).setWidth _ }

/-- A clock from the registers `s` to the registers `s'`. -/
structure Shows (s : Buffer WIDTH DEPTH) (c : BufferClock WIDTH) (s' : Buffer WIDTH DEPTH) :
    Prop where
  readyOut : c.readyOut = s.readyComb c.readyIn
  validOut : c.validOut = s.validComb c.validIn
  dataOut : c.dataOut = s.dataComb c.dataIn
  next : s' = s.work c.reset c.validIn c.dataIn c.readyIn

def clock (s : Buffer WIDTH DEPTH) (validIn : Bool) (dataIn : Logic WIDTH) (readyIn : Bool) :
    BufferClock WIDTH where
  reset := false
  validIn := validIn
  dataIn := dataIn
  readyOut := s.readyComb readyIn
  validOut := s.validComb validIn
  dataOut := s.dataComb dataIn
  readyIn := readyIn

theorem shows_clock (s : Buffer WIDTH DEPTH) (validIn : Bool) (dataIn : Logic WIDTH)
    (readyIn : Bool) :
    s.Shows (s.clock validIn dataIn readyIn) (s.work false validIn dataIn readyIn) :=
  ⟨rfl, rfl, rfl, rfl⟩

def system (WIDTH DEPTH : Nat) : Transitions (Buffer WIDTH DEPTH) (BufferClock WIDTH) where
  init s := s.headReg = 0 ∧ s.tailReg = 0 ∧ s.countReg = 0
  step
    | s, some c, s' => s.Shows c s'
    | _, none, _ => False

end Buffer

/-! ## What the buffer is for -/

/-- The words that change hands in a clock. -/
def BufferClock.transfer {WIDTH : Nat} (c : BufferClock WIDTH) : Transfer (Logic WIDTH) where
  flush := c.reset
  pushed := if c.validIn && c.readyOut then some c.dataIn else none
  popped := if c.validOut && c.readyIn then some c.dataOut else none

namespace Buffer

variable {WIDTH DEPTH : Nat}

/-- The words in the buffer, oldest first. -/
def held (s : Buffer WIDTH DEPTH) : List (Logic WIDTH) :=
  ring DEPTH s.dataReg s.headReg.toNat s.countReg.toNat

/-- The indices point into the buffer, the tail behind the last word. -/
structure Aligned (s : Buffer WIDTH DEPTH) : Prop where
  head : s.headReg.toNat < DEPTH
  tail : s.tailReg.toNat = (s.headReg.toNat + s.countReg.toNat) % DEPTH
  count : s.countReg.toNat ≤ DEPTH

/-! ## Registers -/

theorem indexBits_le (DEPTH : Nat) : indexBits DEPTH ≤ 32 := by
  unfold indexBits
  split_ifs
  · decide
  · exact clog2_le _

theorem depth_le (hpos : 0 < DEPTH) (hdepth : DEPTH < 2 ^ 32) : DEPTH ≤ 2 ^ indexBits DEPTH := by
  unfold indexBits
  split_ifs with hone
  · omega
  · exact le_two_pow_clog2 hpos hdepth.le

theorem depth_lt (hdepth : DEPTH < 2 ^ 32) : DEPTH < 2 ^ countBits DEPTH :=
  le_two_pow_clog2 (Nat.succ_pos DEPTH) hdepth

/-- An index register as a `uint32_t`. -/
theorem toNat_index (x : BitVec (indexBits DEPTH)) : (x.setWidth 32).toNat = x.toNat :=
  BitVec.toNat_setWidth_of_le (indexBits_le DEPTH)

theorem toNat_count (x : BitVec (countBits DEPTH)) : (x.setWidth 32).toNat = x.toNat :=
  BitVec.toNat_setWidth_of_le (clog2_le _)

/-- A number that fits survives the register. -/
theorem toNat_narrow {w n : Nat} {x : BitVec 32} (h : x.toNat = n) (hn : n < 2 ^ w) :
    (x.setWidth w).toNat = n := by
  rw [BitVec.toNat_setWidth, h, Nat.mod_eq_of_lt hn]

theorem toNat_advance (hdepth : DEPTH < 2 ^ 32) {index : BitVec 32} (h : index.toNat < DEPTH) :
    (advance DEPTH index).toNat = (index.toNat + 1) % DEPTH := by
  have hnext : (index + 1#32).toNat = index.toNat + 1 := by
    rw [BitVec.toNat_add, BitVec.toNat_ofNat]
    omega
  have hmod : (index.toNat + 1) % DEPTH < DEPTH := Nat.mod_lt _ (by omega)
  unfold advance
  rw [BitVec.toNat_ofNat, hnext]
  omega

theorem toNat_advanced (hdepth : DEPTH < 2 ^ 32) (moves : Bool)
    {x : BitVec (indexBits DEPTH)} (h : x.toNat < DEPTH) :
    ((if moves then advance DEPTH (x.setWidth 32) else x.setWidth 32).setWidth
      (indexBits DEPTH)).toNat = if moves then (x.toNat + 1) % DEPTH else x.toNat := by
  have hfits := depth_le (by omega) hdepth
  cases moves with
  | false => exact toNat_narrow (toNat_index x) x.isLt
  | true =>
      refine toNat_narrow ?_ ((Nat.mod_lt _ (by omega)).trans_le hfits)
      change (advance DEPTH (x.setWidth 32)).toNat = (x.toNat + 1) % DEPTH
      rw [toNat_advance hdepth (by rwa [toNat_index]), toNat_index]

/-- The count register: at most `DEPTH` words. -/
theorem toNat_counted (hdepth : DEPTH < 2 ^ 32) {pop push : Bool} {x : BitVec (countBits DEPTH)}
    (hpop : pop → 0 < x.toNat) (hfits : x.toNat - pop.toNat + push.toNat ≤ DEPTH) :
    let count := if pop then x.setWidth 32 - 1#32 else x.setWidth 32
    ((if push then count + 1#32 else count).setWidth (countBits DEPTH)).toNat =
      x.toNat - pop.toNat + push.toNat := by
  have hcount := toNat_count x
  refine toNat_narrow ?_ (hfits.trans_lt (depth_lt hdepth))
  have hx : x.toNat < 2 ^ 32 :=
    x.isLt.trans_le (Nat.pow_le_pow_right (by decide) (clog2_le _))
  cases pop <;> cases push <;> simp at hpop hfits ⊢ <;> omega

/-! ## One clock -/

theorem count_ne_zero (s : Buffer WIDTH DEPTH) :
    (s.countReg.setWidth 32 != 0#32) = decide (0 < s.countReg.toNat) := by
  rw [Bool.eq_iff_iff, bne_iff_ne, decide_eq_true_iff, ← toNat_count, ne_eq, ← BitVec.toNat_inj]
  exact Nat.pos_iff_ne_zero.symm

theorem dataComb_eq {s : Buffer WIDTH DEPTH} (h : 0 < s.countReg.toNat) (dataIn : Logic WIDTH) :
    s.dataComb dataIn = s.dataReg s.headReg.toNat := by
  unfold dataComb
  rw [count_ne_zero, if_pos (decide_eq_true h), toNat_index]

theorem Aligned.tail_lt {s : Buffer WIDTH DEPTH} (h : s.Aligned) : s.tailReg.toNat < DEPTH := by
  have hhead := h.head
  rw [h.tail]
  exact Nat.mod_lt _ (by omega)

section

variable (s : Buffer WIDTH DEPTH)

/-- A stored word leaves. -/
def pops (readyIn : Bool) : Bool := decide (0 < s.countReg.toNat) && readyIn

/-- A word is stored. -/
def pushes (validIn readyIn : Bool) : Bool :=
  validIn && ((decide (s.countReg.toNat < DEPTH) && !readyIn) || s.pops readyIn)

variable {s} in
theorem pops_pos {readyIn : Bool} (h : s.pops readyIn) : 0 < s.countReg.toNat :=
  of_decide_eq_true (Bool.and_eq_true_iff.mp h).1

variable {s} in
/-- A word only comes in when there is place, also the place that gets free. -/
theorem pushes_lt {validIn readyIn : Bool} (h : s.Aligned) (hpush : s.pushes validIn readyIn) :
    s.countReg.toNat < DEPTH + (s.pops readyIn).toNat := by
  have hle := h.count
  unfold pushes at hpush
  simp only [Bool.and_eq_true, Bool.or_eq_true, decide_eq_true_iff] at hpush
  rcases hpush.2 with hroom | hpop
  · omega
  · rw [hpop, Bool.toNat_true]
    omega

variable {s} in
theorem pushes_fits {validIn readyIn : Bool} (h : s.Aligned) :
    s.countReg.toNat - (s.pops readyIn).toNat + (s.pushes validIn readyIn).toNat ≤ DEPTH := by
  have hle := h.count
  by_cases hpush : s.pushes validIn readyIn = true
  · have hlt := pushes_lt h hpush
    have hpos := @pops_pos _ _ s readyIn
    rw [hpush, Bool.toNat_true]
    cases hpop : s.pops readyIn <;> simp [hpop] at hlt hpos ⊢ <;> omega
  · rw [Bool.not_eq_true] at hpush
    rw [hpush, Bool.toNat_false]
    omega

theorem pop_eq (validIn readyIn : Bool) :
    (s.validComb validIn && readyIn && s.countReg.setWidth 32 != 0#32) = s.pops readyIn := by
  unfold validComb pops
  rw [count_ne_zero]
  cases validIn <;> cases readyIn <;> simp

theorem push_eq (validIn readyIn : Bool) :
    (validIn && s.readyComb readyIn &&
      (s.countReg.setWidth 32 != 0#32 || !(s.validComb validIn && readyIn))) =
      s.pushes validIn readyIn := by
  unfold readyComb validComb pushes pops
  rw [count_ne_zero, toNat_count]
  cases validIn <;> cases readyIn <;> simp

end

/-- What a clock without reset does to the registers. -/
theorem work_spec (hdepth : DEPTH < 2 ^ 32) {s : Buffer WIDTH DEPTH} (h : s.Aligned)
    (validIn : Bool) (dataIn : Logic WIDTH) (readyIn : Bool) :
    let s' := s.work false validIn dataIn readyIn
    let pop := s.pops readyIn
    let push := s.pushes validIn readyIn
    s'.dataReg = (if push then
      Function.update s.dataReg ((s.headReg.toNat + s.countReg.toNat) % DEPTH) dataIn
      else s.dataReg) ∧
    s'.headReg.toNat = (if pop then (s.headReg.toNat + 1) % DEPTH else s.headReg.toNat) ∧
    s'.tailReg.toNat = (if push then (s.tailReg.toNat + 1) % DEPTH else s.tailReg.toNat) ∧
    s'.countReg.toNat = s.countReg.toNat - pop.toNat + push.toNat := by
  unfold work
  rw [if_neg (by decide)]
  dsimp only
  rw [pop_eq, push_eq, toNat_index, h.tail]
  refine ⟨rfl, toNat_advanced hdepth _ h.head, ?_, ?_⟩
  · rw [← h.tail]
    exact toNat_advanced hdepth _ h.tail_lt
  · exact toNat_counted hdepth pops_pos (pushes_fits h)

/-- Unless a word passes through an empty buffer, the handshakes are the moves of
stored words. -/
theorem fires {s : Buffer WIDTH DEPTH} (hdepth : 0 < DEPTH) {validIn readyIn : Bool}
    (hpass : ¬ (s.countReg.toNat = 0 ∧ validIn ∧ readyIn)) :
    (validIn && s.readyComb readyIn) = s.pushes validIn readyIn ∧
      (s.validComb validIn && readyIn) = s.pops readyIn := by
  unfold readyComb validComb pushes pops
  rw [count_ne_zero, toNat_count]
  rcases Nat.eq_zero_or_pos s.countReg.toNat with hzero | hpos
  · cases validIn <;> cases readyIn <;> simp [hzero, hdepth] at hpass ⊢
  · cases validIn <;> cases readyIn <;> simp [hpos]

theorem Aligned.work {s : Buffer WIDTH DEPTH} (h : s.Aligned) (hdepth : DEPTH < 2 ^ 32)
    (reset validIn : Bool) (dataIn : Logic WIDTH) (readyIn : Bool) :
    (s.work reset validIn dataIn readyIn).Aligned := by
  have hhead := h.head
  cases reset with
  | true =>
      refine ⟨?_, ?_, Nat.zero_le _⟩
      · change 0 < DEPTH
        omega
      · change 0 = (0 + 0) % DEPTH
        rw [Nat.zero_mod]
  | false =>
      obtain ⟨-, hhead', htail', hcount'⟩ := work_spec hdepth h validIn dataIn readyIn
      refine ⟨?_, ?_, hcount'.trans_le (pushes_fits h)⟩
      · rw [hhead']
        split_ifs
        · exact Nat.mod_lt _ (by omega)
        · exact hhead
      · rw [htail', hhead', hcount', h.tail]
        exact ring_tail pops_pos

/-- One clock moves the words like a queue. -/
theorem Shows.moves {s s' : Buffer WIDTH DEPTH} {c : BufferClock WIDTH} (hstep : s.Shows c s')
    (h : s.Aligned) (hdepth : DEPTH < 2 ^ 32) : c.transfer.Moves s.held s'.held := by
  obtain ⟨hready, hvalid, hdata, rfl⟩ := hstep
  have hhead := h.head
  cases hreset : c.reset with
  | true => exact (Transfer.moves_flush hreset).mpr rfl
  | false =>
      refine (Transfer.moves_step hreset).mpr ?_
      obtain ⟨hcells', hhead', -, hcount'⟩ := work_spec hdepth h c.validIn c.dataIn c.readyIn
      unfold held
      rw [hcells', hhead', hcount']
      by_cases hpass : s.countReg.toNat = 0 ∧ c.validIn ∧ c.readyIn
      · obtain ⟨hzero, hin, hout⟩ := hpass
        have hpop : s.pops c.readyIn = false := by simp [pops, hzero]
        have hpush : s.pushes c.validIn c.readyIn = false := by
          unfold pushes
          rw [hpop, hout]
          simp
        rw [hpop, hpush, hzero]
        unfold BufferClock.transfer
        simp [hready, hvalid, hdata, readyComb, validComb, dataComb, count_ne_zero, hzero, hin, hout]
      · obtain ⟨hpush, hpop⟩ := fires (by omega) hpass
        unfold BufferClock.transfer
        dsimp only
        rw [hready, hvalid, hdata, hpush, hpop]
        have hpopped : (if s.pops c.readyIn then some (s.dataComb c.dataIn) else none) =
            if s.pops c.readyIn then some (s.dataReg (s.headReg.toNat % DEPTH)) else none := by
          split_ifs with hpop'
          · rw [dataComb_eq (pops_pos hpop'), Nat.mod_eq_of_lt hhead]
          · rfl
        rw [hpopped]
        exact ring_step pops_pos (pushes_lt h) c.dataIn

/-! ## What the ports show -/

theorem readyComb_eq (s : Buffer WIDTH DEPTH) (readyIn : Bool) :
    s.readyComb readyIn = (decide (s.held.length < DEPTH) || readyIn) := by
  unfold readyComb held
  rw [toNat_count, length_ring]

theorem validComb_eq (s : Buffer WIDTH DEPTH) (validIn : Bool) :
    s.validComb validIn = (decide (0 < s.held.length) || validIn) := by
  unfold validComb held
  rw [count_ne_zero, length_ring]

theorem dataComb_held {s : Buffer WIDTH DEPTH} (h : s.Aligned) (dataIn : Logic WIDTH) :
    s.dataComb dataIn = s.held.headD dataIn := by
  rcases Nat.eq_zero_or_pos s.countReg.toNat with hzero | hcount
  · unfold dataComb held
    rw [count_ne_zero, hzero, if_neg (by decide), ring_zero, List.headD_nil]
  · obtain ⟨rest, hrest⟩ := Nat.exists_eq_succ_of_ne_zero hcount.ne'
    unfold held
    rw [dataComb_eq hcount, hrest, ring_pop, List.headD_cons, Nat.mod_eq_of_lt h.head]

/-- A word that is offered and not taken is the first of those held afterwards. -/
theorem Shows.offered {s s' : Buffer WIDTH DEPTH} {c : BufferClock WIDTH} (hstep : s.Shows c s')
    (h : s.Aligned) (hdepth : DEPTH < 2 ^ 32) (hvalid : c.validOut = true)
    (hready : c.readyIn = false) (hreset : c.reset = false) :
    ∃ rest, s'.held = c.dataOut :: rest := by
  have hmoves := (Transfer.moves_step hreset).mp (hstep.moves h hdepth)
  have hhead := h.head
  rw [hstep.dataOut, dataComb_held h]
  have hpopped : c.transfer.popped = none := by
    unfold BufferClock.transfer
    rw [hready, Bool.and_false]
    rfl
  rw [hpopped, Option.toList_none, List.nil_append] at hmoves
  rw [← hmoves]
  cases hheld : s.held with
  | cons x rest => exact ⟨_, rfl⟩
  | nil =>
      have hin : c.validIn = true := by
        rw [hstep.validOut, validComb_eq, hheld] at hvalid
        simpa using hvalid
      have hout : c.readyOut = true := by
        rw [hstep.readyOut, readyComb_eq, hheld]
        simp
        omega
      have hpushed : c.transfer.pushed = some c.dataIn := by
        unfold BufferClock.transfer
        rw [hin, hout]
        rfl
      rw [hpushed]
      exact ⟨[], rfl⟩

/-! ## Runs -/

theorem initial (hpos : 0 < DEPTH) (s : Buffer WIDTH DEPTH) (h : (system WIDTH DEPTH).init s) :
    s.Aligned ∧ s.held = [] := by
  obtain ⟨hhead, htail, hcount⟩ := h
  refine ⟨⟨?_, ?_, ?_⟩, ?_⟩
  · rw [hhead]
    exact hpos
  · rw [hhead, htail, hcount]
    exact (Nat.zero_mod _).symm
  · rw [hcount]
    exact Nat.zero_le _
  · unfold held
    rw [hcount]
    rfl

theorem system_step (hdepth : DEPTH < 2 ^ 32) (s : Buffer WIDTH DEPTH)
    (e : Option (BufferClock WIDTH)) (s' : Buffer WIDTH DEPTH) (h : s.Aligned)
    (hstep : (system WIDTH DEPTH).step s e s') :
    s'.Aligned ∧ ∃ c, e = some c ∧ c.transfer.Moves s.held s'.held := by
  cases e with
  | none => exact hstep.elim
  | some c =>
      refine ⟨?_, c, rfl, Shows.moves hstep h hdepth⟩
      rw [Shows.next hstep]
      exact h.work hdepth ..

/-- What holds in every state reached, and what a clock shows there. -/
theorem buffer_is_queue (hpos : 0 < DEPTH) (hdepth : DEPTH < 2 ^ 32)
    {es : List (BufferClock WIDTH)} {s : Buffer WIDTH DEPTH} (h : (system WIDTH DEPTH).Traces es s) :
    (Transfer.log (es.map BufferClock.transfer)).1 =
        (Transfer.log (es.map BufferClock.transfer)).2 ++ s.held ∧
      s.held.length ≤ DEPTH ∧
      ∀ c s', (system WIDTH DEPTH).step s (some c) s' →
        (c.readyOut = false → s.held.length = DEPTH ∧ c.readyIn = false) ∧
        (c.validOut = false → s.held = [] ∧ c.validIn = false) ∧
        (c.validOut = true → c.readyIn = false → c.reset = false →
          ∀ c' s'', (system WIDTH DEPTH).step s' (some c') s'' →
            c'.validOut = true ∧ c'.dataOut = c.dataOut) := by
  obtain ⟨haligned, hlog⟩ := Transitions.log_eq (initial hpos) (system_step hdepth) h
  have hlength : s.held.length = s.countReg.toNat := length_ring
  have hle := hlength.trans_le haligned.count
  refine ⟨hlog, hle, fun c s' hstep => ⟨?_, ?_, ?_⟩⟩
  · intro hready
    rw [hstep.readyOut, readyComb_eq, Bool.or_eq_false_iff, decide_eq_false_iff_not] at hready
    exact ⟨by omega, hready.2⟩
  · intro hvalid
    rw [hstep.validOut, validComb_eq, Bool.or_eq_false_iff, decide_eq_false_iff_not] at hvalid
    exact ⟨List.length_eq_zero_iff.mp (by omega), hvalid.2⟩
  · intro hvalid hready hreset c' s'' hstep'
    obtain ⟨rest, hheld⟩ := hstep.offered haligned hdepth hvalid hready hreset
    have haligned' := (system_step hdepth s (some c) s' haligned hstep).1
    rw [hstep'.validOut, validComb_eq, hstep'.dataOut, dataComb_held haligned', hheld]
    exact ⟨by simp, rfl⟩

/-- Three places, one word in. -/
theorem buffer_is_queue_three :
    let s : Buffer 8 3 := ⟨fun _ => Logic.zero 8, 0, 0, 0⟩
    let c := s.clock true (Logic.ofNat 8 5) false
    let s' := s.work false true (Logic.ofNat 8 5) false
    (Transfer.log [c.transfer]).1 = (Transfer.log [c.transfer]).2 ++ s'.held := by
  intro s c s'
  have hrun : (system 8 3).Traces [c] s' :=
    ⟨s, ⟨rfl, rfl, rfl⟩, (Transitions.Run.refl s).shows (s.shows_clock _ _ _)⟩
  exact (buffer_is_queue (by decide) (by decide) hrun).1

/-- With 2^32 + 2 places the count has two bits: four words go in, and the buffer is
empty. -/
theorem four_words_lost :
    ∃ es s, (system 8 (2 ^ 32 + 2)).Traces es s ∧
      (Transfer.log (es.map BufferClock.transfer)).1.length = 4 ∧
      (Transfer.log (es.map BufferClock.transfer)).2 = [] ∧
      s.held = [] ∧ ∀ c s', s.Shows c s' → c.validIn = false → c.validOut = false := by
  let x := Logic.zero 8
  let s₀ : Buffer 8 (2 ^ 32 + 2) := ⟨fun _ => x, 0, 0, 0⟩
  let s₁ := s₀.work false true x false
  let s₂ := s₁.work false true x false
  let s₃ := s₂.work false true x false
  let s₄ := s₃.work false true x false
  refine ⟨[s₀.clock true x false, s₁.clock true x false, s₂.clock true x false,
    s₃.clock true x false], s₄, ⟨s₀, ⟨rfl, rfl, rfl⟩, ?_⟩, ?_, ?_, ?_, ?_⟩
  · exact ((((Transitions.Run.refl s₀).shows (shows_clock ..)).shows (shows_clock ..)).shows
      (shows_clock ..)).shows (shows_clock ..)
  · decide +kernel
  · exact List.length_eq_zero_iff.mp (by decide +kernel)
  · exact List.length_eq_zero_iff.mp (by decide +kernel)
  · intro c s' hstep hin
    have hcount : s₄.countReg.setWidth 32 = 0#32 := by decide +kernel
    rw [hstep.validOut, validComb, hcount, hin]
    rfl

end Buffer

end CppHdl.Basic
