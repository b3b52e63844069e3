import CppHdl.Basic.Memory
import CppHdl.Lib.Pointers
import CppHdl.Lib.Queue

/-!
# The FIFO

`Fifo` keeps its words in a `Memory` between two pointers. A word shows at the
output before it is read (`SHOWAHEAD`), in the clock after the read, or, with
`OUTPUT_REG`, out of one more register in front of the memory.

`fifo_is_queue`: up to 64 bytes a word and 2^32 words, every run is that of a
queue. The memory is written with a constant mask of 64 ones, so the bytes of a
word from the 64th on are never stored.
-/

namespace CppHdl.Basic

open Words

structure Fifo (FIFO_WIDTH_BYTES FIFO_DEPTH : Nat) where
  mem : Memory FIFO_WIDTH_BYTES
  wpReg : BitVec (clog2 (.ofNat FIFO_DEPTH))
  rpReg : BitVec (clog2 (.ofNat FIFO_DEPTH))
  fullReg : Bool
  afullReg : Bool
  readValidReg : Bool
  readDataReg : Logic (FIFO_WIDTH_BYTES * 8)

namespace Fifo

variable {FIFO_WIDTH_BYTES FIFO_DEPTH : Nat}

section

variable (OUTPUT_REG SHOWAHEAD : Bool) (s : Fifo FIFO_WIDTH_BYTES FIFO_DEPTH)

def fullComb : Bool :=
  if OUTPUT_REG then s.wpReg == s.rpReg && s.fullReg && s.readValidReg
  else s.wpReg == s.rpReg && s.fullReg

def emptyComb : Bool :=
  if OUTPUT_REG then !s.readValidReg else s.wpReg == s.rpReg && !s.fullReg

/-- The read port of the memory shows ahead for the output register. -/
def readDataComb : Logic (FIFO_WIDTH_BYTES * 8) :=
  if OUTPUT_REG then s.readDataReg else s.mem.dataOutComb SHOWAHEAD s.rpReg.toNat

def memReadComb (readIn : Bool) : Bool :=
  if OUTPUT_REG then
    let memEmpty := s.wpReg == s.rpReg && !s.fullReg
    let outputNeedsWord := !s.readValidReg || readIn
    outputNeedsWord && !memEmpty
  else readIn

def memWriteComb (writeIn readIn : Bool) : Bool :=
  if OUTPUT_REG then
    let memFull := s.wpReg == s.rpReg && s.fullReg
    writeIn && (!memFull || s.memReadComb OUTPUT_REG readIn)
  else writeIn

/-- The memory in this clock. All bytes of the mask constant fit in a `uint64_t`. -/
def memWork (writeIn readIn : Bool) (writeDataIn : Logic (FIFO_WIDTH_BYTES * 8)) :
    Memory FIFO_WIDTH_BYTES :=
  s.mem.work (OUTPUT_REG || SHOWAHEAD) (s.memWriteComb OUTPUT_REG writeIn readIn) s.wpReg.toNat
    writeDataIn (Logic.assignUInt64 FIFO_WIDTH_BYTES 0xFFFFFFFFFFFFFFFF) s.rpReg.toNat

/-- The words in the memory, as `afull` counts them. -/
def memCount : Nat :=
  if s.rpReg ≤ s.wpReg then s.wpReg.toNat - s.rpReg.toNat
  else FIFO_DEPTH - s.rpReg.toNat + s.wpReg.toNat

/-- The registers with `OUTPUT_REG`. The simulation exits on a write to a full and a
read from an empty FIFO. -/
def workOutputReg (mem : Memory FIFO_WIDTH_BYTES) (writeIn readIn : Bool) :
    Option (Fifo FIFO_WIDTH_BYTES FIFO_DEPTH) :=
  let memRead := s.memReadComb true readIn
  let memWrite := s.memWriteComb true writeIn readIn
  let outputRead := readIn && s.readValidReg
  if writeIn && !memWrite || readIn && !s.readValidReg then none
  else
    let count := if s.fullReg then FIFO_DEPTH else s.memCount
    some {
      mem := mem
      wpReg := if memWrite then s.wpReg + 1 else s.wpReg
      rpReg := if memRead then s.rpReg + 1 else s.rpReg
      fullReg :=
        if memRead && !memWrite then false
        else if memWrite && !memRead && s.wpReg + 1 == s.rpReg then true
        else s.fullReg
      afullReg := decide (FIFO_DEPTH / 2 ≤ count + s.readValidReg.toNat)
      readValidReg := if memRead then true else if outputRead then false else s.readValidReg
      readDataReg := if memRead then s.mem.dataOutComb true s.rpReg.toNat else s.readDataReg }

def workPlain (mem : Memory FIFO_WIDTH_BYTES) (writeIn readIn : Bool) :
    Option (Fifo FIFO_WIDTH_BYTES FIFO_DEPTH) :=
  let full := s.fullComb false
  let empty := s.emptyComb false
  if writeIn && full && !readIn || readIn && empty then none
  else
    let wpNext := if writeIn && (!full || readIn) then s.wpReg + 1 else s.wpReg
    some {
      mem := mem
      wpReg := wpNext
      rpReg := if readIn && !empty then s.rpReg + 1 else s.rpReg
      fullReg :=
        if readIn && !writeIn then false
        else if writeIn && wpNext == s.rpReg then true
        else s.fullReg
      afullReg := s.fullReg || decide (FIFO_DEPTH / 2 ≤ s.memCount)
      readValidReg := s.readValidReg
      readDataReg := s.readDataReg }

/-- What `clear_in` overrides. -/
def clear (clearIn : Bool) (s : Fifo FIFO_WIDTH_BYTES FIFO_DEPTH) :
    Fifo FIFO_WIDTH_BYTES FIFO_DEPTH :=
  if clearIn then { s with wpReg := 0, rpReg := 0, fullReg := false, readValidReg := false } else s

/-- `_work` and the strobe after it. -/
def work (reset clearIn writeIn readIn : Bool) (writeDataIn : Logic (FIFO_WIDTH_BYTES * 8)) :
    Option (Fifo FIFO_WIDTH_BYTES FIFO_DEPTH) :=
  let mem := s.memWork OUTPUT_REG SHOWAHEAD writeIn readIn writeDataIn
  if reset then
    some {
      mem := mem
      wpReg := 0
      rpReg := 0
      fullReg := false
      afullReg := false
      readValidReg := false
      readDataReg := Logic.zero _ }
  else
    (if OUTPUT_REG then s.workOutputReg mem writeIn readIn
      else s.workPlain mem writeIn readIn).map (clear clearIn)

end

end Fifo

/-- The values of the ports in a clock. `readWord` is what a reader takes:
`readDataOut`, or what it is in the clock after. -/
structure FifoClock (FIFO_WIDTH_BYTES : Nat) where
  reset : Bool
  clearIn : Bool
  writeIn : Bool
  writeDataIn : Logic (FIFO_WIDTH_BYTES * 8)
  readIn : Bool
  readDataOut : Logic (FIFO_WIDTH_BYTES * 8)
  readWord : Logic (FIFO_WIDTH_BYTES * 8)
  emptyOut : Bool
  fullOut : Bool
  afullOut : Bool

/-- No write to a full FIFO unless a word is read, no read from an empty one. -/
structure FifoClock.Respects {FIFO_WIDTH_BYTES : Nat} (c : FifoClock FIFO_WIDTH_BYTES) : Prop where
  write : c.writeIn = true → c.fullOut = false ∨ c.readIn = true
  read : c.readIn = true → c.emptyOut = false

namespace Fifo

variable {FIFO_WIDTH_BYTES FIFO_DEPTH : Nat} {OUTPUT_REG SHOWAHEAD : Bool}

structure Ports (OUTPUT_REG SHOWAHEAD : Bool) (s : Fifo FIFO_WIDTH_BYTES FIFO_DEPTH)
    (c : FifoClock FIFO_WIDTH_BYTES) : Prop where
  readDataOut : c.readDataOut = s.readDataComb OUTPUT_REG SHOWAHEAD
  emptyOut : c.emptyOut = s.emptyComb OUTPUT_REG
  fullOut : c.fullOut = s.fullComb OUTPUT_REG
  afullOut : c.afullOut = s.afullReg

/-- A clock from the registers `s` to the registers `s'`. -/
structure Shows (OUTPUT_REG SHOWAHEAD : Bool) (s : Fifo FIFO_WIDTH_BYTES FIFO_DEPTH)
    (c : FifoClock FIFO_WIDTH_BYTES) (s' : Fifo FIFO_WIDTH_BYTES FIFO_DEPTH) : Prop
    extends Ports OUTPUT_REG SHOWAHEAD s c where
  next : s.work OUTPUT_REG SHOWAHEAD c.reset c.clearIn c.writeIn c.readIn c.writeDataIn = some s'
  readWord : c.readWord = if OUTPUT_REG || SHOWAHEAD then c.readDataOut
    else s'.readDataComb OUTPUT_REG SHOWAHEAD

def system (FIFO_WIDTH_BYTES FIFO_DEPTH : Nat) (OUTPUT_REG SHOWAHEAD : Bool) :
    Transitions (Fifo FIFO_WIDTH_BYTES FIFO_DEPTH) (FifoClock FIFO_WIDTH_BYTES) where
  init s := s.wpReg = 0 ∧ s.rpReg = 0 ∧ s.fullReg = false ∧ s.readValidReg = false
  step
    | s, some c, s' => s.Shows OUTPUT_REG SHOWAHEAD c s' ∧ (c.reset = false → c.Respects)
    | _, none, _ => False

end Fifo

/-! ## What the FIFO is for -/

/-- The words that change hands in a clock. -/
def FifoClock.transfer {FIFO_WIDTH_BYTES : Nat} (c : FifoClock FIFO_WIDTH_BYTES) :
    Transfer (Logic (FIFO_WIDTH_BYTES * 8)) where
  flush := c.reset || c.clearIn
  pushed := if c.writeIn then some c.writeDataIn else none
  popped := if c.readIn then some c.readWord else none

namespace Fifo

variable {FIFO_WIDTH_BYTES FIFO_DEPTH : Nat} {OUTPUT_REG SHOWAHEAD : Bool}

def stored (s : Fifo FIFO_WIDTH_BYTES FIFO_DEPTH) : List (Logic (FIFO_WIDTH_BYTES * 8)) :=
  ring FIFO_DEPTH s.mem.buffer s.rpReg.toNat (occupancy s.wpReg s.rpReg s.fullReg)

def front (OUTPUT_REG : Bool) (s : Fifo FIFO_WIDTH_BYTES FIFO_DEPTH) :
    Option (Logic (FIFO_WIDTH_BYTES * 8)) :=
  if OUTPUT_REG && s.readValidReg then some s.readDataReg else none

/-- The words in the FIFO, oldest first. -/
def held (OUTPUT_REG : Bool) (s : Fifo FIFO_WIDTH_BYTES FIFO_DEPTH) :
    List (Logic (FIFO_WIDTH_BYTES * 8)) :=
  (s.front OUTPUT_REG).toList ++ s.stored

/-- How many words the FIFO holds. -/
def capacity (FIFO_DEPTH : Nat) (OUTPUT_REG : Bool) : Nat := FIFO_DEPTH + OUTPUT_REG.toNat

/-- The pointers just fit the depth. -/
structure Sized (FIFO_DEPTH : Nat) : Prop where
  bits : 0 < clog2 (.ofNat FIFO_DEPTH)
  depth : 2 ^ clog2 (.ofNat FIFO_DEPTH) = FIFO_DEPTH

theorem Sized.of_two_pow {k : Nat} (hk : 0 < k) (hk' : k ≤ 32) (h : FIFO_DEPTH = 2 ^ k) :
    Sized FIFO_DEPTH := by
  subst h
  have hbits := clog2_two_pow hk'
  exact ⟨by rwa [hbits], by rw [hbits]⟩

/-! ## The memory -/

/-- The mask has a one for each byte of a word of up to 64 bytes. -/
theorem testBit_writeMask (hwidth : FIFO_WIDTH_BYTES ≤ 64) {i : Nat} (hi : i < FIFO_WIDTH_BYTES) :
    (Logic.assignUInt64 FIFO_WIDTH_BYTES 0xFFFFFFFFFFFFFFFF).toNat.testBit i = true := by
  rw [Logic.toNat_assignUInt64, Nat.testBit_mod_two_pow, decide_eq_true hi, Bool.true_and]
  change (2 ^ 64 - 1).testBit i = true
  rw [Nat.testBit_two_pow_sub_one]
  exact decide_eq_true (by omega)

theorem memWork_buffer (OUTPUT_REG SHOWAHEAD : Bool) (hwidth : FIFO_WIDTH_BYTES ≤ 64)
    (s : Fifo FIFO_WIDTH_BYTES FIFO_DEPTH) (writeIn readIn : Bool) (writeDataIn : Logic (FIFO_WIDTH_BYTES * 8)) :
    (s.memWork OUTPUT_REG SHOWAHEAD writeIn readIn writeDataIn).buffer =
      if s.memWriteComb OUTPUT_REG writeIn readIn then
        Function.update s.mem.buffer s.wpReg.toNat writeDataIn else s.mem.buffer := by
  unfold memWork Memory.work
  dsimp only
  rw [Memory.mergeRow_all _ _ fun i hi => testBit_writeMask hwidth hi]

abbrev count (s : Fifo FIFO_WIDTH_BYTES FIFO_DEPTH) : Nat :=
  occupancy s.wpReg s.rpReg s.fullReg

/-- A word into the memory, a word out of it, or both. -/
theorem stored_step (hsize : Sized FIFO_DEPTH)
    {s s' : Fifo FIFO_WIDTH_BYTES FIFO_DEPTH} {pop push : Bool} {data : Logic (FIFO_WIDTH_BYTES * 8)}
    (hpop : pop → 0 < s.count) (hpush : push → s.count < FIFO_DEPTH + pop.toNat)
    (hbuffer : s'.mem.buffer =
      if push then Function.update s.mem.buffer s.wpReg.toNat data else s.mem.buffer)
    (hrp : s'.rpReg = if pop then s.rpReg + 1 else s.rpReg)
    (hcount : s'.count = s.count - pop.toNat + push.toNat) :
    s.stored ++ (if push then some data else none).toList =
      (if pop then some (s.mem.buffer s.rpReg.toNat) else none).toList ++ s'.stored := by
  have htail := @occupancy_tail _ s.wpReg s.rpReg s.fullReg
  have hrange := s.rpReg.isLt
  rw [hsize.depth] at htail hrange
  have hhead : s'.rpReg.toNat =
      if pop then (s.rpReg.toNat + 1) % FIFO_DEPTH else s.rpReg.toNat := by
    have hsucc := toNat_succ s.rpReg
    rw [hsize.depth] at hsucc
    rw [hrp]
    split_ifs
    · exact hsucc
    · rfl
  unfold stored
  rw [hhead, hbuffer, ← htail]
  change _ = _ ++ ring _ _ _ s'.count
  rw [hcount]
  have hstep := @ring_step _ FIFO_DEPTH s.mem.buffer s.rpReg.toNat s.count pop push hpop hpush data
  rwa [Nat.mod_eq_of_lt hrange] at hstep

/-! ## The flags -/

theorem memEmpty_eq (s : Fifo FIFO_WIDTH_BYTES FIFO_DEPTH) :
    (s.wpReg == s.rpReg && !s.fullReg) = decide (s.count = 0) := by
  rw [Bool.eq_iff_iff, decide_eq_true_iff, occupancy_eq_zero_iff]
  simp

theorem memFull_eq (hsize : Sized FIFO_DEPTH)
    (s : Fifo FIFO_WIDTH_BYTES FIFO_DEPTH) :
    (s.wpReg == s.rpReg && s.fullReg) = decide (s.count = FIFO_DEPTH) := by
  have hfull := @occupancy_eq_full_iff _ s.wpReg s.rpReg s.fullReg
  rw [hsize.depth] at hfull
  rw [Bool.eq_iff_iff, decide_eq_true_iff, hfull]
  simp

theorem count_le (hsize : Sized FIFO_DEPTH)
    (s : Fifo FIFO_WIDTH_BYTES FIFO_DEPTH) : s.count ≤ FIFO_DEPTH := by
  have hle := @occupancy_le _ s.wpReg s.rpReg s.fullReg
  rwa [hsize.depth] at hle

/-! ## One clock -/

/-- A word out of the memory, a word in, or both. -/
structure Advances (s : Fifo FIFO_WIDTH_BYTES FIFO_DEPTH) (pop push : Bool)
    (mem : Memory FIFO_WIDTH_BYTES) (s' : Fifo FIFO_WIDTH_BYTES FIFO_DEPTH) : Prop where
  mem : s'.mem = mem
  rp : s'.rpReg = if pop then s.rpReg + 1 else s.rpReg
  count : s'.count = s.count - pop.toNat + push.toNat

theorem workPlain_spec (hsize : Sized FIFO_DEPTH) {s : Fifo FIFO_WIDTH_BYTES FIFO_DEPTH}
    {mem : Memory FIFO_WIDTH_BYTES} {writeIn readIn : Bool}
    (hwrite : writeIn → s.count < FIFO_DEPTH + readIn.toNat) (hread : readIn → 0 < s.count) :
    ∃ s', s.workPlain mem writeIn readIn = some s' ∧ s.Advances readIn writeIn mem s' := by
  have hle := count_le hsize s
  have hfull : s.fullComb false = decide (s.count = FIFO_DEPTH) := memFull_eq hsize s
  have hempty : s.emptyComb false = decide (s.count = 0) := memEmpty_eq s
  have hroom : writeIn → (!s.fullComb false || readIn) = true := by
    intro h
    have hlt := hwrite h
    rw [hfull]
    cases readIn <;> simp at hlt ⊢
    omega
  have hword : readIn → (!s.emptyComb false) = true := by
    intro h
    have hpos := hread h
    rw [hempty]
    simp
    omega
  have hwp : (writeIn && (!s.fullComb false || readIn)) = writeIn := by
    cases writeIn
    · rfl
    · exact hroom rfl
  have hrp : (readIn && !s.emptyComb false) = readIn := by
    cases readIn
    · rfl
    · exact hword rfl
  have hguard : (writeIn && s.fullComb false && !readIn || readIn && s.emptyComb false) = false := by
    revert hroom hword
    cases writeIn <;> cases readIn <;> cases s.fullComb false <;> cases s.emptyComb false <;> decide
  unfold workPlain
  dsimp only
  rw [hguard, if_neg (by decide), hwp, hrp]
  refine ⟨_, rfl, rfl, rfl, ?_⟩
  refine occupancy_step hsize.bits hread (by rwa [hsize.depth]) ?_ ?_ ?_
  · rintro rfl hptr
    have hne := succ_ne_self hsize.bits s.wpReg
    cases readIn
    · rfl
    · change (if (s.wpReg + 1#_ == s.rpReg) = true then true else s.fullReg) = s.fullReg
      rw [← hptr, if_neg (by simpa using hne)]
  · rintro hr rfl
    rw [hr]
    rfl
  · rintro hw rfl hnext
    change (if (writeIn && (if writeIn then s.wpReg + 1 else s.wpReg) == s.rpReg) = true then true
      else s.fullReg) = true
    rw [hw, if_pos (by simpa using hnext)]

theorem memRead_eq (s : Fifo FIFO_WIDTH_BYTES FIFO_DEPTH) (readIn : Bool) :
    s.memReadComb true readIn = ((!s.readValidReg || readIn) && decide (0 < s.count)) := by
  change ((!s.readValidReg || readIn) && !(s.wpReg == s.rpReg && !s.fullReg)) = _
  rw [memEmpty_eq, ← decide_not]
  exact congrArg _ (decide_eq_decide.mpr Nat.pos_iff_ne_zero.symm)

theorem memRead_pos {s : Fifo FIFO_WIDTH_BYTES FIFO_DEPTH} {readIn : Bool}
    (h : s.memReadComb true readIn) : 0 < s.count := by
  rw [memRead_eq, Bool.and_eq_true, decide_eq_true_iff] at h
  exact h.2

/-- A word only goes into the memory when there is place or a word leaves. -/
theorem memWrite_lt (hsize : Sized FIFO_DEPTH)
    {s : Fifo FIFO_WIDTH_BYTES FIFO_DEPTH} {writeIn readIn : Bool}
    (h : s.memWriteComb true writeIn readIn = writeIn) (hw : writeIn) :
    s.count < FIFO_DEPTH + (s.memReadComb true readIn).toNat := by
  have hle := count_le hsize s
  have hroom : (writeIn && (!(s.wpReg == s.rpReg && s.fullReg) || s.memReadComb true readIn)) =
      writeIn := h
  rw [hw, Bool.true_and, memFull_eq hsize, Bool.or_eq_true, Bool.not_eq_true',
    decide_eq_false_iff_not] at hroom
  rcases hroom with hlt | hpop
  · omega
  · rw [hpop, Bool.toNat_true]
    omega

/-- With the output register: what leaves the memory goes to the register, if that
is empty or its word is read. -/
theorem workOutputReg_spec (hsize : Sized FIFO_DEPTH) {s : Fifo FIFO_WIDTH_BYTES FIFO_DEPTH}
    {mem : Memory FIFO_WIDTH_BYTES} {writeIn readIn : Bool}
    (hwrite : s.memWriteComb true writeIn readIn = writeIn)
    (hread : readIn → s.readValidReg = true) :
    ∃ s', s.workOutputReg mem writeIn readIn = some s' ∧
      s.Advances (s.memReadComb true readIn) writeIn mem s' ∧
      s'.front true = if s.memReadComb true readIn then some (s.mem.buffer s.rpReg.toNat)
        else if readIn then none else s.front true := by
  have hguard : (writeIn && !s.memWriteComb true writeIn readIn || readIn && !s.readValidReg) =
      false := by
    rw [hwrite]
    revert hread
    cases writeIn <;> cases readIn <;> cases s.readValidReg <;> decide
  unfold workOutputReg
  dsimp only
  rw [hguard, if_neg (by decide), hwrite]
  have hpos := @memRead_pos _ _ s readIn
  have hroom := @memWrite_lt _ _ hsize s writeIn readIn hwrite
  generalize s.memReadComb true readIn = pop at hpos hroom
  refine ⟨_, rfl, ⟨rfl, rfl, occupancy_step hsize.bits hpos (by rwa [hsize.depth]) ?_ ?_ ?_⟩, ?_⟩
  · rintro rfl -
    cases pop <;> rfl
  · rintro hp rfl
    rw [hp]
    rfl
  · rintro hw rfl hnext
    change (if (writeIn && !false && s.wpReg + 1#_ == s.rpReg) = true then true else s.fullReg) = true
    rw [hw, if_pos (by simpa using hnext)]
  · have hahead : s.mem.dataOutComb true s.rpReg.toNat = s.mem.buffer s.rpReg.toNat := rfl
    unfold front
    dsimp only
    rw [hahead]
    revert hread
    cases pop <;> cases readIn <;> cases s.readValidReg <;> simp

/-! ## What a clock moves -/

section

variable (hsize : Sized FIFO_DEPTH)

theorem held_eq_nil {s : Fifo FIFO_WIDTH_BYTES FIFO_DEPTH} (hwp : s.wpReg = 0) (hrp : s.rpReg = 0)
    (hfull : s.fullReg = false) (hvalid : s.readValidReg = false) : s.held OUTPUT_REG = [] := by
  have hcount : s.count = 0 := occupancy_eq_zero_iff.mpr ⟨hwp.trans hrp.symm, hfull⟩
  unfold held stored front
  change _ ++ ring _ _ _ s.count = []
  rw [hcount, hvalid, Bool.and_false]
  rfl

include hsize in
/-- Respecting the flags is enough for the memory. -/
theorem respects_plain {s : Fifo FIFO_WIDTH_BYTES FIFO_DEPTH} {c : FifoClock FIFO_WIDTH_BYTES}
    (h : c.Respects) (hports : s.Ports false SHOWAHEAD c) :
    (c.writeIn → s.count < FIFO_DEPTH + c.readIn.toNat) ∧ (c.readIn → 0 < s.count) := by
  have hle := count_le hsize s
  have hfull : c.fullOut = decide (s.count = FIFO_DEPTH) := hports.fullOut.trans (memFull_eq hsize s)
  have hempty : c.emptyOut = decide (s.count = 0) := hports.emptyOut.trans (memEmpty_eq s)
  constructor
  · intro hw
    rcases h.write hw with hlow | hread
    · rw [hfull, decide_eq_false_iff_not] at hlow
      omega
    · rw [hread, Bool.toNat_true]
      omega
  · intro hr
    have hlow := h.read hr
    rw [hempty, decide_eq_false_iff_not] at hlow
    omega

include hsize in
theorem respects_output {s : Fifo FIFO_WIDTH_BYTES FIFO_DEPTH} {c : FifoClock FIFO_WIDTH_BYTES}
    (h : c.Respects) (hports : s.Ports true SHOWAHEAD c) :
    s.memWriteComb true c.writeIn c.readIn = c.writeIn ∧ (c.readIn → s.readValidReg = true) := by
  have hpos : 0 < FIFO_DEPTH := hsize.depth ▸ Nat.two_pow_pos _
  have hempty : c.emptyOut = !s.readValidReg := hports.emptyOut
  have hfull : c.fullOut = (s.wpReg == s.rpReg && s.fullReg && s.readValidReg) := hports.fullOut
  rw [memFull_eq hsize] at hfull
  have hread : c.readIn → s.readValidReg = true := by
    intro hr
    have hlow := h.read hr
    rwa [hempty, Bool.not_eq_false'] at hlow
  refine ⟨?_, hread⟩
  change (c.writeIn && (!(s.wpReg == s.rpReg && s.fullReg) || s.memReadComb true c.readIn)) = c.writeIn
  rw [memFull_eq hsize, memRead_eq]
  cases hw : c.writeIn with
  | false => rfl
  | true =>
      by_cases hmem : s.count = FIFO_DEPTH
      · have hneeds : (!s.readValidReg || c.readIn) = true := by
          rcases h.write hw with hlow | hr
          · rw [hfull, decide_eq_true hmem, Bool.true_and] at hlow
            rw [hlow]
            rfl
          · rw [hr, Bool.or_true]
        rw [hneeds, decide_eq_true (by omega : 0 < s.count), Bool.and_true, Bool.or_true]
        rfl
      · rw [decide_eq_false hmem]
        rfl

end

/-- What a clock without reset leaves, before `clear_in` is looked at. -/
theorem work_spec (hsize : Sized FIFO_DEPTH) {s : Fifo FIFO_WIDTH_BYTES FIFO_DEPTH}
    {c : FifoClock FIFO_WIDTH_BYTES} (hports : s.Ports OUTPUT_REG SHOWAHEAD c) (h : c.Respects)
    (hreset : c.reset = false) :
    let pop := s.memReadComb OUTPUT_REG c.readIn
    let mem := s.memWork OUTPUT_REG SHOWAHEAD c.writeIn c.readIn c.writeDataIn
    ∃ s', s.work OUTPUT_REG SHOWAHEAD c.reset c.clearIn c.writeIn c.readIn c.writeDataIn =
        some (s'.clear c.clearIn) ∧ s.Advances pop c.writeIn mem s' ∧
      s.memWriteComb OUTPUT_REG c.writeIn c.readIn = c.writeIn ∧ (pop → 0 < s.count) ∧
      (c.writeIn → s.count < FIFO_DEPTH + pop.toNat) ∧
      s'.front OUTPUT_REG =
        if OUTPUT_REG && pop then some (s.mem.buffer s.rpReg.toNat)
        else if c.readIn then none else s.front OUTPUT_REG := by
  unfold work
  dsimp only
  rw [hreset, if_neg (by decide)]
  cases OUTPUT_REG with
  | false =>
      obtain ⟨hroom, hpos⟩ := respects_plain hsize h hports
      obtain ⟨s', hs', hadvances⟩ := workPlain_spec hsize hroom hpos
      refine ⟨s', ?_, hadvances, rfl, hpos, hroom, ?_⟩
      · change (s.workPlain _ c.writeIn c.readIn).map _ = _
        rw [hs']
        rfl
      · change none = if c.readIn then none else none
        split_ifs <;> rfl
  | true =>
      obtain ⟨hwrite, hread⟩ := respects_output hsize h hports
      obtain ⟨s', hs', hadvances, hfront⟩ := workOutputReg_spec hsize hwrite hread
      refine ⟨s', ?_, hadvances, hwrite, memRead_pos, memWrite_lt hsize hwrite, hfront⟩
      change (s.workOutputReg _ c.writeIn c.readIn).map _ = _
      rw [hs']
      rfl

theorem clear_mem (clearIn : Bool) (s : Fifo FIFO_WIDTH_BYTES FIFO_DEPTH) :
    (s.clear clearIn).mem = s.mem := by
  cases clearIn <;> rfl

theorem clear_held (s : Fifo FIFO_WIDTH_BYTES FIFO_DEPTH) :
    (s.clear true).held OUTPUT_REG = [] := held_eq_nil rfl rfl rfl rfl

/-- The word a reader takes is the one in the output register. -/
theorem Shows.readWord_front {s s' : Fifo FIFO_WIDTH_BYTES FIFO_DEPTH}
    {c : FifoClock FIFO_WIDTH_BYTES} (hstep : s.Shows true SHOWAHEAD c s') (h : c.Respects)
    (hread : c.readIn = true) : s.front true = some c.readWord := by
  have hvalid : c.emptyOut = !s.readValidReg := hstep.emptyOut
  rw [h.read hread] at hvalid
  have hword : c.readWord = s.readDataReg := hstep.readWord.trans hstep.readDataOut
  unfold front
  rw [Bool.true_and, if_pos (by simpa using hvalid), hword]

/-- Without the register it is the first in the memory, at once or a clock later. -/
theorem Shows.readWord_stored (hsize : Sized FIFO_DEPTH) {s s' : Fifo FIFO_WIDTH_BYTES FIFO_DEPTH}
    {c : FifoClock FIFO_WIDTH_BYTES} (hstep : s.Shows false SHOWAHEAD c s') (h : c.Respects)
    (hreset : c.reset = false) : c.readWord = s.mem.buffer s.rpReg.toNat := by
  obtain ⟨s₁, hwork, hadvances, -⟩ := work_spec hsize hstep.toPorts h hreset
  have hmem : s'.mem = s.memWork false SHOWAHEAD c.writeIn c.readIn c.writeDataIn := by
    rw [← Option.some.inj (hwork.symm.trans hstep.next), clear_mem, hadvances.mem]
  have hword := hstep.readWord
  cases SHOWAHEAD with
  | true => exact hword.trans hstep.readDataOut
  | false =>
      refine hword.trans ?_
      change s'.mem.dataOutReg = _
      rw [hmem]
      rfl

/-- What goes into the output register and out of it. -/
theorem Shows.front_step (hsize : Sized FIFO_DEPTH) {s s' : Fifo FIFO_WIDTH_BYTES FIFO_DEPTH}
    {c : FifoClock FIFO_WIDTH_BYTES} (hstep : s.Shows OUTPUT_REG SHOWAHEAD c s') (h : c.Respects)
    (hreset : c.reset = false)
    (hfront : s'.front OUTPUT_REG =
      if OUTPUT_REG && s.memReadComb OUTPUT_REG c.readIn then some (s.mem.buffer s.rpReg.toNat)
      else if c.readIn then none else s.front OUTPUT_REG) :
    (s.front OUTPUT_REG).toList ++ (if s.memReadComb OUTPUT_REG c.readIn then
        some (s.mem.buffer s.rpReg.toNat) else none).toList =
      (if c.readIn then some c.readWord else none).toList ++ (s'.front OUTPUT_REG).toList := by
  rw [hfront]
  cases OUTPUT_REG with
  | false =>
      rw [hstep.readWord_stored hsize h hreset]
      change [] ++ (if c.readIn then _ else _ : Option _).toList =
        _ ++ (if c.readIn then none else none : Option _).toList
      cases c.readIn <;> rfl
  | true =>
      cases hread : c.readIn with
      | true =>
          rw [hstep.readWord_front h hread]
          cases s.memReadComb true true <;> rfl
      | false =>
          cases hpop : s.memReadComb true false with
          | false => exact List.append_nil _
          | true =>
              rw [memRead_eq, Bool.or_false, Bool.and_eq_true, Bool.not_eq_true'] at hpop
              have hempty : s.front true = none := by
                unfold front
                rw [hpop.1]
                rfl
              rw [hempty]
              rfl

theorem Shows.moves (hsize : Sized FIFO_DEPTH) (hwidth : FIFO_WIDTH_BYTES ≤ 64)
    {s s' : Fifo FIFO_WIDTH_BYTES FIFO_DEPTH} {c : FifoClock FIFO_WIDTH_BYTES}
    (hstep : s.Shows OUTPUT_REG SHOWAHEAD c s') (h : c.reset = false → c.Respects) :
    c.transfer.Moves (s.held OUTPUT_REG) (s'.held OUTPUT_REG) := by
  cases hreset : c.reset with
  | true =>
      refine (Transfer.moves_flush (by unfold FifoClock.transfer; rw [hreset]; rfl)).mpr ?_
      have hnext := hstep.next
      rw [hreset] at hnext
      rw [← Option.some.inj hnext]
      exact held_eq_nil rfl rfl rfl rfl
  | false =>
      obtain ⟨s₁, hwork, hadvances, hwrite, hpos, hroom, hfront⟩ :=
        work_spec hsize hstep.toPorts (h hreset) hreset
      have hs' := Option.some.inj (hwork.symm.trans hstep.next)
      cases hclear : c.clearIn with
      | true =>
          refine (Transfer.moves_flush (by unfold FifoClock.transfer; rw [hclear, Bool.or_true])).mpr ?_
          rw [← hs', hclear]
          exact clear_held s₁
      | false =>
          refine (Transfer.moves_step (by unfold FifoClock.transfer; rw [hreset, hclear]; rfl)).mpr ?_
          rw [hclear] at hs'
          change s₁ = s' at hs'
          subst hs'
          have hbuffer := memWork_buffer OUTPUT_REG SHOWAHEAD hwidth s c.writeIn c.readIn c.writeDataIn
          rw [hwrite, ← hadvances.mem] at hbuffer
          have hstored := stored_step hsize hpos hroom hbuffer hadvances.rp hadvances.count
          have hmoved := hstep.front_step hsize (h hreset) hreset hfront
          change (s.front OUTPUT_REG).toList ++ s.stored ++ (if c.writeIn then _ else _ : Option _).toList
            = (if c.readIn then _ else _ : Option _).toList ++ ((s₁.front OUTPUT_REG).toList ++ s₁.stored)
          rw [List.append_assoc, hstored, ← List.append_assoc, hmoved, List.append_assoc]

/-! ## The flags over a clock -/

/-- `full_out` says whether all places are taken. -/
theorem fullComb_iff (hsize : Sized FIFO_DEPTH) (s : Fifo FIFO_WIDTH_BYTES FIFO_DEPTH) :
    s.fullComb OUTPUT_REG = true ↔ (s.held OUTPUT_REG).length = capacity FIFO_DEPTH OUTPUT_REG := by
  have hle := count_le hsize s
  have hlength : (s.held OUTPUT_REG).length = (s.front OUTPUT_REG).toList.length + s.count := by
    unfold held stored
    rw [List.length_append, length_ring]
  have hfull := memFull_eq hsize s
  rw [hlength]
  unfold capacity fullComb front
  cases OUTPUT_REG <;> cases s.readValidReg <;> simp [hfull] <;> omega

theorem length_held_le (hsize : Sized FIFO_DEPTH) (s : Fifo FIFO_WIDTH_BYTES FIFO_DEPTH) :
    (s.held OUTPUT_REG).length ≤ capacity FIFO_DEPTH OUTPUT_REG := by
  have hle := count_le hsize s
  have hlength : (s.held OUTPUT_REG).length = (s.front OUTPUT_REG).toList.length + s.count := by
    unfold held stored
    rw [List.length_append, length_ring]
  rw [hlength]
  unfold capacity front
  cases OUTPUT_REG <;> cases s.readValidReg <;> simp <;> omega

/-- Without the output register `empty_out` says whether there is no word. -/
theorem emptyComb_iff (s : Fifo FIFO_WIDTH_BYTES FIFO_DEPTH) :
    s.emptyComb false = true ↔ s.held false = [] := by
  have hempty : s.emptyComb false = decide (s.count = 0) := memEmpty_eq s
  rw [hempty, decide_eq_true_iff, ← List.length_eq_zero_iff]
  unfold held stored
  rw [List.length_append, length_ring]
  exact (Nat.zero_add _ ▸ Iff.rfl)

theorem emptyComb_front (s : Fifo FIFO_WIDTH_BYTES FIFO_DEPTH) :
    s.emptyComb true = true ↔ s.front true = none := by
  change (!s.readValidReg) = true ↔ _
  unfold front
  cases s.readValidReg <;> simp

theorem emptyComb_of_held {s : Fifo FIFO_WIDTH_BYTES FIFO_DEPTH} (h : s.held OUTPUT_REG = []) :
    s.emptyComb OUTPUT_REG = true := by
  cases OUTPUT_REG with
  | false => exact (emptyComb_iff s).mpr h
  | true =>
      refine (emptyComb_front s).mpr ?_
      exact Option.toList_eq_nil_iff.mp (List.append_eq_nil_iff.mp h).1

/-- With the output register `empty_out` says whether all words are read that were
there a clock ago. -/
theorem Shows.emptyComb_iff (hsize : Sized FIFO_DEPTH) {s s' : Fifo FIFO_WIDTH_BYTES FIFO_DEPTH}
    {c : FifoClock FIFO_WIDTH_BYTES} (hstep : s.Shows true SHOWAHEAD c s') (h : c.Respects)
    (hreset : c.reset = false) :
    s'.emptyComb true = true ↔ c.clearIn = true ∨ (s.held true).drop c.readIn.toNat = [] := by
  obtain ⟨s₁, hwork, -, -, -, -, hfront⟩ := work_spec hsize hstep.toPorts h hreset
  have hs' := Option.some.inj (hwork.symm.trans hstep.next)
  cases hclear : c.clearIn with
  | true =>
      rw [← hs', hclear]
      exact iff_of_true rfl (.inl rfl)
  | false =>
      rw [hclear] at hs'
      change s₁ = s' at hs'
      subst hs'
      have hstored : s.stored = [] ↔ ¬ 0 < s.count := by
        rw [← List.length_eq_zero_iff, stored, length_ring, Nat.pos_iff_ne_zero, not_not]
      have hvalid := emptyComb_front s
      change (!s.readValidReg) = true ↔ _ at hvalid
      rw [emptyComb_front, hfront, memRead_eq]
      unfold held
      cases hread : c.readIn with
      | true =>
          rw [hstep.readWord_front h hread]
          by_cases hcount : 0 < s.count <;> simp [hcount, hstored]
      | false =>
          by_cases hcount : 0 < s.count <;> cases hreg : s.readValidReg <;>
            simp [hreg] at hvalid <;> simp [hcount, hstored, hvalid, Option.toList_eq_nil_iff]

theorem Shows.readWord_held (hsize : Sized FIFO_DEPTH) {s s' : Fifo FIFO_WIDTH_BYTES FIFO_DEPTH}
    {c : FifoClock FIFO_WIDTH_BYTES} (hstep : s.Shows OUTPUT_REG SHOWAHEAD c s') (h : c.Respects)
    (hreset : c.reset = false) (hread : c.readIn = true) :
    ∃ rest, s.held OUTPUT_REG = c.readWord :: rest := by
  cases OUTPUT_REG with
  | true =>
      unfold held
      rw [hstep.readWord_front h hread]
      exact ⟨_, rfl⟩
  | false =>
      have hrange := s.rpReg.isLt
      rw [hsize.depth] at hrange
      obtain ⟨n, hn⟩ := Nat.exists_eq_succ_of_ne_zero
        (Nat.pos_iff_ne_zero.mp ((respects_plain hsize h hstep.toPorts).2 hread))
      refine ⟨ring FIFO_DEPTH s.mem.buffer ((s.rpReg.toNat + 1) % FIFO_DEPTH) n, ?_⟩
      change ring _ _ _ s.count = _
      rw [hn, ring_pop, hstep.readWord_stored hsize h hreset, Nat.mod_eq_of_lt hrange]

/-! ## Runs -/

theorem system_init {s : Fifo FIFO_WIDTH_BYTES FIFO_DEPTH}
    (h : (system FIFO_WIDTH_BYTES FIFO_DEPTH OUTPUT_REG SHOWAHEAD).init s) :
    s.held OUTPUT_REG = [] := held_eq_nil h.1 h.2.1 h.2.2.1 h.2.2.2

theorem system_step (hsize : Sized FIFO_DEPTH) (hwidth : FIFO_WIDTH_BYTES ≤ 64)
    (s : Fifo FIFO_WIDTH_BYTES FIFO_DEPTH) (e : Option (FifoClock FIFO_WIDTH_BYTES))
    (s' : Fifo FIFO_WIDTH_BYTES FIFO_DEPTH)
    (hstep : (system FIFO_WIDTH_BYTES FIFO_DEPTH OUTPUT_REG SHOWAHEAD).step s e s') :
    ∃ c, e = some c ∧ c.transfer.Moves (s.held OUTPUT_REG) (s'.held OUTPUT_REG) := by
  cases e with
  | none => exact hstep.elim
  | some c => exact ⟨c, rfl, hstep.1.moves hsize hwidth hstep.2⟩

/-- Up to 64 bytes and 2^32 words: what holds in every state reached, and what a
clock shows there. -/
theorem fifo_is_queue {k : Nat} (hk : 0 < k) (hk' : k ≤ 32) (hdepth : FIFO_DEPTH = 2 ^ k)
    (hwidth : FIFO_WIDTH_BYTES ≤ 64) {es : List (FifoClock FIFO_WIDTH_BYTES)}
    {s : Fifo FIFO_WIDTH_BYTES FIFO_DEPTH}
    (h : (system FIFO_WIDTH_BYTES FIFO_DEPTH OUTPUT_REG SHOWAHEAD).Traces es s) :
    (Transfer.log (es.map FifoClock.transfer)).1 =
        (Transfer.log (es.map FifoClock.transfer)).2 ++ s.held OUTPUT_REG ∧
      (s.held OUTPUT_REG).length ≤ capacity FIFO_DEPTH OUTPUT_REG ∧
      (s.fullComb OUTPUT_REG = true ↔
        (s.held OUTPUT_REG).length = capacity FIFO_DEPTH OUTPUT_REG) ∧
      (s.held OUTPUT_REG = [] → s.emptyComb OUTPUT_REG = true) ∧
      (OUTPUT_REG = false → s.emptyComb OUTPUT_REG = true → s.held OUTPUT_REG = []) ∧
      (∀ c, s.Ports OUTPUT_REG SHOWAHEAD c → c.Respects → ∃ s', s.work OUTPUT_REG SHOWAHEAD c.reset
        c.clearIn c.writeIn c.readIn c.writeDataIn = some s') ∧
      ∀ c s', (system FIFO_WIDTH_BYTES FIFO_DEPTH OUTPUT_REG SHOWAHEAD).step s (some c) s' →
        c.reset = false →
        (c.readIn = true → ∃ rest, s.held OUTPUT_REG = c.readWord :: rest) ∧
        (OUTPUT_REG = true → (s'.emptyComb OUTPUT_REG = true ↔
          c.clearIn = true ∨ (s.held OUTPUT_REG).drop c.readIn.toNat = [])) := by
  have hsize := Sized.of_two_pow hk hk' hdepth
  have hlog := @Transitions.log_eq _ _ _ _ (fun _ => True) _ _
    (fun s hinit => ⟨trivial, system_init hinit⟩)
    (fun s e s' _ hstep => ⟨trivial, system_step hsize hwidth s e s' hstep⟩) _ _ h
  refine ⟨hlog.2, length_held_le hsize s, fullComb_iff hsize s, emptyComb_of_held, ?_, ?_, ?_⟩
  · rintro rfl
    exact (Fifo.emptyComb_iff s).mp
  · intro c hports hrespects
    cases hreset : c.reset with
    | true => exact ⟨_, rfl⟩
    | false =>
        obtain ⟨s', hwork, -⟩ := work_spec hsize hports hrespects hreset
        rw [hreset] at hwork
        exact ⟨_, hwork⟩
  · rintro c s' ⟨hstep, hrespects⟩ hreset
    refine ⟨fun hread => hstep.readWord_held hsize (hrespects hreset) hreset hread, ?_⟩
    rintro rfl
    exact hstep.emptyComb_iff hsize (hrespects hreset) hreset

def clock (OUTPUT_REG SHOWAHEAD : Bool) (s s' : Fifo FIFO_WIDTH_BYTES FIFO_DEPTH)
    (writeIn readIn : Bool) (writeDataIn : Logic (FIFO_WIDTH_BYTES * 8)) :
    FifoClock FIFO_WIDTH_BYTES where
  reset := false
  clearIn := false
  writeIn := writeIn
  writeDataIn := writeDataIn
  readIn := readIn
  readDataOut := s.readDataComb OUTPUT_REG SHOWAHEAD
  readWord := if OUTPUT_REG || SHOWAHEAD then s.readDataComb OUTPUT_REG SHOWAHEAD
    else s'.readDataComb OUTPUT_REG SHOWAHEAD
  emptyOut := s.emptyComb OUTPUT_REG
  fullOut := s.fullComb OUTPUT_REG
  afullOut := s.afullReg

/-- A FIFO after reset, its memory all zeros. -/
def cleared (FIFO_WIDTH_BYTES FIFO_DEPTH : Nat) : Fifo FIFO_WIDTH_BYTES FIFO_DEPTH :=
  ⟨⟨fun _ => Logic.zero _, Logic.zero _⟩, 0, 0, false, false, false, Logic.zero _⟩

theorem shows_clock {s s' : Fifo FIFO_WIDTH_BYTES FIFO_DEPTH} {writeIn readIn : Bool}
    {writeDataIn : Logic (FIFO_WIDTH_BYTES * 8)}
    (h : s.work OUTPUT_REG SHOWAHEAD false false writeIn readIn writeDataIn = some s') :
    s.Shows OUTPUT_REG SHOWAHEAD (clock OUTPUT_REG SHOWAHEAD s s' writeIn readIn writeDataIn) s' :=
  ⟨⟨rfl, rfl, rfl, rfl⟩, h, rfl⟩

/-- Two places, one word in. -/
theorem fifo_is_queue_two :
    ∃ s' : Fifo 1 2, let c := clock false true (cleared 1 2) s' true false (Logic.ofNat 8 5)
      (Transfer.log [c.transfer]).1 = (Transfer.log [c.transfer]).2 ++ s'.held false := by
  obtain ⟨s', hs'⟩ : ∃ s', (cleared 1 2).work false true false false true false (Logic.ofNat 8 5) =
    some s' := ⟨_, rfl⟩
  have hrun : (system 1 2 false true).Traces
      [clock false true (cleared 1 2) s' true false (Logic.ofNat 8 5)] s' :=
    ⟨cleared 1 2, ⟨rfl, rfl, rfl, rfl⟩, (Transitions.Run.refl _).shows
      ⟨shows_clock hs', fun _ => ⟨fun _ => .inl rfl, fun h => (Bool.false_ne_true h).elim⟩⟩⟩
  exact ⟨s', (@fifo_is_queue 1 2 false true 1 (by decide) (by decide) rfl (by decide) _ _ hrun).1⟩

/-- A word of 65 bytes whose last byte is one: what is read is zero. -/
theorem last_byte_lost :
    ∃ es s, (system 65 2 false true).Traces es s ∧
      (Transfer.log (es.map FifoClock.transfer)).1 = [Logic.ofNat 520 (2 ^ 512)] ∧
      (Transfer.log (es.map FifoClock.transfer)).2 = [Logic.zero 520] ∧
      Logic.ofNat 520 (2 ^ 512) ≠ Logic.zero 520 := by
  let x := Logic.ofNat 520 (2 ^ 512)
  obtain ⟨s₁, h₁⟩ : ∃ s, (cleared 65 2).work false true false false true false x = some s := ⟨_, rfl⟩
  have hword : s₁.readDataComb false true = Logic.zero 520 := by
    cases Option.some.inj h₁
    apply Logic.toNat_inj
    decide +kernel
  obtain ⟨s₂, h₂⟩ : ∃ s, s₁.work false true false false false true x = some s := by
    cases Option.some.inj h₁
    exact ⟨_, rfl⟩
  have hstep₁ : (system 65 2 false true).step (cleared 65 2)
      (some (clock false true (cleared 65 2) s₁ true false x)) s₁ :=
    ⟨shows_clock h₁, fun _ => ⟨fun _ => .inl rfl, fun h => (Bool.false_ne_true h).elim⟩⟩
  have hstep₂ : (system 65 2 false true).step s₁ (some (clock false true s₁ s₂ false true x)) s₂ := by
    refine ⟨shows_clock h₂, fun _ => ⟨fun h => (Bool.false_ne_true h).elim, fun _ => ?_⟩⟩
    cases Option.some.inj h₁
    rfl
  refine ⟨_, s₂, ⟨cleared 65 2, ⟨rfl, rfl, rfl, rfl⟩,
    ((Transitions.Run.refl _).shows hstep₁).shows hstep₂⟩, rfl, congrArg (fun y => [y]) hword, ?_⟩
  intro h
  have hnat := congrArg Logic.toNat h
  revert hnat
  decide +kernel

end Fifo

end CppHdl.Basic
