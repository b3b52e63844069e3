import CppHdl.Analog.Viterbi
import CppHdl.Lib.ShiftRegister

/-!
# The framing of the decoded stream

A frame is a start clock and the clocks up to the next one. What it decodes to is said by
survivors that keep every byte: a symbol is decided when 31 more have followed it, along the
path into the best state, and the last symbols are decided when the frame ends, along the
path into state zero. A byte goes out one clock after the 31st step that follows its symbol,
where a step is a symbol, or any clock after the end.
-/

namespace CppHdl.Analog

open ShiftRegister

/-! ## Frames -/

def symbolsOf (clocks : List DecoderInputs) : List DecoderInputs := clocks.filter (·.advanceIn)

/-- The times of the symbols of some clocks that begin at a time. -/
def timesOf (time : Nat) (clocks : List DecoderInputs) : List Nat :=
  ((clocks.zipIdx time).filter (·.1.advanceIn)).map (·.2)

/-- A frame: the end marker comes with the last symbol, and with no other. Clocks without a
symbol may stand anywhere. -/
structure Frame where
  start : DecoderInputs
  clocks : List DecoderInputs
  starts : start.startIn = true
  runs : ∀ clock ∈ clocks, clock.startIn = false
  ends : ∀ k (h : k < (symbolsOf clocks).length),
    (symbolsOf clocks)[k].endIn = decide (k + 1 = (symbolsOf clocks).length)

namespace Frame

variable (frame : Frame)

def symbols : List DecoderInputs := symbolsOf frame.clocks

def all : List DecoderInputs := frame.start :: frame.clocks

/-- The clock in which byte `k` of some symbols goes out. -/
def emission (times : List Nat) (length k : Nat) : Nat :=
  times.getD (min (k + (DEPTH - 1)) (length - 1)) 0 + 1 + (k + DEPTH - length)

end Frame

namespace TrellisDecoder

variable {π : Type} (T : Trellis π)

/-- The paths after some symbols and every byte along them, the newest first. -/
def decode (symbols : List DecoderInputs) : (Fin 8 → π) × (Fin 8 → List (BitVec 8)) :=
  symbols.foldl (fun paths symbol =>
    let selection := T.select symbol paths.1
    (selection.path, fun destination =>
      selection.winningByte destination ::
        paths.2 (predecessor destination (selection.winner destination))))
    (T.start, fun _ => [])

def decided (symbols : List DecoderInputs) (k : Nat) : BitVec 8 :=
  if k + DEPTH < symbols.length then
    let paths := decode T (symbols.take (k + DEPTH))
    (paths.2 (T.best paths.1)).getD (DEPTH - 1) 0
  else ((decode T symbols).2 0).getD (symbols.length - 1 - k) 0

/-- The bytes of frames, each with the clock in which it goes out. -/
def schedule : Nat → List Frame → List (Nat × BitVec 8)
  | _, [] => []
  | time, frame :: frames =>
    (List.range frame.symbols.length).map (fun k =>
      (Frame.emission (timesOf (time + 1) frame.clocks) frame.symbols.length k,
        decided T frame.symbols k)) ++
      schedule (time + frame.all.length) frames

def output (s : TrellisDecoder π) : Option (BitVec 8) :=
  if s.decisions.valid then some s.decisions.data else none

def outputs (s : TrellisDecoder π) : List DecoderInputs → List (Option (BitVec 8))
  | [] => []
  | input :: inputs =>
    let s' := s.work T input
    if input.symbolEnableIn then s'.output :: outputs s' inputs else outputs s' inputs

end TrellisDecoder

/-! ## What is still to go out -/

theorem oldest_eq (survivor : BitVec (DEPTH * 8)) : oldest survivor = byteAt survivor (DEPTH - 1) :=
  rfl

def scheduleOne (count : Nat) (survivor : BitVec (DEPTH * 8))
    (pending : BitVec (DEPTH * 8) × BitVec (DEPTH - 1)) (future : Nat) :
    BitVec (DEPTH * 8) × BitVec (DEPTH - 1) :=
  if DEPTH - 2 - future ≤ count then
    (pending.1 &&& ~~~((255 : BitVec (DEPTH * 8)) <<< ((DEPTH - 1 - future) * 8)) |||
        (survivor >>> ((DEPTH - 2 - future) * 8) &&& 255) <<< ((DEPTH - 1 - future) * 8),
      pending.2 ||| 1 <<< (DEPTH - 2 - future))
  else pending

theorem getLsbD_or_one (x : BitVec (DEPTH - 1)) (i : Nat) {j : Nat} (hj : j < DEPTH - 1) :
    (x ||| ((1 <<< i : Nat) : BitVec (DEPTH - 1))).getLsbD j = (x.getLsbD j || decide (j = i)) := by
  rw [BitVec.getLsbD_or, BitVec.natCast_eq_ofNat, BitVec.getLsbD_ofNat, Nat.testBit_shiftLeft]
  congr 1
  rw [decide_eq_true hj, Bool.true_and, Bool.eq_iff_iff, Bool.and_eq_true, decide_eq_true_iff,
    decide_eq_true_iff, Nat.testBit_one_eq_true_iff_self_eq_zero]
  omega

section

variable (count : Nat) (survivor : BitVec (DEPTH * 8))
  (pending : BitVec (DEPTH * 8) × BitVec (DEPTH - 1)) {j : Nat}

theorem scheduleOne_self (hj : j < DEPTH - 1) (hcount : DEPTH - 2 - j ≤ count) :
    byteAt (scheduleOne count survivor pending j).1 (DEPTH - 1 - j) =
        byteAt survivor (DEPTH - 2 - j) ∧
      (scheduleOne count survivor pending j).2.getLsbD (DEPTH - 2 - j) = true := by
  unfold scheduleOne
  rw [if_pos hcount]
  have hdepth : DEPTH = 32 := rfl
  constructor
  · rw [byteAt_replace _ _ (by omega) (by omega), if_pos rfl]
  · rw [getLsbD_or_one _ _ (by omega), decide_eq_true rfl, Bool.or_true]

theorem scheduleOne_of_lt (hcount : ¬DEPTH - 2 - j ≤ count) :
    scheduleOne count survivor pending j = pending := if_neg hcount

/-- The bytes at other places are not touched. -/
theorem scheduleOne_of_ne {future : Nat} (hj : j < DEPTH - 1) (hfuture : future < DEPTH - 1)
    (hne : j ≠ future) :
    byteAt (scheduleOne count survivor pending future).1 (DEPTH - 1 - j) =
        byteAt pending.1 (DEPTH - 1 - j) ∧
      (scheduleOne count survivor pending future).2.getLsbD (DEPTH - 2 - j) =
        pending.2.getLsbD (DEPTH - 2 - j) := by
  unfold scheduleOne
  split
  · have hdepth : DEPTH = 32 := rfl
    constructor
    · rw [byteAt_replace _ _ (by omega) (by omega), if_neg (by omega)]
    · rw [getLsbD_or_one _ _ (by omega), decide_eq_false (by omega), Bool.or_false]
  · exact ⟨rfl, rfl⟩

/-- What is scheduled over the bytes that drain. -/
theorem schedule_spec (hj : j < DEPTH - 1) :
    byteAt (schedule count survivor pending).1 (DEPTH - 1 - j) =
        (if DEPTH - 2 - j ≤ count then byteAt survivor (DEPTH - 2 - j)
          else byteAt pending.1 (DEPTH - 1 - j)) ∧
      (schedule count survivor pending).2.getLsbD (DEPTH - 2 - j) =
        (decide (DEPTH - 2 - j ≤ count) || pending.2.getLsbD (DEPTH - 2 - j)) := by
  -- The bytes before `length` are scheduled, the others are as they were.
  have hprefix : ∀ length, length ≤ DEPTH - 1 →
      byteAt ((List.range length).foldl (scheduleOne count survivor) pending).1 (DEPTH - 1 - j) =
          (if j < length ∧ DEPTH - 2 - j ≤ count then byteAt survivor (DEPTH - 2 - j)
            else byteAt pending.1 (DEPTH - 1 - j)) ∧
        ((List.range length).foldl (scheduleOne count survivor) pending).2.getLsbD
            (DEPTH - 2 - j) =
          (decide (j < length ∧ DEPTH - 2 - j ≤ count) ||
            pending.2.getLsbD (DEPTH - 2 - j)) := by
    intro length hlength
    induction length with
    | zero => simp
    | succ length ih =>
      specialize ih (by omega)
      rw [List.range_succ, List.foldl_append, List.foldl_cons, List.foldl_nil]
      generalize (List.range length).foldl _ pending = scheduled at ih ⊢
      by_cases hlast : j = length
      · subst hlast
        by_cases hcount : DEPTH - 2 - j ≤ count
        · have h := scheduleOne_self count survivor scheduled hj hcount
          rw [h.1, h.2]
          simp [hcount]
        · rw [scheduleOne_of_lt _ _ _ hcount, ih.1, ih.2]
          simp [hcount]
      · have h := scheduleOne_of_ne count survivor scheduled hj hlength hlast
        rw [h.1, h.2, ih.1, ih.2]
        simp only [show j < length + 1 ↔ j < length by omega]
        trivial
  have h := hprefix (DEPTH - 1) le_rfl
  simp only [hj, true_and] at h
  exact h

end

namespace Decisions

variable (s : Decisions)

/-- What drains after `j` more clocks. -/
def draining (j : Nat) : Option (BitVec 8) :=
  if j < DEPTH - 1 ∧ s.drainValid.getLsbD (DEPTH - 2 - j) = true then
    some (byteAt s.drain (DEPTH - 1 - j))
  else none

/-- The survivors with the symbol of the clock before. -/
def followed : Fin 8 → BitVec (DEPTH * 8) :=
  if s.pendingAdvance then s.nextSurvivor else s.survivors

/-- What goes out after `j` more clocks for what the registers hold. -/
def coming (best : Fin 8) : Nat → Option (BitVec 8)
  | 0 =>
    if s.pendingAdvance = true ∧ DEPTH - 1 ≤ s.pendingCount then
      some (oldest (s.followed (if s.pendingEnd then 0 else best)))
    else s.draining 0
  | j + 1 =>
    if s.pendingAdvance = true ∧ s.pendingEnd = true ∧ j < DEPTH - 1 ∧
        DEPTH - 2 - j ≤ s.pendingCount then
      some (byteAt (s.followed 0) (DEPTH - 2 - j))
    else s.draining (j + 1)

/-- Nothing is in the way of the bytes that drain. -/
structure Clean : Prop where
  left : s.drainLeft ≤ DEPTH - 1
  drained : ∀ j, s.drainLeft ≤ j → s.draining j = none
  started : s.pendingStart = true → s.pendingAdvance = false
  room : s.pendingAdvance = true → s.drainLeft ≤ DEPTH - 2 - s.pendingCount

end Decisions

end CppHdl.Analog
