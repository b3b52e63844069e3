import Mathlib.Data.Fin.Basic
import Mathlib.Data.BitVec
import Mathlib.Data.List.FinRange
import Mathlib.Order.WithBot

/-!
# The trellis decoder

`PCSTrellisDecoderCore` is an eight-state Viterbi decoder. For every symbol an
add-compare-select step extends the best path into each state; one clock later the survivor
memories follow it, and the oldest byte of the best survivor goes out. A frame ends in state
zero, and the bytes that are still in its survivor drain one at a time.

The recurrence of the path costs and the choice of the best state are a `Trellis`, so that
the decoder is one definition for the circular costs of the source, in both of its
arithmetic modes, and for costs without bound. The bits of `pending_control` are flags of
their own, and counters that stay below their width are numbers.
-/

namespace CppHdl.Analog

abbrev DEPTH : Nat := 32

structure DecoderInputs where
  reset : Bool
  symbolEnableIn : Bool
  metricIn : Fin 8 → BitVec 18
  differenceIn : Nat → BitVec 21
  pointIn : Fin 8 → BitVec 6
  advanceIn : Bool
  startIn : Bool
  endIn : Bool

/-! ## The trellis -/

scoped instance states_neZero : NeZero 8 := ⟨by decide⟩

/-- The four states before a state. -/
def predecessor (destination : Fin 8) (choice : Fin 4) : Fin 8 :=
  ⟨destination.val % 2 * 4 + choice.val, by omega⟩

def sd6 (destination predecessor : Fin 8) : Nat := (destination.val / 2 ^^^ predecessor.val) % 2

def sd7 (destination predecessor : Fin 8) : Nat :=
  (destination.val / 4 ^^^ predecessor.val / 2) % 2

/-- The subset of points that a branch stands for. -/
def subset (destination predecessor : Fin 8) : Fin 8 :=
  ⟨sd6 destination predecessor * 4 + sd7 destination predecessor * 2 + destination.val % 2, by
    unfold sd6 sd7
    omega⟩

def branchSubset (destination : Fin 8) (choice : Fin 4) : Fin 8 :=
  subset destination (predecessor destination choice)

def candidateByte (i : DecoderInputs) (destination : Fin 8) (choice : Fin 4) : BitVec 8 :=
  let p := predecessor destination choice
  (i.pointIn (subset destination p)).setWidth 8 ||| BitVec.ofNat 8 (sd6 destination p) <<< 6 |||
    BitVec.ofNat 8 (sd7 destination p) <<< 7

/-- What the add-compare-select step chooses. -/
structure Selection (π : Type) where
  path : Fin 8 → π
  winner : Fin 8 → Fin 4
  winningByte : Fin 8 → BitVec 8

structure Trellis (π : Type) where
  start : Fin 8 → π
  select : DecoderInputs → (Fin 8 → π) → Selection π
  best : (Fin 8 → π) → Fin 8

/-! ## Circular costs -/

/-- `costs` and `reachable` of one state. -/
structure Path where
  cost : BitVec 21
  reachable : Bool
  deriving DecidableEq

namespace Circular

/-- The low twenty bits compared in groups of five, then the top bits. -/
def better (candidate current : BitVec 32) (candidateValid currentValid : Bool) : Bool :=
  let lowerLess := (List.range 4).foldl (fun lowerLess group =>
    let a := candidate >>> (group * 5) &&& 31
    let b := current >>> (group * 5) &&& 31
    decide (a < b) || (decide (a = b) && lowerLess)) false
  candidateValid && (!currentValid || ((candidate ^^^ current).getLsbD 20 != lowerLess))

/-- The 21-bit sum by parallel prefix carries. -/
def addMetric (path branch : BitVec 32) : BitVec 32 :=
  let initial := path ^^^ branch
  let carries := [1, 2, 4, 8, 16].foldl (fun (s : BitVec 32 × BitVec 32) shift =>
    (s.1 ||| s.2 &&& s.1 <<< shift, s.2 &&& s.2 <<< shift)) (path &&& branch, initial)
  (initial ^^^ carries.1 <<< 1) &&& 2097151

/-- The index of a directed difference of two subsets of one parity. -/
def differenceIndex (s t : Fin 8) : Nat :=
  s.val % 2 * 12 + s.val / 2 * 3 + t.val / 2 - if s.val / 2 < t.val / 2 then 1 else 0

/-- A carry-save stage: `sum` and `carry`. -/
def compress (x y z : BitVec 32) : BitVec 32 × BitVec 32 :=
  (x ^^^ y ^^^ z, (x &&& y ||| x &&& z ||| y &&& z) <<< 1)

/-- Whether `a + b` is before `c + d`, by carry-save stages and one prefix sum. -/
def branchBetter (PREPARED : Bool) (differenceIn : Nat → BitVec 21) (a b c d : BitVec 32)
    (s t : Fin 8) (candidateValid currentValid : Bool) : Bool :=
  let y := if PREPARED then (differenceIn (differenceIndex s t)).setWidth 32 else b
  let reduced := compress a y (~~~c)
  let reduced := if PREPARED then reduced else compress reduced.1 (reduced.2 ||| 1) (~~~d)
  candidateValid && (!currentValid || (addMetric reduced.1 (reduced.2 ||| 1)).getLsbD 20)

/-- One of four words by one-hot masks. -/
def oneHot {n : Nat} (choose : Fin 4 → Bool) (x : Fin 4 → BitVec n) : BitVec n :=
  let masked := fun k => x k &&& (0 - if choose k then 1 else 0)
  masked 0 ||| masked 1 ||| masked 2 ||| masked 3

/-- The choice by the six comparisons; `win i j` says that `j` is before `i`. -/
def choose (win : Fin 4 → Fin 4 → Bool) (k : Fin 4) : Bool :=
  match k with
  | 0 => !win 0 1 && !win 0 2 && !win 0 3
  | 1 => win 0 1 && !win 1 2 && !win 1 3
  | 2 => win 0 2 && win 1 2 && !win 2 3
  | 3 => win 0 3 && win 1 3 && win 2 3

def winner (choose : Fin 4 → Bool) : Fin 4 :=
  match choose 1 || choose 3, choose 2 || choose 3 with
  | false, false => 0
  | true, false => 1
  | false, true => 2
  | true, true => 3

section

variable (PREPARED : Bool) (i : DecoderInputs) (paths : Fin 8 → Path)

/-- The comparison of two candidates of a state. -/
def win (destination : Fin 8) (current candidate : Fin 4) : Bool :=
  let path := fun choice => paths (predecessor destination choice)
  let branch := fun choice => (i.metricIn (branchSubset destination choice)).setWidth 32
  branchBetter PREPARED i.differenceIn
    ((path candidate).cost.setWidth 32) (branch candidate)
    ((path current).cost.setWidth 32) (branch current)
    (branchSubset destination candidate) (branchSubset destination current)
    (path candidate).reachable (path current).reachable

def candidate (destination : Fin 8) (choice : Fin 4) : BitVec 32 :=
  addMetric ((paths (predecessor destination choice)).cost.setWidth 32)
    ((i.metricIn (branchSubset destination choice)).setWidth 32)

def select : Selection Path where
  path destination :=
    let choice := choose (win PREPARED i paths destination)
    { cost := (oneHot choice (candidate i paths destination)).setWidth 21
      reachable := (paths (predecessor destination 0)).reachable ||
        (paths (predecessor destination 1)).reachable ||
        (paths (predecessor destination 2)).reachable ||
        (paths (predecessor destination 3)).reachable }
  winner destination := winner (choose (win PREPARED i paths destination))
  winningByte destination :=
    oneHot (choose (win PREPARED i paths destination)) (candidateByte i destination)

/-- Whether state `j` is before state `i`. -/
def outranks (i j : Fin 8) : Bool :=
  better ((paths j).cost.setWidth 32) ((paths i).cost.setWidth 32) (paths j).reachable
    (paths i).reachable

def isBest (i : Fin 8) : Bool :=
  (List.finRange 8).foldl (fun isBest j =>
    if j < i then isBest && outranks paths j i
    else if i < j then isBest && !outranks paths i j
    else isBest) (paths i).reachable

def bestState : Fin 8 :=
  (List.finRange 8).foldl (fun bestState i =>
    if isBest paths i then bestState ||| i else bestState) 0

end

/-- The recurrence of the source; only state zero is reachable at first. -/
def trellis (PREPARED : Bool) : Trellis Path where
  start s := { cost := 0, reachable := decide (s = 0) }
  select := select PREPARED
  best := bestState

end Circular

/-! ## The registers -/

/-- The registers that follow the choices. -/
structure Decisions where
  selectors : Fin 8 → Fin 4
  selectedBytes : Fin 8 → BitVec 8
  pendingAdvance : Bool
  pendingStart : Bool
  pendingEnd : Bool
  pendingCount : Nat
  survivors : Fin 8 → BitVec (DEPTH * 8)
  count : Nat
  data : BitVec 8
  state : Fin 8
  valid : Bool
  drain : BitVec (DEPTH * 8)
  drainLeft : Nat
  drainValid : BitVec (DEPTH - 1)

structure Choices where
  winner : Fin 8 → Fin 4
  winningByte : Fin 8 → BitVec 8
  bestState : Fin 8

def oldest (survivor : BitVec (DEPTH * 8)) : BitVec 8 := survivor.extractLsb' ((DEPTH - 1) * 8) 8

/-- The bytes of a survivor that are still to go out, among those that drain already. -/
def schedule (pendingCount : Nat) (survivor : BitVec (DEPTH * 8))
    (pending : BitVec (DEPTH * 8) × BitVec (DEPTH - 1)) : BitVec (DEPTH * 8) × BitVec (DEPTH - 1) :=
  (List.range (DEPTH - 1)).foldl (fun pending future =>
    if DEPTH - 2 - future ≤ pendingCount then
      let byteMask := (255 : BitVec (DEPTH * 8)) <<< ((DEPTH - 1 - future) * 8)
      let scheduledByte := survivor >>> ((DEPTH - 2 - future) * 8) &&& 255
      (pending.1 &&& ~~~byteMask ||| scheduledByte <<< ((DEPTH - 1 - future) * 8),
        pending.2 ||| 1 <<< (DEPTH - 2 - future))
    else pending) pending

namespace Decisions

def cleared : Decisions where
  selectors _ := 0
  selectedBytes _ := 0
  pendingAdvance := false
  pendingStart := false
  pendingEnd := false
  pendingCount := 0
  survivors _ := 0
  count := 0
  data := 0
  state := 0
  valid := false
  drain := 0
  drainLeft := 0
  drainValid := 0

variable (s : Decisions) (i : DecoderInputs) (choices : Choices)

/-- The registers of a clock before anything is decided. A byte drains. -/
def drainOne : Decisions :=
  let n := { s with
    valid := false
    pendingAdvance := i.advanceIn && !i.startIn
    pendingStart := i.startIn
    pendingEnd := i.endIn
    pendingCount := s.count }
  if s.drainLeft ≠ 0 then
    { n with
      data := oldest s.drain
      valid := s.drainValid.getLsbD (DEPTH - 2)
      drain := s.drain <<< 8
      drainValid := s.drainValid <<< 1
      drainLeft := s.drainLeft - 1 }
  else n

def advance (n : Decisions) : Decisions :=
  if i.advanceIn then
    { n with
      selectors := choices.winner
      selectedBytes := choices.winningByte
      count := if s.count < DEPTH then s.count + 1 else s.count }
  else n

/-- The survivor of a state with the byte selected for it. -/
def nextSurvivor (destination : Fin 8) : BitVec (DEPTH * 8) :=
  s.survivors (predecessor destination (s.selectors destination)) <<< 8 |||
    (s.selectedBytes destination).setWidth (DEPTH * 8)

/-- The oldest byte of a survivor goes out, unless an earlier frame drains. -/
def output (survivor : BitVec (DEPTH * 8)) (n : Decisions) : Decisions :=
  if DEPTH - 1 ≤ s.pendingCount ∨ s.drainLeft = 0 then
    { n with valid := decide (DEPTH - 1 ≤ s.pendingCount), data := oldest survivor }
  else n

/-- The survivors follow the symbol of the clock before. -/
def decision (n : Decisions) : Decisions :=
  if s.pendingAdvance then
    let n := s.output (s.nextSurvivor choices.bestState) { n with survivors := s.nextSurvivor }
    let n := { n with state := choices.bestState }
    if s.pendingEnd then
      let pending := schedule s.pendingCount (s.nextSurvivor 0) (s.drain <<< 8, s.drainValid <<< 1)
      let n := s.output (s.nextSurvivor 0) { n with
        drain := pending.1
        drainValid := pending.2
        drainLeft := DEPTH - 1 }
      { n with state := 0 }
    else n
  else n

/-- A new stream starts in state zero. -/
def start (n : Decisions) : Decisions :=
  let n := if i.startIn || i.reset then
    { n with
      survivors := fun _ => 0
      selectors := fun _ => 0
      selectedBytes := fun _ => 0
      count := 0 }
    else n
  if s.pendingStart || i.reset then
    let n := { n with state := 0 }
    if i.reset || s.drainLeft = 0 then { n with data := 0, valid := false } else n
  else n

/-- `PCSTrellisDecoderCore::_work` without the paths. -/
def work : Decisions :=
  let n := start s i (decision s choices (advance s i choices (drainOne s i)))
  let n := if i.reset then
    { n with
      drain := 0
      drainLeft := 0
      drainValid := 0
      pendingAdvance := false
      pendingStart := false
      pendingEnd := false
      pendingCount := 0 }
    else n
  if !i.symbolEnableIn && !i.reset then s else n

end Decisions

structure TrellisDecoder (π : Type) where
  paths : Fin 8 → π
  decisions : Decisions

namespace TrellisDecoder

variable {π : Type} (T : Trellis π) (s : TrellisDecoder π) (i : DecoderInputs)

/-- Add, compare, select: the paths of the next clock. -/
def nextPaths : Fin 8 → π :=
  if !i.symbolEnableIn && !i.reset then s.paths
  else if i.startIn || i.reset then T.start
  else if i.advanceIn then (T.select i s.paths).path
  else s.paths

def choices : Choices :=
  let selection := T.select i s.paths
  ⟨selection.winner, selection.winningByte, T.best s.paths⟩

/-- `PCSTrellisDecoderCore::_work`. -/
def work : TrellisDecoder π where
  paths := s.nextPaths T i
  decisions := s.decisions.work i (s.choices T i)

/-- The registers after any inputs, from those of a decoder that was never reset. -/
def run (unreachable : π) (inputs : List DecoderInputs) : TrellisDecoder π :=
  inputs.foldl (work T) { paths := fun _ => unreachable, decisions := .cleared }

end TrellisDecoder

end CppHdl.Analog
