import CppHdl.Hls.SynchronousRam

/-!
# The cached binary map

`CachedBinaryMap` reads two arrays over a bus into two RAM banks, sends the pairs
through an ordered compute pipeline and writes the results out, 16 words at a
time. Registers of 32 bits are naturals that wrap at 2^32; `_work` and the strobe
after it are one step.
-/

namespace CppHdl.Hls

/-! ## The module -/

/-- `state`: 0 to 3. -/
inductive MapPhase
  | idle
  | load
  | compute
  | response
  deriving DecidableEq

structure MapCommand where
  source : UInt32
  second : UInt32
  destination : UInt32
  count : UInt32
  operation : UInt32

structure MapInputs where
  reset : Bool
  commandValid : Bool
  command : MapCommand
  responseReady : Bool
  waitrequest : Bool
  readdata : Beat
  readdatavalid : Bool
  readdataerror : Bool
  computeReady : Bool
  computeValid : Bool
  value : UInt32
  computeFault : Bool

structure CachedBinaryMap where
  first : SynchronousRam
  second : SynchronousRam
  state : MapPhase
  source : Nat
  other : Nat
  destination : Nat
  count : Nat
  operation : Nat
  error : Nat
  requested : Nat
  returned : Nat
  readIndex : Nat
  readTag : Nat
  issued : Nat
  completed : Nat
  writeIndex : Nat
  fill : Nat
  held : Bool
  readValid : Bool
  output : Beat

def MapCommand.valid (c : MapCommand) : Bool :=
  0 < c.count.toNat && c.count.toNat ≤ 8192 &&
    (c.source ||| c.second ||| c.destination) &&& 63 == 0 &&
    c.source.toNat + (c.count.toNat + 15) / 16 * 64 ≤ 0x100000000 &&
    c.second.toNat + (c.count.toNat + 15) / 16 * 64 ≤ 0x100000000 &&
    c.destination.toNat + c.count.toNat * 4 ≤ 0x100000000

namespace CachedBinaryMap

section

variable (s : CachedBinaryMap)

def beats : Nat := u32 (s.count + 15) / 16

def full : Bool := s.fill == 16 || s.completed == s.count && s.fill != 0

def mRead : Bool :=
  s.state == .load && (s.held || s.error == 0 && s.requested < u32 (2 * s.beats) &&
    sub32 s.requested s.returned < 64)

def mWrite : Bool := s.state == .compute && s.full && s.error == 0

def mAddress : Nat :=
  if s.state = .load then
    if s.requested < s.beats then u32 (s.source + s.requested * 64)
    else u32 (s.other + sub32 s.requested s.beats * 64)
  else u32 (s.destination + s.writeIndex * 4)

def mByteenable : Nat := if s.fill = 16 then 2 ^ 64 - 1 else 2 ^ (s.fill * 4 % 64) - 1

def computeValidIn : Bool := s.state == .compute && s.readValid && s.error == 0

def aIn : UInt32 := s.first.data (s.readTag % 16)

def bIn : UInt32 := s.second.data (s.readTag % 16)

variable (i : MapInputs)

def loadReturn : Bool :=
  s.state == .load && i.readdatavalid &&
    (s.returned < s.requested || s.mRead && !i.waitrequest)

def fetch : Bool :=
  s.state == .compute && s.error == 0 && s.readIndex < s.count && (!s.readValid || i.computeReady)

def computeReadyIn : Bool :=
  s.state == .compute && (s.error != 0 || !s.full || !i.waitrequest)

/-- `compute` takes an operand pair. -/
def issue : Bool := s.computeValidIn && i.computeReady

def drain : Bool := s.mWrite && !i.waitrequest

def finish : Bool := i.computeValid && s.computeReadyIn i

def acceptCommand (n : CachedBinaryMap) : CachedBinaryMap :=
  if s.state = .idle ∧ i.commandValid then
    { n with
      source := i.command.source.toNat
      other := i.command.second.toNat
      destination := i.command.destination.toNat
      count := i.command.count.toNat
      operation := i.command.operation.toNat
      state := if i.command.valid then .load else .response
      error := if i.command.valid then 0 else 1
      requested := 0
      returned := 0
      readIndex := 0
      issued := 0
      completed := 0
      writeIndex := 0
      fill := 0
      held := false
      readValid := false }
  else n

/-- Reads are requested and their responses counted. -/
def load (n : CachedBinaryMap) : CachedBinaryMap :=
  if s.state = .load then
    let accepted := s.mRead && !i.waitrequest
    let answered := u32 (s.returned + (s.loadReturn i).toNat)
    { n with
      held := if s.mRead then i.waitrequest else n.held
      requested := if accepted then u32 (s.requested + 1) else n.requested
      returned := if s.loadReturn i then u32 (s.returned + 1) else n.returned
      error := if s.loadReturn i && i.readdataerror then 2 else n.error
      state :=
        if s.error ≠ 0 ∧ answered = u32 (s.requested + accepted.toNat) ∧
          ¬ (s.mRead && i.waitrequest) then .response
        else if s.error = 0 ∧ ¬ i.readdataerror ∧ answered = u32 (2 * s.beats) then .compute
        else n.state }
  else n

/-- A fetched pair is passed on and the next one fetched. -/
def feed (n : CachedBinaryMap) : CachedBinaryMap :=
  { n with
    readValid := if s.fetch i then true else if s.issue i then false else n.readValid
    issued := if s.issue i then u32 (s.issued + 1) else n.issued
    readTag := if s.fetch i then s.readIndex else n.readTag
    readIndex := if s.fetch i then u32 (s.readIndex + 1) else n.readIndex }

/-- A beat of results is written and a result collected. -/
def collect (n : CachedBinaryMap) : CachedBinaryMap :=
  let slot := if s.drain i then 0 else s.fill
  let stored := s.finish i && s.error == 0
  { n with
    writeIndex := if s.drain i then u32 (s.writeIndex + s.fill) else n.writeIndex
    completed := if s.finish i then u32 (s.completed + 1) else n.completed
    output := if stored then Function.update n.output slot i.value else n.output
    fill := if stored then u32 (slot + 1) else if s.drain i then 0 else n.fill
    error := if s.finish i && i.computeFault then 3 else n.error
    state :=
      if s.drain i ∧ u32 (s.writeIndex + s.fill) = s.count then .response else n.state }

/-- The response, after a fault once the pipeline is empty. -/
def leave (n : CachedBinaryMap) : CachedBinaryMap :=
  { n with
    state :=
      if s.state = .response ∧ i.responseReady then .idle
      else if s.state = .compute ∧ s.error ≠ 0 ∧ s.completed = s.issued then .response
      else n.state }

def banks (n : CachedBinaryMap) : CachedBinaryMap :=
  let stored := s.loadReturn i && s.error == 0 && !i.readdataerror
  { n with
    first := s.first.work (s.fetch i) (s.readIndex / 16) (stored && s.returned < s.beats) s.returned
      i.readdata
    second := s.second.work (s.fetch i) (s.readIndex / 16) (stored && s.beats ≤ s.returned)
      (sub32 s.returned s.beats) i.readdata }

/-- After reset; the banks keep their contents. -/
def cleared : CachedBinaryMap where
  first := s.first
  second := s.second
  state := .idle
  source := 0
  other := 0
  destination := 0
  count := 0
  operation := 0
  error := 0
  requested := 0
  returned := 0
  readIndex := 0
  readTag := 0
  issued := 0
  completed := 0
  writeIndex := 0
  fill := 0
  held := false
  readValid := false
  output := fun _ => 0

def work : CachedBinaryMap :=
  if i.reset then s.cleared
  else s.leave i (s.collect i (s.feed i (s.load i (s.acceptCommand i (s.banks i s)))))

end

end CachedBinaryMap

end CppHdl.Hls
