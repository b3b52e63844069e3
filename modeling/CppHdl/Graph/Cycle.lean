import CppHdl.Graph.Value
import CppHdl.Lib.Machine

/-!
# Clocks

What an executor of a graph does at one clock: it shows the output ports,
performs the host calls, reports failed assertions and addresses beyond a
memory, and then commits all register and memory updates at once. Every
operand is read before anything is committed. Where several states drive one
register, and where several writes meet in one row, the later one wins.

`Graph.cycle` is this clock for given values of the bits, and
`Graph.machine` reads the bits with `Graph.value`. A graph some needed bit of
which has no value cannot take the step.
-/

namespace CppHdl

/-- Rows of the mutable memories: memory, row, bit. -/
abbrev Rows := Nat → Nat → Nat → Bool

/-- What a graph keeps between clocks. -/
structure Store where
  register : Nat → Bool
  memory : Rows
  /-- The levels the named clocks had at the last commit. -/
  clock : Nat → Bool

/-- What the world outside feeds one clock of a graph. -/
structure Stimulus where
  /-- Lanes of inputs and of the results of host calls. -/
  leaf : Nat → Bool
  /-- Output arguments of host calls. -/
  projection : Value → Value → Nat → Option Bool := fun _ _ _ => none
  /-- The levels of the named clocks. -/
  clock : Nat → Bool := fun _ => false

/-- What one clock of a graph shows. -/
@[ext] structure Observed where
  outputs : List (String × List Bool)
  calls : List (Op × List Bool)
  failures : List String
  accessFaults : List Nat
  writeFaults : List Nat
  deriving DecidableEq

/-! ## Reading operands -/

/-- A condition holds if some bit of it is set. -/
def flag (look : Nat → Option Bool) (value : Value) : Option Bool :=
  (value.mapM look).map (·.any id)

/-- The events among optional ones. -/
def events {α β : Type} (event : α → Option (Option β)) (items : List α) : Option (List β) :=
  (items.mapM event).map List.reduceOption

/-- The clock edge a record waits for. -/
abbrev Edges := Int → Bool → Option Bool

section

variable (look : Nat → Option Bool) (edge : Edges)

def outputsOf (ports : List Port) : Option (List (String × List Bool)) :=
  events (fun p => if p.input then some none else (p.bits.mapM look).map fun v => some (p.name, v))
    ports

namespace Node

def call (n : Node) : Option (Option (Op × List Bool)) :=
  if n.hostEffect then do
    let enabled ← flag look n.select
    let arguments ← n.right.mapM look
    pure (if enabled then some (n.op, arguments) else none)
  else some none

/-- The assertion a node reports. -/
def failure (n : Node) : Option (Option String) :=
  if n.validation then (flag look n.left).map fun failed => if failed then some n.name else none
  else some none

end Node

/-- Whether a row lies past the depth of a memory. -/
def pastDepth (memories : List Memory) (index row : Nat) : Option Bool :=
  memories[index]?.map fun m => decide (m.depth ≤ row)

def MemoryAccess.exceeds (memories : List Memory) (a : MemoryAccess) : Option Bool := do
  let address ← a.address.mapM look
  let enabled ← flag look a.enabled
  let clocked ← if a.transaction then edge a.clock a.falling else some true
  let past ← pastDepth memories a.memory (natOfBits address)
  pure (clocked && enabled && past)

namespace MemoryWrite

/-- The row and the data a write puts into it at this clock. -/
def update (w : MemoryWrite) : Option (Option (Nat × List Bool)) := do
  let address ← w.address.mapM look
  let data ← w.data.mapM look
  let enabled ← flag look w.enabled
  let clocked ← edge w.clock w.falling
  pure (if clocked && enabled then some (natOfBits address, data) else none)

def exceeds (memories : List Memory) (w : MemoryWrite) : Option Bool := do
  let update ← w.update look edge
  let past ← pastDepth memories w.memory (update.elim 0 Prod.fst)
  pure (update.isSome && past)

end MemoryWrite

/-- The value a state takes over at this clock. A reset needs no edge. -/
def State.update (s : State) : Option (Option (List Bool)) := do
  let next ← s.next.mapM look
  let trigger ← flag look s.trigger
  let clocked ← edge s.clock s.falling
  let reset ← flag look s.reset
  let resetValue ← s.resetValue.mapM look
  pure (if reset then some resetValue else if trigger && clocked then some next else none)

/-! ## Committing -/

/-- Lanes past the end of a value read 0, as slices do. -/
def storeBits (bits : Value) (value : List Bool) (register : Nat → Bool) : Nat → Bool :=
  bits.zipIdx.foldl (fun r p => Function.update r p.1 (value.getD p.2 false)) register

/-- Rows past the depth do not exist. -/
def storeRow (memories : List Memory) (index row : Nat) (data : List Bool) (rows : Rows) : Rows :=
  match memories[index]? with
  | some m =>
      if row < m.depth then
        fun k r b => if k = index ∧ r = row then data.getD b false else rows k r b
      else rows
  | none => rows

def commitState (register : Nat → Bool) (s : State) : Option (Nat → Bool) :=
  (s.update look edge).map fun
    | some value => storeBits s.bits value register
    | none => register

def commitWrite (memories : List Memory) (rows : Rows) (w : MemoryWrite) : Option Rows :=
  (w.update look edge).map fun
    | some (row, data) => storeRow memories w.memory row data rows
    | none => rows

end

namespace Graph

variable (g : Graph)

/-- Whether a bit is a lane of a register. -/
def isRegister (bit : Nat) : Bool :=
  match g.nodes[owner bit]? with
  | some n => n.op = .state
  | none => false

def env (x : Stimulus) (s : Store) : Env where
  leaf bit := if g.isRegister bit then s.register bit else x.leaf bit
  memory := s.memory
  projection := x.projection

/-- `clockEdge`: a named clock rises or falls against its level at the last
commit, and a record without a clock waits for nothing. -/
def edge (x : Stimulus) (s : Store) : Edges := fun clock falling =>
  if clock < 0 then some true
  else if clock.toNat < g.clocks.length then
    some (if falling then !x.clock clock.toNat && s.clock clock.toNat
      else x.clock clock.toNat && !s.clock clock.toNat)
  else none

def observe (look : Nat → Option Bool) (edge : Edges) : Option Observed := do
  let outputs ← outputsOf look g.ports
  let calls ← events (·.call look) g.nodes.toList
  let failures ← events (·.failure look) g.nodes.toList
  let accessFaults ← events (fun a => (a.exceeds look edge g.memories).map fun e =>
    if e then some a.memory else none) g.memoryAccesses
  let writeFaults ← events (fun w => (w.exceeds look edge g.memories).map fun e =>
    if e then some w.memory else none) g.memoryWrites
  pure ⟨outputs, calls, failures, accessFaults, writeFaults⟩

def commitRegisters (look : Nat → Option Bool) (edge : Edges) (register : Nat → Bool) :
    Option (Nat → Bool) := g.states.foldlM (commitState look edge) register

def commitRows (look : Nat → Option Bool) (edge : Edges) (rows : Rows) : Option Rows :=
  g.memoryWrites.foldlM (commitWrite look edge g.memories) rows

/-- One clock, for given values of the bits. -/
def cycle (look : Nat → Option Bool) (x : Stimulus) (s : Store) : Option (Observed × Store) := do
  let observed ← g.observe look (g.edge x s)
  let register ← g.commitRegisters look (g.edge x s) s.register
  let memory ← g.commitRows look (g.edge x s) s.memory
  pure (observed, ⟨register, memory, x.clock⟩)

/-- The clocked machine a graph describes. -/
noncomputable def machine (P : Primitives) : Machine Stimulus Observed Store where
  step x s := g.cycle (g.value P (g.env x s)) x s

/-- The value a register lane has before the first clock. -/
def initialBit (bit : Nat) : Bool :=
  match g.nodes[owner bit]? with
  | some n => n.left[lane bit]? == some 1
  | none => false

end Graph

/-! ## More defined bits -/

section

variable {f h : Nat → Option Bool}

theorem Below.refines_mapM {α β : Type} {f h : α → Option β} (hfh : Below f h) (l : List α) :
    Refines (l.mapM f) (l.mapM h) := fun _ hv => hfh.mapM hv

theorem flag_mono (hfh : Below f h) (value : Value) : Refines (flag f value) (flag h value) :=
  (hfh.refines_mapM value).map _

theorem events_mono {α β : Type} {e e' : α → Option (Option β)}
    (h : ∀ a, Refines (e a) (e' a)) (l : List α) : Refines (events e l) (events e' l) :=
  (Below.refines_mapM h l).map _

variable (hfh : Below f h)

include hfh

theorem outputsOf_mono (ports : List Port) :
    Refines (outputsOf f ports) (outputsOf h ports) := by
  refine events_mono (fun p => ?_) ports
  split
  · exact Refines.refl _
  · exact (hfh.refines_mapM p.bits).map _

theorem Node.call_mono (n : Node) : Refines (n.call f) (n.call h) := by
  unfold Node.call
  split
  · exact (flag_mono hfh n.select).bind fun _ =>
      (hfh.refines_mapM n.right).bind fun _ => Refines.refl _
  · exact Refines.refl _

theorem Node.failure_mono (n : Node) : Refines (n.failure f) (n.failure h) := by
  unfold Node.failure
  split
  · exact (flag_mono hfh n.left).map _
  · exact Refines.refl _

variable (edge : Edges)

theorem MemoryAccess.exceeds_mono (memories : List Memory) (a : MemoryAccess) :
    Refines (a.exceeds f edge memories) (a.exceeds h edge memories) := by
  unfold MemoryAccess.exceeds
  exact (hfh.refines_mapM a.address).bind fun _ =>
    (flag_mono hfh a.enabled).bind fun _ => Refines.refl _

theorem MemoryWrite.update_mono (w : MemoryWrite) :
    Refines (w.update f edge) (w.update h edge) := by
  unfold MemoryWrite.update
  exact (hfh.refines_mapM w.address).bind fun _ => (hfh.refines_mapM w.data).bind fun _ =>
    (flag_mono hfh w.enabled).bind fun _ => Refines.refl _

theorem MemoryWrite.exceeds_mono (memories : List Memory) (w : MemoryWrite) :
    Refines (w.exceeds f edge memories) (w.exceeds h edge memories) :=
  (w.update_mono hfh edge).bind fun _ => Refines.refl _

theorem State.update_mono (s : State) : Refines (s.update f edge) (s.update h edge) := by
  unfold State.update
  exact (hfh.refines_mapM s.next).bind fun _ => (flag_mono hfh s.trigger).bind fun _ =>
    (Refines.refl _).bind fun _ => (flag_mono hfh s.reset).bind fun _ =>
      (hfh.refines_mapM s.resetValue).bind fun _ => Refines.refl _

theorem Graph.observe_mono (g : Graph) : Refines (g.observe f edge) (g.observe h edge) := by
  unfold Graph.observe
  exact (outputsOf_mono hfh g.ports).bind fun _ =>
    (events_mono (fun n => n.call_mono hfh) _).bind fun _ =>
      (events_mono (fun n => n.failure_mono hfh) _).bind fun _ =>
        (events_mono (fun a => (a.exceeds_mono hfh edge _).map _) _).bind fun _ =>
          (events_mono (fun w => (w.exceeds_mono hfh edge _).map _) _).bind fun _ =>
            Refines.refl _

theorem Graph.commitRegisters_mono (g : Graph) (register : Nat → Bool) :
    Refines (g.commitRegisters f edge register) (g.commitRegisters h edge register) :=
  Refines.foldlM (fun _ s => (s.update_mono hfh edge).map _) _ _

theorem Graph.commitRows_mono (g : Graph) (rows : Rows) :
    Refines (g.commitRows f edge rows) (g.commitRows h edge rows) :=
  Refines.foldlM (fun _ w => (w.update_mono hfh edge).map _) _ _

/-- A clock that runs on some values of the bits runs alike on more of them. -/
theorem Graph.cycle_mono (g : Graph) (x : Stimulus) (s : Store) :
    Refines (g.cycle f x s) (g.cycle h x s) := by
  unfold Graph.cycle
  exact (g.observe_mono hfh _).bind fun _ => (g.commitRegisters_mono hfh _ _).bind fun _ =>
    (g.commitRows_mono hfh _ _).bind fun _ => Refines.refl _

end

/-- The machine with its bits evaluated in finitely many rounds, to run. -/
def Graph.evaluated (P : Primitives) (g : Graph) (fuel : Nat) :
    Machine Stimulus Observed Store where
  step x s := g.cycle (g.evaluate P (g.env x s) fuel) x s

theorem Graph.machine_of_evaluated (P : Primitives) (g : Graph) (fuel : Nat) (x : Stimulus)
    (s : Store) (p : Observed × Store) (h : (g.evaluated P fuel).step x s = some p) :
    (g.machine P).step x s = some p :=
  g.cycle_mono (fun _ _ h => g.value_of_evaluate P _ fuel h) x s p h

/-- What a concrete clock shows can be computed with finitely many rounds of
evaluation. -/
theorem Graph.shows_of_evaluate (P : Primitives) (g : Graph) (fuel : Nat) {x : Stimulus}
    {s : Store} {o : Observed}
    (h : (g.cycle (g.evaluate P (g.env x s) fuel) x s).map Prod.fst = some o) :
    ((g.machine P).run [x] s).map Prod.fst = some [o] :=
  Machine.run_singleton_shows
    ((g.cycle_mono (fun _ _ h => g.value_of_evaluate P _ fuel h) x s).map _ o h)

/-! ## A world in which nothing happens -/

def noPrimitives : Primitives := ⟨fun _ _ _ _ => 0, fun _ _ _ _ _ => 0⟩

def dark : Stimulus := { leaf := fun _ => false }

def emptyStore : Store := ⟨fun _ => false, fun _ _ _ => false, fun _ => false⟩

end CppHdl
