import Mathlib.Data.List.Dedup
import Mathlib.Data.List.Sort
import CppHdl.Lib.Schedule
import CppHdl.Native.Root

/-!
# The lane plan

`nativeParallelPlan` of `cpphdl_graph_native.h`. Every value the host must
assemble is a sink: output words, register updates, memory addresses and data,
host effects, checks. Sinks are collected in roots, a root is placed on a lane,
and the lane owns all combinational operations the root depends on. Operations
owned by several lanes are cloned, so that no lane reads what another computes.

Pointers to values are names here (`Field`), and what the plan writes through
them is a function on these names. Costs are sums over the bits of the graph
and stay below `2 ^ 64`; the score of a lane is reduced explicitly. `resolve`
is `Graph.root`.
-/

namespace CppHdl.Native

structure NativeParallelPlan where
  lanes : Nat := 1
  stages : Nat := 1
  cost : Nat := 0
  tasks : List (List Nat) := []
  waits : List (List Nat) := []
  ports : List Nat := []
  states : List Nat := []
  accesses : List Nat := []
  writes : List Nat := []
  portWords : List (List Nat) := []

/-! ## Values -/

/-- Current state and input ports, where the cones end. -/
def isSource (g : Graph) (index : Nat) : Bool :=
  match g.nodes[index]? with
  | some n => n.op = .input || n.op = .state
  | none => false

/-- The operations of a schedule. -/
def isValue (g : Graph) (index : Nat) : Bool :=
  match g.nodes[index]? with
  | some n => !(n.op = .input || n.op = .state || n.validation)
  | none => false

def values (g : Graph) (order : List Nat) : List Nat := order.filter (isValue g)

/-- Bits that do not continue a run of neighbouring lanes. -/
def breaks : Nat → List Nat → Nat
  | _, [] => 0
  | previous, bit :: bits =>
      if bit < 2 then breaks 0 bits
      else (if bit ≠ previous + 1 then 1 else 0) + breaks bit bits

/-- A `std::set` of indices, in the order it is iterated. -/
def orderedSet (l : List Nat) : List Nat := l.dedup.insertionSort (· ≤ ·)

def nodeWeight (g : Graph) (n : Node) : Nat :=
  1 + breaks 0 (n.left.map g.root) + breaks 0 (n.right.map g.root) + breaks 0 (n.select.map g.root)

def nodeDependencies (g : Graph) (n : Node) : List Nat :=
  orderedSet ((((n.operands.map g.root).filter (2 ≤ ·)).map owner).filter fun i => !isSource g i)

/-- 0 for what is no operation of the schedule. -/
def weight (g : Graph) (order : List Nat) (index : Nat) : Nat :=
  if index ∈ values g order then ((g.nodes[index]?).map (nodeWeight g)).getD 0 else 0

def dependencies (g : Graph) (order : List Nat) (index : Nat) : List Nat :=
  if index ∈ values g order then ((g.nodes[index]?).map (nodeDependencies g)).getD [] else []

/-! ## Sinks -/

inductive Field
  | portSlice (port word : Nat)
  | next (state : Nat)
  | trigger (state : Nat)
  | reset (state : Nat)
  | resetValue (state : Nat)
  | accessAddress (access : Nat)
  | accessEnabled (access : Nat)
  | writeAddress (write : Nat)
  | writeData (write : Nat)
  | writeEnabled (write : Nat)
  | hostValue (node : Nat)
  | validation (node : Nat)
  deriving DecidableEq

/-- A host word of an output port. -/
def portSlice (p : Port) (word : Nat) : Value :=
  slice p.bits (word * 64 : Nat) (min 64 (p.bits.length - word * 64))

def field (g : Graph) : Field → Value
  | .portSlice i word => ((g.ports[i]?).map (portSlice · word)).getD []
  | .next i => ((g.states[i]?).map (·.next)).getD []
  | .trigger i => ((g.states[i]?).map (·.trigger)).getD []
  | .reset i => ((g.states[i]?).map (·.reset)).getD []
  | .resetValue i => ((g.states[i]?).map (·.resetValue)).getD []
  | .accessAddress i => ((g.memoryAccesses[i]?).map (·.address)).getD []
  | .accessEnabled i => ((g.memoryAccesses[i]?).map (·.enabled)).getD []
  | .writeAddress i => ((g.memoryWrites[i]?).map (·.address)).getD []
  | .writeData i => ((g.memoryWrites[i]?).map (·.data)).getD []
  | .writeEnabled i => ((g.memoryWrites[i]?).map (·.enabled)).getD []
  | .hostValue i => [nodeBase i]
  | .validation i => ((g.nodes[i]?).map (·.left)).getD []

structure Roots where
  roots : List (List Field) := []
  portRoots : List (List Nat) := []
  stateRoots : List Nat := []
  accessRoots : List Nat := []
  writeRoots : List Nat := []
  hostRoots : List Nat := []
  validationRoots : List Nat := []

def portWords (width : Nat) : Nat := (width + 63) / 64

def addPort (r : Roots) (i : Nat) (p : Port) : Roots :=
  let words := if p.input then 0 else portWords p.bits.length
  { r with
    portRoots := r.portRoots ++ [(List.range words).map (r.roots.length + ·)]
    roots := r.roots ++ (List.range words).map fun word => [.portSlice i word] }

/-- The leader of a state's group. The source halves the chains it follows,
which changes no leader; `fuel` covers the longest chain. -/
def leader (group : Nat → Nat) (fuel i : Nat) : Nat := group^[fuel] i

structure Groups where
  group : Nat → Nat := id
  writers : Nat → Option Nat := fun _ => none

/-- State `i` writes the word that holds `bit`. -/
def joinWriter (fuel i : Nat) (s : Groups) (bit : Nat) : Groups :=
  match s.writers (owner bit) with
  | none => { s with writers := Function.update s.writers (owner bit) (some i) }
  | some first =>
      { s with group :=
          Function.update s.group (leader s.group fuel i) (leader s.group fuel first) }

/-- No more joins than state bits. -/
def joinFuel (g : Graph) : Nat := (g.states.map (·.bits.length)).sum

def groups (g : Graph) : Groups :=
  g.states.zipIdx.foldl (fun s p => p.1.bits.foldl (joinWriter (joinFuel g) p.2) s) {}

def stateFields (i : Nat) : List Field := [.next i, .trigger i, .reset i, .resetValue i]

/-- `groupRoot` is the root of each leader that has one. -/
def addState (leader : Nat → Nat) (s : Roots × (Nat → Option Nat)) (i : Nat) :
    Roots × (Nat → Option Nat) :=
  let (r, groupRoot) := s
  match groupRoot (leader i) with
  | some root =>
      ({ r with
          roots := r.roots.modify root (· ++ stateFields i)
          stateRoots := r.stateRoots ++ [root] }, groupRoot)
  | none =>
      ({ r with
          roots := r.roots ++ [stateFields i]
          stateRoots := r.stateRoots ++ [r.roots.length] },
        Function.update groupRoot (leader i) (some r.roots.length))

def addAccess (r : Roots) (i : Nat) : Roots :=
  { r with
    accessRoots := r.accessRoots ++ [r.roots.length]
    roots := r.roots ++ [[.accessAddress i, .accessEnabled i]] }

def addWrite (r : Roots) (i : Nat) : Roots :=
  { r with
    writeRoots := r.writeRoots ++ [r.roots.length]
    roots := r.roots ++ [[.writeAddress i, .writeData i, .writeEnabled i]] }

def addHost (r : Roots) (index : Nat) : Roots :=
  { r with
    hostRoots := r.hostRoots ++ [r.roots.length]
    roots := r.roots ++ [[.hostValue index]] }

def addValidation (r : Roots) (index : Nat) : Roots :=
  { r with
    validationRoots := r.validationRoots ++ [r.roots.length]
    roots := r.roots ++ [[.validation index]] }

def isHost (g : Graph) (index : Nat) : Bool := ((g.nodes[index]?).map (·.hostEffect)).getD false

def isValidation (g : Graph) (index : Nat) : Bool :=
  ((g.nodes[index]?).map (·.validation)).getD false

/-- Every sink in a root of its own, but the states that write one word. -/
def sinkRoots (g : Graph) (order : List Nat) : Roots :=
  let r := g.ports.zipIdx.foldl (fun r p => addPort r p.2 p.1) {}
  let leader := leader (groups g).group (joinFuel g)
  let r := ((List.range g.states.length).foldl (addState leader) (r, fun _ => none)).1
  let r := (List.range g.memoryAccesses.length).foldl addAccess r
  let r := (List.range g.memoryWrites.length).foldl addWrite r
  let r := (order.filter (isHost g)).foldl addHost r
  ((List.range g.nodes.size).filter (isValidation g)).foldl addValidation r

/-! ## Scopes -/

structure Scopes where
  scopes : Nat → String := fun _ => ""
  mixed : Nat → Bool := fun _ => false

def Scopes.assign (s : Scopes) (root : Nat) (scope : String) : Scopes :=
  if scope = "" then { s with mixed := Function.update s.mixed root true }
  else if s.scopes root = "" then { s with scopes := Function.update s.scopes root scope }
  else if s.scopes root ≠ scope then { s with mixed := Function.update s.mixed root true }
  else s

/-- The scope in the name of a memory: up to the last `/` or `.`. -/
def memoryScope (g : Graph) (memory : Nat) : String :=
  let name := ((g.memories[memory]?).map (·.name)).getD ""
  String.ofList (name.toList.reverse.dropWhile fun c => c != '/' && c != '.').tail.reverse

def rootScopes (g : Graph) (r : Roots) : Scopes :=
  let s : Scopes := (g.states.zip r.stateRoots).foldl (fun s p => p.1.bits.foldl (fun s bit =>
    s.assign p.2 (((g.nodes[owner bit]?).map (·.scope)).getD "")) s) {}
  let s := (g.memoryAccesses.zip r.accessRoots).foldl (fun s p =>
    s.assign p.2 (memoryScope g p.1.memory)) s
  (g.memoryWrites.zip r.writeRoots).foldl (fun s p => s.assign p.2 (memoryScope g p.1.memory)) s

structure Grouped where
  /-- The root that collects a scope, and how many it has collected. -/
  groups : String → Option (Nat × Nat) := fun _ => none
  grouped : List (List Field) := []
  remap : List Nat := []

/-- Where the next root goes; a scope is split after 256 roots. -/
def Grouped.destination (s : Grouped) (scopes : Scopes) (i : Nat) :
    Nat × (String → Option (Nat × Nat)) :=
  let dest := s.grouped.length
  if !scopes.mixed i && scopes.scopes i ≠ "" then
    let entry := (s.groups (scopes.scopes i)).getD (dest, 0)
    let entry := if entry.2 = 256 then (dest, 0) else entry
    (entry.1, Function.update s.groups (scopes.scopes i) (some (entry.1, entry.2 + 1)))
  else (dest, s.groups)

def groupRoot (scopes : Scopes) (s : Grouped) (root : List Field × Nat) : Grouped :=
  let (dest, groups) := s.destination scopes root.2
  let grouped := if dest = s.grouped.length then s.grouped ++ [[]] else s.grouped
  { groups
    grouped := grouped.modify dest (· ++ root.1)
    remap := s.remap ++ [dest] }

/-- `scopeTasks`: states and memories of one scope share a root. -/
def scopedRoots (g : Graph) (r : Roots) : Roots :=
  let s := r.roots.zipIdx.foldl (groupRoot (rootScopes g r)) {}
  let remap := fun i => s.remap.getD i 0
  { roots := s.grouped
    portRoots := r.portRoots.map (·.map remap)
    stateRoots := r.stateRoots.map remap
    accessRoots := r.accessRoots.map remap
    writeRoots := r.writeRoots.map remap
    hostRoots := r.hostRoots.map remap
    validationRoots := r.validationRoots.map remap }

/-! ## Cones and costs -/

/-- The operations a root needs, in the order they are visited. -/
def visitCone (g : Graph) (order : List Nat) (root : List Field) : List Nat :=
  let pending := (((root.flatMap (field g)).map g.root).filter fun bit =>
    1 < bit && weight g order (owner bit) ≠ 0).map owner
  let fuel := pending.length + ((values g order).map fun i => (dependencies g order i).length).sum
  visit (dependencies g order) fuel pending.reverse []

/-- Assembling a sink is work as well. -/
def sinkCost (g : Graph) (root : List Field) : Nat :=
  1 + (root.map fun f => ((field g f).length + 63) / 64).sum

def rootCost (g : Graph) (order : List Nat) (root : List Field) : Nat :=
  sinkCost g root + ((visitCone g order root).map (weight g order)).sum

def active (g : Graph) (order : List Nat) (roots : List (List Field)) : Nat :=
  roots.countP fun root => !(visitCone g order root).isEmpty

/-- Roots that stay on lane 0. -/
def callerRoots (g : Graph) (order : List Nat) (hostOverlap : Bool) (r : Roots) : List Nat :=
  (List.range r.roots.length).filter fun i =>
    i ∈ r.validationRoots || i ∈ r.hostRoots ||
    (!r.hostRoots.isEmpty && (visitCone g order (r.roots.getD i [])).any (isHost g)) ||
    (hostOverlap && (i ∈ r.portRoots.flatten || i ∈ r.accessRoots || i ∈ r.writeRoots))

/-! ## Placement -/

structure Placement where
  owned : Nat → List Nat := fun _ => []
  load : Nat → Nat := fun _ => 0
  lane : Nat → Nat := fun _ => 0

/-- What a lane must still compute of a cone. -/
def missing (g : Graph) (order : List Nat) (owned cone : List Nat) : Nat :=
  ((cone.filter (· ∉ owned)).map (weight g order)).sum

def placeCaller (g : Graph) (order : List Nat) (roots : List (List Field)) (p : Placement)
    (r : Nat) : Placement :=
  let cone := visitCone g order (roots.getD r [])
  { p with
    load := Function.update p.load 0
      (p.load 0 + sinkCost g (roots.getD r []) + missing g order (p.owned 0) cone)
    owned := Function.update p.owned 0 (p.owned 0 ++ cone) }

/-- The best lane so far, its score and what it would add. -/
structure Best where
  score : Nat := 2 ^ 64 - 1
  added : Nat := 0
  lane : Nat

def score (balanceLanes : Bool) (lanes peak load added : Nat) : Nat :=
  let cost := if balanceLanes then load + added else max peak (load + added)
  (cost * lanes * 4 + added) % 2 ^ 64

def tryLane (g : Graph) (order : List Nat) (balanceLanes : Bool) (lanes : Nat) (p : Placement)
    (root : List Field) (cone : List Nat) (peak : Nat) (best : Best) (lane : Nat) : Best :=
  let added := sinkCost g root + missing g order (p.owned lane) cone
  let score := score balanceLanes lanes peak (p.load lane) added
  if score < best.score then ⟨score, added, lane⟩ else best

def placeRoot (g : Graph) (order : List Nat) (hostOverlap balanceLanes : Bool) (lanes : Nat)
    (roots : List (List Field)) (p : Placement) (r : Nat) : Placement :=
  let root := roots.getD r []
  let cone := visitCone g order root
  let peak := ((List.range lanes).map p.load).foldl max 0
  let candidates := (List.range lanes).filter fun lane => !hostOverlap || lane ≠ 0
  let best := candidates.foldl (tryLane g order balanceLanes lanes p root cone peak)
    { lane := p.lane r }
  { owned := Function.update p.owned best.lane (p.owned best.lane ++ cone)
    load := Function.update p.load best.lane (p.load best.lane + best.added)
    lane := Function.update p.lane r best.lane }

/-- Large cones first; roots of one cost keep their order. -/
def sortedRoots (g : Graph) (order : List Nat) (roots : List (List Field)) : List Nat :=
  (List.range roots.length).insertionSort fun a b =>
    rootCost g order (roots.getD b []) ≤ rootCost g order (roots.getD a [])

def place (g : Graph) (order : List Nat) (hostOverlap balanceLanes : Bool) (lanes : Nat)
    (r : Roots) : Placement :=
  let caller := callerRoots g order hostOverlap r
  let p := caller.foldl (placeCaller g order r.roots) {}
  ((sortedRoots g order r.roots).filter (· ∉ caller)).foldl
    (placeRoot g order hostOverlap balanceLanes lanes r.roots) p

def usedLanes (lanes : Nat) (p : Placement) : List Nat :=
  (List.range lanes).filter fun lane => lane = 0 || p.load lane ≠ 0

/-- Without empty lanes. A lane that is dropped maps to 0. -/
def Placement.compact (lanes : Nat) (p : Placement) : Placement :=
  let used := usedLanes lanes p
  { owned := fun lane => p.owned (used.getD lane 0)
    load := fun lane => p.load (used.getD lane 0)
    lane := fun r => if p.lane r ∈ used then used.idxOf (p.lane r) else 0 }

/-! ## Clones -/

/-- Point a bit at the lane's own copy of its producer. -/
def remapBit (g : Graph) (order : List Nat) (copy : Nat → Option Nat) (raw : Nat) :
    Except String Nat :=
  let bit := g.root raw
  if bit < 2 || weight g order (owner bit) = 0 then .ok bit
  else
    match copy (owner bit) with
    | none => .error "missing native cone producer"
    | some index => .ok (nodeBase index + lane bit)

def remap (g : Graph) (order : List Nat) (copy : Nat → Option Nat) (bits : Value) :
    Except String Value :=
  bits.mapM (remapBit g order copy)

def remapNode (g : Graph) (order : List Nat) (copy : Nat → Option Nat) (n : Node) :
    Except String Node := do
  let left ← remap g order copy n.left
  let right ← remap g order copy n.right
  let select ← remap g order copy n.select
  pure { n with left, right, select }

structure Clones where
  nodes : Array Node
  reused : Nat → Bool := fun _ => false

/-- A lane while its operations are copied. -/
structure LaneCopy where
  clones : Clones
  copy : Nat → Option Nat := fun _ => none
  tasks : List Nat := []

/-- The first owner of an operation reuses it. -/
def cloneNode (g : Graph) (order : List Nat) (s : LaneCopy) (node : Nat) :
    Except String LaneCopy :=
  match g.nodes[node]? with
  | none => .ok s
  | some original => do
      let cloned ← remapNode g order s.copy original
      if s.clones.reused node then
        pure {
          clones := { s.clones with nodes := s.clones.nodes.push cloned }
          copy := Function.update s.copy node (some s.clones.nodes.size)
          tasks := s.tasks ++ [s.clones.nodes.size] }
      else
        pure {
          clones := {
            nodes := s.clones.nodes.setIfInBounds node cloned
            reused := Function.update s.clones.reused node true }
          copy := Function.update s.copy node (some node)
          tasks := s.tasks ++ [node] }

/-- The graph under construction: its nodes, the values of the fields, and the
tasks of the lanes done. -/
structure Cloning where
  clones : Clones
  fields : Field → Value
  tasks : List (List Nat) := []

def remapField (g : Graph) (order : List Nat) (copy : Nat → Option Nat) (fields : Field → Value)
    (f : Field) : Except String (Field → Value) := do
  let bits ← remap g order copy (fields f)
  pure (Function.update fields f bits)

def cloneLane (g : Graph) (order : List Nat) (roots : List (List Field)) (p : Placement)
    (s : Cloning) (lane : Nat) : Except String Cloning := do
  let own := (values g order).filter (· ∈ p.owned lane)
  let l ← own.foldlM (cloneNode g order) { clones := s.clones }
  let sinks := (roots.zipIdx.filter fun r => p.lane r.2 = lane).flatMap (·.1)
  let fields ← sinks.foldlM (remapField g order l.copy) s.fields
  pure { clones := l.clones, fields, tasks := s.tasks ++ [l.tasks] }

/-- The words of an output port, put together again. -/
def withPort (fields : Field → Value) (i : Nat) (p : Port) : Port :=
  if p.input then p
  else
    let slices := (List.range (portWords p.bits.length)).map fun word => fields (.portSlice i word)
    { p with bits := slices.flatten }

def withState (fields : Field → Value) (i : Nat) (s : State) : State :=
  { s with
    next := fields (.next i)
    trigger := fields (.trigger i)
    reset := fields (.reset i)
    resetValue := fields (.resetValue i) }

def withAccess (fields : Field → Value) (i : Nat) (a : MemoryAccess) : MemoryAccess :=
  { a with address := fields (.accessAddress i), enabled := fields (.accessEnabled i) }

def withWrite (fields : Field → Value) (i : Nat) (w : MemoryWrite) : MemoryWrite :=
  { w with
    address := fields (.writeAddress i)
    data := fields (.writeData i)
    enabled := fields (.writeEnabled i) }

def withNode (fields : Field → Value) (i : Nat) (n : Node) : Node :=
  if n.validation then { n with left := fields (.validation i) } else n

def withFields (g : Graph) (nodes : Array Node) (fields : Field → Value) : Graph :=
  { g with
    nodes := nodes.mapIdx (withNode fields)
    ports := g.ports.mapIdx (withPort fields)
    states := g.states.mapIdx (withState fields)
    memoryAccesses := g.memoryAccesses.mapIdx (withAccess fields)
    memoryWrites := g.memoryWrites.mapIdx (withWrite fields) }

/-! ## The plan -/

def sinkLanes (g : Graph) (r : Roots) (lanes : Nat) (p : Placement) (tasks : List (List Nat)) :
    NativeParallelPlan :=
  { lanes, stages := 1
    cost := ((List.range lanes).map p.load).foldl max 0
    tasks
    waits := List.replicate lanes []
    ports := r.portRoots.map fun words => (words.head?.map p.lane).getD 0
    states := r.stateRoots.map p.lane
    accesses := r.accessRoots.map p.lane
    writes := r.writeRoots.map p.lane
    portWords := (g.ports.zip r.portRoots).map fun (port, words) =>
      (List.range (if port.input then 0 else (port.bits.length + 31) / 32)).map fun word =>
        p.lane (words.getD (word / 2) 0) }

/-- The plan when there are lanes to choose from. -/
def lanePlan (g : Graph) (order : List Nat) (hostOverlap balanceLanes : Bool) (r : Roots)
    (capacity : Nat) : Except String (NativeParallelPlan × Graph) := do
  let placed := place g order hostOverlap balanceLanes capacity r
  let lanes := (usedLanes capacity placed).length
  let p := placed.compact capacity
  let s ← (List.range lanes).foldlM (cloneLane g order r.roots p)
    { clones := { nodes := g.nodes }, fields := field g }
  pure (sinkLanes g r lanes p s.tasks, withFields g s.clones.nodes s.fields)

def nativeParallelPlan (g : Graph) (order : List Nat) (lanes : Nat) (hostOverlap : Bool := false)
    (balanceLanes : Bool := false) (scopeTasks : Bool := false) :
    Except String (NativeParallelPlan × Graph) :=
  let values := values g order
  if values.isEmpty then .ok ({}, g)
  else
    let r := sinkRoots g order
    let r := if scopeTasks then scopedRoots g r else r
    let capacity := min lanes (active g order r.roots)
    if capacity < 2 then .ok ({ tasks := [values], waits := [[]] }, g)
    else lanePlan g order hostOverlap balanceLanes r capacity

end CppHdl.Native
