import Std.Data.ExtTreeMap
import CppHdl.Lib.Bits
import CppHdl.Lib.Failing

/-!
# The graph and its records

The netlist of `cpphdl_graph.h`. A bit is a number: 0 and 1 are the constants,
and node `i` owns the bits `(i + 1) * 64 + 2` and up, one for each of its
lanes. A `Value` is a list of bits, least significant first; concatenation,
fields and ports are lists too and cost no nodes.

Machine integers of the source are naturals here. Bit identifiers, indices
and sizes stay far below `2 ^ 64`; the operand words of `calculate` wrap, and
are reduced explicitly there.
-/

namespace CppHdl

/-- Bits, as the numbers that identify them. -/
abbrev Value := List Nat

/-- Operation texts with a meaning of their own, so not free for `Op.other`. -/
def reservedOps : List String :=
  ["input", "state", "wire", "and", "or", "xor", "mux", "any", "all", "parity",
   "add", "sub", "mul", "div", "mod", "sdiv", "smod", "eq", "lt", "slt",
   "shl", "shr", "sar", "word_slice", "memory_read", "blackbox",
   "host_random", "host_jtag_tick", "host_debug_tick", "host_debug_output",
   "assert_failure"]

/-- `op.compare(0, 3, "fp_") == 0`. -/
def isFpText (text : String) : Bool := text.toList.take 3 == ['f', 'p', '_']

def isReservedOp (text : String) : Bool := reservedOps.contains text || isFpText text

/-- The operation of a node. The source keeps it as text; `Op.text` is that
text, and a text without a meaning of its own is carried by `other`. -/
inductive Op
  | input | state | wire
  | and | or | xor | mux
  | any | all | parity
  | add | sub | mul | div | mod | sdiv | smod
  | eq | lt | slt
  | shl | shr | sar
  | wordSlice | memoryRead | blackbox
  | hostRandom | hostJtagTick | hostDebugTick | hostDebugOutput
  | assertFailure
  | fp (suffix : String)
  | other (text : String) (h : isReservedOp text = false)
  deriving DecidableEq

def Op.text : Op → String
  | .input => "input" | .state => "state" | .wire => "wire"
  | .and => "and" | .or => "or" | .xor => "xor" | .mux => "mux"
  | .any => "any" | .all => "all" | .parity => "parity"
  | .add => "add" | .sub => "sub" | .mul => "mul" | .div => "div" | .mod => "mod"
  | .sdiv => "sdiv" | .smod => "smod" | .eq => "eq" | .lt => "lt" | .slt => "slt"
  | .shl => "shl" | .shr => "shr" | .sar => "sar"
  | .wordSlice => "word_slice" | .memoryRead => "memory_read" | .blackbox => "blackbox"
  | .hostRandom => "host_random" | .hostJtagTick => "host_jtag_tick"
  | .hostDebugTick => "host_debug_tick" | .hostDebugOutput => "host_debug_output"
  | .assertFailure => "assert_failure"
  | .fp suffix => "fp_" ++ suffix
  | .other text _ => text

def Op.ofText (text : String) : Op :=
  if h : isReservedOp text = false then .other text h
  else if isFpText text then .fp (String.ofList (text.toList.drop 3))
  else
    match text with
    | "input" => .input | "state" => .state | "wire" => .wire
    | "and" => .and | "or" => .or | "xor" => .xor | "mux" => .mux
    | "any" => .any | "all" => .all | "parity" => .parity
    | "add" => .add | "sub" => .sub | "mul" => .mul | "div" => .div | "mod" => .mod
    | "sdiv" => .sdiv | "smod" => .smod | "eq" => .eq | "lt" => .lt | "slt" => .slt
    | "shl" => .shl | "shr" => .shr | "sar" => .sar
    | "word_slice" => .wordSlice | "memory_read" => .memoryRead | "blackbox" => .blackbox
    | "host_random" => .hostRandom | "host_jtag_tick" => .hostJtagTick
    | "host_debug_tick" => .hostDebugTick | "host_debug_output" => .hostDebugOutput
    | _ => .assertFailure

theorem Op.ofText_text (op : Op) : Op.ofText op.text = op := by
  cases op
  case fp suffix =>
    have hfp : isFpText ("fp_" ++ suffix) = true := by simp [isFpText]
    unfold Op.ofText Op.text
    simp [isReservedOp, hfp]
  case other text h =>
    unfold Op.ofText Op.text
    rw [dif_pos h]
  all_goals rfl

theorem Op.text_injective {a b : Op} (h : a.text = b.text) : a = b := by
  rw [← a.ofText_text, h, b.ofText_text]

structure Node where
  op : Op
  width : Nat
  left : Value
  right : Value
  select : Value
  name : String
  scope : String
  deriving DecidableEq

def Op.hostEffect : Op → Bool
  | .hostRandom | .hostJtagTick | .hostDebugTick => true
  | _ => false

def Op.validation (op : Op) : Bool := op = .assertFailure

namespace Node

def hostEffect (n : Node) : Bool := n.op.hostEffect

def validation (n : Node) : Bool := n.op.validation

def operands (n : Node) : List Nat := n.left ++ n.right ++ n.select

end Node

structure Port where
  name : String
  bits : Value
  input : Bool

structure State where
  bits : Value
  next : Value
  trigger : Value
  clock : Int := -1
  falling : Bool := false
  reset : Value := []
  resetValue : Value := []

structure Clock where
  name : String
  frequency : Nat

/-- Nonempty contents describe an immutable ROM, row-major with each row
rounded up to 64-bit words. -/
structure Memory where
  name : String
  width : Nat
  depth : Nat
  contents : List Nat := []

structure MemoryAccess where
  memory : Nat
  address : Value
  enabled : Value
  transaction : Bool
  clock : Int := -1
  falling : Bool := false

structure MemoryWrite where
  memory : Nat
  address : Value
  data : Value
  enabled : Value
  clock : Int := -1
  falling : Bool := false

structure ScopeAttribute where
  scope : String
  name : String
  value : String

/-- A streaming region: its untimed transition graph as text (`logic`) and the
bindings of its boundary to the graph that holds it. -/
structure StreamPipeline where
  scope : String
  logic : String
  pins : Std.ExtTreeMap String Value
  registers : List Value
  stages : Nat := 1
  latency : Nat := 1
  generation : Nat := 0

structure PipelineReplacement where
  scope : String
  module : String
  verilog : String
  latency : Nat := 1
  pins : Std.ExtTreeMap String Value

inductive ClockContract
  | explicitEvents | risingEdgeStep | namedEdges
  deriving DecidableEq

structure Graph where
  clockContract : ClockContract := .explicitEvents
  clocks : List Clock := []
  nodes : Array Node := #[]
  aliases : Std.ExtTreeMap Nat Nat := ∅
  ports : List Port := []
  states : List State := []
  memories : List Memory := []
  memoryAccesses : List MemoryAccess := []
  memoryWrites : List MemoryWrite := []
  currentScope : String := ""
  attributes : List ScopeAttribute := []
  pipelines : List StreamPipeline := []
  replacements : List PipelineReplacement := []

/-- What a method on a graph may throw. -/
inductive GraphError
  | runtime (message : String)
  | outOfRange
  | unresolvedCycle (reason : String) (bit : Nat)

abbrev GraphM := Failing GraphError Graph

/-! ## Values -/

def mask (width : Nat) : Nat := if 64 ≤ width then 2 ^ 64 - 1 else 2 ^ width - 1

def constant (number width : Nat) : Value :=
  (List.range width).map fun index => if index < 64 then (number >>> index) &&& 1 else 0

/-- The number of a value made of constants; wider values have none. -/
def number (value : Value) : Option Nat :=
  if 64 < value.length then none
  else if value.any (1 < ·) then none
  else some (natOfBits (value.map (· == 1)))

def resize (value : Value) (width : Nat) (sign : Bool := false) : Value :=
  value.take width ++
    List.replicate (width - value.length) (if sign then value.getLastD 0 else 0)

def slice (value : Value) (offset : Int) (width : Nat) : Value :=
  (List.range width).map fun (index : Nat) =>
    if 0 ≤ offset + index then value.getD (offset + index).toNat 0 else 0

/-! ## Bits and their owners -/

/-- The first bit of node `index`. -/
def nodeBase (index : Nat) : Nat := (index + 1) * 64 + 2

def owner (bit : Nat) : Nat := (bit - 2) / 64 - 1

def lane (bit : Nat) : Nat := (bit - 2) % 64

theorem owner_nodeBase_add {index offset : Nat} (h : offset < 64) :
    owner (nodeBase index + offset) = index := by
  unfold owner nodeBase
  omega

theorem lane_nodeBase_add {index offset : Nat} (h : offset < 64) :
    lane (nodeBase index + offset) = offset := by
  unfold lane nodeBase
  omega

theorem nodeBase_owner_add_lane {bit : Nat} (h : 66 ≤ bit) :
    nodeBase (owner bit) + lane bit = bit := by
  unfold nodeBase owner lane
  omega

theorem lane_lt (bit : Nat) : lane bit < 64 := Nat.mod_lt _ (by omega)

theorem owner_lt_iff {bit : Nat} {size : Nat} (h : 66 ≤ bit) :
    owner bit < size ↔ bit < nodeBase size := by
  unfold owner nodeBase
  omega

namespace Graph

/-- The identifiers below `bound` are constants or belong to a node. -/
def bound (g : Graph) : Nat := nodeBase g.nodes.size

end Graph

end CppHdl
