import CppHdl.Graph.Value

/-!
# Building and simplifying a graph

The construction half of `Graph`: alias resolution with path compression, the
local rewriting of a node, node allocation, and the operator builders on top.
Every method is a `GraphM` program, so what the source mutates (path
compression included) is state here too.

`simplifyNode` reports its rewrites through a callback in the source. It
resolves all operands before the first report, so it returns the reports as a
list here: `(offset, bit)` says that lane `offset` of the node is `bit`.
-/

namespace CppHdl

/-! ## Aliases -/

/-- Follow aliases from `cursor`, remembering the bits passed. A repeated bit
is a cycle; the fuel covers every alias once. -/
def chase (aliases : Std.ExtTreeMap Nat Nat) : Nat → List Nat → Nat → Option (List Nat × Nat)
  | 0, _, _ => none
  | fuel + 1, path, cursor =>
      match aliases[cursor]? with
      | none => some (path, cursor)
      | some source =>
          if path.contains cursor then none else chase aliases fuel (path ++ [cursor]) source

/-- Point every bit of the path straight at its root. -/
def compressPath (aliases : Std.ExtTreeMap Nat Nat) (path : List Nat) (root : Nat) :
    Std.ExtTreeMap Nat Nat :=
  path.foldl (fun m entry => m.insert entry root) aliases

def resolve (bit : Nat) : GraphM Nat := do
  let g ← get
  match chase g.aliases (g.aliases.size + 2) [] bit with
  | none => throw (.runtime "cyclic wire alias")
  | some (path, root) =>
      set { g with aliases := compressPath g.aliases path root }
      pure root

def resolved (value : Value) : GraphM Value := value.mapM resolve

/-! ## Rewriting one node -/

/-- The position and the bit of a value with one bit that is not constant 0. -/
def powerOf (value : Value) : Option (Nat × Nat) :=
  match value.zipIdx.filter fun p => p.1 ≠ 0 with
  | [(enable, shift)] => some (shift, enable)
  | _ => none

/-- Lane `offset` of `operand` divided by, reduced by or multiplied with a
power of two. -/
def powerLane (op : Op) (operand : Value) (shift offset : Nat) : Nat :=
  match op with
  | .div =>
      if shift < operand.length ∧ offset < operand.length - shift then
        operand.getD (offset + shift) 0
      else 0
  | .mod => if offset < shift ∧ offset < operand.length then operand.getD offset 0 else 0
  | _ =>
      if shift ≤ offset ∧ offset - shift < operand.length then operand.getD (offset - shift) 0
      else 0

namespace Node

/-- The power of two a node multiplies, divides or reduces by, and the operand
it does that to. -/
def powerOperand (n : Node) : Option (Nat × Nat × Value) :=
  match powerOf n.right with
  | some (shift, enable) => some (shift, enable, n.left)
  | none =>
      if n.op = .mul then (powerOf n.left).map fun p => (p.1, p.2, n.right) else none

/-- A power of two turns multiplication, division and remainder into wiring.
A guarded literal is `2 ^ shift` or 0, and division by 0 reads 0, so the guard
stays as a conjunction. -/
def expandPower (n : Node) : Node :=
  if n.op = .div ∨ n.op = .mod ∨ n.op = .mul then
    match n.powerOperand with
    | some (shift, enable, operand) =>
        { n with
          op := .and
          left := (List.range n.width).map (powerLane n.op operand shift)
          right := List.replicate n.width enable
          select := [] }
    | none => n
  else n

/-- What one lane of a bitwise node or multiplexer reduces to. -/
def laneRedirect (op : Op) (left right select : Nat) : Option Nat :=
  match op with
  | .mux =>
      if select < 2 then some (if select ≠ 0 then left else right)
      else if left = right then some left
      else if left = 1 ∧ right = 0 then some select
      else none
  | .and =>
      if left = 0 ∨ right = 0 then some 0
      else if left = 1 ∨ left = right then some right
      else if right = 1 then some left
      else none
  | .or =>
      if left = 1 ∨ right = 1 then some 1
      else if left = 0 ∨ left = right then some right
      else if right = 0 then some left
      else none
  | .xor =>
      if left = right then some 0
      else if left = 0 then some right
      else if right = 0 then some left
      else none
  | _ => none

def reductionRedirect (op : Op) (value : Value) : Option Nat :=
  match number value with
  | some known =>
      some (match op with
        | .any => (known != 0).toNat
        | .all => (known == mask value.length).toNat
        | _ => ((bitsOfNat 64 known).foldl xor false).toNat)
  | none =>
      if op = .parity then none
      else
        let dominant := if op = .any then 1 else 0
        if value.contains dominant then some dominant
        else
          match value.filter (· ≠ 1 - dominant) with
          | [] => none
          | bit :: rest => if rest.all (· = bit) then some bit else none

/-- Lane `offset` of `value` shifted by the constant `shift`. -/
def shiftLane (op : Op) (value : Value) (shift offset : Nat) : Nat :=
  let fill := if op = .sar then value.getLastD 0 else 0
  if op = .shl then
    if shift ≤ offset ∧ offset - shift < value.length then value.getD (offset - shift) 0
    else fill
  else if shift < value.length ∧ offset < value.length - shift then
    value.getD (offset + shift) 0
  else fill

theorem not_mem_of_ok_nil {ε α : Type} {rs : List α} (h : (.ok [] : Except ε (List α)) = .ok rs)
    {x : α} : x ∉ rs := by
  rw [← Except.ok.inj h]
  exact List.not_mem_nil

/-- The lanes of a word operation on two numbers. -/
def foldRedirects (n : Node) : Except GraphError (List (Nat × Nat)) :=
  match number n.left, number n.right with
  | some left, some right =>
      match calculate n.op left right n.left.length with
      | .error e => .error e
      | .ok result => .ok ((List.range n.width).map fun offset =>
          (offset, (constant result n.width).getD offset 0))
  | _, _ => .ok []

/-- The redirections of a node whose operands are resolved. -/
def redirects (n : Node) : Except GraphError (List (Nat × Nat)) :=
  match n.op with
  | .wordSlice =>
      match number n.right with
      | some start =>
          if n.width ≤ n.left.length then
            .ok ((List.range n.width).map fun offset =>
              (offset, if start ≤ n.left.length - n.width
                then n.left.getD (start + offset) 0 else 0))
          else .ok []
      | none => .ok []
  | .hostRandom | .hostJtagTick | .hostDebugTick | .assertFailure
  | .fp _ | .memoryRead | .blackbox => .ok []
  | .mux | .and | .or | .xor =>
      .ok ((List.range n.width).filterMap fun offset =>
        (laneRedirect n.op (n.left.getD offset 0) (n.right.getD offset 0)
          (n.select.headD 0)).map fun bit => (offset, bit))
  | .any | .all | .parity =>
      .ok (((reductionRedirect n.op n.left).map fun bit => (0, bit)).toList)
  | .shl | .shr | .sar =>
      match number n.right with
      | some shift =>
          .ok ((List.range n.width).map fun offset =>
            (offset, shiftLane n.op n.left shift offset))
      | none => .ok []
  | _ =>
      if n.right.isEmpty then .ok []
      else
        match n.foldRedirects with
        | .error e => .error e
        | .ok folded => .ok (folded ++ if n.op = .eq ∧ n.left = n.right then [(0, 1)] else [])

end Node

/-- Resolve the operands of a node and rewrite it. -/
def simplifyNode (node : Node) : GraphM (Node × List (Nat × Nat)) := do
  let left ← resolved node.left
  let right ← resolved node.right
  let select ← resolved node.select
  let node := { node with left, right, select }.expandPower
  match node.redirects with
  | .error e => throw e
  | .ok redirects => pure (node, redirects)

/-! ## Allocation -/

namespace Graph

/-- Append a node; aliases of its redirected lanes come with it. -/
def pushNode (g : Graph) (node : Node) (result : Value) : Graph :=
  { g with
    nodes := g.nodes.push node
    aliases := (result.zipIdx.filter fun p => p.1 ≠ g.bound + p.2).foldl
      (fun m p => m.insert (g.bound + p.2) p.1) g.aliases }

end Graph

def redirectLanes (lanes : Value) (redirects : List (Nat × Nat)) : Value :=
  redirects.foldl (fun result r => result.set r.1 r.2) lanes

def add (op : Op) (width : Nat) (left : Value := []) (right : Value := [])
    (select : Value := []) (name : String := "") : GraphM Value := do
  if width = 0 ∨ 64 < width then throw (.runtime "invalid graph node width")
  let g ← get
  let base := g.bound
  let node : Node := ⟨op, width, left, right, select, name, g.currentScope⟩
  -- Identities are resolved before a persistent node is allocated.
  let (node, redirects) ← simplifyNode node
  let result := redirectLanes ((List.range width).map (base + ·)) redirects
  if result.any fun bit => base ≤ bit ∧ bit < base + width then
    modify fun g => g.pushNode node result
    pure result
  else pure result

/-- Offsets of the words of `step` bits that cover `count` bits. -/
def chunks (step count : Nat) : List Nat :=
  (List.range ((count + step - 1) / step)).map (· * step)

def wire (width : Nat) (name : String) (op : Op := .wire) : GraphM Value :=
  (chunks 64 width).foldlM (fun result offset => do
    let part ← add op (min 64 (width - offset)) [] [] [] (name ++ ":" ++ toString offset)
    pure (result ++ part)) []

def connectBit (pair : Nat × Nat) : GraphM Unit := do
  let g ← get
  if pair.1 < 2 ∨ (g.aliases[pair.1]?).isSome then
    throw (.runtime "multiple drivers in native graph")
  else if pair.1 ≠ pair.2 then set { g with aliases := g.aliases.insert pair.1 pair.2 }
  else pure ()

/-- Drive every bit of `target` by the bit of `source` at its position. -/
def connect (target source : Value) : GraphM Unit :=
  if target.length ≠ source.length then throw (.runtime "connection width mismatch")
  else (target.zip source).forM connectBit

/-! ## Operator builders

The source writes `binary`, `unary` and `mux` as mutually recursive methods.
Their recursive calls only ever go down one level of the order below: bitwise
words, reductions, multiplexers, word arithmetic, wide arithmetic. -/

/-- `binary` for `and`, `or`, `xor` and `mux`: word by word. -/
def bitwise (op : Op) (left right : Value) (width : Nat) : GraphM Value :=
  let left := resize left width
  let right := resize right width
  (chunks 64 width).foldlM (fun result offset => do
    let count := min 64 (width - offset)
    let part ← add op count (slice left offset count) (slice right offset count)
    pure (result ++ part)) []

/-- `unary("not", value)`. -/
def unaryNot (value : Value) : GraphM Value :=
  bitwise .xor value (List.replicate value.length 1) value.length

/-- One word of a reduction: its number decides, or a node. -/
def reduceWord (op : Op) (part : Value) : GraphM Value :=
  match number part with
  | some known =>
      let flag := match op with
        | .all => known == mask part.length
        | .parity => (bitsOfNat 64 known).foldl xor false
        | _ => known != 0
      pure (constant flag.toNat 1)
  | none => add op 1 part

/-- `unary` for the reductions `any`, `all` and `parity`. -/
def unary (op : Op) (value : Value) : GraphM Value :=
  (chunks 64 value.length).foldlM (fun result (offset : Nat) => do
    let reduced ← reduceWord op (slice value offset (min 64 (value.length - offset)))
    bitwise (match op with | .all => .and | .parity => .xor | _ => .or) result reduced 1)
    [if op = .all then 1 else 0]

def mux (condition yes no : Value) : GraphM Value := do
  let condition ← unary .any condition
  if yes.length ≠ no.length then throw (.runtime "mux width mismatch")
  let bit := condition.headD 0
  if bit < 2 then pure (if bit ≠ 0 then yes else no)
  else if yes = no then pure yes
  else
    (chunks 64 yes.length).foldlM (fun result offset => do
      let count := min 64 (yes.length - offset)
      let part ← add .mux count (slice yes offset count) (slice no offset count) condition
      pure (result ++ part)) []

/-- The exponent of a value that resolves to a constant power of two. -/
def constantPower (value : Value) : GraphM (Option Nat) := do
  let value ← resolved value
  pure (if value.any (1 < ·) then none else (powerOf value).map Prod.fst)

/-- Multiplication by a constant power of two is wiring, not an adder tree. -/
def powerProduct (left right : Value) (width : Nat) : GraphM (Option Value) := do
  let shifted := fun (shift : Nat) (value : Value) =>
    resize (List.replicate (min shift width) 0 ++ value) width
  match ← constantPower right with
  | some shift => pure (some (shifted shift left))
  | none =>
      match ← constantPower left with
      | some shift => pure (some (shifted shift right))
      | none => pure none

/-- `binary` on operands and results of at most 64 bits: fold or allocate. -/
def wordBinary (op : Op) (left right : Value) (width : Nat) : GraphM Value :=
  match number left, number right with
  | some lhs, some rhs =>
      match calculate op lhs rhs left.length with
      | .error e => throw e
      | .ok result => pure (constant result width)
  | _, _ => add op width left right

def wideEq (left right : Value) (width : Nat) : GraphM Value := do
  let count := max left.length right.length
  let different ← bitwise .xor (resize left count) (resize right count) count
  let any ← unary .any different
  let same ← unaryNot any
  pure (resize same width)

/-- Compare word by word from the low end; a higher word that differs decides. -/
def wideLt (left right : Value) (width : Nat) : GraphM Value := do
  let count := max left.length right.length
  let left := resize left count
  let right := resize right count
  let less ← (chunks 64 count).foldlM (fun less offset => do
    let length := min 64 (count - offset)
    let a := slice left offset length
    let b := slice right offset length
    let same ← wordBinary .eq a b 1
    let below ← wordBinary .lt a b 1
    mux same less below) [0]
  pure (resize less width)

/-- Right-resize with an explicit fill bit, as `std::vector::resize` does. -/
def padTo (value : Value) (width fill : Nat) : Value :=
  value.take width ++ List.replicate (width - value.length) fill

/-- Stages of a barrel shifter that moves anywhere within `length` bits. -/
def shiftStages (length : Nat) : Nat := go length 0
where
  go : Nat → Nat → Nat
    | 0, stages => stages
    | fuel + 1, stages => if 2 ^ stages < length then go fuel (stages + 1) else stages

/-- One right-shifting stage: bits that no remaining smaller shift can move
into the result are dropped. -/
def shiftRightStage (right : Value) (width fill : Nat) (left : Value) (stage : Nat) :
    GraphM Value := do
  let amount := 2 ^ stage
  let needed := min left.length (width + amount - 1)
  let moved := (List.range needed).map fun i =>
    if amount < left.length - i then left.getD (i + amount) 0 else fill
  let left := padTo left needed fill
  match right[stage]? with
  | some bit => mux [bit] moved left
  | none => pure left

/-- Large shifts first. -/
def wideShiftRight (op : Op) (left right : Value) (width : Nat) : GraphM Value := do
  let fill := if op = .sar ∧ !left.isEmpty then left.getLastD 0 else 0
  let left := padTo left (max left.length width) fill
  let stages := shiftStages left.length
  let left ← (List.range stages).reverse.foldlM (shiftRightStage right width fill) left
  let left := padTo left width fill
  if stages < right.length then
    let beyond ← unary .any (slice right stages (right.length - stages))
    mux beyond (List.replicate width fill) left
  else pure left

def wideShl (left right : Value) (width : Nat) : GraphM Value := do
  let left := padTo left (max left.length width) 0
  let left ← (List.range right.length).foldlM (fun left stage => do
    let moved := (List.range left.length).map fun i =>
      if stage < 63 ∧ 2 ^ stage ≤ i then left.getD (i - 2 ^ stage) 0 else 0
    mux [right.getD stage 0] moved left) left
  pure (resize left width)

/-- A limb as it is added: a difference adds the complement. -/
def addendLimb (op : Op) (limb : Value) : GraphM Value :=
  if op = .sub then unaryNot limb else pure limb

/-- One 32-bit limb of a sum or difference, with the carry into it. -/
def addLimb (op : Op) (left right : Value) (width : Nat) (acc : Value × Value)
    (offset : Nat) : GraphM (Value × Value) := do
  let (result, carry) := acc
  let count := min 32 (width - offset)
  let a := resize (slice left offset count) (count + 1)
  let b ← addendLimb op (slice right offset count)
  let first ← wordBinary .add a (resize b (count + 1)) (count + 1)
  let sum ← wordBinary .add first (resize carry (count + 1)) (count + 1)
  pure (result ++ slice sum 0 count, slice sum count 1)

/-- Arithmetic limbs keep every node within the native 64-bit executor while
preserving the carries above bit 63. -/
def wideAddSub (op : Op) (left right : Value) (width : Nat) : GraphM Value := do
  let left := resize left width
  let right := resize right width
  let (result, _) ← (chunks 32 width).foldlM (addLimb op left right width)
    ([], [if op = .sub then 1 else 0])
  pure result

/-- Whether an operation leaves the native word. -/
def isWide (left right : Value) (width : Nat) : Bool :=
  64 < left.length ∨ 64 < right.length ∨ 64 < width

def addSub (op : Op) (left right : Value) (width : Nat) : GraphM Value :=
  if isWide left right width then wideAddSub op left right width
  else wordBinary op left right width

/-- `binary("mul", ...)` on words. -/
def wordMul (left right : Value) (width : Nat) : GraphM Value := do
  match ← powerProduct left right width with
  | some result => pure result
  | none => wordBinary .mul left right width

/-- Add the product of the limbs at `a` and `b` to the partial product. -/
def mulLimb (left right : Value) (width a : Nat) (result : Value) (b : Nat) : GraphM Value := do
  let lhs := slice left a (min 32 (width - a))
  let rhs := slice right b (min 32 (width - b))
  let product ← wordMul (resize lhs 64) (resize rhs 64) 64
  let row := List.replicate (a + b) 0 ++ product
  addSub .add result (resize row width) width

def mulRow (left right : Value) (width : Nat) (result : Value) (a : Nat) : GraphM Value :=
  (chunks 32 (width - a)).foldlM (mulLimb left right width a) result

/-- Schoolbook multiplication by 32-bit limbs; rows past the width are cut. -/
def wideMul (left right : Value) (width : Nat) : GraphM Value :=
  (chunks 32 width).foldlM (mulRow (resize left width) (resize right width) width)
    (List.replicate width 0)

/-- `binary` beyond the native word. -/
def wideBinary (op : Op) (left right : Value) (width : Nat) : GraphM Value :=
  match op with
  | .eq => wideEq left right width
  | .lt => wideLt left right width
  | .shr | .sar => wideShiftRight op left right width
  | .shl => wideShl left right width
  | .add | .sub => wideAddSub op left right width
  | .mul => wideMul left right width
  | _ => throw (.runtime ("wide arithmetic not supported: " ++ op.text))

/-- `binary` past the canonical form of a multiplication. -/
def binaryCore (op : Op) (left right : Value) (width : Nat) : GraphM Value :=
  match op with
  | .and | .or | .xor | .mux => bitwise op left right width
  | _ =>
    if isWide left right width then wideBinary op left right width
    else wordBinary op left right width

def binary (op : Op) (left right : Value) (width : Nat) : GraphM Value :=
  if op = .mul then do
    match ← powerProduct left right width with
    | some result => pure result
    | none => binaryCore op left right width
  else binaryCore op left right width

/-! ## Simplifying a whole graph -/

/-- Rewrite node `index` in place; a lane is redirected at most once. -/
def simplify (index : Nat) : GraphM Bool := do
  let g ← get
  match g.nodes[index]? with
  | none => throw .outOfRange
  | some node =>
      let (node, redirects) ← simplifyNode node
      modify fun g => { g with nodes := g.nodes.setIfInBounds index node }
      redirects.foldlM (fun changed (offset, bit) => do
        let target := nodeBase index + offset
        let g ← get
        if (g.aliases[target]?).isNone ∧ target ≠ bit then
          set { g with aliases := g.aliases.insert target bit }
          pure true
        else pure changed) false

def simplifyLast (value : Value) : GraphM Unit :=
  (((value.filter (1 < ·)).map owner).dedup.mergeSort).forM fun index => do
    let _ ← simplify index

/-- One pass over all nodes; tells whether anything was redirected. -/
def simplifyRound : GraphM Bool := do
  let g ← get
  (List.range g.nodes.size).foldlM (fun changed index => do
    let c ← simplify index
    pure (changed || c)) false

def simplifyRounds : Nat → GraphM Unit
  | 0 => pure ()
  | rounds + 1 => do
      let changed ← simplifyRound
      if !changed then pure ()
      else if rounds = 0 then throw (.runtime "graph simplification did not converge")
      else simplifyRounds rounds

def valueKey (value : Value) : String :=
  "/" ++ String.join (value.map fun bit => toString bit ++ ",")

/-- Nodes with one key compute the same and share a producer. -/
def Node.shareKey (n : Node) : String :=
  n.scope ++ ":" ++ n.op.text ++ ":" ++ toString n.width ++
    (if n.op = .blackbox then ":" ++ n.name else "") ++
    valueKey n.left ++ valueKey n.right ++ valueKey n.select

/-- State and input nodes and host effects are never merged. -/
def Node.shareable (n : Node) : Bool :=
  !(n.op = .wire ∨ n.op = .input ∨ n.op = .state ∨ n.hostEffect ∨ n.validation)

/-- Send the free lanes of node `index` to the same lanes of node `entry`. -/
def Graph.shareLanes (g : Graph) (index entry width : Nat) : Graph :=
  { g with
    aliases := (List.range width).foldl (fun m offset =>
      if (m[nodeBase index + offset]?).isSome then m
      else m.insert (nodeBase index + offset) (nodeBase entry + offset)) g.aliases }

def shareNode (shared : Std.ExtTreeMap String Nat) (index : Nat) :
    GraphM (Std.ExtTreeMap String Nat) := do
  let g ← get
  match g.nodes[index]? with
  | none => throw .outOfRange
  | some node =>
    if !node.shareable then pure shared
    else
      let left ← resolved node.left
      let right ← resolved node.right
      let select ← resolved node.select
      let node := { node with left, right, select }
      modify fun g => { g with nodes := g.nodes.setIfInBounds index node }
      match shared[node.shareKey]? with
      | none => pure (shared.insert node.shareKey index)
      | some entry =>
          modify fun g => g.shareLanes index entry node.width
          pure shared

def optimize : GraphM Unit := do
  simplifyRounds 100
  let g ← get
  let _ ← (List.range g.nodes.size).foldlM shareNode ∅

end CppHdl
