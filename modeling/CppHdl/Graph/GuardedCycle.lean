import Mathlib.Data.List.Lex
import Mathlib.Data.List.Sort
import CppHdl.Graph.Build

/-!
# Feedback that guards never close

`specializeGuardedCycle` looks at a bit that reads itself. Where few independent
bits select between the paths, it evaluates the cone of the bit once for each
choice of them, copying what the choice changes. If no choice reads a bit twice
on one path, a multiplexer over the choices takes the place of the bit. If one
does, the copies are taken back and other selectors are tried.

Every throw keeps what was changed before it, so the tables of an evaluation are
part of the state beside the graph.
-/

namespace CppHdl

open Failing

/-! ## Selectors -/

/-- Bits as a set has them, in order. -/
def selector (bits : List Nat) : Value := bits.dedup.insertionSort (· ≤ ·)

/-- Small selectors first, then by their bits. -/
def SelectorLe (a b : Value) : Prop := a.length < b.length ∨ a.length = b.length ∧ a ≤ b

instance : DecidableRel SelectorLe := fun _ _ => inferInstanceAs (Decidable (_ ∨ _))

/-- The selectors and their unions, as far as all choices of their bits can be tried. -/
def candidates (controls : List Value) : List Value :=
  controls ++ controls.flatMap fun first => controls.filterMap fun second =>
    let combined := selector (first ++ second)
    if combined.length ≤ 6 then some combined else none

/-- The first candidate that was not attempted. -/
def nextSelector (controls attempted : List Value) : Option Value :=
  (((candidates controls).filter (· ∉ attempted)).insertionSort SelectorLe).head?

/-! ## The state of an evaluation -/

structure Guarded where
  graph : Graph
  /-- Selectors found so far. -/
  controls : List Value := []
  /-- Bits whose evaluation is complete. -/
  cache : Std.ExtTreeMap Nat Nat := ∅
  /-- Bits whose evaluation has begun. -/
  active : List Nat := []
  visits : Nat := 0

abbrev GuardedM := Failing GraphError Guarded

def onGraph {α : Type} (m : GraphM α) : GuardedM α := fun s =>
  match m s.graph with
  | .ok a g => .ok a { s with graph := g }
  | .error e g => .error e { s with graph := g }

/-- Keep the selector of a multiplexer that compares inputs and registers. -/
def consider (index : Nat) : GuardedM Unit := do
  match (← get).graph.nodes[index]? with
  | none => throw .outOfRange
  | some producer =>
      if producer.op ≠ .mux ∨ producer.select.isEmpty then pure ()
      else
        let condition ← onGraph (resolve (producer.select.headD 0))
        if condition < 2 then pure ()
        else
          match (← get).graph.nodes[owner condition]? with
          | none => throw .outOfRange
          | some comparison =>
              if comparison.op ≠ .eq then pure ()
              else
                let roots ← onGraph (resolved (comparison.left ++ comparison.right))
                let bits := selector (roots.filter (2 ≤ ·))
                let independent := fun g : Graph => bits.all fun bit =>
                  match g.nodes[owner bit]? with
                  | none => false
                  | some source => decide (source.op = .input ∨ source.op = .state)
                modify fun s =>
                  if independent s.graph ∧ bits ≠ [] ∧ bits.length ≤ 6 ∧ s.controls.length < 16 ∧
                      bits ∉ s.controls then
                    { s with controls := s.controls ++ [bits] }
                  else s

/-! ## Evaluation under a choice -/

/-- Whether an operand was evaluated to something else. -/
def changed : List (Value × Value) → GuardedM Bool
  | [] => pure false
  | (values, raw) :: rest => do
      let roots ← onGraph (resolved raw)
      if values ≠ roots then pure true else changed rest

def setScope (scope : String) : GuardedM Unit :=
  modify fun s => { s with graph := { s.graph with currentScope := scope } }

/-- A condition that cannot be evaluated is left open. -/
def caught (m : GuardedM Nat) : GuardedM (Option Nat) := do
  let saved := (← get).active
  tryCatchThe GraphError (do pure (some (← m))) fun
    | .unresolvedCycle _ _ => do
        modify fun s => { s with active := saved }
        pure none
    | e => throw e

section

variable (evaluate : Nat → GuardedM Nat)

/-- Both branches of a multiplexer, where the choice does not decide between them. -/
def evaluateBranches (n : Node) (bit : Nat) (condition : Option Nat) : GuardedM Nat := do
  let left ← evaluate (n.left.getD (lane bit) 0)
  let right ← evaluate (n.right.getD (lane bit) 0)
  if condition.isNone ∧ left ≠ right then throw (.unresolvedCycle "selector feedback" bit)
  else
    setScope n.scope
    if left = right then pure left
    else
      let guard := condition.getD 0
      if ← changed [([left], [n.left.getD (lane bit) 0]), ([right], [n.right.getD (lane bit) 0]),
          ([guard], [n.select.headD 0])] then
        return (← onGraph (add .mux 1 [left] [right] [guard])).headD 0
      else pure bit

def evaluateMux (n : Node) (bit : Nat) : GuardedM Nat := do
  match ← caught (evaluate (n.select.headD 0)) with
  | some condition =>
      if condition < 2 then
        evaluate (if condition ≠ 0 then n.left.getD (lane bit) 0 else n.right.getD (lane bit) 0)
      else evaluateBranches evaluate n bit (some condition)
  | none => evaluateBranches evaluate n bit none

/-- `and`, `or` and `xor`: the left operand may decide. -/
def evaluateBitwise (n : Node) (bit : Nat) : GuardedM Nat := do
  let left ← evaluate (n.left.getD (lane bit) 0)
  if (n.op = .and ∧ left = 0) ∨ (n.op = .or ∧ left = 1) then pure left
  else
    let right ← evaluate (n.right.getD (lane bit) 0)
    setScope n.scope
    if ← changed [([left], [n.left.getD (lane bit) 0]), ([right], [n.right.getD (lane bit) 0])] then
      return (← onGraph (add n.op 1 [left] [right])).headD 0
    else pure bit

/-- Keep the lanes of a copied node. -/
def cacheLanes (cache : Std.ExtTreeMap Nat Nat) (base : Nat) (output : Value) :
    Std.ExtTreeMap Nat Nat :=
  output.zipIdx.foldl (fun m p => m.insert (base + p.2) p.1) cache

/-- An operation over whole operands is copied with all its lanes. -/
def evaluateWord (n : Node) (bit : Nat) : GuardedM Nat := do
  let left ← n.left.mapM evaluate
  let right ← n.right.mapM evaluate
  let select ← n.select.mapM evaluate
  if ← changed [(left, n.left), (right, n.right), (select, n.select)] then
    setScope n.scope
    let output ← onGraph (add n.op n.width left right select n.name)
    modify fun s => { s with cache := cacheLanes s.cache (nodeBase (owner bit)) output }
    pure (output.getD (lane bit) 0)
  else pure bit

def evaluateNode (bit : Nat) : GuardedM Nat := do
  match (← get).graph.nodes[owner bit]? with
  | none => throw .outOfRange
  | some n =>
      match n.op with
      | .input | .state | .wire => pure bit
      | .hostRandom | .hostJtagTick | .hostDebugTick | .assertFailure | .blackbox | .memoryRead
      | .fp _ => throw (.unresolvedCycle "opaque operation" bit)
      | .mux => evaluateMux evaluate n bit
      | .and | .or | .xor => evaluateBitwise evaluate n bit
      | _ => evaluateWord evaluate n bit

end

/-- `evaluate`, in a graph that had `start` nodes. The visits run out before the fuel. -/
def evaluate (start : Nat) : Nat → Nat → GuardedM Nat
  | 0, raw => throw (.unresolvedCycle "budget" raw)
  | fuel + 1, raw => do
      let bit ← onGraph (resolve raw)
      if bit < 2 then pure bit
      else
        match (← get).cache[bit]? with
        | some found => pure found
        | none =>
            modify fun s => { s with visits := s.visits + 1 }
            let s ← get
            if 30000 < s.visits ∨ 16384 < s.graph.nodes.size - start then
              throw (.unresolvedCycle "budget" bit)
            else if bit ∈ s.active then
              (s.active.insertionSort (· ≤ ·)).forM fun dependency => consider (owner dependency)
              throw (.unresolvedCycle "feedback" bit)
            else
              set { s with active := bit :: s.active }
              let result ← evaluateNode (evaluate start fuel) bit
              modify fun s =>
                { s with active := s.active.erase bit, cache := s.cache.insert bit result }
              pure result

/-! ## Attempts -/

/-- The cache a choice begins with. -/
def assume (selector : Value) (choice : Nat) : Std.ExtTreeMap Nat Nat :=
  selector.zipIdx.foldl (fun m p => m.insert p.1 (choice >>> p.2 &&& 1)) ∅

/-- One choice, and the multiplexer that takes its output. -/
def tryChoice (start root : Nat) (selector : Value) (replacement : Value) (choice : Nat) :
    GuardedM Value := do
  modify fun s => { s with cache := assume selector choice, active := [], visits := 0 }
  let output ← evaluate start 30001 (nodeBase root)
  if choice = 0 then pure [output]
  else
    let taken ← onGraph (binary .eq selector (constant choice selector.length) 1)
    onGraph (mux taken [output] replacement)

def attempt (root : Nat) (selector : Value) : GuardedM (Option Value) := do
  let start := (← get).graph.nodes.size
  tryCatchThe GraphError
    (do
      let replacement ← (List.range (2 ^ selector.length)).foldlM
        (tryChoice start root selector) []
      pure (some replacement)) fun
    | .unresolvedCycle _ _ => pure none
    | e => throw e

/-- Take back what was added to a graph of `start` nodes. -/
def Graph.rollback (g : Graph) (start : Nat) : Graph :=
  { g with
    nodes := g.nodes.take start
    aliases := g.aliases.filter fun bit _ => decide (bit < nodeBase start) }

/-- Try the selectors that are found, and those that attempts find. -/
def attempts (root : Nat) (savedScope : String) : Nat → List Value → GuardedM Bool
  | 0, _ => pure false
  | remaining + 1, attempted => do
      match nextSelector (← get).controls attempted with
      | none => pure false
      | some selector =>
          let start := (← get).graph.nodes.size
          let replacement ← attempt root selector
          setScope savedScope
          match replacement with
          | some replacement =>
              modify fun s => { s with graph := { s.graph with
                aliases := s.graph.aliases.insert (nodeBase root) (replacement.headD 0) } }
              pure true
          | none =>
              modify fun s => { s with graph := s.graph.rollback start }
              attempts root savedScope remaining (selector :: attempted)

def specializeGuardedCycle (root : Nat) (path : List Nat) : GraphM Bool := fun g =>
  let run := do
    path.forM consider
    attempts root g.currentScope 32 []
  match run { graph := g } with
  | .ok done s => .ok done s.graph
  | .error e s => .error e s.graph

end CppHdl
