import CppHdl.Lib.PartialSystem
import CppHdl.Graph.Node

/-!
# What the bits of a graph mean

One clock of a graph. The environment gives every input and register lane, the
memory rows and whatever the host computes; every other bit gets its value
from its producer. `calculate` is the word arithmetic shared by constant
folding and the executors; the single-lane operations `mux`, `and`, `or` and
`xor` read only their own lane, and only as much of it as decides the result.

A graph may hold structural cycles that no clock ever runs through, because
the operands that close them are not selected. The meaning is therefore the
least solution of a partial system: `g.value P env bit` is the value of the
bit when its guarded evaluation is well founded, and `none` when the bit is
undriven or hangs on a combinational loop.
-/

namespace CppHdl

/-! ## Word arithmetic -/

/-- The two's complement word of an integer. -/
def toUInt64 (x : Int) : Nat := (x % 2 ^ 64).toNat

/-- A word read as a signed integer. -/
def toInt64 (x : Nat) : Int := if x < 2 ^ 63 then x else (x : Int) - 2 ^ 64

def signedNumber (value width : Nat) : Int :=
  if width = 64 then toInt64 value
  else
    let sign := 2 ^ (width - 1)
    toInt64 (((value ^^^ sign) + 2 ^ 64 - sign) % 2 ^ 64)

def calculate (op : Op) (left right width : Nat) : Except GraphError Nat :=
  match op with
  | .add => .ok ((left + right) % 2 ^ 64)
  | .sub => .ok ((left + 2 ^ 64 - right) % 2 ^ 64)
  | .mul => .ok (left * right % 2 ^ 64)
  | .div => .ok (if right ≠ 0 then left / right else 0)
  | .mod => .ok (if right ≠ 0 then left % right else 0)
  | .sdiv =>
      let lhs := signedNumber left width
      let rhs := signedNumber right width
      if rhs = 0 then .ok 0
      -- fixed-width graph arithmetic wraps, including MIN / -1
      else if lhs = -2 ^ 63 ∧ rhs = -1 then .ok left
      else .ok (toUInt64 (lhs.tdiv rhs))
  | .smod =>
      let lhs := signedNumber left width
      let rhs := signedNumber right width
      if rhs = 0 then .ok 0
      else if lhs = -2 ^ 63 ∧ rhs = -1 then .ok 0
      else .ok (toUInt64 (lhs.tmod rhs))
  | .eq => .ok (left == right).toNat
  | .lt => .ok (decide (left < right)).toNat
  | .slt => .ok (decide (signedNumber left width < signedNumber right width)).toNat
  | .shl => .ok (if right < 64 then (left <<< right) % 2 ^ 64 else 0)
  | .shr => .ok (if right < 64 then left >>> right else 0)
  | .sar => .ok (toUInt64 (signedNumber left width >>> min right 63))
  | op => .error (.runtime ("unsupported graph operation: " ++ op.text))

/-! ## The environment of one clock -/

/-- Operations implemented outside the repository: the host's floating point
and linked combinational modules. -/
structure Primitives where
  fp : String → Nat → List Bool → List Bool → Nat
  blackbox : String → Nat → List Bool → List Bool → List Bool → Nat

structure Env where
  /-- Lanes of inputs, of registers and of the results of host calls. -/
  leaf : Nat → Bool
  /-- Mutable memory: memory, row, bit. -/
  memory : Nat → Nat → Nat → Bool
  /-- Output arguments of host calls, by the call and the argument a projection
  names, where the clock performs the call. -/
  projection : Value → Value → Nat → Option Bool := fun _ _ _ => none
  /-- Lanes of wires nothing drives, where something outside the graph does. -/
  undriven : Nat → Option Bool := fun _ => none

/-- Operations whose lanes the environment supplies. -/
def Op.isLeaf : Op → Bool
  | .input | .state | .hostRandom | .hostJtagTick | .hostDebugTick => true
  | _ => false

namespace Memory

/-- 64-bit words in one row. -/
def words (m : Memory) : Nat := (m.width + 63) / 64

def bitAt (m : Memory) (env : Env) (index row bit : Nat) : Bool :=
  if m.contents.isEmpty then env.memory index row bit
  else (m.contents.getD (row * m.words + bit / 64) 0).testBit (bit % 64)

/-- One 64-bit word of a row; rows past the depth read 0. -/
def readWord (m : Memory) (env : Env) (index row word : Nat) : Nat :=
  if row < m.depth then
    natOfBits ((List.range 64).map fun bit =>
      decide (word * 64 + bit < m.width) && m.bitAt env index row (word * 64 + bit))
  else 0

end Memory

/-! ## One node -/

/-- Three-valued conjunction: a false operand decides. -/
def kleeneAnd : Option Bool → Option Bool → Option Bool
  | some false, _ => some false
  | _, some false => some false
  | some true, some true => some true
  | _, _ => none

/-- Three-valued disjunction: a true operand decides. -/
def kleeneOr : Option Bool → Option Bool → Option Bool
  | some true, _ => some true
  | _, some true => some true
  | some false, some false => some false
  | _, _ => none

def kleeneXor : Option Bool → Option Bool → Option Bool
  | some a, some b => some (a ^^ b)
  | _, _ => none

namespace Node

variable (P : Primitives) (memories : List Memory) (env : Env)

/-- The word an operation over whole operands computes. Arithmetic operands
are machine words, at most 64 bits each. -/
def wordValue (n : Node) (l r s : List Bool) : Option Nat :=
  match n.op with
  | .any => some (l.any id).toNat
  | .all => some (l.all id).toNat
  | .parity => some (l.foldl xor false).toNat
  | .wordSlice =>
      if n.width ≤ l.length then
        some (if natOfBits r ≤ l.length - n.width then natOfBits (l.drop (natOfBits r)) else 0)
      else none
  | .memoryRead =>
      match memories[natOfBits r]? with
      | some m => some (m.readWord env (natOfBits r) (natOfBits l) (natOfBits s))
      | none => none
  | .blackbox => some (P.blackbox n.name n.width l r s)
  | .fp suffix => some (P.fp suffix n.width l r)
  | op =>
      if l.length ≤ 64 ∧ r.length ≤ 64 then
        (calculate op (natOfBits l) (natOfBits r) l.length).toOption
      else none

/-- The value of lane `i` of an operation, given what its operands read. -/
def laneValue (look : Nat → Option Bool) (n : Node) (i : Nat) : Option Bool :=
  match n.op with
  | .mux => do
      let s ← n.select.head?.bind look
      if s then n.left[i]?.bind look else n.right[i]?.bind look
  | .and => kleeneAnd (n.left[i]?.bind look) (n.right[i]?.bind look)
  | .or => kleeneOr (n.left[i]?.bind look) (n.right[i]?.bind look)
  | .xor => kleeneXor (n.left[i]?.bind look) (n.right[i]?.bind look)
  | _ => do
      let l ← n.left.mapM look
      let r ← n.right.mapM look
      let s ← n.select.mapM look
      (n.wordValue P memories env l r s).map (·.testBit i)

def bitValue (look : Nat → Option Bool) (n : Node) (bit : Nat) : Option Bool :=
  match n.op with
  | .wire => env.undriven bit
  | .assertFailure => none
  | .hostDebugOutput => env.projection n.left n.select (lane bit)
  | op => if op.isLeaf then some (env.leaf bit) else n.laneValue P memories env look (lane bit)

end Node

/-! ## The whole graph -/

namespace Graph

variable (P : Primitives) (g : Graph) (env : Env)

/-- The definition of one bit: an alias, a constant or a lane of its owner. -/
def bitStep (look : Nat → Option Bool) (bit : Nat) : Option Bool :=
  match g.aliases[bit]? with
  | some source => look source
  | none =>
      if bit < 2 then some (bit == 1)
      else if bit < 66 then none
      else
        match g.nodes[owner bit]? with
        | none => none
        | some n =>
            if lane bit < n.width then n.bitValue P g.memories env look bit else none

/-- The bits the definition of a bit reads. -/
def bitDeps (bit : Nat) : List Nat :=
  match g.aliases[bit]? with
  | some source => [source]
  | none =>
      match g.nodes[owner bit]? with
      | none => []
      | some n => n.operands

end Graph

/-! ### Locality and monotonicity -/

theorem mapM_congr {α β : Type} {f g : α → Option β} {l : List α}
    (h : ∀ x ∈ l, f x = g x) : l.mapM f = l.mapM g := by
  induction l with
  | nil => rfl
  | cons a rest ih =>
      rw [List.mapM_cons, List.mapM_cons, h a List.mem_cons_self,
        ih fun x hx => h x (List.mem_cons_of_mem _ hx)]

theorem bind_getElem?_congr {f g : Nat → Option Bool} {l : List Nat} {i : Nat}
    (h : ∀ x ∈ l, f x = g x) : l[i]?.bind f = l[i]?.bind g := by
  cases hi : l[i]? with
  | none => rfl
  | some x => exact h x (List.mem_of_getElem? hi)

theorem bind_head?_congr {f g : Nat → Option Bool} {l : List Nat}
    (h : ∀ x ∈ l, f x = g x) : l.head?.bind f = l.head?.bind g := by
  cases l with
  | nil => rfl
  | cons x rest => exact h x List.mem_cons_self

theorem Node.laneValue_congr (P : Primitives) (memories : List Memory) (env : Env) (n : Node)
    (i : Nat) {f g : Nat → Option Bool} (h : ∀ x ∈ n.operands, f x = g x) :
    n.laneValue P memories env f i = n.laneValue P memories env g i := by
  have hl : ∀ x ∈ n.left, f x = g x := fun x hx => h x (by simp [operands, hx])
  have hr : ∀ x ∈ n.right, f x = g x := fun x hx => h x (by simp [operands, hx])
  have hs : ∀ x ∈ n.select, f x = g x := fun x hx => h x (by simp [operands, hx])
  unfold Node.laneValue
  simp only [mapM_congr hl, mapM_congr hr, mapM_congr hs, bind_getElem?_congr hl,
    bind_getElem?_congr hr, bind_head?_congr hs]

theorem Node.bitValue_congr (P : Primitives) (memories : List Memory) (env : Env) (n : Node)
    (bit : Nat) {f g : Nat → Option Bool} (h : ∀ x ∈ n.operands, f x = g x) :
    n.bitValue P memories env f bit = n.bitValue P memories env g bit := by
  unfold Node.bitValue
  simp only [n.laneValue_congr P memories env (lane bit) h]

theorem below_bind {f g : Nat → Option Bool} (hfg : Below f g) {o : Option Nat} {v : Bool}
    (h : o.bind f = some v) : o.bind g = some v := by
  cases o with
  | none => exact h
  | some x => exact hfg x v h

@[simp] theorem kleeneAnd_eq_false {a b : Option Bool} :
    kleeneAnd a b = some false ↔ a = some false ∨ b = some false := by
  rcases a with _ | _ | _ <;> rcases b with _ | _ | _ <;> simp [kleeneAnd]

@[simp] theorem kleeneAnd_eq_true {a b : Option Bool} :
    kleeneAnd a b = some true ↔ a = some true ∧ b = some true := by
  rcases a with _ | _ | _ <;> rcases b with _ | _ | _ <;> simp [kleeneAnd]

@[simp] theorem kleeneOr_eq_true {a b : Option Bool} :
    kleeneOr a b = some true ↔ a = some true ∨ b = some true := by
  rcases a with _ | _ | _ <;> rcases b with _ | _ | _ <;> simp [kleeneOr]

@[simp] theorem kleeneOr_eq_false {a b : Option Bool} :
    kleeneOr a b = some false ↔ a = some false ∧ b = some false := by
  rcases a with _ | _ | _ <;> rcases b with _ | _ | _ <;> simp [kleeneOr]

@[simp] theorem kleeneXor_eq_some {a b : Option Bool} {v : Bool} :
    kleeneXor a b = some v ↔ ∃ x y, a = some x ∧ b = some y ∧ (x ^^ y) = v := by
  rcases a with _ | a <;> rcases b with _ | b <;> simp [kleeneXor]

/-- The three-valued connectives keep a decided result when operands become
more defined. -/
theorem kleeneAnd_mono {a b a' b' : Option Bool} {v : Bool}
    (ha : ∀ x, a = some x → a' = some x) (hb : ∀ x, b = some x → b' = some x)
    (h : kleeneAnd a b = some v) : kleeneAnd a' b' = some v := by
  cases v with
  | false => exact kleeneAnd_eq_false.mpr ((kleeneAnd_eq_false.mp h).imp (ha _) (hb _))
  | true => exact kleeneAnd_eq_true.mpr ((kleeneAnd_eq_true.mp h).imp (ha _) (hb _))

theorem kleeneOr_mono {a b a' b' : Option Bool} {v : Bool}
    (ha : ∀ x, a = some x → a' = some x) (hb : ∀ x, b = some x → b' = some x)
    (h : kleeneOr a b = some v) : kleeneOr a' b' = some v := by
  cases v with
  | true => exact kleeneOr_eq_true.mpr ((kleeneOr_eq_true.mp h).imp (ha _) (hb _))
  | false => exact kleeneOr_eq_false.mpr ((kleeneOr_eq_false.mp h).imp (ha _) (hb _))

theorem kleeneXor_mono {a b a' b' : Option Bool} {v : Bool}
    (ha : ∀ x, a = some x → a' = some x) (hb : ∀ x, b = some x → b' = some x)
    (h : kleeneXor a b = some v) : kleeneXor a' b' = some v := by
  obtain ⟨x, y, hx, hy, hv⟩ := kleeneXor_eq_some.mp h
  exact kleeneXor_eq_some.mpr ⟨x, y, ha x hx, hb y hy, hv⟩

theorem Node.laneValue_mono (P : Primitives) (memories : List Memory) (env : Env) (n : Node)
    (i : Nat) {f g : Nat → Option Bool} (hfg : Below f g) {v : Bool}
    (h : n.laneValue P memories env f i = some v) :
    n.laneValue P memories env g i = some v := by
  have hb : ∀ (o : Option Nat) x, o.bind f = some x → o.bind g = some x :=
    fun o x hx => below_bind hfg hx
  unfold Node.laneValue at h ⊢
  split at h
  · simp only [Option.bind_eq_bind] at h ⊢
    rw [Option.bind_eq_some_iff] at h ⊢
    obtain ⟨s, hs, h⟩ := h
    refine ⟨s, hb _ _ hs, ?_⟩
    cases s with
    | false => exact hb _ _ h
    | true => exact hb _ _ h
  · exact kleeneAnd_mono (hb _) (hb _) h
  · exact kleeneOr_mono (hb _) (hb _) h
  · exact kleeneXor_mono (hb _) (hb _) h
  · simp only [Option.bind_eq_bind, Option.bind_eq_some_iff] at h ⊢
    obtain ⟨l, hl, r, hr, s, hs, h⟩ := h
    exact ⟨l, hfg.mapM hl, r, hfg.mapM hr, s, hfg.mapM hs, h⟩

theorem Node.bitValue_mono (P : Primitives) (memories : List Memory) (env : Env) (n : Node)
    (bit : Nat) {f g : Nat → Option Bool} (hfg : Below f g) {v : Bool}
    (h : n.bitValue P memories env f bit = some v) :
    n.bitValue P memories env g bit = some v := by
  unfold Node.bitValue at h ⊢
  split at h
  · exact h
  · exact h
  · exact h
  · split at h
    · rename_i hleaf
      rw [if_pos hleaf]; exact h
    · rename_i hleaf
      rw [if_neg hleaf]
      exact n.laneValue_mono P memories env (lane bit) hfg h

namespace Graph

variable (P : Primitives) (g : Graph) (env : Env)

/-- The bits of a graph, each defined from the bits it reads. -/
def system : PartialSystem Nat Bool where
  step := g.bitStep P env
  deps := g.bitDeps
  local_step := by
    intro f h bit hdeps
    unfold bitStep
    unfold bitDeps at hdeps
    split
    · rename_i source halias
      rw [halias] at hdeps
      exact hdeps source List.mem_cons_self
    · rename_i halias
      rw [halias] at hdeps
      cases hn : g.nodes[owner bit]? with
      | none => rfl
      | some n =>
          rw [hn] at hdeps
          simp only [n.bitValue_congr P g.memories env bit hdeps]
  mono_step := by
    intro f h hfh bit v hv
    unfold bitStep at hv ⊢
    split at hv
    · exact hfh _ _ hv
    · rename_i halias
      split_ifs at hv ⊢
      · exact hv
      · cases hn : g.nodes[owner bit]? with
        | none => rw [hn] at hv; cases hv
        | some n =>
            rw [hn] at hv
            simp only at hv ⊢
            split_ifs at hv ⊢
            exact n.bitValue_mono P g.memories env bit hfh hv

/-- The value of a bit, where its evaluation is well founded. -/
noncomputable def value (bit : Nat) : Option Bool := (g.system P env).value bit

/-- `fuel` rounds of evaluation, to run on concrete graphs. -/
def evaluate (fuel bit : Nat) : Option Bool := (g.system P env).iterate fuel bit

theorem value_eq_bitStep (bit : Nat) :
    g.value P env bit = g.bitStep P env (g.value P env) bit :=
  (g.system P env).value_unfold bit

theorem value_below {look : Nat → Option Bool} (h : Below (g.bitStep P env look) look) :
    Below (g.value P env) look := (g.system P env).value_least h

theorem value_of_evaluate (fuel : Nat) {bit : Nat} {v : Bool}
    (h : g.evaluate P env fuel bit = some v) : g.value P env bit = some v :=
  (g.system P env).value_of_iterate h

end Graph

end CppHdl
