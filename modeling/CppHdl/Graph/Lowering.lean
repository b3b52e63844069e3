import CppHdl.Graph.Build

/-!
# Lowering of element selects

`Lowering` turns expressions into graph logic. This is its part for names and
element selects: what `expr` builds for `a[i]` on the right of an assignment and
what `assign` builds for it on the left. A selector that lowers to constants is
wiring; any other one is compared with every declared index.

Variables held as row memories have their own path and are left out here, as
are the other expressions: a selector or an operand that is one of them enters
through a name bound to its bits.
-/

namespace CppHdl

/-- A declared range `[left:right]`; the bounds are 32-bit integers. -/
structure FixedRange where
  left : Int
  right : Int
  left_ge : -2 ^ 31 ≤ left := by decide
  left_lt : left < 2 ^ 31 := by decide
  right_ge : -2 ^ 31 ≤ right := by decide
  right_lt : right < 2 ^ 31 := by decide

namespace FixedRange

variable (r : FixedRange)

def lower : Int := min r.left r.right

def upper : Int := max r.left r.right

def width : Nat := (r.upper - r.lower + 1).toNat

/-- The declared indices, from `lower()` to `upper()`. -/
def items : List Int := (List.range r.width).map fun (k : Nat) => r.lower + k

/-- Where the element of an index stands, counted from the right bound. -/
def position (index : Int) : Int :=
  if r.left ≥ r.right then index - r.right else r.right - index

end FixedRange

/-- The width and the sign of an expression's type. -/
structure IntegralType where
  width : Nat
  isSigned : Bool := false

inductive Expression
  /-- What the front end has evaluated. -/
  | literal (bits : Value) (type : IntegralType)
  | namedValue (symbol : Nat) (type : IntegralType)
  /-- The range is the one of the value's type, the type the element's. -/
  | elementSelect (value selector : Expression) (range : FixedRange) (type : IntegralType)

def Expression.type : Expression → IntegralType
  | .literal _ type => type
  | .namedValue _ type => type
  | .elementSelect _ _ _ type => type

/-- Bits bound to symbols. -/
abbrev Environment := Nat → Option Value

structure Lowering where
  /-- The wire of each symbol. -/
  signal : Nat → Value
  current : Environment := fun _ => none
  /-- Scheduled nonblocking updates. -/
  pending : Environment := fun _ => none
  active : Value := [1]
  inFunction : Bool := false

/-- A sum or product of 64-bit integers, which wraps. -/
def int64 (x : Int) : Int := toInt64 (toUInt64 x)

namespace Lowering

def read (l : Lowering) (symbol : Nat) : Value :=
  (l.current symbol).getD (l.signal symbol)

def environment (l : Lowering) (nonblocking : Bool) : Environment :=
  if nonblocking then l.pending else l.current

/-- Bind a symbol in the environment an assignment writes. -/
def bindSymbol (l : Lowering) (nonblocking : Bool) (symbol : Nat) (value : Value) : Lowering :=
  if nonblocking then { l with pending := Function.update l.pending symbol (some value) }
  else { l with current := Function.update l.current symbol (some value) }

/-- Partial nonblocking writes start from the scheduled updates. -/
def scheduled (l : Lowering) (nonblocking : Bool) : Lowering :=
  if nonblocking then { l with current := fun symbol => (l.pending symbol).or (l.current symbol) }
  else l

def boolean (value : Value) : GraphM Value := unary .any value

def both (left right : Value) : GraphM Value := do
  let left ← boolean left
  let right ← boolean right
  binary .and left right 1

/-- `binary` for `BinaryOperator::Equality`. -/
def equality (left right : Value) : GraphM Value := do
  let difference ← binary .xor left right left.length
  let different ← unary .any difference
  unaryNot different

/-- A lowered expression as a static integer. -/
def integer (value : Value) (isSigned : Bool) : GraphM Int :=
  match number value with
  | some known =>
      pure (if isSigned then signedNumber known value.length else toInt64 known)
  | none => throw (.runtime "expected static integer")

/-- `constant(item, width)`: the number is converted to 64 unsigned bits. -/
def itemBits (item : Int) (width : Nat) : Value := constant (toUInt64 item) width

def elementOffset (range : FixedRange) (count : Nat) (index : Int) : Int :=
  int64 (range.position index * count)

/-- The comparisons of a run-time selector with every index. -/
def selectItems (range : FixedRange) (count : Nat) (value index : Value) : GraphM Value :=
  range.items.foldlM (fun result item => do
    let same ← equality index (itemBits item index.length)
    mux same (slice value (elementOffset range count item) count) result)
    (List.replicate count 0)

def expr (l : Lowering) : Expression → GraphM Value
  | .literal bits _ => pure bits
  | .namedValue symbol _ => pure (l.read symbol)
  | .elementSelect value selector range type => do
      let index ← l.expr selector
      let value ← l.expr value
      match number index with
      | some _ => do
          -- `selection` lowers the selector again
          let again ← l.expr selector
          let index ← integer again selector.type.isSigned
          pure (slice value (elementOffset range type.width index) type.width)
      | none => selectItems range type.width value index

def replaced (original value : Value) (offset : Int) (count : Nat) : Value :=
  (List.range count).foldl (fun (updated : Value) (index : Nat) =>
    if 0 ≤ offset + index then updated.set (offset + index).toNat (value.getD index 0)
    else updated) original

def assign (l : Lowering) : Expression → Value → Bool → Value → GraphM Lowering
  | .literal _ _, _, _, _ => throw (.runtime "unsupported assignment target")
  | .namedValue symbol _, value, nonblocking, guard => do
      let old := (l.environment nonblocking symbol).getD (l.read symbol)
      let enabled ← both (if l.inFunction then [1] else l.active) guard
      let new ← mux enabled (resize value old.length) old
      pure (l.bindSymbol nonblocking symbol new)
  | .elementSelect base selector range type, value, nonblocking, guard => do
      let original ← (l.scheduled nonblocking).expr base
      let index ← l.expr selector
      match number index with
      | some _ => do
          let again ← l.expr selector
          let index ← integer again selector.type.isSigned
          let condition ← both guard [1]
          l.assign base (replaced original value (elementOffset range type.width index) type.width)
            nonblocking condition
      | none =>
          -- each guarded write builds on the previous one
          range.items.foldlM (fun (l : Lowering) item => do
            let original ← (l.scheduled nonblocking).expr base
            let same ← equality index (itemBits item index.length)
            let condition ← both guard same
            l.assign base (replaced original value (elementOffset range type.width item)
              type.width) nonblocking condition) l

end Lowering

end CppHdl
