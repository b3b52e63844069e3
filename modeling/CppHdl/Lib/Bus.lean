import CppHdl.Lib.Bytewise
import Mathlib.Data.List.Basic

/-!
# A memory behind a bus

Reads are answered in order, each at any time from the clock of its request on,
with 16 words from its address or with an error. The reads without an answer are
the state of the bus.
-/

namespace CppHdl

/-- A clock of the bus: at most one request and at most one answer. -/
structure BusClock (mem : Nat → UInt8) (reads : List Nat) (request : Option Nat) (valid error : Bool)
    (data : Nat → UInt32) (answered : Option Nat) (rest : List Nat) : Prop where
  valid : valid = answered.isSome
  order : reads ++ request.toList = answered.toList ++ rest
  data : ∀ a, answered = some a → error = false → ∀ lane < 16, data lane = loadWord mem (a + 4 * lane)

variable {mem : Nat → UInt8} {reads rest : List Nat} {request answered : Option Nat}
  {valid error : Bool} {data : Nat → UInt32}

end CppHdl
