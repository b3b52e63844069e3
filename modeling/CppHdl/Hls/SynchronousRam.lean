import Mathlib.Algebra.Group.Nat.Defs
import Mathlib.Logic.Function.Basic

/-!
# RAM banks

A `SynchronousRam` has one read and one write port and a register for what was
read. Registers of 32 bits are naturals that wrap at 2^32.
-/

namespace CppHdl.Hls

/-- `uint32_t` of a sum. -/
def u32 (n : Nat) : Nat := n % 2 ^ 32

/-- `uint32_t` of a difference. -/
def sub32 (a b : Nat) : Nat := (a + 2 ^ 32 - b) % 2 ^ 32

/-- The 16 words of a bus beat. -/
abbrev Beat := Nat → UInt32

structure SynchronousRam where
  words : Nat → Beat
  data : Beat

/-- A read in the clock of a write sees what was there before. -/
def SynchronousRam.work (ram : SynchronousRam) (readIn : Bool) (readAddressIn : Nat)
    (writeIn : Bool) (writeAddressIn : Nat) (dataIn : Beat) : SynchronousRam where
  words := if writeIn then Function.update ram.words writeAddressIn dataIn else ram.words
  data := if readIn then ram.words readAddressIn else ram.data

end CppHdl.Hls
