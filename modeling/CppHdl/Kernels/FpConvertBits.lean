import Mathlib.Algebra.Group.Nat.Defs
import Mathlib.Data.Nat.Notation

/-!
# Conversion of floating point formats

`FpFormatConversion::convert` on raw bits, for the widths of the two formats.
-/

namespace CppHdl.Kernels

/-- `uint64_t`. -/
def u64 (n : Nat) : Nat := n % 2 ^ 64

namespace FpFormatConversion

/-- The highest one of a word of 64 bits alone. -/
def leadingOne (significand : Nat) : Nat :=
  let leading := significand ||| significand >>> 1
  let leading := leading ||| leading >>> 2
  let leading := leading ||| leading >>> 4
  let leading := leading ||| leading >>> 8
  let leading := leading ||| leading >>> 16
  let leading := leading ||| leading >>> 32
  leading ^^^ leading >>> 1

def oneIndex (leading : Nat) : Nat :=
  (leading &&& 0xffffffff00000000 != 0).toNat <<< 5 |||
    (leading &&& 0xffff0000ffff0000 != 0).toNat <<< 4 |||
    (leading &&& 0xff00ff00ff00ff00 != 0).toNat <<< 3 |||
    (leading &&& 0xf0f0f0f0f0f0f0f0 != 0).toNat <<< 2 |||
    (leading &&& 0xcccccccccccccccc != 0).toNat <<< 1 |||
    (leading &&& 0xaaaaaaaaaaaaaaaa != 0).toNat

/-- The payload of an infinity or a NaN. -/
def payload (significand mantWidth outMantWidth : Nat) (preserveNanPayload : Bool) : Nat :=
  if preserveNanPayload ∧ significand ≠ 0 then
    let moved := if mantWidth ≤ outMantWidth then u64 (significand <<< (outMantWidth - mantWidth))
      else significand >>> (mantWidth - outMantWidth)
    if moved = 0 then 1 else moved
  else if significand ≠ 0 then 1 else 0

/-- A shift to the right, to nearest even. -/
def retain (significand : Nat) (shift : Int) : Nat :=
  if shift ≤ 0 then u64 (significand <<< (-shift).toNat)
  else if shift < 64 then
    let retained := significand >>> shift.toNat
    let tail := significand &&& (1 <<< shift.toNat - 1)
    let halfway := 1 <<< (shift - 1).toNat
    if halfway < tail ∨ tail = halfway ∧ retained % 2 = 1 then retained + 1 else retained
  else 0

/-- What `convert` returns, without the sign. -/
def magnitude (value width expWidth outWidth outExpWidth : Nat)
    (preserveSubnormals preserveNanPayload : Bool) : Nat :=
  let mantWidth := width - expWidth - 1
  let outMantWidth := outWidth - outExpWidth - 1
  let expMax := 1 <<< expWidth - 1
  let mantMax := 1 <<< mantWidth - 1
  let outExpMax := 1 <<< outExpWidth - 1
  let outMantMax := 1 <<< outMantWidth - 1
  let expBias := 1 <<< (expWidth - 1) - 1
  let outExpBias := 1 <<< (outExpWidth - 1) - 1
  let inputExponent := value >>> mantWidth &&& expMax
  let significand := value &&& mantMax
  if inputExponent = expMax then
    outExpMax <<< outMantWidth ||| payload significand mantWidth outMantWidth preserveNanPayload
  else if inputExponent = 0 ∧ (significand = 0 ∨ ¬ preserveSubnormals) then 0
  else
    let normalize := if inputExponent ≠ 0 then 0
      else mantWidth - oneIndex (leadingOne significand)
    let normalized := if inputExponent ≠ 0 then significand ||| 1 <<< mantWidth
      else u64 (significand <<< normalize)
    let outputExponent : Int :=
      (if inputExponent ≠ 0 then inputExponent else 1 : Nat) - (expBias : Nat) + (outExpBias : Nat) -
        normalize
    if outputExponent ≤ 0 ∧ ¬ preserveSubnormals then 0
    else if (outExpMax : Int) ≤ outputExponent then outExpMax <<< outMantWidth
    else
      let retained := retain normalized ((mantWidth : Int) - outMantWidth +
        if outputExponent ≤ 0 then 1 - outputExponent else 0)
      let carried := ¬ outputExponent ≤ 0 ∧ 1 <<< (outMantWidth + 1) ≤ retained
      let rounded := if carried then retained >>> 1 else retained
      let exponent : Int :=
        if outputExponent ≤ 0 then if 1 <<< outMantWidth ≤ retained then 1 else 0
        else if carried then outputExponent + 1 else outputExponent
      if (outExpMax : Int) ≤ exponent then outExpMax <<< outMantWidth
      else exponent.toNat <<< outMantWidth ||| (rounded &&& outMantMax)

/-- Every `return` of the source has the sign or-ed in. -/
def convert (value width expWidth outWidth outExpWidth : Nat)
    (preserveSubnormals preserveNanPayload : Bool) : Nat :=
  let outputSign := (value >>> (width - 1) &&& 1) <<< (outWidth - 1)
  outputSign ||| magnitude value width expWidth outWidth outExpWidth preserveSubnormals
    preserveNanPayload

end FpFormatConversion

end CppHdl.Kernels
