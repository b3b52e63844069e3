import CppHdl.Lib.Bytes

/-!
# A memory of bytes and words of 32 bits

A word is four bytes, low byte first. A masked store of a block writes the bytes
its mask has a one for.
-/

namespace CppHdl

def byteOf (x : UInt32) (b : Nat) : UInt8 := UInt8.ofNat (x.toNat / 256 ^ b)

def loadWord (mem : Nat → UInt8) (p : Nat) : UInt32 :=
  UInt32.ofNat (natOfBytes [mem p, mem (p + 1), mem (p + 2), mem (p + 3)])

/-- The words of a block over the memory at an address, byte by byte. -/
def storeMasked (mem : Nat → UInt8) (p : Nat) (block : Nat → UInt32) (size mask : Nat) :
    Nat → UInt8 := fun q =>
  if p ≤ q ∧ q < p + size ∧ mask.testBit (q - p) then byteOf (block ((q - p) / 4)) ((q - p) % 4)
  else mem q

theorem loadWord_bytes {mem : Nat → UInt8} {p : Nat} {x : UInt32}
    (h : ∀ b < 4, mem (p + b) = byteOf x b) : loadWord mem p = x := by
  have hbytes : [mem p, mem (p + 1), mem (p + 2), mem (p + 3)] = bytesOfNat 4 x.toNat := by
    rw [show mem p = byteOf x 0 from h 0 (by decide), h 1 (by decide), h 2 (by decide),
      h 3 (by decide)]
    simp only [byteOf, bytesOfNat, Nat.div_div_eq_div_mul, Nat.reducePow, Nat.reduceMul, Nat.div_one]
  unfold loadWord
  rw [hbytes, natOfBytes_bytesOfNat, Nat.mod_eq_of_lt x.toNat_lt, UInt32.ofNat_toNat]

end CppHdl
