import CppHdl.Devices.EthGigMac
import CppHdl.Lib.Crc

/-!
# Frames on the line

A frame is a payload of at least 60 bytes and a check sequence of four, behind a preamble. The
check of a whole frame is a constant, and a burst of at most 32 altered bits changes it.
-/

namespace CppHdl.Devices

namespace EthGigMac

/-! ## The check sequence -/

def crcOf (crc : BitVec 32) (bytes : List (BitVec 8)) : BitVec 32 := bytes.foldl crc32Next crc

def allBits (bytes : List (BitVec 8)) : List Bool := bytes.flatMap Crc.bitsOf

abbrev polynomial : BitVec 32 := 0xedb88320

theorem crc32Next_eq (crc : BitVec 32) (data : BitVec 8) :
    crc32Next crc data = Crc.feedAll polynomial crc (Crc.bitsOf data) := by
  have hlen : (Crc.bitsOf data).length = 8 := by
    unfold Crc.bitsOf
    rw [List.length_map, List.length_range]
  have hfold : ∀ (k : Nat) (value : BitVec 32),
      (List.range k).foldl (fun value _ => crcBit value) value =
        (Crc.step polynomial)^[k] value := by
    intro k value
    induction k with
    | zero => rfl
    | succ k ih =>
        rw [List.range_succ, List.foldl_append, ih, Function.iterate_succ_apply']
        rfl
  rw [Crc.feedAll_eq (by rw [hlen]; decide), hlen, Crc.word_bitsOf]
  exact hfold 8 _

theorem crcOf_eq (crc : BitVec 32) (bytes : List (BitVec 8)) :
    crcOf crc bytes = Crc.feedAll polynomial crc (allBits bytes) := by
  induction bytes generalizing crc with
  | nil => rfl
  | cons b bytes ih =>
      change crcOf (crc32Next crc b) bytes = Crc.feedAll polynomial crc (Crc.bitsOf b ++ allBits bytes)
      rw [ih, crc32Next_eq, Crc.feedAll_append]

theorem crcOf_append {crc : BitVec 32} {bytes bytes' : List (BitVec 8)} :
    crcOf crc (bytes ++ bytes') = crcOf (crcOf crc bytes) bytes' := List.foldl_append

/-- The bytes of a check sequence, the low one first. -/
def fcsBytes (w : BitVec 32) : List (BitVec 8) :=
  (List.range 4).map fun j => w.extractLsb' (j * 8) 8

theorem allBits_fcsBytes (w : BitVec 32) : allBits (fcsBytes w) = Crc.bitsOf w := by
  unfold allBits fcsBytes Crc.bitsOf
  simp [List.range_succ]

/-- What is left of a register and its own complement. -/
theorem crcOf_fcsBytes (crc : BitVec 32) : crcOf crc (fcsBytes (~~~crc)) = ETHERNET_CRC_RESIDUE := by
  have hlen : (Crc.bitsOf (~~~crc)).length = 32 := by
    unfold Crc.bitsOf
    rw [List.length_map, List.length_range]
  have hones : crc ^^^ ~~~crc = BitVec.allOnes 32 := by
    apply BitVec.eq_of_getLsbD_eq
    intro i hi
    rw [BitVec.getLsbD_xor, BitVec.getLsbD_not, BitVec.getLsbD_allOnes, decide_eq_true hi]
    cases crc.getLsbD i <;> rfl
  rw [crcOf_eq, allBits_fcsBytes, Crc.feedAll_eq (by rw [hlen]), hlen, Crc.word_bitsOf,
    BitVec.setWidth_eq, hones]
  decide +kernel

/-! ## Frames -/

/-- A payload with zeros up to the least length. -/
def pad (payload : List (BitVec 8)) : List (BitVec 8) :=
  payload ++ List.replicate (ETHERNET_MIN_PAYLOAD_BYTES - payload.length) 0

def fcsOf (bytes : List (BitVec 8)) : BitVec 32 := ~~~crcOf 0xffffffff bytes

/-- Padded payload and check sequence. -/
def frameBody (payload : List (BitVec 8)) : List (BitVec 8) :=
  pad payload ++ fcsBytes (fcsOf (pad payload))

theorem crcOf_frameBody (payload : List (BitVec 8)) :
    crcOf 0xffffffff (frameBody payload) = ETHERNET_CRC_RESIDUE := by
  unfold frameBody fcsOf
  rw [crcOf_append, crcOf_fcsBytes]

theorem length_pad (payload : List (BitVec 8)) : (pad payload).length = max payload.length 60 := by
  unfold pad ETHERNET_MIN_PAYLOAD_BYTES
  rw [List.length_append, List.length_replicate]
  omega

theorem length_frameBody (payload : List (BitVec 8)) :
    (frameBody payload).length = max payload.length 60 + 4 := by
  unfold frameBody fcsBytes
  rw [List.length_append, length_pad, List.length_map, List.length_range]

/-! ## Errors -/

/-- Some bits are altered. -/
def addError (bytes err : List (BitVec 8)) : List (BitVec 8) := List.zipWith (· ^^^ ·) bytes err

theorem allBits_addError {bytes err : List (BitVec 8)} (h : bytes.length = err.length) :
    allBits (addError bytes err) = List.zipWith xor (allBits bytes) (allBits err) := by
  have hbits : ∀ x y : BitVec 8, Crc.bitsOf (x ^^^ y) =
      List.zipWith xor (Crc.bitsOf x) (Crc.bitsOf y) := by
    intro x y
    unfold Crc.bitsOf
    rw [List.zipWith_map, List.zipWith_self]
    exact List.map_congr_left fun i _ => BitVec.getLsbD_xor
  have hlen : ∀ x : BitVec 8, (Crc.bitsOf x).length = 8 := by
    intro x
    unfold Crc.bitsOf
    rw [List.length_map, List.length_range]
  induction bytes generalizing err with
  | nil =>
      obtain rfl : err = [] := List.length_eq_zero_iff.mp h.symm
      rfl
  | cons b bytes ih =>
      cases err with
      | nil => cases h
      | cons e err =>
          change Crc.bitsOf (b ^^^ e) ++ allBits (addError bytes err) =
            List.zipWith xor (Crc.bitsOf b ++ allBits bytes) (Crc.bitsOf e ++ allBits err)
          rw [List.zipWith_append (by rw [hlen, hlen]), ih (Nat.succ.inj h), hbits]

theorem length_allBits (bytes : List (BitVec 8)) : (allBits bytes).length = 8 * bytes.length := by
  unfold allBits Crc.bitsOf
  rw [List.length_flatMap]
  induction bytes with
  | nil => rfl
  | cons b bytes ih =>
      rw [List.map_cons, List.sum_cons, ih, List.length_map, List.length_range, List.length_cons]
      omega

/-- A burst in a frame is seen by its check. -/
theorem crcOf_addError {payload err : List (BitVec 8)} (hlen : (frameBody payload).length = err.length)
    (hburst : Crc.Burst 32 (allBits err)) :
    crcOf 0xffffffff (addError (frameBody payload) err) ≠ ETHERNET_CRC_RESIDUE := by
  have hne : Crc.feedAll polynomial 0#32 (allBits err) ≠ 0#32 := Crc.feedAll_burst (by decide) hburst
  have hsum : crcOf 0xffffffff (addError (frameBody payload) err) =
      ETHERNET_CRC_RESIDUE ^^^ Crc.feedAll polynomial 0#32 (allBits err) := by
    rw [crcOf_eq, allBits_addError hlen, ← crcOf_frameBody payload, crcOf_eq, ← Crc.feedAll_xor
      (by rw [length_allBits, length_allBits, hlen]), BitVec.xor_zero]
  rw [hsum]
  intro hsame
  have hzero := congrArg (ETHERNET_CRC_RESIDUE ^^^ ·) hsame
  rw [← BitVec.xor_assoc, BitVec.xor_self, BitVec.zero_xor] at hzero
  exact hne hzero

end EthGigMac

end CppHdl.Devices
