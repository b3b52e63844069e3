import CppHdl.Basic.Clog2
import CppHdl.Words.Canonical

/-!
# The memory block

`Memory` has one row of `MEM_WIDTH_BYTES` bytes for each address, a write port
with an enable for each byte and a read port that shows the addressed row at once
or in the next clock. A write is visible from the next clock on.
-/

namespace CppHdl.Basic

open Words Words.Logic

/-- The committed rows and the read register. -/
structure Memory (MEM_WIDTH_BYTES : Nat) where
  buffer : Nat → Logic (MEM_WIDTH_BYTES * 8)
  dataOutReg : Logic (MEM_WIDTH_BYTES * 8)

namespace Memory

variable {MEM_WIDTH_BYTES : Nat}

theorem byte_range (i : Fin MEM_WIDTH_BYTES) :
    i.val * 8 ≤ (i.val + 1) * 8 - 1 ∧ (i.val + 1) * 8 - 1 < MEM_WIDTH_BYTES * 8 := by
  have := i.isLt
  omega

/-- Byte `i` of the mask, all ones where the byte is enabled. -/
def maskByte (maskIn : Logic MEM_WIDTH_BYTES) (mask : Logic (MEM_WIDTH_BYTES * 8))
    (i : Fin MEM_WIDTH_BYTES) : Logic (MEM_WIDTH_BYTES * 8) :=
  mask.writeBits ((i + 1) * 8 - 1) (i * 8) (byte_range i)
    (assignUInt64 (MEM_WIDTH_BYTES * 8)
      (if (maskIn.snapshot i i ⟨Nat.le_refl _, i.isLt⟩).toBool then 0xFF else 0))

def mask (maskIn : Logic MEM_WIDTH_BYTES) : Logic (MEM_WIDTH_BYTES * 8) :=
  (List.finRange MEM_WIDTH_BYTES).foldl (maskByte maskIn) (zero _)

/-- `(row & ~mask) | (data & mask)`. -/
def mergeRow (row data mask : Logic (MEM_WIDTH_BYTES * 8)) : Logic (MEM_WIDTH_BYTES * 8) :=
  (row.and mask.complement).or (data.and mask)

/-- `data_out_comb_func`. -/
def dataOutComb (SHOWAHEAD : Bool) (m : Memory MEM_WIDTH_BYTES) (readAddrIn : Nat) :
    Logic (MEM_WIDTH_BYTES * 8) :=
  if SHOWAHEAD then m.buffer readAddrIn else m.dataOutReg

/-- `_work` and the strobe after it. Rows are read as committed. -/
def work (SHOWAHEAD : Bool) (m : Memory MEM_WIDTH_BYTES) (writeIn : Bool) (writeAddrIn : Nat)
    (writeDataIn : Logic (MEM_WIDTH_BYTES * 8)) (writeMaskIn : Logic MEM_WIDTH_BYTES)
    (readAddrIn : Nat) : Memory MEM_WIDTH_BYTES where
  buffer :=
    if writeIn then Function.update m.buffer writeAddrIn
      (mergeRow (m.buffer writeAddrIn) writeDataIn (mask writeMaskIn))
    else m.buffer
  dataOutReg := if SHOWAHEAD then m.dataOutReg else m.buffer readAddrIn

/-! ## What the mask lets through -/

theorem toBool_snapshot (x : Logic MEM_WIDTH_BYTES) (i : Fin MEM_WIDTH_BYTES) :
    (x.snapshot i i ⟨Nat.le_refl _, i.isLt⟩).toBool = x.toNat.testBit i := by
  have hword : (x.snapshot i i ⟨Nat.le_refl _, i.isLt⟩).toUInt64.toNat =
      (x.toNat.testBit i).toNat := by
    rw [toNat_toUInt64, toNat_snapshot, Nat.toNat_testBit,
      show (i : Nat) + 1 - i = 1 by omega, Nat.pow_one]
    omega
  unfold Logic.toBool
  cases hbit : x.toNat.testBit i with
  | false =>
      rw [hbit] at hword
      rw [decide_eq_false_iff_not, not_not]
      exact UInt64.toNat_inj.mp hword
  | true =>
      rw [hbit] at hword
      rw [decide_eq_true_iff]
      intro hzero
      rw [hzero] at hword
      cases hword

/-- A byte of all ones or all zeros. -/
theorem testBit_maskByte (maskIn : Logic MEM_WIDTH_BYTES) (m : Logic (MEM_WIDTH_BYTES * 8))
    (i : Fin MEM_WIDTH_BYTES) (j : Nat) :
    (maskByte maskIn m i).toNat.testBit j =
      if j / 8 = i then maskIn.toNat.testBit i else m.toNat.testBit j := by
  have hi := i.isLt
  unfold maskByte
  rw [testBit_writeBits]
  by_cases hj : j / 8 = i
  · rw [if_pos hj, if_pos (by omega), toNat_convert, if_pos rfl, toNat_assignUInt64,
      toBool_snapshot, Nat.testBit_mod_two_pow, decide_eq_true (by omega), Bool.true_and]
    cases maskIn.toNat.testBit i with
    | false => exact Nat.zero_testBit _
    | true =>
        change (2 ^ 8 - 1).testBit (j - i * 8) = true
        rw [Nat.testBit_two_pow_sub_one]
        exact decide_eq_true (by omega)
  · rw [if_neg hj, if_neg (by omega)]

theorem testBit_mask_loop (maskIn : Logic MEM_WIDTH_BYTES) (order : List (Fin MEM_WIDTH_BYTES))
    (m : Logic (MEM_WIDTH_BYTES * 8)) (i : Fin MEM_WIDTH_BYTES) {j : Nat} (hj : j / 8 = i) :
    (order.foldl (maskByte maskIn) m).toNat.testBit j =
      if i ∈ order then maskIn.toNat.testBit i else m.toNat.testBit j := by
  induction order generalizing m with
  | nil => rw [if_neg List.not_mem_nil]; rfl
  | cons k order ih =>
      rw [List.foldl_cons, ih, testBit_maskByte, hj]
      by_cases hmem : i ∈ order
      · rw [if_pos hmem, if_pos (List.mem_cons_of_mem k hmem)]
      · by_cases hk : i = k
        · rw [if_neg hmem, if_pos (congrArg Fin.val hk), if_pos (hk ▸ List.mem_cons_self), hk]
        · rw [if_neg hmem, if_neg (mt Fin.ext hk), if_neg (by simp [hk, hmem])]

theorem testBit_mask (maskIn : Logic MEM_WIDTH_BYTES) {j : Nat} (hj : j < MEM_WIDTH_BYTES * 8) :
    (mask maskIn).toNat.testBit j = maskIn.toNat.testBit (j / 8) := by
  refine (testBit_mask_loop maskIn _ _ ⟨j / 8, by omega⟩ rfl).trans ?_
  rw [if_pos (List.mem_finRange _)]

theorem row_canonical (x : Logic (MEM_WIDTH_BYTES * 8)) : x.Canonical := by
  have hlt := x.toNat_lt
  have hsize : 8 * size (MEM_WIDTH_BYTES * 8) = MEM_WIDTH_BYTES * 8 := by
    unfold size
    omega
  rwa [hsize] at hlt

/-- A write replaces the bytes that are enabled. -/
theorem testBit_mergeRow (row data : Logic (MEM_WIDTH_BYTES * 8)) (maskIn : Logic MEM_WIDTH_BYTES)
    {j : Nat} (hj : j < MEM_WIDTH_BYTES * 8) :
    (mergeRow row data (mask maskIn)).toNat.testBit j =
      if maskIn.toNat.testBit (j / 8) then data.toNat.testBit j else row.toNat.testBit j := by
  unfold mergeRow Logic.or Logic.and
  rw [testBit_binary bitwise_or rfl, testBit_binary bitwise_and rfl,
    testBit_binary bitwise_and rfl, testBit_complement, testBit_mask _ hj, decide_eq_true hj]
  cases maskIn.toNat.testBit (j / 8) <;> simp

/-- With all bytes enabled the data replace the row. -/
theorem mergeRow_all (row data : Logic (MEM_WIDTH_BYTES * 8)) {maskIn : Logic MEM_WIDTH_BYTES}
    (h : ∀ i < MEM_WIDTH_BYTES, maskIn.toNat.testBit i = true) :
    mergeRow row data (mask maskIn) = data := by
  refine toNat_inj (Nat.eq_of_testBit_eq fun j => ?_)
  by_cases hj : j < MEM_WIDTH_BYTES * 8
  · rw [testBit_mergeRow _ _ _ hj, if_pos (h _ (by omega))]
  · rw [Canonical.testBit (row_canonical _) (by omega), Canonical.testBit (row_canonical _) (by omega)]

end Memory

end CppHdl.Basic
