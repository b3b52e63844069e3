import CppHdl.Words.PartSelect

/-!
# A field written into a vector

`sv_insert_field` writes the bits of a value over a range that is known when the
program is compiled. A range within 64 bits of its first byte goes through one
word, in place; a wider one, and every one in a constant evaluation, goes byte
by byte. Both replace the bits of the range and no others.
-/

namespace CppHdl.Words

/-! ## The two ways -/

/-- The bytes of the range, merged as one word. -/
def insertWord {width : Nat} (destination : List UInt8) (value : Logic width) (first : Nat) :
    List UInt8 :=
  let bytes := (width + first % 8 + 7) / 8
  writeBytes destination (first / 8) (bytesOfNat bytes
    (merge (loadWord destination (first / 8) bytes) value.toUInt64 width (first % 8)).toNat)

/-- Byte `byte` of the destination, its bits of the range replaced. -/
def insertedByte {width : Nat} (destination : List UInt8) (value : Logic width) (first byte : Nat) :
    UInt8 :=
  let start := if byte * 8 < first then first - byte * 8 else 0
  let stop := if first + width < byte * 8 + 8 then first + width - byte * 8 else 8
  let mask := UInt16.ofNat ((2 ^ (stop - start) - 1) * 2 ^ start)
  let source := byte * 8 + start - first
  let low := (value.bytes.getD (source / 8) 0).toUInt16
  let pair :=
    if source / 8 + 1 < size width then
      low ||| (value.bytes.getD (source / 8 + 1) 0).toUInt16 <<< 8
    else low
  ((destination.getD byte 0).toUInt16 &&& ~~~mask |||
    ((pair >>> UInt16.ofNat (source % 8)) <<< UInt16.ofNat start) &&& mask).toUInt8

/-- The loop from byte `First / 8` on. -/
def insertBytes {width : Nat} (destination : List UInt8) (value : Logic width) (first : Nat) :
    List UInt8 :=
  (List.range' (first / 8) ((first + width + 7) / 8 - first / 8)).foldl
    (fun bytes byte => writeBytes bytes byte [insertedByte bytes value first byte]) destination

/-- The bytes `sv_insert_field` leaves. -/
def insertField {width : Nat} (constantEvaluated : Bool) (destination : List UInt8)
    (value : Logic width) (first : Nat) : List UInt8 :=
  if width = 0 then destination
  else if width + first % 8 ≤ 64 ∧ constantEvaluated = false then insertWord destination value first
  else insertBytes destination value first

/-! ## The range and nothing else -/

section

variable {width : Nat} {old : List UInt8} {value : Logic width} {first : Nat}

/-- The bits from `first` up to `last` were replaced by those of the value. -/
structure Inserted (old : List UInt8) (value : Logic width) (first last : Nat)
    (new : List UInt8) : Prop where
  length : new.length = old.length
  bits : ∀ i, (natOfBytes new).testBit i =
    if first ≤ i ∧ i < last then value.toNat.testBit (i - first) else (natOfBytes old).testBit i

/-- What is inserted is the value, not its padding. -/
theorem Inserted.value_bits {last : Nat} {new : List UInt8} (h : Inserted old value first last new)
    (hlast : last ≤ first + width) (i : Nat) :
    (natOfBytes new).testBit i =
      if first ≤ i ∧ i < last then value.value.testBit (i - first)
      else (natOfBytes old).testBit i := by
  rw [h.bits]
  split_ifs with hin
  · rw [Logic.value, Nat.testBit_mod_two_pow, decide_eq_true (by omega), Bool.true_and]
  · rfl

theorem insertWord_inserted (hwidth : 0 < width) (hword : width + first % 8 ≤ 64)
    (hfit : first + width ≤ 8 * old.length) :
    Inserted old value first (first + width) (insertWord old value first) := by
  have hlen : first / 8 + (bytesOfNat ((width + first % 8 + 7) / 8)
      (merge (loadWord old (first / 8) ((width + first % 8 + 7) / 8)) value.toUInt64 width
        (first % 8)).toNat).length ≤ old.length := by
    rw [length_bytesOfNat]
    omega
  refine ⟨length_writeBytes hlen, fun i => ?_⟩
  unfold insertWord
  dsimp only
  rw [testBit_writeBytes hlen, length_bytesOfNat, testBit_bytesOfNat]
  by_cases hbytes : 8 * (first / 8) ≤ i ∧ i < 8 * (first / 8 + (width + first % 8 + 7) / 8)
  · rw [if_pos hbytes, testBit_merge hwidth (by omega) _ _ (by omega), decide_eq_true (by omega),
      Bool.true_and]
    by_cases hin : first ≤ i ∧ i < first + width
    · rw [if_pos (by omega), if_pos hin, Logic.toNat_toUInt64, Nat.testBit_mod_two_pow,
        decide_eq_true (by omega), Bool.true_and]
      congr 1
      omega
    · rw [if_neg (by omega), if_neg hin, testBit_loadWord _ _ (by omega), decide_eq_true (by omega),
        Bool.true_and]
      congr 1
      omega
  · rw [if_neg hbytes, if_neg (by omega)]

theorem testBit_byteMask {start stop : Nat} (hstop : stop ≤ 8) (j : Nat) :
    (UInt16.ofNat ((2 ^ (stop - start) - 1) * 2 ^ start)).toNat.testBit j =
      decide (start ≤ j ∧ j < stop) := by
  rw [UInt16.toNat_ofNat', ← Nat.shiftLeft_eq, Nat.testBit_mod_two_pow, Nat.testBit_shiftLeft,
    Nat.testBit_two_pow_sub_one, ← Bool.decide_and, ← Bool.decide_and]
  exact decide_eq_decide.mpr (by omega)

theorem testBit_not16 (x : UInt16) (i : Nat) :
    (~~~x).toNat.testBit i = (decide (i < 16) && !x.toNat.testBit i) := by
  have := x.toNat_lt
  rw [UInt16.toNat_not, show UInt16.size - 1 - x.toNat = 2 ^ 16 - (x.toNat + 1) by
    simp only [UInt16.size]; omega]
  exact Nat.testBit_two_pow_sub_succ x.toNat_lt i

/-- The low byte of a shifted pair is read as in a slice. -/
theorem testBit_pair (value : Logic width) (source : Nat) {j : Nat} (hj : j < 8) :
    ((if source / 8 + 1 < size width then
        (value.bytes.getD (source / 8) 0).toUInt16 |||
          (value.bytes.getD (source / 8 + 1) 0).toUInt16 <<< 8
      else (value.bytes.getD (source / 8) 0).toUInt16) >>>
        UInt16.ofNat (source % 8)).toNat.testBit j = value.toNat.testBit (source + j) := by
  have hpair := @testBit_pairByte value.bytes (source / 8) (source % 8) j
    (Nat.mod_lt _ (by decide)) hj
  unfold pairByte at hpair
  dsimp only at hpair
  rw [value.length_eq, UInt16.toNat_toUInt8, Nat.testBit_mod_two_pow, decide_eq_true hj,
    Bool.true_and, Nat.div_add_mod] at hpair
  exact hpair

theorem testBit_insertedByte (old : List UInt8) {byte j : Nat} (hj : j < 8)
    (hbyte : first / 8 ≤ byte ∧ byte < (first + width + 7) / 8) :
    (insertedByte old value first byte).toNat.testBit j =
      if first ≤ 8 * byte + j ∧ 8 * byte + j < first + width then
        value.toNat.testBit (8 * byte + j - first)
      else (natOfBytes old).testBit (8 * byte + j) := by
  unfold insertedByte
  dsimp only
  generalize hstart : (if byte * 8 < first then first - byte * 8 else 0) = start
  generalize hstop : (if first + width < byte * 8 + 8 then first + width - byte * 8 else 8) = stop
  have hstart8 : start < 8 := by split_ifs at hstart <;> omega
  have hstop8 : stop ≤ 8 := by split_ifs at hstop <;> omega
  have hin : (start ≤ j ∧ j < stop) ↔ first ≤ 8 * byte + j ∧ 8 * byte + j < first + width := by
    split_ifs at hstart hstop <;> omega
  rw [UInt16.toNat_toUInt8, Nat.testBit_mod_two_pow, decide_eq_true hj, Bool.true_and,
    UInt16.toNat_or, Nat.testBit_lor, UInt16.toNat_and, Nat.testBit_land, UInt16.toNat_and,
    Nat.testBit_land, testBit_not16, testBit_byteMask hstop8, UInt8.toNat_toUInt16,
    testBit_getD _ _ _ hj, testBit_shiftLeft16 _ (by omega), decide_eq_true (by omega : j < 16)]
  by_cases hrange : start ≤ j ∧ j < stop
  · rw [if_pos (hin.mp hrange), decide_eq_true hrange, decide_eq_true hrange.1,
      testBit_pair value _ (by omega)]
    simp only [Bool.not_true, Bool.and_false, Bool.false_or, Bool.true_and, Bool.and_true]
    congr 1
    split_ifs at hstart <;> omega
  · rw [if_neg (mt hin.mpr hrange), decide_eq_false hrange]
    simp

theorem insertBytes_loop (hfit : first + width ≤ 8 * old.length) {n : Nat}
    (hn : n ≤ (first + width + 7) / 8 - first / 8) :
    Inserted old value first (min (first + width) (8 * (first / 8 + n)))
      ((List.range' (first / 8) n).foldl
        (fun bytes byte => writeBytes bytes byte [insertedByte bytes value first byte]) old) := by
  induction n with
  | zero => exact ⟨rfl, fun i => by rw [if_neg (by omega)]; rfl⟩
  | succ n ih =>
      have h := ih (by omega)
      rw [List.range'_1_concat, List.foldl_append]
      generalize (List.range' (first / 8) n).foldl _ old = done at h
      have hroom : first / 8 + n < done.length := by rw [h.length]; omega
      refine ⟨(length_writeBytes hroom).trans h.length,
        fun i => (testBit_writeByte hroom _ i).trans ?_⟩
      by_cases hnow : 8 * (first / 8 + n) ≤ i ∧ i < 8 * (first / 8 + n) + 8
      · rw [if_pos hnow, testBit_insertedByte done (by omega) (by omega),
          show 8 * (first / 8 + n) + (i - 8 * (first / 8 + n)) = i by omega]
        by_cases hin : first ≤ i ∧ i < first + width
        · rw [if_pos hin, if_pos (by omega)]
        · rw [if_neg hin, if_neg (by omega), h.bits, if_neg (by omega)]
      · rw [if_neg hnow, h.bits]
        by_cases hin : first ≤ i ∧ i < min (first + width) (8 * (first / 8 + n))
        · rw [if_pos hin, if_pos (by omega)]
        · rw [if_neg hin, if_neg (by omega)]

theorem insertBytes_inserted (hfit : first + width ≤ 8 * old.length) :
    Inserted old value first (first + width) (insertBytes old value first) := by
  have h := @insertBytes_loop width old value first hfit _ (Nat.le_refl _)
  rwa [Nat.min_eq_left (by omega)] at h

/-- Both ways, and the empty range. -/
theorem insertField_inserted (constantEvaluated : Bool) (hfit : first + width ≤ 8 * old.length) :
    Inserted old value first (first + width) (insertField constantEvaluated old value first) := by
  unfold insertField
  split_ifs with hzero hword
  · subst hzero
    exact ⟨rfl, fun i => by rw [if_neg (by omega)]⟩
  · exact insertWord_inserted (Nat.pos_of_ne_zero hzero) hword.1 hfit
  · exact insertBytes_inserted hfit

end

namespace Logic

def svInsertField {total width : Nat} (constantEvaluated : Bool) (destination : Logic total)
    (value : Logic width) (first : Nat) (h : first + width ≤ total) : Logic total where
  bytes := insertField constantEvaluated destination.bytes value first
  length_eq := by
    have hsize := le_size total
    rw [(insertField_inserted constantEvaluated (by rw [destination.length_eq]; omega)).length,
      destination.length_eq]

theorem testBit_svInsertField {total width : Nat} (constantEvaluated : Bool)
    (destination : Logic total) (value : Logic width) (first : Nat) (h : first + width ≤ total)
    (i : Nat) :
    (svInsertField constantEvaluated destination value first h).toNat.testBit i =
      if first ≤ i ∧ i < first + width then value.value.testBit (i - first)
      else destination.toNat.testBit i := by
  have hsize := le_size total
  exact (insertField_inserted constantEvaluated
    (by rw [destination.length_eq]; omega)).value_bits (Nat.le_refl _) i

end Logic

end CppHdl.Words
