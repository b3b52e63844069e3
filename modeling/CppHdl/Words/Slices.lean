import CppHdl.Words.Bitwise

/-!
# Slices of logic vectors

`bits(last, first)` takes a snapshot of a range of bits into a vector of the
same width; assigning to it converts the value and writes the range back into
the parent. Up to 64 bits the parent is one machine word; above, the range is
written in pieces of up to 64 bits. Every read clears the bits above the range,
and a write changes no bit outside it.
-/

namespace CppHdl.Words

/-! ## Bytes at a bit offset -/

/-- The eight bits from bit `shift` of byte `source` on. -/
def pairByte (bytes : List UInt8) (source shift : Nat) : UInt8 :=
  let low := (bytes.getD source 0).toUInt16
  let pair :=
    if source + 1 < bytes.length then low ||| (bytes.getD (source + 1) 0).toUInt16 <<< 8 else low
  (pair >>> UInt16.ofNat shift).toUInt8

/-- Bytes from bit `8 * source + shift` on. -/
def window (bytes : List UInt8) (source shift n : Nat) : List UInt8 :=
  (List.range n).map fun d => pairByte bytes (source + d) shift

theorem testBit_pairByte (bytes : List UInt8) (source : Nat) {shift i : Nat} (hshift : shift < 8)
    (hi : i < 8) :
    (pairByte bytes source shift).toNat.testBit i =
      (natOfBytes bytes).testBit (8 * source + shift + i) := by
  have hmod : (UInt16.ofNat shift).toNat % 16 = shift := by
    rw [UInt16.toNat_ofNat']
    omega
  have hhigh : ((bytes.getD (source + 1) 0).toUInt16 <<< 8).toNat =
      (bytes.getD (source + 1) 0).toNat <<< 8 := by
    have := (bytes.getD (source + 1) 0).toNat_lt
    rw [UInt16.toNat_shiftLeft, UInt8.toNat_toUInt16]
    change _ <<< 8 % _ = _
    rw [Nat.shiftLeft_eq, Nat.mod_eq_of_lt (by omega)]
  unfold pairByte
  dsimp only
  rw [UInt16.toNat_toUInt8, Nat.testBit_mod_two_pow, decide_eq_true hi, Bool.true_and,
    UInt16.toNat_shiftRight, hmod, Nat.testBit_shiftRight]
  by_cases hlow : shift + i < 8
  · -- the bit lies in the low byte
    have hbit := testBit_getD bytes source (shift + i) hlow
    rw [← Nat.add_assoc] at hbit
    split_ifs with hsize
    · rw [UInt16.toNat_or, Nat.testBit_lor, hhigh, Nat.testBit_shiftLeft,
        decide_eq_false (by omega), Bool.false_and, Bool.or_false, UInt8.toNat_toUInt16, hbit]
    · rw [UInt8.toNat_toUInt16, hbit]
  · have hbit := testBit_getD bytes (source + 1) (shift + i - 8) (by omega)
    rw [show 8 * (source + 1) + (shift + i - 8) = 8 * source + shift + i by omega] at hbit
    split_ifs with hsize
    · rw [UInt16.toNat_or, Nat.testBit_lor, hhigh, Nat.testBit_shiftLeft,
        decide_eq_true (by omega), Bool.true_and, UInt8.toNat_toUInt16,
        testBit_uint8_of_le _ (by omega), Bool.false_or, hbit]
    · rw [UInt8.toNat_toUInt16, testBit_uint8_of_le _ (by omega),
        testBit_natOfBytes_of_le (by omega)]

theorem testBit_map_range (f : Nat → UInt8) (n i : Nat) :
    (natOfBytes ((List.range n).map f)).testBit i =
      (decide (i < 8 * n) && (f (i / 8)).toNat.testBit (i % 8)) := by
  by_cases hi : i < 8 * n
  · rw [testBit_natOfBytes, List.getD_eq_getElem _ _ (by simp; omega), List.getElem_map,
      List.getElem_range, decide_eq_true hi, Bool.true_and]
  · rw [testBit_natOfBytes_of_le (by simp; omega), decide_eq_false hi, Bool.false_and]

theorem testBit_window (bytes : List UInt8) (source : Nat) {shift : Nat} (hshift : shift < 8)
    (n i : Nat) :
    (natOfBytes (window bytes source shift n)).testBit i =
      (decide (i < 8 * n) && (natOfBytes bytes).testBit (8 * source + shift + i)) := by
  unfold window
  rw [testBit_map_range, testBit_pairByte _ _ hshift (Nat.mod_lt _ (by decide))]
  congr 2
  omega

theorem natOfBytes_window (bytes : List UInt8) (first n : Nat) :
    natOfBytes (window bytes (first / 8) (first % 8) n) =
      natOfBytes bytes / 2 ^ first % 2 ^ (8 * n) := by
  apply Nat.eq_of_testBit_eq
  intro i
  rw [testBit_window _ _ (Nat.mod_lt _ (by decide)), Nat.testBit_mod_two_pow,
    Nat.testBit_div_two_pow, Nat.div_add_mod, Nat.add_comm first]

namespace Logic

variable {width : Nat}

/-! ## Reading -/

/-- The bytes of `count` bits from bit `first` on, without the bits above. -/
def field (x : Logic width) (first count : Nat) : List UInt8 :=
  mask count (if first % 8 = 0 then readBytes x.bytes (first / 8) (size count)
    else window x.bytes (first / 8) (first % 8) (size count))

theorem field_source {x : Logic width} {first count : Nat} (h : first + count ≤ width) :
    let bytes := if first % 8 = 0 then readBytes x.bytes (first / 8) (size count)
      else window x.bytes (first / 8) (first % 8) (size count)
    bytes.length = size count ∧
      natOfBytes bytes = x.toNat / 2 ^ first % 2 ^ (8 * size count) := by
  dsimp only
  split_ifs with hshift
  · refine ⟨length_readBytes ?_, ?_⟩
    · rw [x.length_eq]
      unfold size
      omega
    · rw [natOfBytes_readBytes, show 8 * (first / 8) = first by omega]
      rfl
  · exact ⟨by rw [window, List.length_map, List.length_range], natOfBytes_window ..⟩

theorem length_field {x : Logic width} {first count : Nat} (h : first + count ≤ width) :
    (x.field first count).length = size count :=
  length_mask (field_source h).1

theorem natOfBytes_field {x : Logic width} {first count : Nat} (h : first + count ≤ width) :
    natOfBytes (x.field first count) = x.toNat / 2 ^ first % 2 ^ count := by
  obtain ⟨hlen, hbytes⟩ := @field_source width x first count h
  unfold field
  rw [natOfBytes_mask hlen, hbytes]
  exact Nat.mod_mod_of_dvd _ (Nat.pow_dvd_pow 2 (le_size count))

/-- `logic_bits(parent, first, last)`: the snapshot of a range. -/
def snapshot (x : Logic width) (last first : Nat) (h : first ≤ last ∧ last < width) :
    Logic width where
  bytes := x.field first (last + 1 - first) ++
    List.replicate (size width - size (last + 1 - first)) 0
  length_eq := by
    rw [List.length_append, length_field (by omega), List.length_replicate]
    unfold size
    omega

theorem toNat_snapshot (x : Logic width) (last first : Nat) (h : first ≤ last ∧ last < width) :
    (x.snapshot last first h).toNat = x.toNat / 2 ^ first % 2 ^ (last + 1 - first) := by
  unfold snapshot toNat
  rw [natOfBytes_append, natOfBytes_replicate_zero, Nat.mul_zero, Nat.add_zero,
    natOfBytes_field (by omega)]
  rfl

/-- `slice<LAST, FIRST>()`. -/
def slice (x : Logic width) (last first : Nat) : Logic (last - first + 1) :=
  masked (last - first + 1) (window x.bytes (first / 8) (first % 8) (size (last - first + 1)))
    (by rw [window, List.length_map, List.length_range])

theorem toNat_slice (x : Logic width) (last first : Nat) :
    (x.slice last first).toNat = x.toNat / 2 ^ first % 2 ^ (last - first + 1) := by
  unfold slice
  rw [toNat_masked, natOfBytes_window]
  exact Nat.mod_mod_of_dvd _ (Nat.pow_dvd_pow 2 (le_size _))

/-! ## Single bits -/

/-- `get(bitnum)`. -/
def get (x : Logic width) (bitnum : Nat) : UInt8 :=
  (x.bytes.getD (bitnum / 8) 0 >>> UInt8.ofNat (bitnum % 8)) &&& 1

theorem toNat_get (x : Logic width) (bitnum : Nat) :
    (x.get bitnum).toNat = (x.toNat.testBit bitnum).toNat := by
  have hmod : (UInt8.ofNat (bitnum % 8)).toNat % 8 = bitnum % 8 := by
    rw [UInt8.toNat_ofNat']
    omega
  unfold get
  rw [UInt8.toNat_and, UInt8.toNat_shiftRight, hmod, toNat, testBit_natOfBytes,
    Nat.toNat_testBit, Nat.shiftRight_eq_div_pow]
  exact Nat.and_one_is_mod _

end Logic

/-- `set(bitnum, in)`. -/
def setBit (bytes : List UInt8) (bitnum : Nat) (x : UInt8) : List UInt8 :=
  writeBytes bytes (bitnum / 8)
    [(bytes.getD (bitnum / 8) 0 &&& ~~~(1 <<< UInt8.ofNat (bitnum % 8))) |||
      ((x &&& 1) <<< UInt8.ofNat (bitnum % 8))]

theorem testBit_and_one8 (x : UInt8) (i : Nat) :
    (x &&& 1).toNat.testBit i = (decide (i = 0) && x.toNat.testBit 0) := by
  rw [UInt8.toNat_and, Nat.testBit_land]
  cases i with
  | zero => exact Bool.and_comm _ _
  | succ i =>
      have hone : Nat.testBit 1 (i + 1) = false := by
        rw [Nat.testBit_succ]
        exact Nat.zero_testBit i
      change (_ && Nat.testBit 1 (i + 1)) = _
      simp [hone]

theorem length_setBit {bytes : List UInt8} {bitnum : Nat} (h : bitnum < 8 * bytes.length)
    (x : UInt8) : (setBit bytes bitnum x).length = bytes.length :=
  length_writeBytes (by rw [List.length_singleton]; omega)

theorem testBit_setBit {bytes : List UInt8} {bitnum : Nat} (h : bitnum < 8 * bytes.length)
    (x : UInt8) (i : Nat) :
    (natOfBytes (setBit bytes bitnum x)).testBit i =
      if i = bitnum then x.toNat.testBit 0 else (natOfBytes bytes).testBit i := by
  unfold setBit
  have hmod := Nat.mod_lt bitnum (by decide : 0 < 8)
  have hone : ∀ k, (1 : UInt8).toNat.testBit k = decide (k = 0) := fun k => by
    rw [← UInt8.and_self (a := 1), testBit_and_one8]
    simp
  rw [testBit_writeByte (by omega)]
  by_cases hbyte : 8 * (bitnum / 8) ≤ i ∧ i < 8 * (bitnum / 8) + 8
  · have hlt : i - 8 * (bitnum / 8) < 8 := by omega
    rw [if_pos hbyte, UInt8.toNat_or, Nat.testBit_lor, UInt8.toNat_and, Nat.testBit_land,
      testBit_getD _ _ _ hlt, testBit_not8, testBit_shiftLeft8 _ hmod, testBit_shiftLeft8 _ hmod,
      testBit_and_one8, hone, decide_eq_true hlt,
      show 8 * (bitnum / 8) + (i - 8 * (bitnum / 8)) = i by omega]
    by_cases heq : i = bitnum
    · rw [if_pos heq, decide_eq_true (by omega : bitnum % 8 ≤ i - 8 * (bitnum / 8)),
        decide_eq_true (by omega : i - 8 * (bitnum / 8) - bitnum % 8 = 0)]
      simp
    · rw [if_neg heq]
      by_cases hle : bitnum % 8 ≤ i - 8 * (bitnum / 8)
      · rw [decide_eq_false (by omega : ¬ i - 8 * (bitnum / 8) - bitnum % 8 = 0)]
        simp
      · rw [decide_eq_false hle]
        simp
  · rw [if_neg hbyte, if_neg (by omega)]

namespace Logic

variable {width : Nat}

/-- Copy `count` bits from bit `first` on into a cleared vector, one by one. -/
def copyBits (x : Logic width) (first count result : Nat) : List UInt8 :=
  (List.range count).foldl (fun ret i => setBit ret i (x.get (first + i)))
    (List.replicate (size result) 0)

theorem copyBits_spec (x : Logic width) (first : Nat) {count result : Nat}
    (h : count ≤ result) :
    (x.copyBits first count result).length = size result ∧
      natOfBytes (x.copyBits first count result) = x.toNat / 2 ^ first % 2 ^ count := by
  have hsize := le_size result
  have hloop : (x.copyBits first count result).length = size result ∧
      ∀ i, (natOfBytes (x.copyBits first count result)).testBit i =
        (decide (i < count) && x.toNat.testBit (first + i)) := by
    induction count with
    | zero => simp [copyBits]
    | succ n ih =>
        obtain ⟨hlen, hbits⟩ := ih (by omega)
        have hfit : n < 8 * (x.copyBits first n result).length := by rw [hlen]; omega
        have hnext : x.copyBits first (n + 1) result =
            setBit (x.copyBits first n result) n (x.get (first + n)) := by
          unfold copyBits
          rw [List.range_succ, List.foldl_append]
          rfl
        rw [hnext]
        refine ⟨(length_setBit hfit _).trans hlen, fun i => (testBit_setBit hfit _ i).trans ?_⟩
        rw [toNat_get, hbits, Nat.testBit_bool_toNat]
        by_cases heq : i = n
        · subst heq
          simp
        · rw [if_neg heq, decide_eq_decide.mpr (by omega : i < n ↔ i < n + 1)]
  refine ⟨hloop.1, Nat.eq_of_testBit_eq fun i => ?_⟩
  rw [hloop.2, Nat.testBit_mod_two_pow, Nat.testBit_div_two_pow, Nat.add_comm i]

/-- `bits(last, first) const`. -/
def constBits (x : Logic width) (last first : Nat) (h : first ≤ last ∧ last < width) :
    Logic width :=
  ⟨x.copyBits first (last + 1 - first) width, (x.copyBits_spec first (by omega)).1⟩

theorem toNat_constBits (x : Logic width) (last first : Nat) (h : first ≤ last ∧ last < width) :
    (x.constBits last first h).toNat = x.toNat / 2 ^ first % 2 ^ (last + 1 - first) :=
  (x.copyBits_spec first (by omega)).2

end Logic

end CppHdl.Words
