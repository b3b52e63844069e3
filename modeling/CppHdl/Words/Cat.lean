import CppHdl.Words.Writeback

/-!
# Concatenation of logic vectors

`cat(args...)` puts its arguments side by side, the first one on top. Four
ways lead to the result: shifts in one word up to 64 bits, single bits, whole
bytes, and in general bytes merged at the borders of the fields. All four give
the same number, and none leaves anything in the padding.
-/

namespace CppHdl.Words

/-- An argument of `cat`. -/
structure Field where
  width : Nat
  value : Logic width

/-- `SUM<N...>`. -/
def totalWidth (fields : List Field) : Nat := (fields.map Field.width).sum

/-- The fields as one number, the first on top. -/
def catValue (fields : List Field) : Nat :=
  fields.foldl (fun high field => high * 2 ^ field.width + field.value.value) 0

namespace Cat

def appendScalar (packed : UInt64) (field : Field) : UInt64 :=
  let raw := field.value.toUInt64
  if field.width = 64 then raw
  else packed <<< UInt64.ofNat field.width |||
    (raw &&& ((1 <<< UInt64.ofNat field.width) - 1))

/-- The result so far and the bit or byte it starts at. -/
structure Filling where
  bytes : List UInt8
  offset : Nat

/-- Fields of one bit: `result.set(--bit, arg.get(0))`. -/
def appendBit (s : Filling) (field : Field) : Filling :=
  ⟨setBit s.bytes (s.offset - 1) (field.value.get 0), s.offset - 1⟩

/-- Fields of whole bytes, `offset` in bytes. -/
def appendBytes (s : Filling) (field : Field) : Filling :=
  ⟨writeBytes s.bytes (s.offset - size field.width) field.value.bytes,
    s.offset - size field.width⟩

/-- Byte `i` of a field, without its padding. -/
def sourceByte (field : Field) (i : Nat) : UInt8 :=
  let byte := field.value.bytes.getD i 0
  if field.width % 8 ≠ 0 ∧ i + 1 = size field.width then
    byte &&& UInt8.ofNat (2 ^ (field.width % 8) - 1)
  else byte

/-- Byte `i` of a field that starts at bit `bitOffset` of a byte. -/
def outputByte (field : Field) (bitOffset i : Nat) : UInt8 :=
  let low :=
    if i < size field.width then (sourceByte field i).toUInt16 <<< UInt16.ofNat bitOffset else 0
  let byte :=
    if bitOffset ≠ 0 ∧ i ≠ 0 then
      low ||| (sourceByte field (i - 1)).toUInt16 >>> UInt16.ofNat (8 - bitOffset)
    else low
  byte.toUInt8

/-- One step of the byte loop of `appendPacked`. A byte shared with the field above
is merged. -/
def placeByte (width highOffset nextOffset : Nat) (field : Field) (bytes : List UInt8) (i : Nat) :
    List UInt8 :=
  let outputBytes := (nextOffset % 8 + field.width + 7) / 8
  let sharesTopByte := decide (highOffset < width ∧ highOffset % 8 ≠ 0)
  let byte := outputByte field (nextOffset % 8) i
  let destination := nextOffset / 8 + i
  writeBytes bytes destination
    [if sharesTopByte && decide (i + 1 = outputBytes) then bytes.getD destination 0 ||| byte
      else byte]

/-- `appendPacked`, `offset` in bits. -/
def appendPacked (width : Nat) (s : Filling) (field : Field) : Filling :=
  let nextOffset := s.offset - field.width
  let outputBytes := (nextOffset % 8 + field.width + 7) / 8
  ⟨(List.range outputBytes).foldl (placeByte width s.offset nextOffset field) s.bytes, nextOffset⟩

end Cat

/-- The bytes `cat` computes for arguments of total width `width`. -/
def catBytes (width : Nat) (fields : List Field) : List UInt8 :=
  let start := List.replicate (size width) 0
  if fields.all fun field => field.width = 1 then
    (fields.foldl Cat.appendBit ⟨start, width⟩).bytes
  else if fields.all fun field => field.width % 8 = 0 then
    (fields.foldl Cat.appendBytes ⟨start, size width⟩).bytes
  else (fields.foldl (Cat.appendPacked width) ⟨start, width⟩).bytes

/-! ## Filling from the top -/

theorem totalWidth_cons (field : Field) (fields : List Field) :
    totalWidth (field :: fields) = field.width + totalWidth fields := by
  rw [totalWidth, List.map_cons, List.sum_cons]
  rfl

theorem Logic.value_lt {width : Nat} (x : Logic width) : x.value < 2 ^ width :=
  Nat.mod_lt _ (Nat.two_pow_pos width)

namespace Cat

/-- The bits from `offset` on are those of `high`, and the bits below are zero. -/
structure Placed (width high offset : Nat) (bytes : List UInt8) : Prop where
  length : bytes.length = size width
  high_lt : high < 2 ^ (width - offset)
  bits : ∀ i, (natOfBytes bytes).testBit i = (decide (offset ≤ i) && high.testBit (i - offset))

theorem Placed.start (width offset : Nat) :
    Placed width 0 offset (List.replicate (size width) 0) where
  length := List.length_replicate ..
  high_lt := Nat.two_pow_pos _
  bits i := by rw [natOfBytes_replicate_zero, Nat.zero_testBit, Nat.zero_testBit, Bool.and_false]

/-- What is placed down to bit zero is the whole result. -/
theorem Placed.eq {width high : Nat} {bytes : List UInt8} (h : Placed width high 0 bytes) :
    natOfBytes bytes = high :=
  Nat.eq_of_testBit_eq fun i => (h.bits i).trans (by
    rw [decide_eq_true (Nat.zero_le i), Bool.true_and, Nat.sub_zero])

/-- Put the bits of a field right below. -/
theorem Placed.append {width high offset w x : Nat} {bytes bytes' : List UInt8}
    (h : Placed width high (offset + w) bytes) (hle : offset + w ≤ width) (hx : x < 2 ^ w)
    (hlen : bytes'.length = bytes.length)
    (hbits : ∀ i, (natOfBytes bytes').testBit i =
      if offset ≤ i ∧ i < offset + w then x.testBit (i - offset)
      else (natOfBytes bytes).testBit i) :
    Placed width (high * 2 ^ w + x) offset bytes' where
  length := hlen.trans h.length
  high_lt := by
    have hmul : (high + 1) * 2 ^ w ≤ 2 ^ (width - (offset + w)) * 2 ^ w :=
      Nat.mul_le_mul_right _ h.high_lt
    rw [← Nat.pow_add, show width - (offset + w) + w = width - offset by omega,
      Nat.add_mul, Nat.one_mul] at hmul
    omega
  bits i := by
    rw [hbits, h.bits, Nat.mul_comm, Nat.testBit_two_pow_mul_add _ hx]
    by_cases hle : offset ≤ i
    · rw [decide_eq_true hle, Bool.true_and]
      by_cases hlt : i < offset + w
      · rw [if_pos ⟨hle, hlt⟩, if_pos (by omega)]
      · rw [if_neg (fun h => hlt h.2), if_neg (by omega), decide_eq_true (by omega), Bool.true_and]
        congr 1
        omega
    · rw [if_neg (fun h => hle h.1), decide_eq_false (by omega), decide_eq_false hle,
        Bool.false_and, Bool.false_and]

/-- A step for each field fills the result down to bit zero. -/
theorem placed_foldl (unit : Nat) {width : Nat} {append : Filling → Field → Filling}
    {fields : List Field} (hstep : ∀ field ∈ fields, ∀ (high rest : Nat) (s : Filling),
      unit * s.offset = rest + field.width → rest + field.width ≤ width →
      Placed width high (rest + field.width) s.bytes →
      unit * (append s field).offset = rest ∧
        Placed width (high * 2 ^ field.width + field.value.value) rest (append s field).bytes)
    {high : Nat} {s : Filling} (hoffset : unit * s.offset = totalWidth fields)
    (hle : totalWidth fields ≤ width) (h : Placed width high (totalWidth fields) s.bytes) :
    Placed width (fields.foldl (fun high field => high * 2 ^ field.width + field.value.value) high)
      0 (fields.foldl append s).bytes := by
  induction fields generalizing high s with
  | nil => exact h
  | cons field fields ih =>
      rw [totalWidth_cons, Nat.add_comm] at hoffset hle h
      obtain ⟨hnext, hplaced⟩ := hstep field (List.mem_cons_self ..) high _ s hoffset hle h
      exact ih (fun k hk => hstep k (List.mem_cons_of_mem _ hk)) hnext (by omega) hplaced

/-! ## The four ways -/

theorem placed_appendBit {width high rest : Nat} {s : Filling} {field : Field}
    (hfield : field.width = 1) (hoffset : 1 * s.offset = rest + field.width)
    (hle : rest + field.width ≤ width) (h : Placed width high (rest + field.width) s.bytes) :
    1 * (appendBit s field).offset = rest ∧
      Placed width (high * 2 ^ field.width + field.value.value) rest (appendBit s field).bytes := by
  have hsize := le_size width
  have hfit : s.offset - 1 < 8 * s.bytes.length := by rw [h.length]; omega
  have hrest : s.offset - 1 = rest := by omega
  refine ⟨(Nat.one_mul _).trans hrest, h.append hle field.value.value_lt (length_setBit hfit _)
    fun i => (testBit_setBit hfit _ i).trans ?_⟩
  rw [hrest, Logic.toNat_get, Nat.testBit_bool_toNat]
  by_cases hi : i = rest
  · rw [if_pos hi, if_pos (by omega), Logic.value, Nat.testBit_mod_two_pow, hi, Nat.sub_self,
      decide_eq_true (by omega : 0 < field.width)]
    simp
  · rw [if_neg hi, if_neg (by omega)]

theorem placed_appendBytes {width high rest : Nat} {s : Filling} {field : Field}
    (hfield : field.width % 8 = 0) (hoffset : 8 * s.offset = rest + field.width)
    (hle : rest + field.width ≤ width) (h : Placed width high (rest + field.width) s.bytes) :
    8 * (appendBytes s field).offset = rest ∧
      Placed width (high * 2 ^ field.width + field.value.value) rest
        (appendBytes s field).bytes := by
  have hsize := le_size width
  have hwhole : 8 * size field.width = field.width := by unfold size; omega
  have hfit : s.offset - size field.width + field.value.bytes.length ≤ s.bytes.length := by
    rw [h.length, field.value.length_eq]
    omega
  have hrest : 8 * (s.offset - size field.width) = rest := by omega
  refine ⟨hrest, h.append hle field.value.value_lt (length_writeBytes hfit)
    fun i => (testBit_writeBytes hfit i).trans ?_⟩
  rw [field.value.length_eq, Nat.mul_add, hrest, hwhole]
  by_cases hi : rest ≤ i ∧ i < rest + field.width
  · rw [if_pos hi, if_pos hi, Logic.value, Nat.testBit_mod_two_pow, decide_eq_true (by omega),
      Bool.true_and]
    rfl
  · rw [if_neg hi, if_neg hi]

theorem testBit_sourceByte (field : Field) {i j : Nat} (hi : i < size field.width) (hj : j < 8) :
    (sourceByte field i).toNat.testBit j = field.value.value.testBit (8 * i + j) := by
  have hsize : size field.width = (field.width + 7) / 8 := rfl
  unfold sourceByte
  dsimp only
  rw [Logic.value, Nat.testBit_mod_two_pow]
  have hbyte := testBit_getD field.value.bytes i j hj
  split_ifs with hlast
  · have hle : 2 ^ (field.width % 8) ≤ 2 ^ 7 := Nat.pow_le_pow_right (by decide) (by omega)
    rw [UInt8.toNat_and, Nat.testBit_land, hbyte, UInt8.toNat_ofNat', Nat.mod_eq_of_lt (by omega),
      Nat.testBit_two_pow_sub_one, Bool.and_comm]
    congr 1
    exact decide_eq_decide.mpr (by omega)
  · rw [hbyte, decide_eq_true (by omega), Bool.true_and]
    rfl

theorem testBit_outputByte (field : Field) {bitOffset i j : Nat} (hoffset : bitOffset < 8)
    (hi : i < (bitOffset + field.width + 7) / 8) (hj : j < 8) :
    (outputByte field bitOffset i).toNat.testBit j =
      (decide (bitOffset ≤ 8 * i + j) &&
        field.value.value.testBit (8 * i + j - bitOffset)) := by
  have hsize : size field.width = (field.width + 7) / 8 := rfl
  have hlow : (if i < size field.width then
      (sourceByte field i).toUInt16 <<< UInt16.ofNat bitOffset else 0).toNat.testBit j =
      (decide (bitOffset ≤ j) && field.value.value.testBit (8 * i + j - bitOffset)) := by
    split_ifs with hlast
    · rw [testBit_shiftLeft16 _ (by omega), UInt8.toNat_toUInt16, decide_eq_true (by omega),
        Bool.true_and]
      by_cases hle : bitOffset ≤ j
      · rw [testBit_sourceByte _ hlast (by omega), show 8 * i + (j - bitOffset) =
          8 * i + j - bitOffset by omega]
      · rw [decide_eq_false hle, Bool.false_and, Bool.false_and]
    · by_cases hle : bitOffset ≤ j
      · have hout : field.value.value.testBit (8 * i + j - bitOffset) = false :=
          Nat.testBit_lt_two_pow (Nat.lt_of_lt_of_le field.value.value_lt
            (Nat.pow_le_pow_right (by decide) (by omega)))
        rw [hout, Bool.and_false]
        exact Nat.zero_testBit j
      · rw [decide_eq_false hle, Bool.false_and]
        exact Nat.zero_testBit j
  unfold outputByte
  dsimp only
  rw [UInt16.toNat_toUInt8, Nat.testBit_mod_two_pow, decide_eq_true hj, Bool.true_and]
  by_cases hhigh : bitOffset ≠ 0 ∧ i ≠ 0
  · rw [if_pos hhigh, UInt16.toNat_or, Nat.testBit_lor, hlow, testBit_shiftRight16 _ (by omega),
      UInt8.toNat_toUInt16]
    by_cases hle : bitOffset ≤ j
    · rw [testBit_uint8_of_le _ (by omega), Bool.or_false, decide_eq_true hle,
        decide_eq_true (by omega)]
    · rw [testBit_sourceByte _ (by omega) (by omega), decide_eq_false hle, Bool.false_and,
        Bool.false_or, decide_eq_true (by omega), Bool.true_and]
      congr 1
      omega
  · rw [if_neg hhigh, hlow]
    congr 1
    exact decide_eq_decide.mpr (by omega)

/-- Bits of the fields above lie at the border or over it, and in the vector. -/
theorem Placed.testBit_above {width high offset : Nat} {bytes : List UInt8}
    (h : Placed width high offset bytes) {i : Nat} (hi : i < offset ∨ width ≤ i) :
    (natOfBytes bytes).testBit i = false := by
  rw [h.bits]
  by_cases hle : offset ≤ i
  · rw [Nat.testBit_lt_two_pow (Nat.lt_of_lt_of_le h.high_lt
      (Nat.pow_le_pow_right (by decide) (by omega))), Bool.and_false]
  · rw [decide_eq_false hle, Bool.false_and]

/-- The byte loop of `appendPacked`: what is done below byte `rest / 8 + n`. -/
theorem appendPacked_loop {width high rest : Nat} {bytes : List UInt8} {field : Field}
    (hle : rest + field.width ≤ width) (h : Placed width high (rest + field.width) bytes)
    {n : Nat} (hn : n ≤ (rest % 8 + field.width + 7) / 8) :
    let bytes' := (List.range n).foldl (placeByte width (rest + field.width) rest field) bytes
    bytes'.length = bytes.length ∧ ∀ i, (natOfBytes bytes').testBit i =
      if 8 * (rest / 8) ≤ i ∧ i < 8 * (rest / 8 + n) then
        (decide (rest ≤ i) && field.value.value.testBit (i - rest)) ||
          (natOfBytes bytes).testBit i
      else (natOfBytes bytes).testBit i := by
  have hsize := le_size width
  induction n with
  | zero => exact ⟨rfl, fun i => by rw [if_neg (by omega)]; rfl⟩
  | succ n ih =>
      obtain ⟨hlen, hbits⟩ := ih (by omega)
      rw [List.range_succ, List.foldl_append]
      generalize (List.range n).foldl _ bytes = done at hlen hbits
      have hfit : rest / 8 + n < done.length := by rw [hlen, h.length]; omega
      refine ⟨(length_writeBytes hfit).trans hlen, fun i => (testBit_writeByte hfit _ i).trans ?_⟩
      by_cases hnow : 8 * (rest / 8 + n) ≤ i ∧ i < 8 * (rest / 8 + n) + 8
      · have hindex : 8 * (rest / 8 + n) + (i - 8 * (rest / 8 + n)) = i := by omega
        have hbyte := @testBit_outputByte field (rest % 8) n (i - 8 * (rest / 8 + n))
          (Nat.mod_lt _ (by decide)) (by omega) (by omega)
        rw [show 8 * n + (i - 8 * (rest / 8 + n)) - rest % 8 = i - rest by omega,
          decide_eq_decide.mpr (by omega : rest % 8 ≤ 8 * n + (i - 8 * (rest / 8 + n)) ↔
            rest ≤ i)] at hbyte
        rw [if_pos hnow,
          if_pos (by omega : 8 * (rest / 8) ≤ i ∧ i < 8 * (rest / 8 + (n + 1)))]
        by_cases hshare : (rest + field.width < width ∧ (rest + field.width) % 8 ≠ 0) ∧
            n + 1 = (rest % 8 + field.width + 7) / 8
        · rw [if_pos (by simpa using hshare), UInt8.toNat_or, Nat.testBit_lor, hbyte,
            testBit_getD _ _ _ (by omega), hindex, hbits, if_neg (by omega), Bool.or_comm]
        · -- no field above reaches into this byte
          rw [if_neg (by simpa using hshare), hbyte, h.testBit_above (by omega), Bool.or_false]
      · rw [if_neg hnow, hbits]
        by_cases hdone : 8 * (rest / 8) ≤ i ∧ i < 8 * (rest / 8 + n)
        · rw [if_pos hdone, if_pos (by omega)]
        · rw [if_neg hdone, if_neg (by omega)]

theorem placed_appendPacked {width high rest : Nat} {s : Filling} {field : Field}
    (hoffset : 1 * s.offset = rest + field.width)
    (hle : rest + field.width ≤ width) (h : Placed width high (rest + field.width) s.bytes) :
    1 * (appendPacked width s field).offset = rest ∧
      Placed width (high * 2 ^ field.width + field.value.value) rest
        (appendPacked width s field).bytes := by
  obtain ⟨bytes, offset⟩ := s
  obtain rfl : offset = rest + field.width := (Nat.one_mul offset).symm.trans hoffset
  obtain ⟨hlen, hbits⟩ := appendPacked_loop hle h (Nat.le_refl _)
  have hrest : rest + field.width - field.width = rest := Nat.add_sub_cancel ..
  refine ⟨(Nat.one_mul _).trans hrest, ?_⟩
  unfold appendPacked
  dsimp only
  rw [hrest]
  refine h.append hle field.value.value_lt hlen fun i => (hbits i).trans ?_
  by_cases hfield : rest ≤ i ∧ i < rest + field.width
  · rw [if_pos hfield, if_pos (by omega), decide_eq_true hfield.1, h.testBit_above (.inl hfield.2),
      Bool.true_and, Bool.or_false]
  · rw [if_neg hfield]
    split_ifs with hbyte
    · by_cases hge : rest ≤ i
      · rw [Nat.testBit_lt_two_pow (Nat.lt_of_lt_of_le field.value.value_lt
          (Nat.pow_le_pow_right (by decide) (by omega))), Bool.and_false, Bool.false_or]
      · rw [decide_eq_false hge, Bool.false_and, Bool.false_or]
    · rfl

theorem toNat_appendScalar {packed : UInt64} {field : Field} {done : Nat}
    (h : packed.toNat < 2 ^ done) (hfit : done + field.width ≤ 64) :
    (appendScalar packed field).toNat =
      packed.toNat * 2 ^ field.width + field.value.value := by
  have hraw : field.value.toUInt64.toNat % 2 ^ field.width = field.value.value := by
    rw [Logic.toNat_toUInt64]
    exact Nat.mod_mod_of_dvd _ (Nat.pow_dvd_pow 2 (by omega))
  unfold appendScalar
  dsimp only
  split_ifs with hword
  · -- a field of 64 bits is the only one with bits
    obtain rfl : done = 0 := by omega
    rw [congrArg (2 ^ ·) hword, Nat.mod_eq_of_lt field.value.toUInt64.toNat_lt] at hraw
    rw [hraw, Nat.lt_one_iff.mp h, Nat.zero_mul, Nat.zero_add]
  · have hlt : field.width < 64 := by omega
    have hone : ((1 <<< UInt64.ofNat field.width) - 1 : UInt64).toNat = 2 ^ field.width - 1 := by
      have hpow : 2 ^ field.width ≤ 2 ^ 63 := Nat.pow_le_pow_right (by decide) (by omega)
      have hpos := Nat.two_pow_pos field.width
      rw [UInt64.toNat_sub, UInt64.toNat_shiftLeft, UInt64.toNat_ofNat',
        show (1 : UInt64).toNat = 1 from rfl,
        Nat.mod_eq_of_lt (by omega : field.width < 2 ^ 64), Nat.mod_eq_of_lt hlt,
        Nat.one_shiftLeft]
      omega
    have hshift : (packed <<< UInt64.ofNat field.width).toNat =
        2 ^ field.width * packed.toNat := by
      have hmul : packed.toNat * 2 ^ field.width < 2 ^ done * 2 ^ field.width :=
        Nat.mul_lt_mul_of_pos_right h (Nat.two_pow_pos _)
      have hpow : 2 ^ (done + field.width) ≤ 2 ^ 64 := Nat.pow_le_pow_right (by decide) hfit
      rw [← Nat.pow_add] at hmul
      rw [UInt64.toNat_shiftLeft, UInt64.toNat_ofNat',
        Nat.mod_eq_of_lt (by omega : field.width < 2 ^ 64), Nat.mod_eq_of_lt hlt,
        Nat.shiftLeft_eq, Nat.mod_eq_of_lt (by omega), Nat.mul_comm]
    rw [UInt64.toNat_or, UInt64.toNat_and, hone, Nat.and_two_pow_sub_one_eq_mod, hraw, hshift,
      ← Nat.two_pow_add_eq_or_of_lt field.value.value_lt, Nat.mul_comm]

theorem toNat_foldl_appendScalar {fields : List Field} {packed : UInt64} {done : Nat}
    (h : packed.toNat < 2 ^ done) (hfit : done + totalWidth fields ≤ 64) :
    (fields.foldl appendScalar packed).toNat =
      fields.foldl (fun high field => high * 2 ^ field.width + field.value.value) packed.toNat := by
  induction fields generalizing packed done with
  | nil => rfl
  | cons field fields ih =>
      rw [totalWidth_cons] at hfit
      have hstep := toNat_appendScalar h (by omega : done + field.width ≤ 64)
      have hlt : (appendScalar packed field).toNat < 2 ^ (done + field.width) := by
        have hmul : (packed.toNat + 1) * 2 ^ field.width ≤ 2 ^ done * 2 ^ field.width :=
          Nat.mul_le_mul_right _ h
        have hvalue := field.value.value_lt
        rw [hstep, Nat.pow_add]
        rw [Nat.add_mul, Nat.one_mul] at hmul
        omega
      have := ih hlt (by omega)
      rwa [hstep] at this

end Cat

theorem catValue_lt (fields : List Field) : catValue fields < 2 ^ totalWidth fields := by
  induction fields using List.reverseRecOn with
  | nil => decide
  | append_singleton fields field ih =>
      have hmul : (catValue fields + 1) * 2 ^ field.width ≤
          2 ^ totalWidth fields * 2 ^ field.width := Nat.mul_le_mul_right _ ih
      have hvalue := field.value.value_lt
      have hwidth : totalWidth (fields ++ [field]) = totalWidth fields + field.width := by
        simp [totalWidth]
      unfold catValue at *
      rw [List.foldl_append, hwidth, Nat.pow_add]
      rw [Nat.add_mul, Nat.one_mul] at hmul
      change _ * _ + _ < _
      omega

/-- Numbers side by side are as many bits as all of them. -/
theorem catValue_append (above below : List Field) :
    catValue (above ++ below) = catValue above * 2 ^ totalWidth below + catValue below := by
  induction below using List.reverseRecOn with
  | nil => simp [catValue, totalWidth]
  | append_singleton below field ih =>
      have hlast : ∀ fields, catValue (fields ++ [field]) =
          catValue fields * 2 ^ field.width + field.value.value := fun fields => by
        unfold catValue
        rw [List.foldl_append]
        rfl
      have hwidth : totalWidth (below ++ [field]) = totalWidth below + field.width := by
        simp [totalWidth]
      rw [← List.append_assoc, hlast, ih, hlast below, hwidth, Nat.pow_add, Nat.add_mul,
        Nat.mul_assoc, Nat.add_assoc]

/-- A number is the concatenation of fields: the bits of each field stand above
the fields that follow it, and no bit is set above all of them. -/
structure Concatenates (fields : List Field) (n : Nat) : Prop where
  bits : ∀ above field below, fields = above ++ field :: below → ∀ j < field.width,
    n.testBit (totalWidth below + j) = field.value.value.testBit j
  padding : n < 2 ^ totalWidth fields

theorem concatenates_catValue (fields : List Field) : Concatenates fields (catValue fields) where
  bits above field below h j hj := by
    have hone : catValue [field] = field.value.value := by
      change 0 * _ + _ = _
      rw [Nat.zero_mul, Nat.zero_add]
    have hfield : catValue (field :: below) =
        2 ^ totalWidth below * field.value.value + catValue below := by
      have := catValue_append [field] below
      rwa [List.singleton_append, hone, Nat.mul_comm] at this
    have hwidth : totalWidth below + j < totalWidth (field :: below) := by
      rw [totalWidth_cons]
      omega
    rw [h, catValue_append, Nat.mul_comm, Nat.testBit_two_pow_mul_add _ (catValue_lt _),
      if_pos hwidth, hfield, Nat.testBit_two_pow_mul_add _ (catValue_lt _), if_neg (by omega),
      Nat.add_sub_cancel_left]
  padding := catValue_lt fields

section

variable {width : Nat} {fields : List Field} (h : totalWidth fields = width)

include h

theorem placed_bits (hbits : ∀ field ∈ fields, field.width = 1) :
    Cat.Placed width (catValue fields) 0
      (fields.foldl Cat.appendBit ⟨List.replicate (size width) 0, width⟩).bytes :=
  Cat.placed_foldl 1 (fun field hfield _ _ _ => Cat.placed_appendBit (hbits field hfield))
    ((Nat.one_mul width).trans h.symm) (by omega) (Cat.Placed.start ..)

theorem placed_whole (hwhole : ∀ field ∈ fields, field.width % 8 = 0) :
    Cat.Placed width (catValue fields) 0
      (fields.foldl Cat.appendBytes ⟨List.replicate (size width) 0, size width⟩).bytes := by
  -- whole bytes add up to whole bytes
  have hdvd : 8 ∣ totalWidth fields := List.dvd_sum fun w hw => by
    obtain ⟨field, hfield, rfl⟩ := List.mem_map.mp hw
    exact Nat.dvd_of_mod_eq_zero (hwhole field hfield)
  refine Cat.placed_foldl 8
    (fun field hfield _ _ _ => Cat.placed_appendBytes (hwhole field hfield)) ?_ (by omega)
    (Cat.Placed.start ..)
  change 8 * size width = _
  unfold size
  omega

theorem placed_packed :
    Cat.Placed width (catValue fields) 0
      (fields.foldl (Cat.appendPacked width) ⟨List.replicate (size width) 0, width⟩).bytes :=
  Cat.placed_foldl 1 (fun _ _ _ _ _ => Cat.placed_appendPacked)
    ((Nat.one_mul width).trans h.symm) (by omega) (Cat.Placed.start ..)

theorem placed_catBytes : Cat.Placed width (catValue fields) 0 (catBytes width fields) := by
  unfold catBytes
  dsimp only
  split_ifs with hbits hwhole
  · exact placed_bits h fun field hfield => by simpa using List.all_eq_true.mp hbits field hfield
  · exact placed_whole h fun field hfield => by simpa using List.all_eq_true.mp hwhole field hfield
  · exact placed_packed h

end

namespace Logic

/-- `cat(args...)`. -/
def cat (width : Nat) (fields : List Field) (h : totalWidth fields = width) : Logic width :=
  if width ≤ 64 then assignUInt64 width (fields.foldl Cat.appendScalar 0)
  else ⟨catBytes width fields, (placed_catBytes h).length⟩

theorem toNat_cat {width : Nat} {fields : List Field} (h : totalWidth fields = width) :
    (cat width fields h).toNat = catValue fields := by
  unfold cat
  split_ifs with hword
  · have hscalar := @Cat.toNat_foldl_appendScalar fields 0 0 (by decide) (by omega)
    rw [toNat_assignUInt64, hscalar, ← h]
    exact Nat.mod_eq_of_lt (catValue_lt fields)
  · exact (placed_catBytes h).eq

/-- Every way to build a `cat` gives the concatenation of the values of the fields,
also where their storage holds bits above their widths. The constructor takes the
first way up to 64 bits, and otherwise the first of the others whose condition
holds. -/
theorem cat_concatenates (fields : List Field) :
    Concatenates fields (cat (totalWidth fields) fields rfl).toNat ∧
      (totalWidth fields ≤ 64 → Concatenates fields (fields.foldl Cat.appendScalar 0).toNat) ∧
      ((∀ field ∈ fields, field.width = 1) → Concatenates fields (natOfBytes (fields.foldl
        Cat.appendBit ⟨List.replicate (size (totalWidth fields)) 0, totalWidth fields⟩).bytes)) ∧
      ((∀ field ∈ fields, field.width % 8 = 0) →
        Concatenates fields (natOfBytes (fields.foldl Cat.appendBytes
          ⟨List.replicate (size (totalWidth fields)) 0, size (totalWidth fields)⟩).bytes)) ∧
      Concatenates fields (natOfBytes (fields.foldl (Cat.appendPacked (totalWidth fields))
        ⟨List.replicate (size (totalWidth fields)) 0, totalWidth fields⟩).bytes) := by
  have hcat := concatenates_catValue fields
  refine ⟨?_, fun hword => ?_, fun hbits => ?_, fun hwhole => ?_, ?_⟩
  · rwa [toNat_cat]
  · rwa [@Cat.toNat_foldl_appendScalar fields 0 0 (by decide) (by omega)]
  · rwa [(placed_bits rfl hbits).eq]
  · rwa [(placed_whole rfl hwhole).eq]
  · rwa [(placed_packed rfl).eq]

/-- A field of five bits that holds 62, over one of three bits. -/
theorem cat_concatenates_padded :
    Concatenates [⟨5, ofNat 5 62⟩, ⟨3, ofNat 3 1⟩]
      (cat (totalWidth [⟨5, ofNat 5 62⟩, ⟨3, ofNat 3 1⟩]) _ rfl).toNat :=
  (cat_concatenates [⟨5, ofNat 5 62⟩, ⟨3, ofNat 3 1⟩]).1

variable {width : Nat}

/-- The slices of the given widths, from the top. -/
def slices (x : Logic width) : List Nat → List Field
  | [] => []
  | w :: ws => ⟨_, x.slice (ws.sum + w - 1) ws.sum⟩ :: x.slices ws

theorem catValue_slices (x : Logic width) {ws : List Nat} (hpos : ∀ w ∈ ws, 0 < w) :
    totalWidth (x.slices ws) = ws.sum ∧ catValue (x.slices ws) = x.toNat % 2 ^ ws.sum := by
  induction ws with
  | nil => exact ⟨rfl, (Nat.mod_one _).symm⟩
  | cons w ws ih =>
      have hw := hpos w List.mem_cons_self
      obtain ⟨htotal, hvalue⟩ := ih fun v hv => hpos v (List.mem_cons_of_mem _ hv)
      have hwidth : ws.sum + w - 1 - ws.sum + 1 = w := by omega
      constructor
      · rw [slices, totalWidth_cons, htotal, List.sum_cons]
        exact congrArg (· + ws.sum) hwidth
      · have hslice : (x.slice (ws.sum + w - 1) ws.sum).value = x.toNat / 2 ^ ws.sum % 2 ^ w := by
          rw [value, toNat_slice, hwidth, Nat.mod_mod]
        have hone : ∀ field, catValue [field] = field.value.value := by simp [catValue]
        rw [slices, ← List.singleton_append, catValue_append, hone, hslice, htotal, hvalue,
          List.sum_cons, Nat.add_comm w, Nat.pow_add, Nat.mod_mul, Nat.mul_comm, Nat.add_comm]

/-- The slices of a vector put together again. -/
theorem cat_slices (x : Logic width) {ws : List Nat} (hpos : ∀ w ∈ ws, 0 < w) (h : ws.sum = width) :
    (cat width (x.slices ws) ((x.catValue_slices hpos).1.trans h)).toNat = x.value := by
  rw [toNat_cat, (x.catValue_slices hpos).2, h]
  rfl

theorem cat_slices_word :
    (cat 8 ((ofNat 8 0xa5).slices [1, 4, 3]) ((catValue_slices _ (by decide)).1.trans rfl)).toNat =
      (ofNat 8 0xa5).value :=
  @cat_slices 8 (ofNat 8 0xa5) [1, 4, 3] (by decide) rfl

end Logic

end CppHdl.Words
