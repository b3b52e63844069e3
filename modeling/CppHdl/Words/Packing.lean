import Mathlib.Algebra.Order.BigOperators.Group.Finset
import CppHdl.Words.InsertField

/-!
# Packing nested types

`pack_value` and `unpack_value` go through a type: arrays whose elements stand
side by side, structures whose fields do, and vectors at the leaves. A `Packing`
is both directions for one type with what makes them inverse; each way to build
a type has one, and `Ty.packing` puts them together along the nesting.

Padding is copied where a vector keeps its width and lost where it is cut, so
what is packed and unpacked again is the same but for padding, and the same where
there is none.
-/

namespace CppHdl.Words

open Logic

/-- How the values of a type become vectors of `bits` bits, and back. -/
structure Packing (T : Type) (bits : Nat) where
  pack : T → Logic bits
  unpack : Logic bits → T
  /-- The same but for padding. -/
  Same : T → T → Prop
  /-- There is no padding. -/
  Clean : T → Prop
  value_pack_unpack : ∀ v, (pack (unpack v)).value = v.value
  same_unpack : ∀ {x v}, v.value = (pack x).value → Same (unpack v) x
  clean_unpack : ∀ {v}, v.Canonical → Clean (unpack v)
  canonical_pack : ∀ {x}, Clean x → (pack x).Canonical
  eq_of_same : ∀ {x y}, Same x y → Clean x → Clean y → x = y

namespace Packing

variable {T : Type} {bits : Nat} (P : Packing T bits)

def packValue (width : Nat) (x : T) : Logic width := convert width (P.pack x)

/-- `unpack_value` of a vector of any width. -/
def unpackValue {width : Nat} (v : Logic width) : T := P.unpack (convert bits v)

theorem convert_self {width : Nat} (x : Logic width) : convert width x = x :=
  toNat_inj (by rw [toNat_convert, if_pos rfl])

/-- Elements and fields are cut to their own width. -/
theorem packValue_self (x : T) : P.packValue bits x = P.pack x := convert_self _

theorem unpackValue_self (v : Logic bits) : P.unpackValue v = P.unpack v :=
  congrArg P.unpack (convert_self v)

theorem value_packValue_unpackValue (v : Logic bits) :
    (P.packValue bits (P.unpackValue v)).value = v.value := by
  rw [packValue_self, unpackValue_self, P.value_pack_unpack]

theorem same_unpackValue {x : T} {v : Logic bits} (h : v.value = (P.packValue bits x).value) :
    P.Same (P.unpackValue v) x := by
  rw [packValue_self] at h
  rw [unpackValue_self]
  exact P.same_unpack h

theorem clean_unpackValue {v : Logic bits} (h : v.Canonical) : P.Clean (P.unpackValue v) := by
  rw [unpackValue_self]
  exact P.clean_unpack h

/-! ## Vectors -/

/-- A vector, or an array that is kept as one. -/
def vector (width : Nat) : Packing (Logic width) width where
  pack x := x
  unpack v := v
  Same x y := x.value = y.value
  Clean := Canonical
  value_pack_unpack _ := rfl
  same_unpack h := h
  clean_unpack h := h
  canonical_pack h := h
  eq_of_same h hx hy := hx.inj hy h

/-! ## Elements side by side -/

section

variable {count : Nat}

theorem element_bounds (hbits : 0 < bits) (i : Fin count) :
    i * bits ≤ (i + 1) * bits - 1 ∧ (i + 1) * bits - 1 < count * bits := by
  have := element_range hbits i
  rwa [Nat.add_mul, Nat.one_mul]

/-- `packed.bits((i + 1) * W - 1, i * W) = element`, for all elements. Elements of
no bits are left out. -/
def packElements (elements : Fin count → Logic bits) : Logic (count * bits) :=
  if hbits : 0 < bits then
    (List.finRange count).foldl (fun packed (i : Fin count) =>
      packed.writeBits ((i + 1) * bits - 1) (i * bits) (element_bounds hbits i) (elements i))
      (zero (count * bits))
  else zero (count * bits)

/-- `logic<W>(packed.bits((i + 1) * W - 1, i * W))`. -/
def cutElement (packed : Logic (count * bits)) (i : Fin count) : Logic bits :=
  if hbits : 0 < bits then
    convert bits (packed.constBits ((i + 1) * bits - 1) (i * bits) (element_bounds hbits i))
  else zero bits

theorem toNat_cutElement (packed : Logic (count * bits)) (i : Fin count) :
    (cutElement packed i).toNat = packed.toNat / 2 ^ (i * bits) % 2 ^ bits := by
  unfold cutElement
  split_ifs with hbits
  · have hwidth : (i + 1) * bits - 1 + 1 - i * bits = bits := by
      rw [Nat.add_mul, Nat.one_mul]
      omega
    rw [toNat_convert, toNat_constBits, hwidth, Nat.mod_mod, ite_self]
  · obtain rfl : bits = 0 := by omega
    rw [toNat_zero, Nat.pow_zero, Nat.mod_one]

theorem packElements_loop (hbits : 0 < bits) (elements : Fin count → Logic bits)
    (order : List (Fin count)) :
    let packed := order.foldl (fun packed (i : Fin count) =>
      packed.writeBits ((i + 1) * bits - 1) (i * bits) (element_bounds hbits i) (elements i))
      (zero (count * bits))
    packed.Canonical ∧ ∀ (i : Fin count) (j : Nat), j < bits →
      packed.toNat.testBit (i * bits + j) =
        (decide (i ∈ order) && (elements i).toNat.testBit j) := by
  induction order using List.reverseRecOn with
  | nil =>
      refine ⟨?_, fun i j _ => ?_⟩
      · exact toNat_zero.trans_lt (Nat.two_pow_pos _)
      · exact (congrArg (Nat.testBit · _) toNat_zero).trans (Nat.zero_testBit _)
  | append_singleton order k ih =>
      rw [List.foldl_append]
      refine ⟨writeBits_canonical ih.1 (element_bounds hbits k) _, fun i j hj =>
        (testBit_writeBits _ (element_bounds hbits k) _ _).trans ?_⟩
      have hin : k * bits ≤ i * bits + j ∧ i * bits + j ≤ (k + 1) * bits - 1 ↔ i = k := by
        rw [Nat.add_mul, Nat.one_mul, in_element_iff hj, Fin.val_inj]
      by_cases hik : i = k
      · subst hik
        rw [if_pos (hin.mpr rfl), decide_eq_true (by simp), Bool.true_and,
          Nat.add_sub_cancel_left]
        exact testBit_convert _ (Nat.lt_of_le_of_lt (Nat.le_add_left _ _) (mul_add_lt i.isLt hj))
      · rw [if_neg (mt hin.mp hik), ih.2 i j hj]
        simp [hik]

theorem packElements_canonical (elements : Fin count → Logic bits) :
    (packElements elements).Canonical := by
  unfold packElements
  split_ifs with hbits
  · exact (packElements_loop hbits elements (List.finRange count)).1
  · exact toNat_zero.trans_lt (Nat.two_pow_pos _)

theorem testBit_packElements (elements : Fin count → Logic bits) (i : Fin count) {j : Nat}
    (hj : j < bits) :
    (packElements elements).toNat.testBit (i * bits + j) = (elements i).toNat.testBit j := by
  have hbits : 0 < bits := Nat.zero_lt_of_lt hj
  unfold packElements
  rw [dif_pos hbits]
  refine ((packElements_loop hbits elements (List.finRange count)).2 i j hj).trans ?_
  rw [decide_eq_true (List.mem_finRange i), Bool.true_and]

theorem cut_packElements (elements : Fin count → Logic bits) (i : Fin count) :
    (packElements elements).toNat / 2 ^ (i * bits) % 2 ^ bits = (elements i).value := by
  refine Nat.eq_of_testBit_eq fun j => ?_
  rw [Nat.testBit_mod_two_pow, Nat.testBit_div_two_pow, Nat.add_comm j, value,
    Nat.testBit_mod_two_pow]
  by_cases hj : j < bits
  · rw [testBit_packElements elements i hj]
  · rw [decide_eq_false hj, Bool.false_and, Bool.false_and]

/-- Vectors with the same elements are the same number. -/
theorem value_packElements {elements : Fin count → Logic bits} {v : Logic (count * bits)}
    (h : ∀ i : Fin count, (elements i).value = v.toNat / 2 ^ (i * bits) % 2 ^ bits) :
    (packElements elements).value = v.value := by
  refine Nat.eq_of_testBit_eq fun k => ?_
  rw [value, value, Nat.testBit_mod_two_pow, Nat.testBit_mod_two_pow]
  by_cases hk : k < count * bits
  · have hbits : 0 < bits := Nat.pos_of_mul_pos_left (Nat.zero_lt_of_lt hk)
    let i : Fin count := ⟨k / bits, (Nat.div_lt_iff_lt_mul hbits).mpr hk⟩
    have hindex : i * bits + k % bits = k := by
      show k / bits * bits + k % bits = k
      rw [Nat.mul_comm, Nat.div_add_mod]
    have hbit := congrArg (Nat.testBit · (k % bits)) (h i)
    simp only [value, Nat.testBit_mod_two_pow, Nat.testBit_div_two_pow,
      decide_eq_true (Nat.mod_lt k hbits), Bool.true_and] at hbit
    rw [decide_eq_true hk, Bool.true_and, Bool.true_and, ← hindex,
      testBit_packElements elements i (Nat.mod_lt k hbits), hbit, Nat.add_comm]
  · rw [decide_eq_false hk, Bool.false_and, Bool.false_and]

/-- An element is cut from the number, not from the padding. -/
theorem cut_value (v : Logic (count * bits)) (i : Fin count) :
    v.toNat / 2 ^ (i * bits) % 2 ^ bits = v.value / 2 ^ (i * bits) % 2 ^ bits := by
  refine Nat.eq_of_testBit_eq fun j => ?_
  rw [Nat.testBit_mod_two_pow, Nat.testBit_mod_two_pow, Nat.testBit_div_two_pow,
    Nat.testBit_div_two_pow, value, Nat.testBit_mod_two_pow]
  by_cases hj : j < bits
  · rw [decide_eq_true (Nat.add_comm j _ ▸ mul_add_lt i.isLt hj : j + i * bits < count * bits),
      Bool.true_and]
  · rw [decide_eq_false hj, Bool.false_and, Bool.false_and]

end

theorem value_of_toNat {width x : Nat} {v : Logic width} (h : v.toNat = x % 2 ^ width) :
    v.value = x % 2 ^ width := by
  rw [value, h, Nat.mod_mod]

/-- Elements one by one, where `cut` cuts them from the vector. -/
def elementwise {count : Nat}
    (cut : Logic (count * bits) → Fin count → Logic bits)
    (hcut : ∀ v i, (cut v i).toNat = v.toNat / 2 ^ (i * bits) % 2 ^ bits) :
    Packing (Fin count → T) (count * bits) where
  pack x := packElements fun i => P.packValue bits (x i)
  unpack v i := P.unpackValue (cut v i)
  Same x y := ∀ i, P.Same (x i) (y i)
  Clean x := ∀ i, P.Clean (x i)
  value_pack_unpack v := value_packElements fun i => by
    rw [P.value_packValue_unpackValue, value_of_toNat (hcut v i)]
  same_unpack {x v} h i := by
    refine P.same_unpackValue ?_
    rw [value_of_toNat (hcut v i), cut_value, h, ← cut_value, cut_packElements]
  clean_unpack _ i :=
    P.clean_unpackValue ((hcut _ i).trans_lt (Nat.mod_lt _ (Nat.two_pow_pos _)))
  canonical_pack _ := packElements_canonical _
  eq_of_same h hx hy := funext fun i => P.eq_of_same (h i) (hx i) (hy i)

/-- `array<COUNT, TYPE, false>`. -/
def unpacked {count : Nat} : Packing (Fin count → T) (count * bits) :=
  P.elementwise cutElement toNat_cutElement

/-- `operator=` of `array<COUNT, TYPE, true>` with native elements. A vector of
zero bytes is a case of its own. -/
def cutNative {count : Nat} (packed : Logic (count * bits)) (i : Fin count) : Logic bits :=
  if packed.bytes.all (· == 0) then zero bits else Native.extract packed i

theorem toNat_cutNative {count : Nat} (packed : Logic (count * bits)) (i : Fin count) :
    (cutNative packed i).toNat = packed.toNat / 2 ^ (i * bits) % 2 ^ bits := by
  unfold cutNative
  split_ifs with hzero
  · have hnat : packed.toNat = 0 := (natOfBytes_eq_zero_iff _).mpr hzero
    rw [hnat, toNat_zero, Nat.zero_div, Nat.zero_mod]
  · exact toNat_extract packed i

def nativePacked {count : Nat} : Packing (Fin count → T) (count * bits) :=
  P.elementwise cutNative toNat_cutNative

/-! ## Fields one after the other -/

/-- The bits of the fields before field `i`. -/
def offset {n : Nat} (widths : Fin n → Nat) (i : Nat) : Nat :=
  ∑ j ∈ Finset.range i, if h : j < n then widths ⟨j, h⟩ else 0

section

variable {n : Nat} {widths : Fin n → Nat}

theorem offset_succ (i : Fin n) : offset widths (i + 1) = offset widths i + widths i := by
  unfold offset
  rw [Finset.sum_range_succ, dif_pos i.isLt]

theorem offset_mono {i k : Nat} (h : i ≤ k) : offset widths i ≤ offset widths k :=
  Finset.sum_le_sum_of_subset (Finset.range_mono h)

theorem field_bounds (i : Fin n) : offset widths i + widths i ≤ offset widths n :=
  offset_succ i ▸ offset_mono i.isLt

theorem exists_field {k : Nat} (h : k < offset widths n) :
    ∃ i : Fin n, offset widths i ≤ k ∧ k < offset widths i + widths i := by
  have key : ∀ m, m ≤ n → k < offset widths m →
      ∃ i : Fin n, offset widths i ≤ k ∧ k < offset widths i + widths i := by
    intro m
    induction m with
    | zero => exact fun _ hk => absurd hk (by simp [offset])
    | succ m ih =>
        intro hm hk
        by_cases hlow : k < offset widths m
        · exact ih (by omega) hlow
        · exact ⟨⟨m, hm⟩, Nat.not_lt.mp hlow, offset_succ (⟨m, hm⟩ : Fin n) ▸ hk⟩
  exact key n (Nat.le_refl n) h

end

/-- The mask a generated expression has where a field is narrower than a word. -/
def fieldMask (width : Nat) (x : UInt64) : UInt64 :=
  if width < 64 then x &&& ((1 <<< UInt64.ofNat width) - 1) else x

/-- Where all widths are numerals and the structure is no wider than a word, fields
are shifted into one. Fields of no bits are left out. -/
def packField {total width : Nat} (literal : Bool) (packed : Logic total) (field : Logic width)
    (first : Nat) (h : first + width ≤ total) : Logic total :=
  if width = 0 then packed
  else if literal ∧ total ≤ 64 then
    assignUInt64 total (packed.toUInt64 ||| fieldMask width field.toUInt64 <<< UInt64.ofNat first)
  else svInsertField false packed field first h

def cutField {total : Nat} (literal : Bool) (packed : Logic total) (first width : Nat) :
    Logic width :=
  if width = 0 then zero width
  else if literal ∧ total ≤ 64 then
    assignUInt64 width (fieldMask width (packed.toUInt64 >>> UInt64.ofNat first))
  else convert width (packed.slice (first + width - 1) first)

theorem toNat_fieldMask {width : Nat} (hwidth : width ≤ 64) (x : UInt64) :
    (fieldMask width x).toNat = x.toNat % 2 ^ width := by
  unfold fieldMask
  split_ifs with hlt
  · have hpow : 2 ^ width < 2 ^ 64 := Nat.pow_lt_pow_right (by decide) hlt
    have hshift : ((1 : UInt64) <<< UInt64.ofNat width).toNat = 2 ^ width := by
      rw [UInt64.toNat_shiftLeft, UInt64.toNat_ofNat', UInt64.toNat_one,
        @Nat.mod_eq_of_lt width (2 ^ 64) (by omega), Nat.mod_eq_of_lt hlt, Nat.shiftLeft_eq,
        Nat.one_mul, Nat.mod_eq_of_lt hpow]
    have hle : (1 : UInt64) ≤ 1 <<< UInt64.ofNat width := by
      rw [UInt64.le_iff_toNat_le, hshift]
      exact Nat.one_le_two_pow
    rw [UInt64.toNat_and, UInt64.toNat_sub_of_le _ _ hle, hshift]
    exact Nat.and_two_pow_sub_one_eq_mod _ _
  · obtain rfl : width = 64 := by omega
    exact (Nat.mod_eq_of_lt x.toNat_lt).symm

theorem toNat_cutField {total width first : Nat} (literal : Bool) (packed : Logic total)
    (h : first + width ≤ total) :
    (cutField literal packed first width).toNat = packed.toNat / 2 ^ first % 2 ^ width := by
  unfold cutField
  split_ifs with hwidth hnarrow
  · subst hwidth
    rw [toNat_zero, Nat.pow_zero, Nat.mod_one]
  · refine Nat.eq_of_testBit_eq fun k => ?_
    rw [toNat_assignUInt64, toNat_fieldMask (by omega), Nat.mod_mod, Nat.testBit_mod_two_pow,
      testBit_shiftRight64 _ (by omega), toNat_toUInt64, Nat.testBit_mod_two_pow,
      Nat.testBit_mod_two_pow, Nat.testBit_div_two_pow, Nat.add_comm first k]
    by_cases hk : k < width
    · rw [decide_eq_true (by omega : k + first < 64), Bool.true_and]
    · rw [decide_eq_false hk, Bool.false_and, Bool.false_and]
  · have hcount : first + width - 1 - first + 1 = width := by omega
    rw [toNat_convert, toNat_slice, hcount, Nat.mod_mod, ite_self]

/-- A field goes above the fields that are in. -/
theorem testBit_packField {total width first : Nat} (literal : Bool) {packed : Logic total}
    (field : Logic width) (h : first + width ≤ total)
    (hlow : packed.toNat < 2 ^ first) (k : Nat) :
    (packField literal packed field first h).toNat.testBit k =
      if first ≤ k ∧ k < first + width then field.value.testBit (k - first)
      else packed.toNat.testBit k := by
  unfold packField
  by_cases hwidth : width = 0
  · rw [if_pos hwidth, if_neg (by omega)]
  by_cases hnarrow : literal = true ∧ total ≤ 64
  · have hpacked : packed.toNat % 2 ^ 64 = packed.toNat :=
      Nat.mod_eq_of_lt (Nat.lt_of_lt_of_le hlow (Nat.pow_le_pow_right (by decide) (by omega)))
    have habove : first ≤ k → packed.toNat.testBit k = false := fun hle =>
      Nat.testBit_lt_two_pow (Nat.lt_of_lt_of_le hlow (Nat.pow_le_pow_right (by decide) hle))
    rw [if_neg hwidth, if_pos hnarrow, toNat_assignUInt64, Nat.testBit_mod_two_pow,
      UInt64.toNat_or, Nat.testBit_lor, toNat_toUInt64, hpacked, testBit_shiftLeft64 _ (by omega),
      toNat_fieldMask (by omega), Nat.testBit_mod_two_pow, toNat_toUInt64, Nat.testBit_mod_two_pow]
    by_cases hin : first ≤ k ∧ k < first + width
    · rw [if_pos hin, habove hin.1, value, Nat.testBit_mod_two_pow,
        decide_eq_true (by omega : k < total), decide_eq_true (by omega : k < 64),
        decide_eq_true hin.1, decide_eq_true (by omega : k - first < 64)]
      simp
    · rw [if_neg hin]
      by_cases hle : first ≤ k
      · rw [habove hle, decide_eq_false (by omega : ¬ k - first < width)]
        simp
      · rw [decide_eq_true (by omega : k < total), decide_eq_false hle]
        simp
  · rw [if_neg hwidth, if_neg hnarrow, testBit_svInsertField]

/-- `pack()` of a generated structure. -/
def packFields {n : Nat} {widths : Fin n → Nat} (literal : Bool)
    (fields : ∀ i, Logic (widths i)) : Logic (offset widths n) :=
  (List.range n).foldl (fun packed i =>
    if h : i < n then
      packField literal packed (fields ⟨i, h⟩) (offset widths i) (field_bounds ⟨i, h⟩)
    else packed) (zero _)

section

variable {n : Nat} {widths : Fin n → Nat} (literal : Bool) (fields : ∀ i, Logic (widths i))

/-- The first `m` fields are in, and nothing above them. -/
theorem packFields_loop {m : Nat} (hm : m ≤ n) :
    let packed := (List.range m).foldl (fun packed i =>
      if h : i < n then
        packField literal packed (fields ⟨i, h⟩) (offset widths i) (field_bounds ⟨i, h⟩)
      else packed) (zero (offset widths n))
    packed.toNat < 2 ^ offset widths m ∧
      ∀ i : Fin n, i < m → ∀ j, j < widths i →
        packed.toNat.testBit (offset widths i + j) = (fields i).value.testBit j := by
  induction m with
  | zero =>
      exact ⟨toNat_zero.trans_lt (Nat.two_pow_pos _), fun i hi => absurd hi (Nat.not_lt_zero _)⟩
  | succ m ih =>
      obtain ⟨hlow, hbits⟩ := ih (by omega)
      rw [List.range_succ, List.foldl_append, List.foldl_cons, List.foldl_nil,
        dif_pos (show m < n from hm)]
      generalize (List.range m).foldl _ (zero (offset widths n)) = packed at hlow hbits
      have hsucc : offset widths (m + 1) = offset widths m + widths ⟨m, hm⟩ :=
        offset_succ ⟨m, hm⟩
      have hpack := @testBit_packField _ (widths ⟨m, hm⟩) (offset widths m) literal packed
        (fields ⟨m, hm⟩) (field_bounds ⟨m, hm⟩) hlow
      refine ⟨Nat.lt_pow_two_of_testBit _ fun k hk => ?_, fun i hi j hj => ?_⟩
      · rw [hpack, if_neg (by omega)]
        exact Nat.testBit_lt_two_pow (Nat.lt_of_lt_of_le hlow
          (Nat.pow_le_pow_right (by decide) (by omega)))
      · rw [hpack]
        rcases Nat.lt_succ_iff_lt_or_eq.mp hi with hlt | heq
        · have hbefore : offset widths (i + 1) ≤ offset widths m := offset_mono hlt
          have hend := @offset_succ n widths i
          rw [if_neg (by omega), hbits i hlt j hj]
        · obtain rfl : i = ⟨m, hm⟩ := Fin.ext heq
          rw [if_pos (by dsimp only; omega), Nat.add_sub_cancel_left]

theorem packFields_canonical : (packFields literal fields).Canonical :=
  (packFields_loop literal fields (Nat.le_refl n)).1

theorem testBit_packFields (i : Fin n) {j : Nat} (hj : j < widths i) :
    (packFields literal fields).toNat.testBit (offset widths i + j) = (fields i).value.testBit j :=
  (packFields_loop literal fields (Nat.le_refl n)).2 i i.isLt j hj

/-- A field is cut from the number, not from the padding. -/
theorem value_cutField (v : Logic (offset widths n)) (i : Fin n) :
    (cutField literal v (offset widths i) (widths i)).value =
      v.value / 2 ^ offset widths i % 2 ^ widths i := by
  have hbounds := @field_bounds n widths i
  rw [value, toNat_cutField literal v hbounds, Nat.mod_mod]
  refine Nat.eq_of_testBit_eq fun j => ?_
  rw [Nat.testBit_mod_two_pow, Nat.testBit_mod_two_pow, Nat.testBit_div_two_pow,
    Nat.testBit_div_two_pow, value, Nat.testBit_mod_two_pow]
  by_cases hj : j < widths i
  · rw [decide_eq_true (by omega : j + offset widths i < offset widths n), Bool.true_and]
  · rw [decide_eq_false hj, Bool.false_and, Bool.false_and]

theorem cut_packFields (i : Fin n) :
    (packFields literal fields).value / 2 ^ offset widths i % 2 ^ widths i = (fields i).value := by
  rw [(packFields_canonical literal fields).value_eq]
  refine Nat.eq_of_testBit_eq fun j => ?_
  rw [Nat.testBit_mod_two_pow, Nat.testBit_div_two_pow, Nat.add_comm j]
  by_cases hj : j < widths i
  · rw [testBit_packFields literal fields i hj, decide_eq_true hj, Bool.true_and]
  · rw [decide_eq_false hj, Bool.false_and, value, Nat.testBit_mod_two_pow, decide_eq_false hj,
      Bool.false_and]

/-- Fields that are those of a vector make it up. -/
theorem value_packFields {v : Logic (offset widths n)}
    (h : ∀ i, (fields i).value = v.value / 2 ^ offset widths i % 2 ^ widths i) :
    (packFields literal fields).value = v.value := by
  refine Nat.eq_of_testBit_eq fun k => ?_
  by_cases hk : k < offset widths n
  · obtain ⟨i, hle, hlt⟩ := exists_field hk
    have hbit := congrArg (Nat.testBit · (k - offset widths i)) (h i)
    simp only [Nat.testBit_mod_two_pow, Nat.testBit_div_two_pow] at hbit
    rw [decide_eq_true (by omega : k - offset widths i < widths i), Bool.true_and,
      show k - offset widths i + offset widths i = k by omega] at hbit
    have hpacked := testBit_packFields literal fields i
      (show k - offset widths i < widths i by omega)
    rw [show offset widths i + (k - offset widths i) = k by omega] at hpacked
    rw [(packFields_canonical literal fields).value_eq, hpacked, hbit]
  · rw [value, value, Nat.testBit_mod_two_pow, Nat.testBit_mod_two_pow, decide_eq_false hk,
      Bool.false_and, Bool.false_and]

end

/-- A generated structure. -/
def struct {n : Nat} {V : Fin (n + 1) → Type} {widths : Fin (n + 1) → Nat} (literal : Bool)
    (P : ∀ i, Packing (V i) (widths i)) : Packing (∀ i, V i) (offset widths (n + 1)) where
  pack x := packFields literal fun i => (P i).packValue (widths i) (x i)
  unpack v i := (P i).unpackValue (cutField literal v (offset widths i) (widths i))
  Same x y := ∀ i, (P i).Same (x i) (y i)
  Clean x := ∀ i, (P i).Clean (x i)
  value_pack_unpack v := value_packFields literal _ fun i => by
    rw [(P i).value_packValue_unpackValue, value_cutField]
  same_unpack {x v} h i := by
    refine (P i).same_unpackValue ?_
    rw [value_cutField, h, cut_packFields]
  clean_unpack {v} _ i := by
    refine (P i).clean_unpackValue ?_
    exact (toNat_cutField literal v (field_bounds i)).trans_lt
      (Nat.mod_lt _ (Nat.two_pow_pos _))
  canonical_pack _ := packFields_canonical literal _
  eq_of_same h hx hy := funext fun i => (P i).eq_of_same (h i) (hx i) (hy i)

/-! ## Any width -/

theorem value_convert_convert {width : Nat} (hle : bits ≤ width) (v : Logic bits) :
    (convert bits (convert width v)).value = v.value := by
  refine Nat.eq_of_testBit_eq fun j => ?_
  rw [value, value, Nat.testBit_mod_two_pow, Nat.testBit_mod_two_pow]
  by_cases hj : j < bits
  · rw [testBit_convert _ hj, testBit_convert _ (Nat.lt_of_lt_of_le hj hle)]
  · rw [decide_eq_false hj, Bool.false_and, Bool.false_and]

/-- There and back through a vector that is wide enough. -/
theorem same_packValue {width : Nat} (hle : bits ≤ width) (x : T) :
    P.Same (P.unpackValue (P.packValue width x)) x :=
  P.same_unpack (value_convert_convert hle _)

theorem unpack_packValue {width : Nat} (hle : bits ≤ width) {x : T} (hx : P.Clean x) :
    P.unpackValue (P.packValue width x) = x :=
  P.eq_of_same (P.same_packValue hle x)
    (P.clean_unpack (convert_canonical (convert_canonical (P.canonical_pack hx)))) hx

/-- Back and there: the bits both vectors have room for. -/
theorem testBit_packValue_unpackValue {width other : Nat} (v : Logic other) {j : Nat}
    (hbits : j < bits) (hwidth : j < width) :
    (P.packValue width (P.unpackValue v)).toNat.testBit j = v.toNat.testBit j := by
  have hvalue := congrArg (Nat.testBit · j) (P.value_pack_unpack (convert bits v))
  simp only [value, Nat.testBit_mod_two_pow, decide_eq_true hbits, Bool.true_and] at hvalue
  unfold packValue unpackValue
  rw [testBit_convert _ hwidth, hvalue, testBit_convert _ hbits]

end Packing

/-! ## Types -/

/-- The types that are packed. An array of packed type is one vector; C++20 keeps the
elements instead where they are generated structures of such fields. -/
inductive Ty
  | logic (width : Nat)
  | unpackedArray (count : Nat) (element : Ty)
  | packedArray (count : Nat) (element : Ty)
  | nativeArray (count : Nat) (element : Ty)
  | struct (literal : Bool) {n : Nat} (fields : Fin (n + 1) → Ty)

/-- `sizeof`, `type_width` and `array_packed_size_bits` of a type. -/
structure Sizes where
  sizeof : Nat
  width : Nat
  packedBits : Nat

namespace Ty

/-- Nothing is aligned to more than a byte. -/
def sizes : Ty → Sizes
  | logic width => ⟨size width, width, width⟩
  | unpackedArray count element =>
      ⟨count * element.sizes.sizeof, count * element.sizes.width,
        count * (element.sizes.sizeof * 8)⟩
  | packedArray count element =>
      ⟨size (count * element.sizes.packedBits), count * element.sizes.packedBits,
        count * element.sizes.packedBits⟩
  | nativeArray count element =>
      ⟨count * element.sizes.sizeof, count * element.sizes.width, count * element.sizes.width⟩
  | @struct _ n fields =>
      ⟨Packing.offset (fun i => (fields i).sizes.sizeof) (n + 1),
        Packing.offset (fun i => (fields i).sizes.width) (n + 1),
        Packing.offset (fun i => (fields i).sizes.width) (n + 1)⟩

/-- `type_width`. -/
def width (t : Ty) : Nat := t.sizes.width

def Value : Ty → Type
  | logic width => Logic width
  | unpackedArray count element => Fin count → element.Value
  | packedArray count element => Logic (count * element.sizes.packedBits)
  | nativeArray count element => Fin count → element.Value
  | struct _ fields => ∀ i, (fields i).Value

def packing : (t : Ty) → Packing t.Value t.width
  | logic width => Packing.vector width
  | unpackedArray _ element => element.packing.unpacked
  | packedArray count element => Packing.vector (count * element.sizes.packedBits)
  | nativeArray _ element => element.packing.nativePacked
  | struct literal fields => Packing.struct literal fun i => (fields i).packing

end Ty

/-- What packing and unpacking keep of the values of a type and of vectors. -/
structure RoundTrips (t : Ty) : Prop where
  same : ∀ {width : Nat} (x : t.Value), t.width ≤ width →
    t.packing.Same (t.packing.unpackValue (t.packing.packValue width x)) x
  /-- Where there is no padding, to the byte. -/
  unpack_pack : ∀ {width : Nat} (x : t.Value), t.width ≤ width → t.packing.Clean x →
    t.packing.unpackValue (t.packing.packValue width x) = x
  pack_unpack : ∀ v : Logic t.width,
    (t.packing.packValue t.width (t.packing.unpackValue v)).value = v.value
  /-- Between vectors of any width. -/
  pack_unpack_bits : ∀ {width other : Nat} (v : Logic other) (j : Nat), j < t.width →
    j < width →
    (t.packing.packValue width (t.packing.unpackValue v)).toNat.testBit j = v.toNat.testBit j

/-- A field replaces the bits of its range, whichever way it is written. -/
structure InsertsField {total width : Nat} (destination : Logic total) (value : Logic width)
    (first : Nat) (h : first + width ≤ total) : Prop where
  bits : ∀ (constantEvaluated : Bool) (i : Nat),
    (svInsertField constantEvaluated destination value first h).toNat.testBit i =
      if first ≤ i ∧ i < first + width then value.value.testBit (i - first)
      else destination.toNat.testBit i
  paths : svInsertField false destination value first h =
    svInsertField true destination value first h

theorem svInsertField_inserts {total width : Nat} (destination : Logic total) (value : Logic width)
    (first : Nat) (h : first + width ≤ total) : InsertsField destination value first h where
  bits constantEvaluated := testBit_svInsertField constantEvaluated destination value first h
  paths := toNat_inj <| Nat.eq_of_testBit_eq fun i => by
    rw [testBit_svInsertField, testBit_svInsertField]

/-- `pack_value` and `unpack_value` undo each other for every nesting of types, and
`sv_insert_field` writes its range and nothing else. -/
theorem packing_round_trips :
    (∀ t : Ty, RoundTrips t) ∧ ∀ {total width : Nat} (destination : Logic total)
      (value : Logic width) (first : Nat) (h : first + width ≤ total),
      InsertsField destination value first h :=
  ⟨fun t => {
    same := fun x hle => t.packing.same_packValue hle x
    unpack_pack := fun _ hle hx => t.packing.unpack_packValue hle hx
    pack_unpack := t.packing.value_packValue_unpackValue
    pack_unpack_bits := fun v _ hj hwidth => t.packing.testBit_packValue_unpackValue v hj hwidth },
   svInsertField_inserts⟩

/-- Three elements of eleven bits, through a vector of forty. -/
theorem packing_round_trips_eleven :
    let elements : (Ty.unpackedArray 3 (.logic 11)).Value :=
      fun i : Fin 3 => assignUInt64 11 (1000 + UInt64.ofNat i)
    let packing := (Ty.unpackedArray 3 (.logic 11)).packing
    packing.unpackValue (packing.packValue 40 elements) = elements :=
  (packing_round_trips.1 (.unpackedArray 3 (.logic 11))).unpack_pack _ (by decide) fun _ =>
    (toNat_assignUInt64 _).trans_lt (Nat.mod_lt _ (Nat.two_pow_pos _))

end CppHdl.Words
