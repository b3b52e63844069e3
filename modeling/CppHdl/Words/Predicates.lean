import CppHdl.Words.Packing

/-!
# Comparisons and reductions

`==` has a form for an operand of another width, which looks at all bytes of
both. `<` and its kin have none: the operand is converted to the width of the
object first, and what does not fit is gone.

`reduce_and` looks at every bit of a vector. Of an array it tests each element
with `static_cast<bool>`, which looks for any set bit among the low 64.
-/

namespace CppHdl.Words

namespace Logic

variable {width other : Nat}

/-! ## Comparison -/

/-- `operator==`; a type other than `BASE` has an overload of its own. -/
def isEqual (x : Logic width) (y : Logic other) : Bool :=
  if h : other = width then x.equal (h ▸ y) else x.equalOther y

/-- `operator!=`. -/
def isNotEqual (x : Logic width) (y : Logic other) : Bool := !x.isEqual y

/-- `operator<`: the argument is a `const BASE&`. -/
def isLess (x : Logic width) (y : Logic other) : Bool := x.less (convert width y)

/-- `operator>`. -/
def isGreater (x : Logic width) (y : Logic other) : Bool := (convert width y).less x

/-- `operator<=`. -/
def isLessEqual (x : Logic width) (y : Logic other) : Bool := !(convert width y).less x

/-- `operator>=`. -/
def isGreaterEqual (x : Logic width) (y : Logic other) : Bool := !x.less (convert width y)

/-- The six operators compare the integers, and exactly one of three holds. -/
structure Ordered (x : Logic width) (y : Logic other) : Prop where
  equal : x.isEqual y = true ↔ x.value = y.value
  notEqual : x.isNotEqual y = true ↔ x.value ≠ y.value
  less : x.isLess y = true ↔ x.value < y.value
  greater : x.isGreater y = true ↔ y.value < x.value
  lessEqual : x.isLessEqual y = true ↔ x.value ≤ y.value
  greaterEqual : x.isGreaterEqual y = true ↔ y.value ≤ x.value
  one : (x.isLess y).toNat + (x.isEqual y).toNat + (x.isGreater y).toNat = 1

theorem isEqual_iff (x : Logic width) (y : Logic other) :
    x.isEqual y = true ↔ x.toNat = y.toNat := by
  unfold isEqual
  split_ifs with h
  · subst h
    exact equal_iff x y
  · exact equalOther_iff x y

theorem isNotEqual_iff (x : Logic width) (y : Logic other) :
    x.isNotEqual y = true ↔ x.toNat ≠ y.toNat := by
  rw [isNotEqual, Bool.not_eq_true', ← Bool.not_eq_true, isEqual_iff]

section

variable {x : Logic width} {y : Logic other} (hy : y.Canonical)
include hy

theorem isLess_iff : x.isLess y = true ↔ x.toNat < y.value % 2 ^ width := by
  rw [isLess, less_iff, toNat_convert_canonical hy]

theorem isGreater_iff : x.isGreater y = true ↔ y.value % 2 ^ width < x.toNat := by
  rw [isGreater, less_iff, toNat_convert_canonical hy]

theorem isLessEqual_iff : x.isLessEqual y = true ↔ x.toNat ≤ y.value % 2 ^ width := by
  rw [isLessEqual, Bool.not_eq_true', ← Bool.not_eq_true, less_iff, toNat_convert_canonical hy,
    Nat.not_lt]

theorem isGreaterEqual_iff : x.isGreaterEqual y = true ↔ y.value % 2 ^ width ≤ x.toNat := by
  rw [isGreaterEqual, Bool.not_eq_true', ← Bool.not_eq_true, less_iff, toNat_convert_canonical hy,
    Nat.not_lt]

end

/-- On operators that compare integers the three outcomes exclude each other. -/
theorem one_outcome {less equal greater : Bool} {x y : Nat} (hless : less = true ↔ x < y)
    (hequal : equal = true ↔ x = y) (hgreater : greater = true ↔ y < x) :
    less.toNat + equal.toNat + greater.toNat = 1 := by
  cases less <;> cases equal <;> cases greater <;> simp_all <;> omega

/-- The right operand is cut to the width of the left one by `<`, `>`, `<=` and `>=`. The
order is right where nothing is cut off, and where what is left is above the left one. -/
theorem ordered_iff {x : Logic width} {y : Logic other} (hx : x.Canonical) (hy : y.Canonical) :
    Ordered x y ↔ y.value < 2 ^ width ∨ x.value < y.value % 2 ^ width := by
  have hbound : x.value < 2 ^ width := Nat.mod_lt _ (Nat.two_pow_pos _)
  constructor
  · intro h
    by_cases hfit : y.value < 2 ^ width
    · exact .inl hfit
    · have hless := h.less.mpr (by omega)
      rw [isLess_iff hy, ← hx.value_eq] at hless
      exact .inr hless
  · intro h
    -- cut or not, the operand is on the same side
    have hside : (x.value < y.value % 2 ^ width ↔ x.value < y.value) ∧
        (y.value % 2 ^ width < x.value ↔ y.value < x.value) := by
      have hle := Nat.mod_le y.value (2 ^ width)
      rcases h with hfit | hlow
      · rw [Nat.mod_eq_of_lt hfit]
        exact ⟨Iff.rfl, Iff.rfl⟩
      · omega
    have hequal := isEqual_iff x y
    have hless := isLess_iff (x := x) hy
    have hgreater := isGreater_iff (x := x) hy
    rw [← hx.value_eq, ← hy.value_eq] at hequal
    rw [← hx.value_eq, hside.1] at hless
    rw [← hx.value_eq, hside.2] at hgreater
    refine ⟨hequal, ?_, hless, hgreater, ?_, ?_, one_outcome hless hequal hgreater⟩
    · rw [isNotEqual_iff, ← hx.value_eq, ← hy.value_eq]
    · rw [isLessEqual_iff hy, ← hx.value_eq]
      omega
    · rw [isGreaterEqual_iff hy, ← hx.value_eq]
      omega

/-- A byte and a half word that fits in it. -/
theorem ordered_iff_fits : Ordered (ofNat 8 200) (ofNat 16 201) :=
  (ordered_iff (show (ofNat 8 200).toNat < 2 ^ 8 by decide +kernel)
    (show (ofNat 16 201).toNat < 2 ^ 16 by decide +kernel)).mpr (.inl (by decide +kernel))

/-- 256 as the right operand of a byte is zero: zero is not below it, equal to it or
above it. -/
theorem not_ordered_wide :
    (ofNat 8 0).Canonical ∧ (ofNat 16 256).Canonical ∧
      (ofNat 8 0).isLess (ofNat 16 256) = false ∧ (ofNat 8 0).isEqual (ofNat 16 256) = false ∧
      (ofNat 8 0).isGreater (ofNat 16 256) = false ∧ ¬ Ordered (ofNat 8 0) (ofNat 16 256) := by
  refine ⟨show (ofNat 8 0).toNat < 2 ^ 8 by decide +kernel,
    show (ofNat 16 256).toNat < 2 ^ 16 by decide +kernel, by decide +kernel, by decide +kernel,
    by decide +kernel, fun h => ?_⟩
  have hless : (ofNat 8 0).isLess (ofNat 16 256) = true := h.less.mpr (by decide +kernel)
  exact absurd hless (by decide +kernel)

/-! ## `reduce_and` -/

/-- `reduce_and` of a vector. -/
def reduceAnd (x : Logic width) : Logic 1 :=
  if (List.range width).all fun bit => decide (x.get bit ≠ 0) then assignUInt64 1 1
  else assignUInt64 1 0

theorem get_ne_zero_iff (x : Logic width) (bit : Nat) :
    x.get bit ≠ 0 ↔ x.toNat.testBit bit = true := by
  rw [Ne, ← UInt8.toNat_inj, toNat_get]
  cases x.toNat.testBit bit <;> decide

theorem reduceAnd_eq (x : Logic width) :
    x.reduceAnd =
      if ∀ bit < width, x.toNat.testBit bit = true then assignUInt64 1 1 else assignUInt64 1 0 := by
  unfold reduceAnd
  refine if_congr ?_ rfl rfl
  simp only [List.all_eq_true, List.mem_range, decide_eq_true_iff, get_ne_zero_iff]

end Logic

open Logic

/-- The types of elements `static_cast<bool>` takes: `bool`, integers and enumerations of
up to eight bytes, vectors, and packed arrays in both forms. Structures and unpacked
arrays do not convert. -/
inductive Element
  | scalar (sizeof : Nat) (h : sizeof ≤ 8)
  | logic (width : Nat)
  | packedArray (count : Nat) (element : Ty)
  | nativeArray (count : Nat) (element : Ty)

namespace Element

/-- `array_packed_size_bits`. -/
def bits : Element → Nat
  | scalar sizeof _ => sizeof * 8
  | logic width => width
  | packedArray count element => count * element.sizes.packedBits
  | nativeArray count element => count * element.sizes.width

def Value : Element → Type
  | scalar sizeof _ => Logic (sizeof * 8)
  | logic width => Logic width
  | packedArray count element => Logic (count * element.sizes.packedBits)
  | nativeArray count element => Fin count → element.Value

def packing : (e : Element) → Packing e.Value e.bits
  | scalar sizeof _ => Packing.vector (sizeof * 8)
  | logic width => Packing.vector width
  | packedArray count element => Packing.vector (count * element.sizes.packedBits)
  | nativeArray _ element => element.packing.nativePacked

/-- `static_cast<bool>`. -/
def toBool : (e : Element) → e.Value → Bool
  | scalar _ _, x => decide (x.toNat ≠ 0)
  | logic _, x => x.toBool
  | packedArray _ _, data => decide (data.toUInt64 ≠ 0)
  | nativeArray _ element, x => (element.packing.nativePacked.pack x).toBool

theorem decide_ne_zero {width : Nat} (x : Logic width) (h : 8 * size width ≤ 64) :
    decide (x.toNat ≠ 0) = x.toBool := by
  have hlt : x.toNat < 2 ^ 64 :=
    Nat.lt_of_lt_of_le x.toNat_lt (Nat.pow_le_pow_right (by decide) h)
  unfold Logic.toBool
  rw [decide_eq_decide, Ne, Ne, ← UInt64.toNat_inj, toNat_toUInt64, Nat.mod_eq_of_lt hlt]
  rfl

/-- Whatever the type is, the test looks at 64 bits. -/
theorem toBool_eq (e : Element) (x : e.Value) : e.toBool x = (e.packing.pack x).toBool := by
  cases e with
  | scalar sizeof h => exact @decide_ne_zero (sizeof * 8) x (by unfold size; omega)
  | logic => rfl
  | packedArray => rfl
  | nativeArray => rfl

end Element

/-- How an array keeps its elements: apart, in one vector, or apart and packed on demand. -/
inductive Form
  | unpacked
  | packed
  | native

namespace Form

def Contents (e : Element) (count : Nat) : Form → Type
  | unpacked => Fin count → e.Value
  | packed => Logic (count * e.bits)
  | native => Fin count → e.Value

variable {e : Element} {count : Nat}

/-- `operator[] const`. -/
def element : (form : Form) → form.Contents e count → Fin count → e.Value
  | unpacked, elements, i => elements i
  | packed, data, i =>
      e.packing.unpack
        ⟨data.copyBits (i * e.bits) e.bits e.bits, (data.copyBits_spec _ (Nat.le_refl _)).1⟩
  | native, elements, i => elements i

/-- `pack()`. -/
def pack : (form : Form) → form.Contents e count → Logic (count * e.bits)
  | unpacked, elements => e.packing.unpacked.pack elements
  | packed, data => data
  | native, elements => e.packing.nativePacked.pack elements

/-- `reduce_and` of an array. -/
def reduceAnd (form : Form) (x : form.Contents e count) : Logic 1 :=
  if (List.finRange count).all fun i => e.toBool (form.element x i) then assignUInt64 1 1
  else assignUInt64 1 0

theorem testBit_pack (form : Form) (x : form.Contents e count) (i : Fin count) {j : Nat}
    (hj : j < e.bits) :
    (form.pack x).toNat.testBit (i * e.bits + j) =
      (e.packing.pack (form.element x i)).toNat.testBit j := by
  have happart : ∀ elements : Fin count → e.Value,
      (Packing.packElements fun i => e.packing.packValue e.bits (elements i)).toNat.testBit
          (i * e.bits + j) = (e.packing.pack (elements i)).toNat.testBit j := fun elements => by
    rw [Packing.testBit_packElements _ _ hj, e.packing.packValue_self]
  cases form with
  | unpacked => exact happart x
  | native => exact happart x
  | packed =>
      have hvalue := e.packing.value_pack_unpack
        ⟨Logic.copyBits x (i * e.bits) e.bits e.bits, (Logic.copyBits_spec x _ (Nat.le_refl _)).1⟩
      have hbit := congrArg (Nat.testBit · j) hvalue
      simp only [value, Nat.testBit_mod_two_pow, decide_eq_true hj, Bool.true_and] at hbit
      refine Eq.trans ?_ hbit.symm
      change _ = (natOfBytes (Logic.copyBits x (i * e.bits) e.bits e.bits)).testBit j
      rw [(Logic.copyBits_spec x _ (Nat.le_refl _)).2, Nat.testBit_mod_two_pow, decide_eq_true hj,
        Bool.true_and, Nat.testBit_div_two_pow, Nat.add_comm]
      rfl

/-- The reduction is the AND of all bits. -/
def ReducesAll (form : Form) (x : form.Contents e count) : Prop :=
  ((form.reduceAnd x).toNat = 1 ↔ ∀ k < count * e.bits, (form.pack x).toNat.testBit k = true) ∧
    form.reduceAnd x = (form.pack x).reduceAnd

theorem testBit_toUInt64_zero {width : Nat} {x : Logic width} (h : x.toUInt64 = 0) :
    x.toNat.testBit 0 = false := by
  have hzero : x.toNat % 2 ^ 64 = 0 := (toNat_toUInt64 x).symm.trans (congrArg UInt64.toNat h)
  rw [Nat.testBit_zero]
  exact decide_eq_false (by omega)

/-- It is where the test fails on some element or no bit is missing: an array whose
elements each have a bit among their low 64 and of which some bit is clear is reduced
to one. -/
theorem reducesAll_iff (hbits : 0 < e.bits) (form : Form) (x : form.Contents e count) :
    form.ReducesAll x ↔
      (∃ i, (e.packing.pack (form.element x i)).toUInt64 = 0) ∨
        ∀ k < count * e.bits, (form.pack x).toNat.testBit k = true := by
  have hone : (assignUInt64 1 1).toNat = 1 := by decide +kernel
  have hzero : (assignUInt64 1 0).toNat = 0 := by decide +kernel
  have hall : ((List.finRange count).all fun i => e.toBool (form.element x i)) = true ↔
      ¬ ∃ i, (e.packing.pack (form.element x i)).toUInt64 = 0 := by
    simp [List.all_eq_true, Element.toBool_eq, Logic.toBool]
  unfold ReducesAll
  rw [reduceAnd_eq, reduceAnd]
  by_cases hfail : ∃ i, (e.packing.pack (form.element x i)).toUInt64 = 0
  · obtain ⟨i, hi⟩ := hfail
    -- the lowest bit of the element is missing
    have hmissing : ¬ ∀ k < count * e.bits, (form.pack x).toNat.testBit k = true := fun h => by
      have hrange := element_range hbits i
      have hbit := h (i * e.bits + 0) (by omega)
      rw [testBit_pack form x i hbits, testBit_toUInt64_zero hi] at hbit
      cases hbit
    rw [if_neg fun h => hall.mp h ⟨i, hi⟩, if_neg hmissing]
    exact ⟨fun _ => .inl ⟨i, hi⟩, fun _ => ⟨⟨fun h => absurd (hzero.symm.trans h) (by decide),
      fun h => absurd h hmissing⟩, rfl⟩⟩
  · rw [if_pos (hall.mpr hfail)]
    constructor
    · rintro ⟨hbits, -⟩
      exact .inr (hbits.mp hone)
    · rintro (h | h)
      · exact absurd h hfail
      · exact ⟨⟨fun _ => h, fun _ => hone⟩, by rw [if_pos h]⟩

/-- Two elements of two bits with all bits set. -/
theorem reducesAll_iff_ones :
    let x : Form.packed.Contents (.logic 2) 2 := ofNat 4 15
    Form.packed.ReducesAll x := by
  intro x
  exact (reducesAll_iff (by decide) .packed x).mpr (.inr (by decide +kernel))

/-- The elements 1 and 3 of two bits are both not zero, and bit 1 is missing. -/
theorem not_reducesAll_nonzero :
    let x : Form.packed.Contents (.logic 2) 2 := ofNat 4 13
    (Form.packed.reduceAnd x).toNat = 1 ∧ (Form.packed.pack x).reduceAnd.toNat = 0 ∧
      ¬ Form.packed.ReducesAll x := by
  intro x
  refine ⟨by decide +kernel, by decide +kernel, fun h => ?_⟩
  exact absurd (h.1.mp (by decide +kernel) 1 (by decide)) (by decide +kernel)

end Form

end CppHdl.Words
