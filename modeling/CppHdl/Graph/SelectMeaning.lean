import Mathlib.Tactic.Linarith
import CppHdl.Graph.SelectLogic

/-!
# What an element select means

The select `a[i]` means the element whose declared index is the number of the
selector, and nothing where there is none. This is stated on the bits, beside
the arithmetic by which the lowering finds the element: low bits of the indices
on the one hand, offsets that wrap at 64 bits on the other.
-/

namespace CppHdl

open Lowering

def selectorNumber (isSigned : Bool) (bits : List Bool) : Int :=
  if isSigned then intOfBits bits else natOfBits bits

/-- The least number of a selector type. -/
def smallest (width : Nat) (isSigned : Bool) : Int := if isSigned then -2 ^ (width - 1) else 0

def largest (width : Nat) (isSigned : Bool) : Int :=
  if isSigned then 2 ^ (width - 1) - 1 else 2 ^ width - 1

namespace FixedRange

variable (r : FixedRange)

def Contains (v : Int) : Prop := r.lower ≤ v ∧ v ≤ r.upper

instance (v : Int) : Decidable (r.Contains v) := inferInstanceAs (Decidable (_ ∧ _))

/-- The place of an element counts from the right bound. -/
def place (v : Int) : Nat := (v - r.right).natAbs

/-- The element of an index, zero where there is none. -/
def element (count : Nat) (bits : List Bool) (v : Int) : List Bool :=
  if r.Contains v then (bits.drop (r.place v * count)).take count
  else List.replicate count false

/-- The bits with the element of an index replaced, if there is one. -/
def withElement (count : Nat) (bits new : List Bool) (v : Int) : List Bool :=
  if r.Contains v then
    bits.take (r.place v * count) ++ (List.range count).map (new.getD · false) ++
      bits.drop (r.place v * count + count)
  else bits

/-- The declared indices are numbers of the selector type, in 64 bits also where
the type is wider, and no number of a selector that may be constant is so far
from an index that its offset wraps. -/
structure Names (count width : Nat) (isSigned : Bool) : Prop where
  least : smallest width isSigned ≤ r.lower
  greatest : r.upper ≤ largest width isSigned
  extended : 64 < width → 0 ≤ r.lower
  above : width ≤ 64 → largest width isSigned < r.lower + 2 ^ 64 / count
  below : width ≤ 64 → r.upper < smallest width isSigned + 2 ^ 64 / count

/-! ## Indices -/

variable {r}

theorem mem_items {v : Int} : v ∈ r.items ↔ r.Contains v := by
  unfold items width Contains
  rw [List.mem_map]
  constructor
  · rintro ⟨k, hk, rfl⟩
    rw [List.mem_range] at hk
    omega
  · rintro ⟨hlow, hhigh⟩
    exact ⟨(v - r.lower).toNat, List.mem_range.mpr (by omega), by omega⟩

theorem nodup_items (r : FixedRange) : r.items.Nodup :=
  List.nodup_range.map fun i j h => by simpa using h

theorem width_pos (r : FixedRange) : 0 < r.width := by
  unfold width upper lower
  omega

theorem width_eq (r : FixedRange) : (r.width : Int) = r.upper - r.lower + 1 := by
  have := r.width_pos
  unfold width at this ⊢
  omega

/-- From the right bound, a declared index is at its place. -/
theorem position_eq_place {v : Int} (h : r.Contains v) : r.position v = r.place v := by
  obtain ⟨hlow, hhigh⟩ := h
  unfold lower at hlow
  unfold upper at hhigh
  unfold position place
  split_ifs <;> omega

theorem place_lt {v : Int} (h : r.Contains v) : r.place v < r.width := by
  have hwidth := r.width_eq
  have := position_eq_place h
  obtain ⟨hlow, hhigh⟩ := h
  unfold position at this
  unfold upper lower at *
  split_ifs at this <;> omega

/-- The places of the declared indices are those within the width. -/
theorem contains_iff {v : Int} : r.Contains v ↔ 0 ≤ r.position v ∧ r.position v < r.width := by
  have hwidth := r.width_eq
  unfold Contains position
  unfold upper lower at *
  split_ifs <;> omega

theorem contains_bounds {v : Int} (h : r.Contains v) : -2 ^ 31 ≤ v ∧ v < 2 ^ 31 := by
  have := r.left_ge
  have := r.left_lt
  have := r.right_ge
  have := r.right_lt
  obtain ⟨hlow, hhigh⟩ := h
  unfold lower at hlow
  unfold upper at hhigh
  omega

end FixedRange

/-! ## Offsets -/

theorem int64_congr {x y : Int} (h : x % 2 ^ 64 = y % 2 ^ 64) : int64 x = int64 y := by
  unfold int64 toUInt64
  rw [h]

theorem int64_of_bounds {x : Int} (h₁ : -2 ^ 63 ≤ x) (h₂ : x < 2 ^ 63) : int64 x = x := by
  unfold int64 toInt64 toUInt64
  split_ifs <;> omega

/-- A product of at most 64 bits either fits or wraps once. -/
theorem int64_cases {x : Int} (h₁ : -2 ^ 64 ≤ x) (h₂ : x ≤ 2 ^ 64) :
    (-2 ^ 63 ≤ x ∧ x < 2 ^ 63 ∧ int64 x = x) ∨ (2 ^ 63 ≤ x ∧ int64 x = x - 2 ^ 64) ∨
      (x < -2 ^ 63 ∧ int64 x = x + 2 ^ 64) := by
  unfold int64 toInt64 toUInt64
  split_ifs <;> omega

/-- The quotient of the offsets by the width of an element. -/
theorem quotient_mul_bounds {count : Nat} (hcount : 0 < count) :
    ((2 : Int) ^ 64 / count) * count ≤ 2 ^ 64 ∧ 2 ^ 64 < ((2 : Int) ^ 64 / count) * count + count := by
  have hpos : (0 : Int) < count := by exact_mod_cast hcount
  have hdiv := Int.mul_ediv_add_emod ((2 : Int) ^ 64) count
  have hnonneg := Int.emod_nonneg ((2 : Int) ^ 64) hpos.ne'
  have hlt := Int.emod_lt_of_pos ((2 : Int) ^ 64) hpos
  have hcomm := Int.mul_comm (2 ^ 64 / (count : Int)) count
  constructor <;> omega

/-- An element that is not there has its offset outside, as long as the offset
does not wrap. -/
theorem offset_outside {p : Int} {count n : Nat} (hcount : 0 < count) (hsize : n * count ≤ 2 ^ 20)
    (habove : p < 2 ^ 64 / count) (hbelow : n ≤ p + 2 ^ 64 / count) (hout : p < 0 ∨ (n : Int) ≤ p) :
    int64 (p * count) ≤ -count ∨ (n * count : Int) ≤ int64 (p * count) := by
  have hpos : (0 : Int) < count := by exact_mod_cast hcount
  obtain ⟨hle, hlt⟩ := quotient_mul_bounds hcount
  generalize (2 : Int) ^ 64 / count = q at *
  have hsize' : (n * count : Int) ≤ 2 ^ 20 := by exact_mod_cast hsize
  rcases hout with hneg | hpast
  · have h₁ : p * count ≤ -1 * count := Int.mul_le_mul_of_nonneg_right (by omega) hpos.le
    have h₂ : (n - q) * count ≤ p * count := Int.mul_le_mul_of_nonneg_right (by omega) hpos.le
    have h₃ : ((n : Int) - q) * count = n * count - q * count := Int.sub_mul _ _ _
    have h₄ : (0 : Int) ≤ n * count := by positivity
    rcases int64_cases (x := p * count) (by omega) (by omega) with ⟨h, h', h''⟩ | ⟨h, h'⟩ | ⟨h, h'⟩ <;>
      omega
  · have h₁ : (n : Int) * count ≤ p * count := Int.mul_le_mul_of_nonneg_right hpast hpos.le
    have h₂ : p * count ≤ (q - 1) * count := Int.mul_le_mul_of_nonneg_right (by omega) hpos.le
    have h₃ : (q - 1) * count = q * count - count := by ring
    have h₄ : (0 : Int) ≤ n * count := by positivity
    rcases int64_cases (x := p * count) (by omega) (by omega) with ⟨h, h', h''⟩ | ⟨h, h'⟩ | ⟨h, h'⟩ <;>
      omega

/-- The nearest places whose offset wraps back into the bits. -/
theorem offset_inside {p : Int} {count n : Nat} (hcount : 0 < count) (hn : 0 < n)
    (hsize : n * count ≤ 2 ^ 20)
    (hp : p = 2 ^ 64 / count ∨ p = n - 1 - 2 ^ 64 / count) :
    -(count : Int) < int64 (p * count) ∧ int64 (p * count) < n * count := by
  have hpos : (0 : Int) < count := by exact_mod_cast hcount
  obtain ⟨hle, hlt⟩ := quotient_mul_bounds hcount
  generalize (2 : Int) ^ 64 / count = q at *
  have hsize' : (n * count : Int) ≤ 2 ^ 20 := by exact_mod_cast hsize
  have hone : 1 * (count : Int) ≤ n * count :=
    Int.mul_le_mul_of_nonneg_right (by omega) hpos.le
  rcases hp with hp | hp <;> rw [hp]
  · rcases int64_cases (x := q * count) (by omega) (by omega) with ⟨h, h', h''⟩ | ⟨h, h'⟩ | ⟨h, h'⟩ <;>
      omega
  · have h₃ : ((n : Int) - 1 - q) * count = n * count - count - q * count := by ring
    rcases int64_cases (x := ((n : Int) - 1 - q) * count) (by omega) (by omega) with
      ⟨h, h', h''⟩ | ⟨h, h'⟩ | ⟨h, h'⟩ <;> omega

/-! ## Elements among the bits -/

theorem sliceBits_inside {bits : List Bool} {k count : Nat} (h : k + count ≤ bits.length) :
    sliceBits bits k count = (bits.drop k).take count := by
  apply List.ext_getElem
  · simp only [length_sliceBits, List.length_take, List.length_drop]
    omega
  · intro i h₁ h₂
    have hi : i < count := by simpa using h₁
    have hget : ((k : Int) + i).toNat = k + i := by omega
    simp only [sliceBits, List.getElem_map, List.getElem_range, List.getElem_take,
      List.getElem_drop, hget]
    rw [if_pos (by omega), List.getD_eq_getElem _ _ (by omega)]

theorem sliceBits_outside {bits : List Bool} {offset : Int} {count : Nat}
    (h : offset ≤ -count ∨ (bits.length : Int) ≤ offset) :
    sliceBits bits offset count = List.replicate count false := by
  rw [List.eq_replicate_iff]
  refine ⟨length_sliceBits _ _ _, fun x hx => ?_⟩
  obtain ⟨i, hi, rfl⟩ := List.mem_map.mp hx
  rw [List.mem_range] at hi
  split_ifs with hge
  · exact List.getD_eq_default _ _ (by omega)
  · rfl

theorem length_replacedBits (bits new : List Bool) (offset : Int) (count : Nat) :
    (replacedBits bits new offset count).length = bits.length := by
  unfold replacedBits
  induction count with
  | zero => rfl
  | succ n ih =>
      rw [List.range_succ, List.foldl_append, List.foldl_cons, List.foldl_nil]
      split_ifs
      · rw [List.length_set, ih]
      · exact ih

theorem getElem?_replacedBits (bits new : List Bool) (offset : Int) (count j : Nat) :
    (replacedBits bits new offset count)[j]? =
      if offset ≤ j ∧ j < offset + count ∧ j < bits.length then
        some (new.getD (j - offset).toNat false)
      else bits[j]? := by
  induction count with
  | zero =>
      rw [if_neg (by omega)]
      rfl
  | succ n ih =>
      have hlen := length_replacedBits bits new offset n
      unfold replacedBits at hlen ih ⊢
      rw [List.range_succ, List.foldl_append, List.foldl_cons, List.foldl_nil]
      by_cases hge : 0 ≤ offset + n
      · rw [if_pos hge, List.getElem?_set, hlen, ih]
        by_cases hj : (offset + n).toNat = j
        · by_cases hlt : j < bits.length
          · have hsub : ((j : Int) - offset).toNat = n := by omega
            rw [if_pos hj, if_pos (by omega), if_pos (by omega), hsub]
          · rw [if_pos hj, if_neg (by omega), if_neg (by omega),
              List.getElem?_eq_none (by omega)]
        · rw [if_neg hj]
          refine if_congr ?_ rfl rfl
          omega
      · rw [if_neg hge, ih]
        refine if_congr ?_ rfl rfl
        omega

theorem replacedBits_inside {bits : List Bool} (new : List Bool) {k count : Nat}
    (h : k + count ≤ bits.length) :
    replacedBits bits new k count =
      bits.take k ++ (List.range count).map (new.getD · false) ++ bits.drop (k + count) := by
  apply List.ext_getElem?
  intro j
  rw [getElem?_replacedBits, List.getElem?_append, List.getElem?_append]
  simp only [List.length_append, List.length_take, List.length_map, List.length_range,
    Nat.min_eq_left (by omega : k ≤ bits.length)]
  by_cases h₁ : j < k
  · rw [if_neg (by omega), if_pos (by omega), if_pos h₁, List.getElem?_take_of_lt h₁]
  · by_cases h₂ : j < k + count
    · have hsub : ((j : Int) - k).toNat = j - k := by omega
      rw [if_pos (by omega), if_pos h₂, if_neg h₁, hsub, List.getElem?_map,
        List.getElem?_range (by omega), Option.map_some]
    · rw [if_neg (by omega), if_neg h₂, List.getElem?_drop]
      congr 1
      omega

theorem replacedBits_outside {bits : List Bool} (new : List Bool) {offset : Int} {count : Nat}
    (h : offset ≤ -count ∨ (bits.length : Int) ≤ offset) :
    replacedBits bits new offset count = bits := by
  apply List.ext_getElem?
  intro j
  rw [getElem?_replacedBits, if_neg (by omega)]

/-! ## Numbers of a selector type -/

theorem intOfBits_emod (bits : List Bool) :
    intOfBits bits % 2 ^ bits.length = natOfBits bits := by
  have hlt : (natOfBits bits : Int) < 2 ^ bits.length := by exact_mod_cast natOfBits_lt bits
  unfold intOfBits
  cases signBit bits with
  | false => simpa using Int.emod_eq_of_lt (by omega) hlt
  | true => simpa using Int.emod_eq_of_lt (by omega) hlt

theorem selectorNumber_emod (isSigned : Bool) (bits : List Bool) :
    selectorNumber isSigned bits % 2 ^ bits.length = natOfBits bits := by
  have hlt : (natOfBits bits : Int) < 2 ^ bits.length := by exact_mod_cast natOfBits_lt bits
  cases isSigned with
  | true => exact intOfBits_emod bits
  | false => exact Int.emod_eq_of_lt (by simp [selectorNumber]) hlt

theorem largest_eq {width : Nat} (hw : 0 < width) (isSigned : Bool) :
    largest width isSigned = smallest width isSigned + 2 ^ width - 1 := by
  unfold largest smallest
  cases isSigned with
  | false => simp
  | true =>
      have hpow : (2 : Int) ^ width = 2 ^ (width - 1) * 2 := by
        rw [← Int.pow_succ]
        congr 1
        omega
      simp only [if_true, hpow]
      ring

theorem selectorNumber_bounds (isSigned : Bool) {bits : List Bool} (hbits : 0 < bits.length) :
    smallest bits.length isSigned ≤ selectorNumber isSigned bits ∧
      selectorNumber isSigned bits ≤ largest bits.length isSigned := by
  have hlt : (natOfBits bits : Int) < 2 ^ bits.length := by exact_mod_cast natOfBits_lt bits
  rw [largest_eq hbits]
  cases isSigned with
  | false =>
      simp only [smallest, selectorNumber, Bool.false_eq_true, if_false]
      omega
  | true =>
      have hsign := two_pow_le_natOfBits_iff (List.ne_nil_of_length_pos hbits)
      have hpow : (2 : Int) ^ bits.length = 2 ^ (bits.length - 1) * 2 := by
        rw [← Int.pow_succ]
        congr 1
        omega
      have hcast : ((2 ^ (bits.length - 1) : Nat) : Int) = 2 ^ (bits.length - 1) := by push_cast; rfl
      simp only [smallest, selectorNumber, intOfBits, if_true]
      by_cases h : signBit bits = true
      · have := hsign.mpr h
        rw [if_pos h]
        omega
      · have := mt hsign.mp h
        rw [if_neg h]
        omega

/-- A number of the selector type is told by its low bits. -/
theorem eq_of_emod {width : Nat} (hw : 0 < width) {isSigned : Bool} {x y : Int}
    (hx : smallest width isSigned ≤ x ∧ x ≤ largest width isSigned)
    (hy : smallest width isSigned ≤ y ∧ y ≤ largest width isSigned)
    (h : x % 2 ^ width = y % 2 ^ width) : x = y := by
  rw [largest_eq hw] at hx hy
  have hdvd : (2 : Int) ^ width ∣ x - y := Int.ModEq.dvd h.symm
  obtain ⟨k, hk⟩ := hdvd
  have hpos : (0 : Int) < 2 ^ width := by positivity
  have hk0 : k = 0 := by
    by_contra hne
    rcases Int.lt_or_lt_of_ne hne with hneg | hpos'
    · have : 2 ^ width * k ≤ (2 : Int) ^ width * -1 := Int.mul_le_mul_of_nonneg_left (by omega) hpos.le
      omega
    · have : (2 : Int) ^ width * 1 ≤ 2 ^ width * k := Int.mul_le_mul_of_nonneg_left (by omega) hpos.le
      omega
  rw [hk0, Int.mul_zero] at hk
  omega

theorem selectorNumber_injective (isSigned : Bool) {xs ys : List Bool}
    (hlen : xs.length = ys.length) (h : selectorNumber isSigned xs = selectorNumber isSigned ys) : xs = ys := by
  refine natOfBits_inj hlen ?_
  have hx := selectorNumber_emod isSigned xs
  have hy := selectorNumber_emod isSigned ys
  rw [h, hlen, hy] at hx
  exact_mod_cast hx.symm

/-- The low bits of an index, as the lowering compares them. -/
theorem natOfBits_item {item : Int} {width : Nat} (hbounds : -2 ^ 31 ≤ item ∧ item < 2 ^ 31)
    (hwide : 64 < width → 0 ≤ item) :
    (natOfBits (bitsOfNat width (toUInt64 item)) : Int) = item % 2 ^ width := by
  rw [natOfBits_bitsOfNat]
  have hcast : (toUInt64 item : Int) = item % 2 ^ 64 := by unfold toUInt64; omega
  push_cast
  rw [hcast]
  by_cases hw : width ≤ 64
  · exact Int.emod_emod_of_dvd item (pow_dvd_pow 2 hw)
  · rw [Int.emod_eq_of_lt (hwide (by omega)) (by omega)]

/-- The low bits of a declared index are those of a selector that names it. -/
theorem FixedRange.Names.selectorNumber_item {r : FixedRange} {count width : Nat}
    {isSigned : Bool} (h : r.Names count width isSigned) (hw : 0 < width) {item : Int}
    (hitem : r.Contains item) :
    selectorNumber isSigned (bitsOfNat width (toUInt64 item)) = item := by
  have hlen := length_bitsOfNat width (toUInt64 item)
  have hbounds := @selectorNumber_bounds isSigned (bitsOfNat width (toUInt64 item))
    (by rw [hlen]; exact hw)
  have hmod := selectorNumber_emod isSigned (bitsOfNat width (toUInt64 item))
  rw [hlen] at hbounds hmod
  refine eq_of_emod hw hbounds ⟨h.least.trans hitem.1, hitem.2.trans h.greatest⟩ ?_
  rw [hmod, natOfBits_item (FixedRange.contains_bounds hitem)
    fun hwide => (h.extended hwide).trans hitem.1]

theorem FixedRange.Names.eq_item_iff {r : FixedRange} {count width : Nat} {isSigned : Bool}
    (h : r.Names count width isSigned) (hw : 0 < width) {sbits : List Bool}
    (hlen : sbits.length = width) {item : Int} (hitem : r.Contains item) :
    sbits = bitsOfNat sbits.length (toUInt64 item) ↔ item = selectorNumber isSigned sbits := by
  rw [hlen]
  constructor
  · intro heq
    rw [heq, h.selectorNumber_item hw hitem]
  · intro heq
    refine selectorNumber_injective isSigned (by simp [hlen]) ?_
    rw [h.selectorNumber_item hw hitem, heq]

/-! ## The lowering keeps to the meaning -/

/-- Of the conditional steps over a list without repetition only one is taken. -/
theorem foldl_ite_eq {α β : Type} [DecidableEq α] (f : β → α → β) (v : α) {items : List α}
    (h : items.Nodup) (b : β) :
    items.foldl (fun acc item => if item = v then f acc item else acc) b =
      if v ∈ items then f b v else b := by
  induction items generalizing b with
  | nil => simp
  | cons item rest ih =>
      obtain ⟨hnotin, hrest⟩ := List.nodup_cons.mp h
      rw [List.foldl_cons, ih hrest]
      by_cases hv : item = v
      · subst hv
        rw [if_pos rfl, if_neg hnotin, if_pos List.mem_cons_self]
      · rw [if_neg hv]
        simp only [List.mem_cons, Ne.symm hv, false_or]

namespace FixedRange

variable {r : FixedRange} {count width : Nat} {isSigned : Bool}

theorem elementOffset_of_contains (hsize : r.width * count ≤ 2 ^ 20) {v : Int}
    (h : r.Contains v) : elementOffset r count v = (r.place v * count : Nat) := by
  have hplace : r.place v * count ≤ 2 ^ 20 :=
    (Nat.mul_le_mul_right count (place_lt h).le).trans hsize
  have hcast : (r.place v : Int) * count = (r.place v * count : Nat) := by push_cast; rfl
  unfold elementOffset
  rw [position_eq_place h, hcast]
  exact int64_of_bounds (by omega) (by omega)

theorem elementOffset_congr {x y : Int} (h : x % 2 ^ 64 = y % 2 ^ 64) :
    elementOffset r count x = elementOffset r count y := by
  refine int64_congr (Int.ModEq.mul_right _ ?_)
  unfold position
  split_ifs
  · exact Int.ModEq.sub_right _ h
  · exact Int.ModEq.sub_left _ h

theorem place_mul_le {v : Int} (h : r.Contains v) :
    r.place v * count + count ≤ r.width * count := by
  rw [← Nat.succ_mul]
  exact Nat.mul_le_mul_right count (place_lt h)

/-- The places the numbers of a selector reach. -/
theorem Names.position_bounds (h : r.Names count width isSigned) (hw : width ≤ 64) {v : Int}
    (hv : smallest width isSigned ≤ v ∧ v ≤ largest width isSigned) :
    r.position v < 2 ^ 64 / count ∧ r.width ≤ r.position v + 2 ^ 64 / count := by
  have hwidth := r.width_eq
  have habove := h.above hw
  have hbelow := h.below hw
  unfold position
  unfold upper lower at *
  split_ifs <;> omega

/-- The offset of a number outside the declared indices is outside the bits. -/
theorem Names.offset_outside (h : r.Names count width isSigned) (hcount : 0 < count)
    (hsize : r.width * count ≤ 2 ^ 20) (hw : width ≤ 64) {v : Int}
    (hv : smallest width isSigned ≤ v ∧ v ≤ largest width isSigned) (hout : ¬ r.Contains v) :
    elementOffset r count v ≤ -count ∨ (r.width * count : Int) ≤ elementOffset r count v := by
  obtain ⟨habove, hbelow⟩ := h.position_bounds hw hv
  refine CppHdl.offset_outside hcount hsize habove hbelow ?_
  rw [contains_iff] at hout
  omega

theorem Names.slice_eq (h : r.Names count width isSigned) (hcount : 0 < count)
    (hsize : r.width * count ≤ 2 ^ 20) (hw : width ≤ 64) {v : Int}
    (hv : smallest width isSigned ≤ v ∧ v ≤ largest width isSigned) {bits : List Bool}
    (hbits : bits.length = r.width * count) :
    sliceBits bits (elementOffset r count v) count = r.element count bits v := by
  unfold element
  by_cases hin : r.Contains v
  · rw [if_pos hin, elementOffset_of_contains hsize hin]
    exact sliceBits_inside (by rw [hbits]; exact place_mul_le hin)
  · rw [if_neg hin]
    refine sliceBits_outside ?_
    rw [hbits]
    exact_mod_cast h.offset_outside hcount hsize hw hv hin

theorem Names.replaced_eq (h : r.Names count width isSigned) (hcount : 0 < count)
    (hsize : r.width * count ≤ 2 ^ 20) (hw : width ≤ 64) {v : Int}
    (hv : smallest width isSigned ≤ v ∧ v ≤ largest width isSigned) {bits : List Bool}
    (hbits : bits.length = r.width * count) (new : List Bool) :
    replacedBits bits new (elementOffset r count v) count = r.withElement count bits new v := by
  unfold withElement
  by_cases hin : r.Contains v
  · rw [if_pos hin, elementOffset_of_contains hsize hin]
    exact replacedBits_inside new (by rw [hbits]; exact place_mul_le hin)
  · rw [if_neg hin]
    refine replacedBits_outside new ?_
    rw [hbits]
    exact_mod_cast h.offset_outside hcount hsize hw hv hin

theorem Names.selectedBits_eq (h : r.Names count width isSigned) (hw : 0 < width)
    (hsize : r.width * count ≤ 2 ^ 20) {bits sbits : List Bool}
    (hbits : bits.length = r.width * count) (hsbits : sbits.length = width) :
    selectedBits r count bits sbits r.items =
      r.element count bits (selectorNumber isSigned sbits) := by
  have hstep : selectedBits r count bits sbits r.items =
      r.items.foldl (fun result item => if item = selectorNumber isSigned sbits then
        sliceBits bits (elementOffset r count item) count else result)
        (List.replicate count false) :=
    List.foldl_ext _ _ _ fun result item hitem =>
      if_congr (h.eq_item_iff hw hsbits (mem_items.mp hitem)) rfl rfl
  rw [hstep, foldl_ite_eq (fun _ item => sliceBits bits (elementOffset r count item) count) _
    r.nodup_items]
  unfold element
  refine if_ctx_congr mem_items (fun hin => ?_) fun _ => rfl
  rw [elementOffset_of_contains hsize hin]
  exact sliceBits_inside (by rw [hbits]; exact place_mul_le hin)

theorem Names.writtenBits_eq (h : r.Names count width isSigned) (hw : 0 < width)
    (hsize : r.width * count ≤ 2 ^ 20) {bits sbits : List Bool}
    (hbits : bits.length = r.width * count) (hsbits : sbits.length = width) (new : List Bool) :
    writtenBits r count bits new sbits r.items =
      r.withElement count bits new (selectorNumber isSigned sbits) := by
  have hstep : writtenBits r count bits new sbits r.items =
      r.items.foldl (fun bits item => if item = selectorNumber isSigned sbits then
        replacedBits bits new (elementOffset r count item) count else bits) bits :=
    List.foldl_ext _ _ _ fun result item hitem =>
      if_congr (h.eq_item_iff hw hsbits (mem_items.mp hitem)) rfl rfl
  rw [hstep, foldl_ite_eq (fun bits item => replacedBits bits new (elementOffset r count item) count)
    _ r.nodup_items]
  unfold withElement
  refine if_ctx_congr mem_items (fun hin => ?_) fun _ => rfl
  rw [elementOffset_of_contains hsize hin]
  exact replacedBits_inside new (by rw [hbits]; exact place_mul_le hin)

end FixedRange

end CppHdl
