import CppHdl.Words.Logic

/-!
# Assignment, conversion and comparison of logic vectors

Assignment from an integer or from a vector of another width ends in a mask that
clears the padding. Assignment from a vector of the same width is the defaulted
copy: it keeps whatever the padding holds. The comparisons look at all bytes of
the storage.
-/

namespace CppHdl.Words

/-- `bytes[SIZE - 1] &= (1u << (WIDTH % 8)) - 1u`, where `WIDTH % 8` is not zero. -/
def mask (width : Nat) (bytes : List UInt8) : List UInt8 :=
  if width % 8 = 0 then bytes
  else writeBytes bytes (size width - 1)
    [bytes.getD (size width - 1) 0 &&& UInt8.ofNat (2 ^ (width % 8) - 1)]

theorem length_mask {width : Nat} {bytes : List UInt8} (h : bytes.length = size width) :
    (mask width bytes).length = size width := by
  unfold mask
  split_ifs with hwidth
  · exact h
  · rw [length_writeBytes, h]
    rw [h, List.length_singleton]
    unfold size
    omega

/-- The mask keeps the bits of the vector and no others. -/
theorem natOfBytes_mask {width : Nat} {bytes : List UInt8} (h : bytes.length = size width) :
    natOfBytes (mask width bytes) = natOfBytes bytes % 2 ^ width := by
  have hlast := natOfBytes_lt (mask width bytes)
  rw [length_mask h] at hlast
  unfold mask at hlast ⊢
  split_ifs at hlast ⊢ with hwidth
  · rw [Nat.mod_eq_of_lt]
    rwa [show 8 * size width = width by unfold size; omega] at hlast
  · have hpos : 0 < size width := by unfold size; omega
    have hwrite := @natOfBytes_writeBytes_byte bytes (size width - 1) (by omega)
      (bytes.getD (size width - 1) 0 &&& UInt8.ofNat (2 ^ (width % 8) - 1))
    rw [Nat.mod_eq_of_lt (by rwa [show 8 * (size width - 1) + 8 = 8 * size width by omega])]
      at hwrite
    have hbyte : (bytes.getD (size width - 1) 0 &&& UInt8.ofNat (2 ^ (width % 8) - 1)).toNat =
        natOfBytes bytes / 2 ^ (8 * (size width - 1)) % 2 ^ (width % 8) := by
      have hle : 2 ^ (width % 8) ≤ 2 ^ 7 := Nat.pow_le_pow_right (by decide) (by omega)
      rw [UInt8.toNat_and, UInt8.toNat_ofNat', Nat.mod_eq_of_lt (a := 2 ^ (width % 8) - 1)
        (by omega), Nat.and_two_pow_sub_one_eq_mod, toNat_getD]
      exact Nat.mod_mod_of_dvd _ (Nat.pow_dvd_pow 2 (by omega : width % 8 ≤ 8))
    have hsplit : width = 8 * (size width - 1) + width % 8 := by unfold size; omega
    rw [hwrite, hbyte]
    conv_rhs => rw [hsplit, Nat.pow_add, Nat.mod_mul]

namespace Logic

variable {width : Nat}

/-- Storage that went through the mask. -/
def masked (width : Nat) (bytes : List UInt8) (h : bytes.length = size width) : Logic width :=
  ⟨mask width bytes, length_mask h⟩

theorem toNat_masked {bytes : List UInt8} (h : bytes.length = size width) :
    (masked width bytes h).toNat = natOfBytes bytes % 2 ^ width :=
  natOfBytes_mask h

/-! ## Assignment -/

theorem length_readBytes_fill {other : Nat} (width : Nat) (x : Logic other) :
    (readBytes x.bytes 0 (size width) ++
      List.replicate (size width - size other) 0).length = size width := by
  simp only [readBytes, List.length_append, List.length_take, List.length_drop,
    List.length_replicate, x.length_eq]
  omega

/-- `assign_uint64`: copy what fits, clear the rest, mask. -/
def assignUInt64 (width : Nat) (x : UInt64) : Logic width :=
  masked width (bytesOfNat (min (size width) 8) x.toNat ++ List.replicate (size width - 8) 0)
    (by rw [List.length_append, length_bytesOfNat, List.length_replicate]; omega)

theorem toNat_assignUInt64 (x : UInt64) :
    (assignUInt64 width x).toNat = x.toNat % 2 ^ width := by
  have hx := x.toNat_lt
  unfold assignUInt64
  rw [toNat_masked, natOfBytes_append, natOfBytes_replicate_zero, Nat.mul_zero, Nat.add_zero,
    natOfBytes_bytesOfNat]
  rcases Nat.le_total (size width) 8 with hle | hle
  · rw [Nat.min_eq_left hle]
    exact Nat.mod_mod_of_dvd _ (Nat.pow_dvd_pow 2 (le_size width))
  · rw [Nat.min_eq_right hle, Nat.mod_eq_of_lt (b := 2 ^ (8 * 8)) hx]

/-- `operator=` from a vector of another width: copy what fits, clear the rest,
mask. -/
def assign {other : Nat} (width : Nat) (x : Logic other) : Logic width :=
  masked width (readBytes x.bytes 0 (size width) ++
      List.replicate (size width - size other) 0) (length_readBytes_fill width x)

theorem toNat_assign {other : Nat} (x : Logic other) :
    (assign width x).toNat = x.toNat % 2 ^ width := by
  unfold assign
  rw [toNat_masked, natOfBytes_append, natOfBytes_replicate_zero, Nat.mul_zero, Nat.add_zero,
    natOfBytes_readBytes, Nat.mul_zero, Nat.pow_zero, Nat.div_one]
  exact Nat.mod_mod_of_dvd _ (Nat.pow_dvd_pow 2 (le_size width))

/-- A vector where one of width `width` is wanted: the same width is copied as it
is, another width is assigned. -/
def convert {other : Nat} (width : Nat) (x : Logic other) : Logic width :=
  if h : other = width then h ▸ x else assign width x

theorem toNat_convert {other : Nat} (x : Logic other) :
    (convert width x).toNat = if other = width then x.toNat else x.toNat % 2 ^ width := by
  unfold convert
  split_ifs with h
  · subst h
    rfl
  · exact toNat_assign x

/-! ## Conversion -/

/-- `to_uint64_constexpr`: the low eight bytes. -/
def toUInt64 (x : Logic width) : UInt64 :=
  UInt64.ofNat (natOfBytes (readBytes x.bytes 0 (min (size width) 8)))

theorem toNat_toUInt64 (x : Logic width) : x.toUInt64.toNat = x.toNat % 2 ^ 64 := by
  have hx := x.toNat_lt
  unfold toUInt64
  rw [UInt64.toNat_ofNat', natOfBytes_readBytes, Nat.mul_zero, Nat.pow_zero, Nat.div_one]
  change x.toNat % _ % _ = _
  rcases Nat.le_total (size width) 8 with hle | hle
  · rw [Nat.min_eq_left hle, Nat.mod_eq_of_lt hx]
  · rw [Nat.min_eq_right hle, Nat.mod_mod]

/-- `operator bool`. -/
def toBool (x : Logic width) : Bool := decide (x.toUInt64 ≠ 0)

/-- `operator++` and `operator--` go through `uint64_t`. -/
def increment (x : Logic width) : Logic width := assignUInt64 width (x.toUInt64 + 1)

def decrement (x : Logic width) : Logic width := assignUInt64 width (x.toUInt64 - 1)

/-! ## Comparison -/

/-- `operator==` with the same width. -/
def equal (x y : Logic width) : Bool := decide (x.bytes = y.bytes)

/-- `operator==` with another width: the common bytes agree and the others are
zero. -/
def equalOther {other : Nat} (x : Logic width) (y : Logic other) : Bool :=
  let common := min (size width) (size other)
  decide (readBytes x.bytes 0 common = readBytes y.bytes 0 common) &&
    ((x.bytes.drop common).all (· == 0) && (y.bytes.drop common).all (· == 0))

/-- The bytes below the blocks, from the top. -/
def lessBytes (a b : List UInt8) : Nat → Bool
  | 0 => false
  | i + 1 =>
      if a.getD i 0 < b.getD i 0 then true
      else if b.getD i 0 < a.getD i 0 then false
      else lessBytes a b i

/-- The blocks above the first `rem` bytes, from the top. -/
def lessBlocks (a b : List UInt8) (rem : Nat) : Nat → Bool
  | 0 => lessBytes a b rem
  | k + 1 =>
      let x := load64 a (rem + 8 * k)
      let y := load64 b (rem + 8 * k)
      if x < y then true else if y < x then false else lessBlocks a b rem k

/-- `operator<`. -/
def less (x y : Logic width) : Bool :=
  lessBlocks x.bytes y.bytes (size width % 8) (size width / 8)

end Logic

/-- Comparing the top digit decides, unless it is equal. -/
theorem mod_lt_mod_iff {p d x y : Nat} :
    x % 2 ^ (p + d) < y % 2 ^ (p + d) ↔
      x / 2 ^ p % 2 ^ d < y / 2 ^ p % 2 ^ d ∨
        (x / 2 ^ p % 2 ^ d = y / 2 ^ p % 2 ^ d ∧ x % 2 ^ p < y % 2 ^ p) := by
  have hx := Nat.mod_lt x (Nat.two_pow_pos p)
  have hy := Nat.mod_lt y (Nat.two_pow_pos p)
  rw [Nat.pow_add, Nat.mod_mul, Nat.mod_mul]
  generalize x / 2 ^ p % 2 ^ d = u
  generalize y / 2 ^ p % 2 ^ d = v
  rcases Nat.lt_trichotomy u v with hlt | rfl | hgt
  · have hmul : 2 ^ p * (u + 1) ≤ 2 ^ p * v := Nat.mul_le_mul_left _ hlt
    rw [Nat.mul_add] at hmul
    constructor
    · exact fun _ => .inl hlt
    · intro
      omega
  · simp
  · have hmul : 2 ^ p * (v + 1) ≤ 2 ^ p * u := Nat.mul_le_mul_left _ hgt
    rw [Nat.mul_add] at hmul
    constructor
    · intro
      omega
    · rintro (hlt | ⟨heq, -⟩) <;> omega

namespace Logic

variable {width : Nat}

theorem digit_test_iff {u v : Nat} {rest : Bool} :
    (if u < v then true else if v < u then false else rest) = true ↔
      u < v ∨ (u = v ∧ rest = true) := by
  rcases Nat.lt_trichotomy u v with hlt | rfl | hgt
  · simp [hlt]
  · simp
  · simp [hgt, Nat.lt_asymm hgt, Nat.ne_of_gt hgt]

theorem lessBytes_iff (a b : List UInt8) (n : Nat) :
    lessBytes a b n = true ↔ natOfBytes a % 2 ^ (8 * n) < natOfBytes b % 2 ^ (8 * n) := by
  induction n with
  | zero => simp [lessBytes, Nat.mod_one]
  | succ n ih =>
      rw [Nat.mul_succ, mod_lt_mod_iff, ← ih, lessBytes]
      have ha := toNat_getD a n
      have hb := toNat_getD b n
      simp only [UInt8.lt_iff_toNat_lt, ha, hb]
      exact digit_test_iff

theorem lessBlocks_iff (a b : List UInt8) (rem k : Nat) :
    lessBlocks a b rem k = true ↔
      natOfBytes a % 2 ^ (8 * (rem + 8 * k)) < natOfBytes b % 2 ^ (8 * (rem + 8 * k)) := by
  induction k with
  | zero => exact lessBytes_iff a b rem
  | succ k ih =>
      rw [show 8 * (rem + 8 * (k + 1)) = 8 * (rem + 8 * k) + 64 by omega, mod_lt_mod_iff, ← ih,
        lessBlocks]
      have ha := toNat_load64 a (rem + 8 * k)
      have hb := toNat_load64 b (rem + 8 * k)
      simp only [UInt64.lt_iff_toNat_lt, ha, hb]
      exact digit_test_iff

theorem less_iff (x y : Logic width) : x.less y = true ↔ x.toNat < y.toNat := by
  unfold less
  rw [lessBlocks_iff, show size width % 8 + 8 * (size width / 8) = size width by omega]
  have hx := x.toNat_lt
  have hy := y.toNat_lt
  change x.toNat % _ < y.toNat % _ ↔ _
  rw [Nat.mod_eq_of_lt hx, Nat.mod_eq_of_lt hy]

theorem equal_iff (x y : Logic width) : x.equal y = true ↔ x.toNat = y.toNat := by
  unfold equal
  rw [decide_eq_true_iff]
  exact ⟨fun h => congrArg natOfBytes h, fun h => congrArg Logic.bytes (toNat_inj h)⟩

theorem equalOther_iff {other : Nat} (x : Logic width) (y : Logic other) :
    x.equalOther y = true ↔ x.toNat = y.toNat := by
  unfold equalOther readBytes
  rw [Bool.and_eq_true, Bool.and_eq_true, decide_eq_true_iff, ← natOfBytes_eq_zero_iff,
    ← natOfBytes_eq_zero_iff, List.drop_zero, List.drop_zero, natOfBytes_drop, natOfBytes_drop]
  have hx := Nat.mod_add_div x.toNat (2 ^ (8 * min (size width) (size other)))
  have hy := Nat.mod_add_div y.toNat (2 ^ (8 * min (size width) (size other)))
  constructor
  · rintro ⟨hlow, hxhigh, hyhigh⟩
    have hmod := congrArg natOfBytes hlow
    rw [natOfBytes_take, natOfBytes_take] at hmod
    unfold toNat at *
    rw [hxhigh, Nat.mul_zero] at hx
    rw [hyhigh, Nat.mul_zero] at hy
    omega
  · intro h
    unfold toNat at h
    refine ⟨natOfBytes_inj ?_ ?_, ?_⟩
    · rw [List.length_take, List.length_take, x.length_eq, y.length_eq]
      omega
    · rw [natOfBytes_take, natOfBytes_take, h]
    · -- the shorter vector has nothing above the common bytes
      rw [h, and_self]
      rcases Nat.le_total (size width) (size other) with hle | hle
      · rw [Nat.min_eq_left hle, ← h]
        exact Nat.div_eq_of_lt x.toNat_lt
      · rw [Nat.min_eq_right hle]
        exact Nat.div_eq_of_lt y.toNat_lt

end Logic

end CppHdl.Words
