import CppHdl.Words.Assign

/-!
# Increment and decrement

`++` and `--` convert the vector to `uint64_t`, count there and assign the result
back. Up to 64 bits that is counting modulo `2 ^ WIDTH`. A wider vector loses its
high words, so the result is right only where those words are zero before and
after, or where they wrap together with the low one.
-/

namespace CppHdl.Words

namespace Logic

variable {width : Nat}

/-- What an operator with a side effect leaves in the object and what it returns. -/
structure Effect (width : Nat) where
  object : Logic width
  result : Logic width

/-- `operator++()`. -/
def preIncrement (x : Logic width) : Effect width := ⟨x.increment, x.increment⟩

/-- `operator++(int)`. -/
def postIncrement (x : Logic width) : Effect width :=
  let tmp := x
  ⟨x.preIncrement.object, tmp⟩

/-- `operator--()`. -/
def preDecrement (x : Logic width) : Effect width := ⟨x.decrement, x.decrement⟩

/-- `operator--(int)`. -/
def postDecrement (x : Logic width) : Effect width :=
  let tmp := x
  ⟨x.preDecrement.object, tmp⟩

/-- The object counts to `next`; the prefix form returns the new value and the
postfix form the old one. -/
structure CountsTo (x : Logic width) (next : Nat) (pre post : Effect width) : Prop where
  object_pre : pre.object.toNat = next
  object_post : post.object.toNat = next
  result_pre : pre.result.toNat = next
  result_post : post.result = x

theorem toNat_increment (x : Logic width) :
    x.increment.toNat = (x.toNat + 1) % 2 ^ 64 % 2 ^ width := by
  unfold increment
  rw [toNat_assignUInt64, UInt64.toNat_add, toNat_toUInt64]
  change (x.toNat % 2 ^ 64 + 1) % 2 ^ 64 % 2 ^ width = _
  rw [Nat.mod_add_mod]

theorem toNat_decrement (x : Logic width) :
    x.decrement.toNat = (x.toNat + (2 ^ 64 - 1)) % 2 ^ 64 % 2 ^ width := by
  unfold decrement
  rw [toNat_assignUInt64, UInt64.toNat_sub, toNat_toUInt64]
  change (2 ^ 64 - 1 + x.toNat % 2 ^ 64) % 2 ^ 64 % 2 ^ width = _
  rw [Nat.add_mod_mod, Nat.add_comm]

/-- Up to 64 bits the machine word covers the vector. -/
theorem mod_mod_word (h : width ≤ 64) (n : Nat) : n % 2 ^ 64 % 2 ^ width = n % 2 ^ width :=
  Nat.mod_mod_of_dvd _ (Nat.pow_dvd_pow 2 h)

/-- Above 64 bits the low word of the storage is the low word of the vector, and
the vector has room for it. -/
theorem wide_word (h : 64 < width) (x : Logic width) :
    x.toNat % 2 ^ 64 = x.value % 2 ^ 64 ∧ ∃ k, 2 ≤ k ∧ 2 ^ width = 2 ^ 64 * k := by
  refine ⟨(x.value_mod (Nat.le_of_lt h)).symm, 2 ^ (width - 64), ?_, ?_⟩
  · calc 2 = 2 ^ 1 := rfl
      _ ≤ 2 ^ (width - 64) := Nat.pow_le_pow_right (by decide) (by omega)
  · rw [← Nat.pow_add]
    congr 1
    omega

theorem increment_iff (x : Logic width) :
    x.increment.toNat = (x.value + 1) % 2 ^ width ↔
      width ≤ 64 ∨ x.value + 1 < 2 ^ 64 ∨ x.value + 1 = 2 ^ width := by
  rw [toNat_increment]
  rcases Nat.lt_or_ge 64 width with hwide | hword
  · obtain ⟨hlow, k, hk, hpow⟩ := wide_word hwide x
    have hlt : x.value < 2 ^ width := Nat.mod_lt _ (Nat.two_pow_pos width)
    have hfits : (x.toNat + 1) % 2 ^ 64 < 2 ^ width := by
      have := Nat.mod_lt (x.toNat + 1) (Nat.two_pow_pos 64)
      omega
    rw [Nat.mod_eq_of_lt hfits, or_iff_right (by omega)]
    rcases Nat.lt_or_ge (x.value + 1) (2 ^ width) with hinside | hwraps
    · rw [Nat.mod_eq_of_lt hinside]
      omega
    · obtain heq : x.value + 1 = 2 ^ width := by omega
      rw [heq, Nat.mod_self]
      exact iff_of_true (by omega) (.inr rfl)
  · rw [mod_mod_word hword]
    refine iff_of_true ?_ (.inl hword)
    unfold value
    rw [Nat.mod_add_mod]

theorem decrement_iff (x : Logic width) :
    x.decrement.toNat = (x.value + (2 ^ width - 1)) % 2 ^ width ↔
      width ≤ 64 ∨ (1 ≤ x.value ∧ x.value ≤ 2 ^ 64) := by
  rw [toNat_decrement]
  have hpos := Nat.two_pow_pos width
  rcases Nat.lt_or_ge 64 width with hwide | hword
  · obtain ⟨hlow, k, hk, hpow⟩ := wide_word hwide x
    have hlt : x.value < 2 ^ width := Nat.mod_lt _ hpos
    rw [show (2 : Nat) ^ 64 - 1 = 18446744073709551615 from rfl, or_iff_right (by omega)]
    generalize 2 ^ width = modulus at *
    have hfits : (x.toNat + 18446744073709551615) % 2 ^ 64 < modulus := by
      have := Nat.mod_lt (x.toNat + 18446744073709551615) (Nat.two_pow_pos 64)
      omega
    rw [Nat.mod_eq_of_lt hfits]
    rcases Nat.eq_zero_or_pos x.value with hzero | hsome
    · rw [hzero, Nat.zero_add, Nat.mod_eq_of_lt (Nat.sub_lt hpos Nat.one_pos)]
      omega
    · rw [show x.value + (modulus - 1) = x.value - 1 + modulus by omega,
        Nat.add_mod_right, @Nat.mod_eq_of_lt (x.value - 1) modulus (by omega)]
      omega
  · rw [mod_mod_word hword]
    refine iff_of_true ?_ (.inl hword)
    obtain ⟨k, hk⟩ := Nat.pow_dvd_pow 2 hword
    have hkpos : 0 < k := Nat.pos_of_ne_zero fun h => by rw [h] at hk; omega
    -- one word less one is a multiple of the vector's modulus less one
    have hword : 2 ^ 64 - 1 = 2 ^ width * (k - 1) + (2 ^ width - 1) := by
      have : 2 ^ width * k = 2 ^ width * (k - 1) + 2 ^ width := by
        rw [← Nat.mul_succ, Nat.succ_eq_add_one, Nat.sub_add_cancel hkpos]
      omega
    unfold value
    rw [Nat.mod_add_mod, hword, show x.toNat + (2 ^ width * (k - 1) + (2 ^ width - 1)) =
      x.toNat + (2 ^ width - 1) + 2 ^ width * (k - 1) by omega, Nat.add_mul_mod_self_left]

/-- Where the object counts right, so do all returned values. -/
theorem countsTo_iff {x y : Logic width} {next : Nat} :
    CountsTo x next ⟨y, y⟩ ⟨y, x⟩ ↔ y.toNat = next :=
  ⟨fun h => h.object_pre, fun h => ⟨h, h, h, rfl⟩⟩

/-- Increment and decrement count modulo `2 ^ WIDTH` exactly where the vector fits
a machine word, or the count stays in the low word or wraps the whole vector. -/
theorem counts_exactly (x : Logic width) :
    (CountsTo x ((x.value + 1) % 2 ^ width) x.preIncrement x.postIncrement ↔
        width ≤ 64 ∨ x.value + 1 < 2 ^ 64 ∨ x.value + 1 = 2 ^ width) ∧
      (CountsTo x ((x.value + (2 ^ width - 1)) % 2 ^ width) x.preDecrement x.postDecrement ↔
        width ≤ 64 ∨ (1 ≤ x.value ∧ x.value ≤ 2 ^ 64)) :=
  ⟨countsTo_iff.trans (increment_iff x), countsTo_iff.trans (decrement_iff x)⟩

/-- `2 ^ 64 - 1` in 65 bits is incremented to zero and `2 ^ 64 + 1` decremented to
zero as well. -/
theorem counting_drops_high_word :
    (¬ CountsTo (ofNat 65 (2 ^ 64 - 1)) (2 ^ 64) (preIncrement (ofNat 65 (2 ^ 64 - 1)))
        (postIncrement (ofNat 65 (2 ^ 64 - 1)))) ∧
      (preIncrement (ofNat 65 (2 ^ 64 - 1))).object.toNat = 0 ∧
      (preDecrement (ofNat 65 (2 ^ 64 + 1))).object.toNat = 0 := by
  have hzero : (preIncrement (ofNat 65 (2 ^ 64 - 1))).object.toNat = 0 := by decide +kernel
  refine ⟨fun h => ?_, hzero, by decide +kernel⟩
  have := h.object_pre
  rw [hzero] at this
  omega

end Logic

end CppHdl.Words
