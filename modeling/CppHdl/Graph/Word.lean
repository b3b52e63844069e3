import CppHdl.Graph.Value

/-!
# Signed words

What `signedNumber` and the arithmetic shift compute, in terms of bit lists.
A list is sign-extended beyond every bit a shift looks at, so that the
arithmetic shift becomes a division of naturals.
-/

namespace CppHdl

/-- The most significant bit; an empty list counts as nonnegative. -/
def signBit (l : List Bool) : Bool := l.getLastD false

/-- The integer a bit list denotes in two's complement. -/
def intOfBits (l : List Bool) : Int :=
  (natOfBits l : Int) - if signBit l then 2 ^ l.length else 0

/-- A bit list continued by copies of its sign bit. -/
def signExtend (l : List Bool) (width : Nat) : List Bool :=
  l ++ List.replicate (width - l.length) (signBit l)

theorem xor_two_pow_of_lt {x k : Nat} (h : x < 2 ^ k) : x ^^^ 2 ^ k = 2 ^ k + x := by
  apply Nat.eq_of_testBit_eq
  intro j
  rw [Nat.testBit_xor, Nat.testBit_two_pow]
  by_cases hj : k = j
  · subst hj
    rw [Nat.testBit_two_pow_add_eq]
    simp
  · rcases Nat.lt_or_gt_of_ne hj with hlt | hgt
    · have hx : x.testBit j = false :=
        Nat.testBit_lt_two_pow (Nat.lt_of_lt_of_le h (Nat.pow_le_pow_right (by omega) hlt.le))
      have hsum : (2 ^ k + x).testBit j = false := by
        apply Nat.testBit_lt_two_pow
        have : 2 ^ (k + 1) ≤ 2 ^ j := Nat.pow_le_pow_right (by omega) hlt
        rw [Nat.pow_succ] at this
        omega
      simp [hx, hsum, hj]
    · rw [Nat.testBit_two_pow_add_gt hgt]
      simp [hj]

theorem xor_two_pow_of_ge {x k : Nat} (h : 2 ^ k ≤ x) (h' : x < 2 ^ (k + 1)) :
    x ^^^ 2 ^ k = x - 2 ^ k := by
  have hlt : x - 2 ^ k < 2 ^ k := by rw [Nat.pow_succ] at h'; omega
  have hx : x = (x - 2 ^ k) ^^^ 2 ^ k := by rw [xor_two_pow_of_lt hlt]; omega
  conv_lhs => rw [hx]
  rw [Nat.xor_assoc, Nat.xor_self, Nat.xor_zero]

/-- `signedNumber` reads the sign at the top of the given width. -/
theorem signedNumber_eq {x n : Nat} (hn : 0 < n) (hn' : n ≤ 64) (hx : x < 2 ^ n) :
    signedNumber x n = (x : Int) - if 2 ^ (n - 1) ≤ x then 2 ^ n else 0 := by
  unfold signedNumber
  by_cases h64 : n = 64
  · subst h64
    simp only [if_true, toInt64]
    split_ifs <;> omega
  · rw [if_neg h64]
    have hpow : 2 ^ n = 2 * 2 ^ (n - 1) := by
      rw [← Nat.pow_succ']
      congr 1
      omega
    have hsmall : 2 ^ (n - 1) ≤ 2 ^ 62 := Nat.pow_le_pow_right (by omega) (by omega)
    have hcast : ((2 ^ n : Nat) : Int) = 2 ^ n := by push_cast; rfl
    simp only
    by_cases hge : 2 ^ (n - 1) ≤ x
    · rw [if_pos hge, xor_two_pow_of_ge hge (by rw [← Nat.pow_succ'] at hpow; omega)]
      rw [← hcast]
      unfold toInt64
      rw [Nat.mod_eq_of_lt (by omega)]
      split_ifs <;> omega
    · rw [if_neg hge, xor_two_pow_of_lt (by omega)]
      unfold toInt64
      rw [show 2 ^ (n - 1) + x + 2 ^ 64 - 2 ^ (n - 1) = x + 2 ^ 64 by omega,
        Nat.add_mod_right, Nat.mod_eq_of_lt (by omega)]
      split_ifs <;> omega

theorem two_pow_le_natOfBits_iff {l : List Bool} (h : l ≠ []) :
    2 ^ (l.length - 1) ≤ natOfBits l ↔ signBit l = true := by
  obtain ⟨init, b, rfl⟩ := List.eq_nil_or_concat l |>.resolve_left h
  have hlt := natOfBits_lt init
  rw [List.concat_eq_append, natOfBits_append]
  cases b with
  | false => simp [signBit, hlt]
  | true => simp [signBit]

/-- On machine words, `signedNumber` is two's complement. -/
theorem signedNumber_natOfBits {l : List Bool} (hl : l.length ≤ 64) :
    signedNumber (natOfBits l) l.length = intOfBits l := by
  by_cases h : l = []
  · subst h; decide
  · rw [signedNumber_eq (List.length_pos_iff.mpr h) hl (natOfBits_lt l)]
    unfold intOfBits
    simp only [two_pow_le_natOfBits_iff h]

theorem natOfBits_signExtend {l : List Bool} {width : Nat} (h : l.length ≤ width) :
    (natOfBits (signExtend l width) : Int) =
      intOfBits l + if signBit l then 2 ^ width else 0 := by
  unfold signExtend intOfBits
  rw [natOfBits_append]
  cases signBit l with
  | false => simp
  | true =>
      rw [natOfBits_replicate_true, Nat.mul_sub, ← Nat.pow_add, Nat.add_sub_cancel' h]
      have := Nat.pow_le_pow_right (n := 2) (by omega) h
      push_cast [Nat.cast_sub (show 2 ^ l.length * 1 ≤ 2 ^ width by omega)]
      simp only [if_true]
      ring

/-- An arithmetic right shift is a division of a long enough sign extension. -/
theorem intOfBits_ediv_emod {l : List Bool} {k w n : Nat} (hl : l.length ≤ n) (hn : k + w ≤ n) :
    intOfBits l / 2 ^ k % 2 ^ w = (natOfBits (signExtend l n) / 2 ^ k % 2 ^ w : Nat) := by
  have hext := natOfBits_signExtend hl
  have hpos : (2 : Int) ^ k ≠ 0 := pow_ne_zero k (by omega)
  have hsplit : (2 : Int) ^ n = 2 ^ (n - k - w) * 2 ^ w * 2 ^ k := by
    rw [← pow_add, ← pow_add]; congr 1; omega
  simp only [Int.natCast_emod, Int.natCast_ediv, Int.natCast_pow, Nat.cast_ofNat]
  rw [hext]
  cases signBit l with
  | false => rw [if_neg (by simp), add_zero]
  | true =>
      rw [if_pos rfl, hsplit, Int.add_mul_ediv_right _ _ hpos, Int.add_mul_emod_self_right]

theorem getD_signExtend (l : List Bool) (width i : Nat) (hi : i < width) :
    (signExtend l width).getD i false = if i < l.length then l.getD i false else signBit l := by
  unfold signExtend
  simp only [List.getD_eq_getElem?_getD, List.getElem?_append]
  split_ifs with h
  · rfl
  · rw [List.getElem?_replicate, if_pos (by omega)]
    rfl

/-- Lane `i` of an arithmetic right shift. -/
theorem testBit_ediv (l : List Bool) (k : Nat) {w i : Nat} (hi : i < w) :
    (intOfBits l / 2 ^ k % 2 ^ w).toNat.testBit i =
      if k + i < l.length then l.getD (k + i) false else signBit l := by
  rw [intOfBits_ediv_emod (n := l.length + k + w) (by omega) (by omega), Int.toNat_natCast,
    Nat.testBit_mod_two_pow, Nat.testBit_div_two_pow, testBit_natOfBits,
    getD_signExtend _ _ _ (by omega), Nat.add_comm i]
  simp only [hi, decide_true, Bool.true_and]

/-- The same of the word `calculate` computes, which shifts by 63 at most. -/
theorem testBit_sar {l : List Bool} (hl : l.length ≤ 64) (shift i : Nat) (hi : i < 64) :
    (toUInt64 (intOfBits l >>> min shift 63)).testBit i =
      if shift + i < l.length then l.getD (shift + i) false else signBit l := by
  unfold toUInt64
  rw [Int.shiftRight_eq_div_pow, Int.natCast_pow, Nat.cast_ofNat, testBit_ediv l _ hi]
  by_cases hs : shift ≤ 63
  · rw [Nat.min_eq_left hs]
  · rw [Nat.min_eq_right (by omega), if_neg (by omega : ¬ shift + i < l.length)]
    split_ifs with h
    · -- only the sign bit of a full word is left in range
      have hlen : l.length = 64 := by omega
      have hi0 : i = 0 := by omega
      subst hi0
      unfold signBit
      rw [List.getD_eq_getElem?_getD, List.getLastD_eq_getLast?, List.getLast?_eq_getElem?, hlen]
    · rfl

end CppHdl
