import Mathlib.Data.BitVec
import Mathlib.Tactic.Ring

/-!
# Comparing circular numbers

Numbers that only grow may be kept modulo a power of two, as long as those that are compared
lie within half the modulus of each other: the sign of the difference then orders them.
-/

namespace CppHdl.Circular

variable {w : Nat}

theorem ofNat_sub (n x y : Nat) :
    BitVec.ofNat n x - BitVec.ofNat n y = BitVec.ofInt n ((x : Int) - y) := by
  rw [Int.sub_eq_add_neg, BitVec.ofInt_add, BitVec.ofInt_neg, BitVec.ofInt_natCast,
    BitVec.ofInt_natCast, BitVec.sub_eq_add_neg]

/-- The sign of the difference is the order, within half the modulus. -/
theorem msb_sub {x y : Nat} (hxy : x < y + 2 ^ w) (hyx : y ≤ x + 2 ^ w) :
    (BitVec.ofNat (w + 1) x - BitVec.ofNat (w + 1) y).msb = decide (x < y) := by
  have hpow : ((2 ^ w : Nat) : Int) = 2 ^ w := by push_cast; rfl
  have htoInt : (BitVec.ofInt (w + 1) ((x : Int) - y)).toInt = x - y :=
    BitVec.toInt_ofInt_eq_self (Nat.succ_pos w) (by change -2 ^ w ≤ _; omega) (by change _ < (2 : Int) ^ w; omega)
  rw [ofNat_sub, BitVec.msb_eq_toInt, htoInt]
  simp

/-- The sign of a difference from the top bits and an unsigned comparison of the others. -/
theorem msb_sub_eq (a b : BitVec (w + 1)) :
    (a - b).msb = (a.msb ^^ b.msb ^^ decide (a.toNat % 2 ^ w < b.toNat % 2 ^ w)) := by
  have hpow : 2 ^ (w + 1) = 2 * 2 ^ w := Nat.pow_succ'
  have ha := a.isLt
  have hb := b.isLt
  have hdiff : (a - b).toNat = (2 ^ (w + 1) - b.toNat + a.toNat) % 2 ^ (w + 1) := BitVec.toNat_sub a b
  have hmod : ∀ x : BitVec (w + 1), x.toNat % 2 ^ w = if x.msb then x.toNat - 2 ^ w else x.toNat := by
    intro x
    have hx := x.isLt
    rw [BitVec.msb_eq_decide, Nat.add_sub_cancel]
    by_cases hge : 2 ^ w ≤ x.toNat
    · rw [decide_eq_true hge, if_pos rfl, Nat.mod_eq_sub_mod hge, Nat.mod_eq_of_lt (by omega)]
    · rw [decide_eq_false hge, if_neg (by decide), Nat.mod_eq_of_lt (by omega)]
  rw [hmod a, hmod b, BitVec.msb_eq_decide (a - b), hdiff, Nat.add_sub_cancel]
  have hwrap : (2 ^ (w + 1) - b.toNat + a.toNat) % 2 ^ (w + 1) =
      if b.toNat ≤ a.toNat then a.toNat - b.toNat else 2 ^ (w + 1) - b.toNat + a.toNat := by
    by_cases hle : b.toNat ≤ a.toNat
    · rw [if_pos hle, show 2 ^ (w + 1) - b.toNat + a.toNat = a.toNat - b.toNat + 2 ^ (w + 1) by omega,
        Nat.add_mod_right, Nat.mod_eq_of_lt (show a.toNat - b.toNat < 2 ^ (w + 1) by omega)]
    · rw [if_neg hle]
      exact Nat.mod_eq_of_lt (by omega)
  rw [hwrap, BitVec.msb_eq_decide a, BitVec.msb_eq_decide b, Nat.add_sub_cancel]
  clear hdiff hmod hwrap
  generalize a.toNat = x at *
  generalize b.toNat = y at *
  generalize 2 ^ (w + 1) = top at *
  generalize 2 ^ w = half at *
  subst hpow
  rw [Bool.eq_iff_iff]
  by_cases hA : half ≤ x <;> by_cases hB : half ≤ y <;> by_cases hle : y ≤ x <;>
    simp [hA, hB, hle] <;> omega

/-- Numbers are compared digit by digit from the low end. -/
def lessDigits (k : Nat) (x y : Nat) : Nat → Bool
  | 0 => false
  | n + 1 =>
      let a := x / 2 ^ (n * k) % 2 ^ k
      let b := y / 2 ^ (n * k) % 2 ^ k
      decide (a < b) || decide (a = b) && lessDigits k x y n

theorem lessDigits_eq (k x y n : Nat) :
    lessDigits k x y n = decide (x % 2 ^ (n * k) < y % 2 ^ (n * k)) := by
  induction n with
  | zero => simp [lessDigits, Nat.mod_one]
  | succ n ih =>
      have hsplit : ∀ z : Nat, z % 2 ^ ((n + 1) * k) =
          z % 2 ^ (n * k) + 2 ^ (n * k) * (z / 2 ^ (n * k) % 2 ^ k) := by
        intro z
        rw [Nat.succ_mul, Nat.pow_add, Nat.mod_mul]
      rw [lessDigits, ih, hsplit x, hsplit y]
      have hx := Nat.mod_lt x (Nat.two_pow_pos (n * k))
      have hy := Nat.mod_lt y (Nat.two_pow_pos (n * k))
      generalize x / 2 ^ (n * k) % 2 ^ k = a
      generalize y / 2 ^ (n * k) % 2 ^ k = b
      generalize x % 2 ^ (n * k) = lowX at *
      generalize y % 2 ^ (n * k) = lowY at *
      rcases Nat.lt_trichotomy a b with hlt | rfl | hgt
      · have hstep : 2 ^ (n * k) * (a + 1) ≤ 2 ^ (n * k) * b := Nat.mul_le_mul_left _ hlt
        rw [Nat.mul_succ] at hstep
        have hless : lowX + 2 ^ (n * k) * a < lowY + 2 ^ (n * k) * b := by omega
        simp [hlt, hless]
      · simp
      · have hstep : 2 ^ (n * k) * (b + 1) ≤ 2 ^ (n * k) * a := Nat.mul_le_mul_left _ hgt
        rw [Nat.mul_succ] at hstep
        have hless : ¬ lowX + 2 ^ (n * k) * a < lowY + 2 ^ (n * k) * b := by omega
        have hne : a ≠ b := by omega
        simp [Nat.not_lt_of_gt hgt, hne, hless]

end CppHdl.Circular
