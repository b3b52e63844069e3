import Mathlib.Data.Nat.ModEq
import Mathlib.Tactic.Linarith
import Mathlib.Tactic.Ring

/-!
# Digit-serial addition

Two numbers are added, or one is taken from the other, digit by digit from the
low end, with a carry between the digits. Digits may have different widths.
`Carried` is what holds of the digits done so far; subtraction is the same
relation read the other way round.
-/

namespace CppHdl

/-- On the low `p` bits, `x + y` is `z` and a carry `c` out of them. -/
def Carried (p x y z c : Nat) : Prop := x % 2 ^ p + y % 2 ^ p = z % 2 ^ p + 2 ^ p * c

theorem Carried.zero (x y z : Nat) : Carried 0 x y z 0 := by
  unfold Carried
  rw [Nat.pow_zero, Nat.mod_one, Nat.mod_one, Nat.mod_one]

def digit (p d x : Nat) : Nat := x / 2 ^ p % 2 ^ d

theorem mod_two_pow_digit (x p d : Nat) : x % 2 ^ (p + d) = x % 2 ^ p + 2 ^ p * digit p d x := by
  rw [Nat.pow_add, Nat.mod_mul, digit]

theorem Carried.write {p d x y z z' v c c' : Nat} (h : Carried p x y z c)
    (hz : z' % 2 ^ (p + d) = z % 2 ^ p + 2 ^ p * v)
    (hdigit : digit p d x + digit p d y + c = v + 2 ^ d * c') :
    Carried (p + d) x y z' c' := by
  unfold Carried at *
  have hmul := congrArg (2 ^ p * ·) hdigit
  simp only [Nat.mul_add] at hmul
  rw [hz, mod_two_pow_digit x, mod_two_pow_digit y, Nat.pow_add, Nat.mul_assoc]
  omega

/-- Write the next digit `v` of the difference of `z` and `y`. -/
theorem Carried.writeDiff {p d x x' y z v c c' : Nat} (h : Carried p x y z c)
    (hx : x' % 2 ^ (p + d) = x % 2 ^ p + 2 ^ p * v)
    (hdigit : v + digit p d y + c = digit p d z + 2 ^ d * c') :
    Carried (p + d) x' y z c' := by
  unfold Carried at *
  have hmul := congrArg (2 ^ p * ·) hdigit
  simp only [Nat.mul_add] at hmul
  rw [hx, mod_two_pow_digit y, mod_two_pow_digit z, Nat.pow_add, Nat.mul_assoc]
  omega

/-- The sum is right modulo any width that is done. -/
theorem Carried.mod {p x y z c w : Nat} (h : Carried p x y z c) (hw : w ≤ p) :
    z % 2 ^ w = (x + y) % 2 ^ w := by
  have hdvd : 2 ^ w ∣ 2 ^ p := Nat.pow_dvd_pow 2 hw
  have hx := (Nat.mod_modEq x (2 ^ p)).of_dvd hdvd
  have hy := (Nat.mod_modEq y (2 ^ p)).of_dvd hdvd
  have hz := (Nat.mod_modEq z (2 ^ p)).of_dvd hdvd
  have hcarry : z % 2 ^ p + 2 ^ p * c ≡ z % 2 ^ p + 0 [MOD 2 ^ w] :=
    Nat.ModEq.add_left _ (Nat.modEq_zero_iff_dvd.mpr (Nat.dvd_mul_right_of_dvd hdvd c))
  exact hz.symm.trans (hcarry.symm.trans ((h ▸ hx.add hy : z % 2 ^ p + 2 ^ p * c ≡ _ [MOD _])))

theorem Carried.le_one {p x y z c : Nat} (h : Carried p x y z c) : c ≤ 1 := by
  have hx := Nat.mod_lt x (Nat.two_pow_pos p)
  have hy := Nat.mod_lt y (Nat.two_pow_pos p)
  unfold Carried at h
  by_contra hc
  have : 2 ^ p * 2 ≤ 2 ^ p * c := Nat.mul_le_mul_left _ (by omega)
  omega

theorem Carried.carry_iff {p x y z c : Nat} (h : Carried p x y z c) :
    c = 1 ↔ 2 ^ p ≤ x % 2 ^ p + y % 2 ^ p := by
  have hle := h.le_one
  have hz := Nat.mod_lt z (Nat.two_pow_pos p)
  unfold Carried at h
  constructor
  · rintro rfl
    omega
  · intro hge
    by_contra hc
    obtain rfl : c = 0 := by omega
    omega

/-- The borrow of a subtraction: `z` less `y` is `x`. -/
theorem Carried.borrow_iff {p x y z c : Nat} (h : Carried p x y z c) :
    c = 1 ↔ z % 2 ^ p < y % 2 ^ p := by
  have hle := h.le_one
  have hx := Nat.mod_lt x (Nat.two_pow_pos p)
  unfold Carried at h
  constructor
  · rintro rfl
    omega
  · intro hlt
    by_contra hc
    obtain rfl : c = 0 := by omega
    omega

end CppHdl
