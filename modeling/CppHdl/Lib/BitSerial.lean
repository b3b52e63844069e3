import Mathlib.Data.Nat.Bitwise

/-!
# Multiplying and dividing bit by bit

A multiplier that adds a shifted multiplicand for every bit of the multiplier, and a
divider that brings down one bit of the dividend at a time and restores the remainder
where the divisor does not fit.
-/

namespace CppHdl.BitSerial

/-- The partial product takes in one more bit. -/
theorem mul_mod_succ (m n k : Nat) :
    m * (n % 2 ^ (k + 1)) = m * (n % 2 ^ k) + if n.testBit k then m * 2 ^ k else 0 := by
  rw [Nat.mod_pow_succ, ← Nat.toNat_testBit, Nat.mul_add]
  cases n.testBit k
  · simp
  · simp

/-- `q` and `r` are quotient and remainder of `n`. -/
structure Divided (d n q r : Nat) : Prop where
  eq : n = d * q + r
  lt : r < d

theorem Divided.div {d n q r : Nat} (h : Divided d n q r) : q = n / d := by
  have hdiv : (r + d * q) / d = q := by
    rw [Nat.add_mul_div_left _ _ (by have := h.lt; omega), Nat.div_eq_of_lt h.lt, Nat.zero_add]
  rw [h.eq, Nat.add_comm, hdiv]

theorem Divided.mod {d n q r : Nat} (h : Divided d n q r) : r = n % d := by
  rw [h.eq, Nat.mul_add_mod, Nat.mod_eq_of_lt h.lt]

theorem Divided.zero {d : Nat} (h : 0 < d) : Divided d 0 0 0 := ⟨by simp, h⟩

/-- The divisor fits into the remainder with the next bit. -/
theorem Divided.subtract {d n q r bit : Nat} (h : Divided d n q r) (hbit : bit < 2)
    (hfits : d ≤ 2 * r + bit) : Divided d (2 * n + bit) (2 * q + 1) (2 * r + bit - d) where
  eq := by
    have hprod : d * (2 * q + 1) = 2 * (d * q) + d := by rw [Nat.mul_add, Nat.mul_left_comm, Nat.mul_one]
    rw [h.eq, hprod]
    omega
  lt := by have := h.lt; omega

theorem Divided.restore {d n q r bit : Nat} (h : Divided d n q r) (hfits : 2 * r + bit < d) :
    Divided d (2 * n + bit) (2 * q) (2 * r + bit) where
  eq := by rw [h.eq, Nat.mul_left_comm]; omega
  lt := hfits

/-- The leading `k` of `w` bits and the next one. -/
theorem lead_succ (n : Nat) {w k : Nat} (hk : k < w) :
    n / 2 ^ (w - (k + 1)) = 2 * (n / 2 ^ (w - k)) + n / 2 ^ (w - (k + 1)) % 2 := by
  have hexp : 2 ^ (w - k) = 2 ^ (w - (k + 1)) * 2 := by rw [← Nat.pow_succ]; congr 1; omega
  rw [hexp, ← Nat.div_div_eq_div_mul]
  omega

/-- The next bit stands at the top of the shifted number. -/
theorem shifted_top (n : Nat) {w k : Nat} (hk : k < w) :
    n * 2 ^ k % 2 ^ w / 2 ^ (w - 1) = n / 2 ^ (w - (k + 1)) % 2 := by
  have hw : 2 ^ w = 2 ^ (w - (k + 1)) * 2 * 2 ^ k := by
    rw [← Nat.pow_succ, ← Nat.pow_add]
    congr 1
    omega
  have hw' : 2 ^ (w - 1) = 2 ^ (w - (k + 1)) * 2 ^ k := by
    rw [← Nat.pow_add]
    congr 1
    omega
  rw [hw, hw', Nat.mul_mod_mul_right, Nat.mul_div_mul_right _ _ (Nat.two_pow_pos k),
    Nat.mod_mul_right_div_self]

theorem lead_lt {n w k : Nat} (hn : n < 2 ^ w) (hk : k ≤ w) : n / 2 ^ (w - k) < 2 ^ k := by
  rw [Nat.div_lt_iff_lt_mul (Nat.two_pow_pos _), ← Nat.pow_add]
  rwa [show k + (w - k) = w by omega]

/-- The quotient so far is not above the bits seen so far. -/
theorem Divided.quotient_le {d n q r : Nat} (h : Divided d n q r) : q ≤ n := by
  rw [h.div]
  exact Nat.div_le_self n d

/-! ## Clocks until the result -/

/-- Clocks until a unit that needs `n` for a result has the one it is asked for. What it was busy
with for others ends first. -/
def clocksLeft (n : Nat) (busy done own : Bool) (count : Nat) : Nat :=
  if busy then (if own then n else 2 * n + 1) - count else if done && own then 0 else n + 1

theorem done_of_clocksLeft {n : Nat} {busy done own : Bool} {count : Nat}
    (h : clocksLeft n busy done own count = 0) (hcount : busy = true → count < n) :
    (done && own) = true := by
  unfold clocksLeft at h
  split_ifs at h with hbusy _ hready
  · have := hcount hbusy
    omega
  · have := hcount hbusy
    omega
  · exact hready

end CppHdl.BitSerial
