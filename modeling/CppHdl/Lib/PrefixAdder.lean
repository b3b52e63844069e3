import Mathlib.Data.BitVec
import Mathlib.Data.Nat.Bitwise

/-!
# Parallel-prefix and carry-save addition

A parallel-prefix adder knows for every bit whether a group of bits that ends there makes a
carry or passes one on, and doubles the groups until they reach bit zero. A carry-save stage
turns three summands into two.
-/

namespace CppHdl.PrefixAdder

variable {w : Nat}

section

variable (x y : BitVec w)

/-- The `n` bits below and at `i` pass a carry on. -/
def Propagates (n i : Nat) : Prop := n ≤ i + 1 ∧ ∀ j < n, (x ^^^ y).getLsbD (i - j) = true

/-- One of the `n` bits below and at `i` makes a carry, and those above it pass it on. -/
def Generates (n i : Nat) : Prop :=
  ∃ k < n, k ≤ i ∧ (x &&& y).getLsbD (i - k) = true ∧ ∀ j < k, (x ^^^ y).getLsbD (i - j) = true

end

variable {x y : BitVec w} {m n i : Nat}

theorem propagates_add : Propagates x y (m + n) i ↔
    Propagates x y m i ∧ (m ≤ i ∨ n = 0) ∧ (n = 0 ∨ Propagates x y n (i - m)) := by
  constructor
  · rintro ⟨hle, hall⟩
    refine ⟨⟨by omega, fun j hj => hall j (by omega)⟩, by omega, ?_⟩
    by_cases hn : n = 0
    · exact .inl hn
    · refine .inr ⟨by omega, fun j hj => ?_⟩
      rw [Nat.sub_sub]
      exact hall (m + j) (by omega)
  · rintro ⟨⟨hm, hlow⟩, hle, hn⟩
    refine ⟨?_, fun j hj => ?_⟩
    · rcases hn with rfl | ⟨hn, _⟩ <;> omega
    · by_cases hjm : j < m
      · exact hlow j hjm
      · rcases hn with rfl | ⟨_, hhigh⟩
        · omega
        · have := hhigh (j - m) (by omega)
          rwa [Nat.sub_sub, show m + (j - m) = j by omega] at this

theorem generates_add : Generates x y (m + n) i ↔
    Generates x y m i ∨ m ≤ i ∧ Propagates x y m i ∧ Generates x y n (i - m) := by
  constructor
  · rintro ⟨k, hk, hki, hbit, hall⟩
    by_cases hkm : k < m
    · exact .inl ⟨k, hkm, hki, hbit, hall⟩
    · refine .inr ⟨by omega, ⟨by omega, fun j hj => hall j (by omega)⟩, k - m, by omega, by omega, ?_, ?_⟩
      · rwa [Nat.sub_sub, show m + (k - m) = k by omega]
      · intro j hj
        rw [Nat.sub_sub]
        exact hall (m + j) (by omega)
  · rintro (⟨k, hk, hki, hbit, hall⟩ | ⟨hmi, ⟨hm, hlow⟩, k, hk, hki, hbit, hall⟩)
    · exact ⟨k, by omega, hki, hbit, hall⟩
    · refine ⟨m + k, by omega, by omega, by rwa [← Nat.sub_sub], fun j hj => ?_⟩
      by_cases hjm : j < m
      · exact hlow j hjm
      · have := hall (j - m) (by omega)
        rwa [Nat.sub_sub, show m + (j - m) = j by omega] at this

/-- The carry out of bit `i` is generated by the bits down to bit zero. -/
theorem carry_succ_iff : BitVec.carry (i + 1) x y false = true ↔ Generates x y (i + 1) i := by
  induction i with
  | zero =>
      rw [BitVec.carry_succ, BitVec.carry_zero]
      simp [Generates, Bool.atLeastTwo]
  | succ i ih =>
      have hone : Generates x y 1 (i + 1) ↔ (x &&& y).getLsbD (i + 1) = true := by
        simp [Generates]
      have hpass : Propagates x y 1 (i + 1) ↔ (x ^^^ y).getLsbD (i + 1) = true := by
        simp [Propagates]
      rw [BitVec.carry_succ, Nat.add_comm (i + 1) 1, generates_add, hone, hpass, Nat.add_sub_cancel,
        ← ih, BitVec.getLsbD_and, BitVec.getLsbD_xor]
      cases x.getLsbD (i + 1) <;> cases y.getLsbD (i + 1) <;>
        simp [Bool.atLeastTwo]

/-- Groups that reach beyond bit zero are complete. -/
theorem generates_of_le (h : i < n) : Generates x y n i ↔ Generates x y (i + 1) i := by
  constructor <;> rintro ⟨k, hk, hki, hrest⟩
  · exact ⟨k, by omega, hki, hrest⟩
  · exact ⟨k, by omega, hki, hrest⟩

def stage (s : BitVec w × BitVec w) (shift : Nat) : BitVec w × BitVec w :=
  (s.1 ||| s.2 &&& s.1 <<< shift, s.2 &&& s.2 <<< shift)

/-- The generated and passed carries of all groups of `n` bits. -/
def Groups (x y : BitVec w) (n : Nat) (s : BitVec w × BitVec w) : Prop :=
  ∀ i < w, (s.1.getLsbD i = true ↔ Generates x y n i) ∧ (s.2.getLsbD i = true ↔ Propagates x y n i)

theorem groups_one : Groups x y 1 (x &&& y, x ^^^ y) := by
  intro i _
  exact ⟨by simp [Generates], by simp [Propagates]⟩

theorem Groups.stage {s : BitVec w × BitVec w} (h : Groups x y n s) (hn : 0 < n) :
    Groups x y (2 * n) (stage s n) := by
  intro i hi
  obtain ⟨hgen, hprop⟩ := h i hi
  rw [Nat.two_mul, generates_add, propagates_add]
  simp only [PrefixAdder.stage, BitVec.getLsbD_or, BitVec.getLsbD_and, BitVec.getLsbD_shiftLeft,
    Bool.or_eq_true, Bool.and_eq_true, hgen, hprop]
  by_cases hle : n ≤ i
  · obtain ⟨hgen', hprop'⟩ := h (i - n) (by omega)
    simp [hi, hle, hgen', hprop', Nat.not_lt.mpr hle, Nat.ne_of_gt hn]
  · simp [hi, hle, Nat.lt_of_not_le hle, Nat.ne_of_gt hn]

/-- The stages of a word of at most `2 ^ L` bits. -/
def shifts (L : Nat) : List Nat := (List.range L).map (2 ^ ·)

theorem groups_shifts (L : Nat) :
    Groups x y (2 ^ L) ((shifts L).foldl PrefixAdder.stage (x &&& y, x ^^^ y)) := by
  induction L with
  | zero => exact groups_one
  | succ L ih =>
      rw [shifts, List.range_succ, List.map_append, List.foldl_append, Nat.pow_succ']
      exact ih.stage (Nat.two_pow_pos L)

/-- The carries of complete groups give the sum. -/
theorem xor_shiftLeft_eq {L : Nat} (hw : w ≤ 2 ^ L) :
    (x ^^^ y) ^^^ ((shifts L).foldl PrefixAdder.stage (x &&& y, x ^^^ y)).1 <<< 1 = x + y := by
  apply BitVec.eq_of_getLsbD_eq
  intro i hi
  rw [BitVec.getLsbD_add hi, BitVec.getLsbD_xor, BitVec.getLsbD_xor, BitVec.getLsbD_shiftLeft,
    Bool.xor_assoc]
  congr 2
  cases i with
  | zero => simp
  | succ i =>
      have hgroup := (groups_shifts (x := x) (y := y) L i (by omega)).1
      have hcarry : BitVec.carry (i + 1) x y false =
          ((shifts L).foldl PrefixAdder.stage (x &&& y, x ^^^ y)).1.getLsbD i := by
        rw [Bool.eq_iff_iff, carry_succ_iff, hgroup, generates_of_le (n := 2 ^ L) (by omega)]
      simp [hi, hcarry]

/-! ## Carry-save addition -/

/-- Two of three bits. -/
def majority (x y z : BitVec w) : BitVec w := x &&& y ||| x &&& z ||| y &&& z

theorem nat_carrySave {k a b c : Nat} (ha : a < 2 ^ k) (hb : b < 2 ^ k) (hc : c < 2 ^ k) :
    a + b + c = (a ^^^ b ^^^ c) + 2 * (a &&& b ||| a &&& c ||| b &&& c) := by
  induction k generalizing a b c with
  | zero =>
      obtain rfl : a = 0 := by omega
      obtain rfl : b = 0 := by omega
      obtain rfl : c = 0 := by omega
      rfl
  | succ k ih =>
      -- the lowest bits apart, the others by induction
      rw [Nat.pow_succ] at ha hb hc
      have hrest := ih (show a / 2 < 2 ^ k by omega) (show b / 2 < 2 ^ k by omega)
        (show c / 2 < 2 ^ k by omega)
      rw [← Nat.xor_div_two, ← Nat.xor_div_two, ← Nat.and_div_two, ← Nat.and_div_two,
        ← Nat.and_div_two, ← Nat.or_div_two, ← Nat.or_div_two] at hrest
      have hxor : (a ^^^ b ^^^ c) % 2 = (a + b + c) % 2 := by
        have hlow : (a ^^^ b) % 2 = (a + b) % 2 := Nat.xor_mod_two_eq
        have hall : (a ^^^ b ^^^ c) % 2 = ((a ^^^ b) + c) % 2 := Nat.xor_mod_two_eq
        omega
      have hmajority : (a &&& b ||| a &&& c ||| b &&& c) % 2 = 1 ↔
          (a % 2 = 1 ∧ b % 2 = 1 ∨ a % 2 = 1 ∧ c % 2 = 1) ∨ b % 2 = 1 ∧ c % 2 = 1 := by
        simp only [Nat.or_mod_two_eq_one, Nat.and_mod_two_eq_one]
      omega

/-- Three summands become two. -/
theorem carrySave (x y z : BitVec w) : x + y + z = (x ^^^ y ^^^ z) + majority x y z <<< 1 := by
  apply BitVec.eq_of_toNat_eq
  have hsum := nat_carrySave x.isLt y.isLt z.isLt
  simp only [majority, BitVec.toNat_add, BitVec.toNat_xor, BitVec.toNat_or, BitVec.toNat_and,
    BitVec.toNat_shiftLeft, Nat.shiftLeft_eq, Nat.pow_one, Nat.mod_add_mod, Nat.add_mod_mod]
  rw [hsum, Nat.mul_comm 2]

end CppHdl.PrefixAdder
