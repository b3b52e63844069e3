import Mathlib.Data.Nat.Bitwise
import Mathlib.Data.List.GetD
import Mathlib.Tactic.Ring

/-!
# Little-endian bit lists

`natOfBits` reads a list of bits as a natural number, least significant bit
first; `bitsOfNat w n` writes the low `w` bits of `n`. The two are inverse up
to `% 2 ^ w`, and concatenation, truncation and dropping of low bits are
addition, remainder and quotient of powers of two.
-/

namespace CppHdl

/-- The number a bit list denotes, least significant bit first. -/
def natOfBits : List Bool → Nat
  | [] => 0
  | b :: rest => b.toNat + 2 * natOfBits rest

/-- The low `w` bits of `n`, least significant bit first. -/
def bitsOfNat (w n : Nat) : List Bool := (List.range w).map n.testBit

@[simp] theorem natOfBits_nil : natOfBits [] = 0 := rfl

@[simp] theorem natOfBits_cons (b : Bool) (l : List Bool) :
    natOfBits (b :: l) = b.toNat + 2 * natOfBits l := rfl

@[simp] theorem length_bitsOfNat (w n : Nat) : (bitsOfNat w n).length = w := by
  simp [bitsOfNat]

theorem getElem?_bitsOfNat (w n i : Nat) :
    (bitsOfNat w n)[i]? = if i < w then some (n.testBit i) else none := by
  unfold bitsOfNat
  by_cases h : i < w <;> simp [h]

theorem getElem_bitsOfNat (w n i : Nat) (h : i < (bitsOfNat w n).length) :
    (bitsOfNat w n)[i] = n.testBit i := by
  simp [bitsOfNat]

theorem natOfBits_lt (l : List Bool) : natOfBits l < 2 ^ l.length := by
  induction l with
  | nil => simp
  | cons b l ih =>
      have := Bool.toNat_le b
      simp only [natOfBits_cons, List.length_cons, Nat.pow_succ]
      omega

theorem testBit_natOfBits (l : List Bool) (i : Nat) :
    (natOfBits l).testBit i = l.getD i false := by
  induction l generalizing i with
  | nil => simp
  | cons b l ih =>
      cases i with
      | zero => cases b <;> simp [Nat.testBit_zero]
      | succ i =>
          have hdiv : (b.toNat + 2 * natOfBits l) / 2 = natOfBits l := by
            have := Bool.toNat_le b
            omega
          rw [natOfBits_cons, Nat.testBit_add_one, hdiv, ih]
          simp

theorem natOfBits_bitsOfNat (w n : Nat) : natOfBits (bitsOfNat w n) = n % 2 ^ w := by
  apply Nat.eq_of_testBit_eq
  intro i
  rw [testBit_natOfBits, Nat.testBit_mod_two_pow, List.getD_eq_getElem?_getD,
    getElem?_bitsOfNat]
  by_cases h : i < w <;> simp [h]

/-- Bit lists of one length are told apart by the number they denote. -/
theorem bitsOfNat_natOfBits (l : List Bool) : bitsOfNat l.length (natOfBits l) = l := by
  apply List.ext_getElem
  · simp
  · intro i h₁ h₂
    rw [getElem_bitsOfNat, testBit_natOfBits, List.getD_eq_getElem _ _ h₂]

theorem natOfBits_inj {l l' : List Bool} (hlen : l.length = l'.length)
    (h : natOfBits l = natOfBits l') : l = l' := by
  rw [← bitsOfNat_natOfBits l, ← bitsOfNat_natOfBits l', hlen, h]

theorem bitsOfNat_mod (w n : Nat) : bitsOfNat w (n % 2 ^ w) = bitsOfNat w n := by
  apply natOfBits_inj (by simp)
  rw [natOfBits_bitsOfNat, natOfBits_bitsOfNat, Nat.mod_mod]

theorem eq_bitsOfNat {l : List Bool} {w n : Nat} (hlen : l.length = w)
    (h : natOfBits l = n % 2 ^ w) : l = bitsOfNat w n :=
  natOfBits_inj (by simpa using hlen) (by rw [h, natOfBits_bitsOfNat])

theorem natOfBits_append (l l' : List Bool) :
    natOfBits (l ++ l') = natOfBits l + 2 ^ l.length * natOfBits l' := by
  induction l with
  | nil => simp
  | cons b l ih => simp [ih, Nat.pow_succ]; ring

theorem natOfBits_take (l : List Bool) (w : Nat) :
    natOfBits (l.take w) = natOfBits l % 2 ^ w := by
  apply Nat.eq_of_testBit_eq
  intro i
  rw [testBit_natOfBits, Nat.testBit_mod_two_pow, testBit_natOfBits]
  simp only [List.getD_eq_getElem?_getD, List.getElem?_take]
  by_cases h : i < w <;> simp [h]

@[simp] theorem natOfBits_replicate_false (w : Nat) :
    natOfBits (List.replicate w false) = 0 := by
  induction w with
  | zero => rfl
  | succ w ih => simp [List.replicate_succ, ih]

theorem natOfBits_replicate_true (w : Nat) :
    natOfBits (List.replicate w true) = 2 ^ w - 1 := by
  induction w with
  | zero => rfl
  | succ w ih =>
      have := Nat.one_le_two_pow (n := w)
      simp only [List.replicate_succ, natOfBits_cons, ih, Nat.pow_succ, Bool.toNat_true]
      omega

theorem natOfBits_eq_zero_iff (l : List Bool) :
    natOfBits l = 0 ↔ l.any id = false := by
  induction l with
  | nil => simp
  | cons b l ih => cases b <;> simp_all

/-- Complementing every bit subtracts from the all-ones number. -/
theorem natOfBits_map_not (l : List Bool) :
    natOfBits (l.map not) = 2 ^ l.length - 1 - natOfBits l := by
  induction l with
  | nil => rfl
  | cons b l ih =>
      have := natOfBits_lt l
      cases b <;> simp [ih, Nat.pow_succ] <;> omega

end CppHdl
