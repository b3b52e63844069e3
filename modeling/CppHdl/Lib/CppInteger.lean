import Mathlib.Algebra.Order.Ring.Int
import Mathlib.Algebra.Order.GroupWithZero.Basic
import Mathlib.Tactic.SplitIfs
import Mathlib.Data.Int.ModEq

/-!
# Integer types of C++

Integers are values of a type: its range, the conversion to it, and the usual arithmetic
conversions that two operands go through. Signed arithmetic that leaves the range is
undefined; conversions and unsigned arithmetic wrap.
-/

namespace CppHdl

/-- The sizes of the integer types. -/
inductive IntSize
  | s8 | s16 | s32 | s64 | s128
deriving DecidableEq

def IntSize.bits : IntSize → Nat
  | s8 => 8
  | s16 => 16
  | s32 => 32
  | s64 => 64
  | s128 => 128

inductive IntType
  | bool
  | int (size : IntSize) (signed : Bool)
deriving DecidableEq

namespace IntType

def bits : IntType → Nat
  | bool => 1
  | int size _ => size.bits

def objectBits : IntType → Nat
  | bool => 8
  | int size _ => size.bits

def signed : IntType → Bool
  | bool => false
  | int _ signed => signed

def lo (t : IntType) : Int := if t.signed then -2 ^ (t.bits - 1) else 0

/-- Behind the largest value. -/
def hi (t : IntType) : Int := if t.signed then 2 ^ (t.bits - 1) else 2 ^ t.bits

def InRange (t : IntType) (v : Int) : Prop := t.lo ≤ v ∧ v < t.hi

instance (t : IntType) (v : Int) : Decidable (t.InRange v) := inferInstanceAs (Decidable (_ ∧ _))

def convert : IntType → Int → Int
  | bool, v => if v = 0 then 0 else 1
  | int size true, v => v.bmod (2 ^ size.bits)
  | int size false, v => v % 2 ^ size.bits

/-- The bits of a value, read as a signed number. -/
def sext (t : IntType) (v : Int) : Int := v.bmod (2 ^ t.bits)

def promote : IntType → IntType
  | bool => int .s32 true
  | int size signed => if size.bits < 32 then int .s32 true else int size signed

/-- The usual arithmetic conversions: of two promoted types the wider one, and of two of one
size the unsigned one. -/
def common (a b : IntType) : IntType :=
  if a.promote.bits < b.promote.bits then b.promote
  else if b.promote.bits < a.promote.bits then a.promote
  else if b.promote.signed then a.promote else b.promote

/-- What an operation gives in its type. -/
def result (t : IntType) (v : Int) : Option Int :=
  if t.signed && !decide (t.InRange v) then none else some (t.convert v)

/-! ## Conversions -/

variable {t : IntType} {v : Int}

theorem bits_pos (t : IntType) : 0 < t.bits := by
  cases t with
  | bool => decide
  | int size _ => cases size <;> exact Nat.succ_pos _

theorem two_pow_bits (t : IntType) : (2 : Int) ^ t.bits = 2 * 2 ^ (t.bits - 1) := by
  obtain ⟨n, hn⟩ := Nat.exists_eq_succ_of_ne_zero (Nat.ne_of_gt t.bits_pos)
  rw [hn, Nat.succ_sub_one, Int.pow_succ, Int.mul_comm]

theorem half_pos (t : IntType) : (0 : Int) < 2 ^ (t.bits - 1) := Int.pow_pos (by decide)

/-- Signed numbers of so many bits. -/
theorem sext_mem (t : IntType) (v : Int) : -2 ^ (t.bits - 1) ≤ t.sext v ∧ t.sext v < 2 ^ (t.bits - 1) := by
  have hpow := t.two_pow_bits
  have hlo := @Int.le_bmod v (2 ^ t.bits) (Nat.two_pow_pos _)
  have hhi := @Int.bmod_lt v (2 ^ t.bits) (Nat.two_pow_pos _)
  unfold sext
  push_cast at hlo hhi
  omega

theorem sext_of_mem (hlo : -2 ^ (t.bits - 1) ≤ v) (hhi : v < 2 ^ (t.bits - 1)) : t.sext v = v := by
  have hpow := t.two_pow_bits
  refine Int.bmod_eq_of_le_mul_two ?_ ?_ <;> push_cast <;> omega

theorem sext_emod (t : IntType) (v : Int) : t.sext v % 2 ^ t.bits = v % 2 ^ t.bits := by
  have h := @Int.bmod_emod v (2 ^ t.bits)
  push_cast at h
  exact h

theorem convert_inRange (t : IntType) (v : Int) : t.InRange (t.convert v) := by
  cases t with
  | bool =>
      change bool.InRange (if v = 0 then 0 else 1)
      split_ifs <;> decide
  | int size signed =>
      cases signed with
      | true => exact (int size true).sext_mem v
      | false =>
          have hpos : (0 : Int) < 2 ^ size.bits := Int.pow_pos (by decide)
          exact ⟨Int.emod_nonneg _ (Int.ne_of_gt hpos), Int.emod_lt_of_pos _ hpos⟩

theorem convert_of_inRange (h : t.InRange v) : t.convert v = v := by
  cases t with
  | bool =>
      obtain ⟨hlo, hhi⟩ := h
      change (0 : Int) ≤ v at hlo
      change v < 2 at hhi
      change (if v = 0 then 0 else 1) = v
      split_ifs <;> omega
  | int size signed =>
      cases signed with
      | true => exact sext_of_mem h.1 h.2
      | false => exact Int.emod_eq_of_lt h.1 h.2

/-- A number that is its own sign extension is a value of every signed type of the size. -/
theorem sext_of_signed (hs : t.signed = true) (h : t.InRange v) : t.sext v = v := by
  cases t with
  | bool => cases hs
  | int size signed =>
      cases hs
      exact sext_of_mem h.1 h.2

theorem convert_emod {size : IntSize} {signed : Bool} (v : Int) :
    (int size signed).convert v % 2 ^ size.bits = v % 2 ^ size.bits := by
  cases signed with
  | true => exact (int size true).sext_emod v
  | false => exact Int.emod_emod_of_dvd _ (Int.dvd_refl _)

theorem convert_congr {size : IntSize} {signed : Bool} {v w : Int}
    (h : v % 2 ^ size.bits = w % 2 ^ size.bits) :
    (int size signed).convert v = (int size signed).convert w := by
  cases signed with
  | true =>
      change v.bmod _ = w.bmod _
      rw [← Int.emod_bmod v, ← Int.emod_bmod w]
      push_cast
      rw [h]
  | false => exact h

/-! ## Common types -/

theorem promote_eq (t : IntType) : ∃ size signed, t.promote = int size signed := by
  cases t with
  | bool => exact ⟨.s32, true, rfl⟩
  | int size signed =>
      unfold promote
      dsimp only
      split_ifs
      · exact ⟨.s32, true, rfl⟩
      · exact ⟨size, signed, rfl⟩

theorem common_cases (a b : IntType) :
    (common a b = a.promote ∧ b.promote.bits ≤ a.promote.bits) ∨
      (common a b = b.promote ∧ a.promote.bits ≤ b.promote.bits ∧
        (b.promote.signed = true → a.promote.bits < b.promote.bits)) := by
  unfold common
  split_ifs with hlt hgt hsigned
  · exact .inr ⟨rfl, Nat.le_of_lt hlt, fun _ => hlt⟩
  · exact .inl ⟨rfl, Nat.le_of_lt hgt⟩
  · exact .inl ⟨rfl, by omega⟩
  · exact .inr ⟨rfl, by omega, fun h => absurd h hsigned⟩

theorem common_eq (a b : IntType) : ∃ size signed, common a b = int size signed := by
  rcases common_cases a b with ⟨h, _⟩ | ⟨h, _⟩ <;> rw [h] <;> exact promote_eq _

theorem bits_le_promote (t : IntType) : t.bits ≤ t.promote.bits := by
  cases t with
  | bool => decide
  | int size signed =>
      unfold promote
      dsimp only
      split_ifs with h
      · exact Nat.le_of_lt h
      · exact Nat.le_refl _

theorem bits_le_common (a b : IntType) : a.bits ≤ (common a b).bits := by
  refine Nat.le_trans a.bits_le_promote ?_
  rcases common_cases a b with ⟨h, _⟩ | ⟨h, hle, _⟩
  · rw [h]
  · rw [h]
    exact hle

theorem InRange.of_wider (h : t.InRange v) {u : IntType} (hu : u.signed = true) (hlt : t.bits < u.bits) :
    u.InRange v := by
  have hpow : (2 : Int) ^ t.bits ≤ 2 ^ (u.bits - 1) := pow_le_pow_right₀ (by decide) (by omega)
  have hhalf := t.two_pow_bits
  have hpos := t.half_pos
  unfold InRange lo hi at h ⊢
  rw [if_pos hu, if_pos hu]
  split_ifs at h <;> omega

theorem InRange.promote (h : t.InRange v) : t.promote.InRange v := by
  cases t with
  | bool => exact h.of_wider rfl (by decide)
  | int size signed =>
      unfold IntType.promote
      dsimp only
      split_ifs with hlt
      · exact h.of_wider rfl hlt
      · exact h

/-- A signed common type has all values of the operands' types. -/
theorem InRange.common (h : t.InRange v) {u : IntType} (hs : (t.common u).signed = true) :
    (t.common u).InRange v := by
  rcases common_cases t u with ⟨heq, _⟩ | ⟨heq, _, hlt⟩
  · rw [heq]
    exact h.promote
  · rw [heq] at hs ⊢
    exact h.promote.of_wider hs (hlt hs)

end IntType

end CppHdl
