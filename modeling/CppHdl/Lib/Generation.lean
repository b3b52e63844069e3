import Mathlib.Data.BitVec

/-!
# Generations

A copy keeps the value its counter had when it was made. To outdate the copies of
a counter it is advanced: a copy is used only when its generation is that of the
counter, so copies made before are not, as long as the counter has not come round.
-/

namespace CppHdl

variable {w : Nat}

/-- A copy of generation `gen` is not ahead of its counter, and behind it when it is
outdated. -/
structure Dated (gen counter : BitVec w) (outdated : Prop) : Prop where
  le : gen.toNat ≤ counter.toNat
  behind : outdated → gen.toNat < counter.toNat

namespace Dated

variable {gen counter : BitVec w} {p q : Prop}

theorem fresh (counter : BitVec w) (h : ¬ p) : Dated counter counter p :=
  ⟨le_rfl, fun hp => absurd hp h⟩

theorem current (h : Dated counter counter p) : ¬ p := fun hp => Nat.lt_irrefl _ (h.behind hp)

theorem mono (h : Dated gen counter p) (hpq : q → p) : Dated gen counter q :=
  ⟨h.le, fun hq => h.behind (hpq hq)⟩

/-- Advancing the counter outdates any copy. -/
theorem advance (h : Dated gen counter p) (hwrap : counter ≠ BitVec.allOnes w) :
    Dated gen (counter + 1) q := by
  have hlt : counter.toNat + 1 < 2 ^ w := by
    have hne : counter.toNat ≠ 2 ^ w - 1 := fun heq =>
      hwrap (BitVec.eq_of_toNat_eq (heq.trans BitVec.toNat_allOnes.symm))
    have := counter.isLt
    omega
  have hsucc : (counter + 1).toNat = counter.toNat + 1 := by
    have hw : w ≠ 0 := by
      rintro rfl
      omega
    rw [BitVec.toNat_add, show (1 : BitVec w) = 1#w from rfl, BitVec.toNat_ofNat, Nat.mod_eq_of_lt (Nat.one_lt_two_pow hw),
      Nat.mod_eq_of_lt hlt]
  have hle := h.le
  exact ⟨by omega, fun _ => by omega⟩

end Dated

end CppHdl
