import Mathlib.Tactic.Linarith
import Mathlib.Tactic.Ring

/-!
# Affine streams

A stream visits the elements of a table: element `(r, c)` lies `r` row strides and
`c` column strides above the base and takes `size` cells. Two streams over the
same table are apart when one ends below the other, or when they share the row
stride and keep to different parts of the period.
-/

namespace CppHdl

/-- Base, strides and the cells of an element. -/
structure AffineStream where
  base : Nat
  row : Nat
  column : Nat
  size : Nat

namespace AffineStream

def address (s : AffineStream) (r c : Nat) : Nat := s.base + r * s.row + c * s.column

def span (s : AffineStream) (columns : Nat) : Nat := (columns - 1) * s.column + s.size

/-- The first cell above the last element. -/
def stop (s : AffineStream) (rows columns : Nat) : Nat :=
  s.base + (rows - 1) * s.row + (columns - 1) * s.column + s.size

/-- Two elements share no cell. -/
def Apart (s t : AffineStream) (r c r' c' : Nat) : Prop :=
  s.address r c + s.size ≤ t.address r' c' ∨ t.address r' c' + t.size ≤ s.address r c

variable {s t : AffineStream} {rows columns r c r' c' : Nat}

theorem Apart.symm (h : s.Apart t r c r' c') : t.Apart s r' c' r c := Or.symm h

theorem base_le_address : s.base ≤ s.address r c := by
  unfold address
  omega

theorem address_le_row (hc : c < columns) :
    s.address r c + s.size ≤ s.base + r * s.row + s.span columns := by
  have hmul : c * s.column ≤ (columns - 1) * s.column := Nat.mul_le_mul_right _ (by omega)
  unfold address span
  omega

theorem address_le_stop (hr : r < rows) (hc : c < columns) :
    s.address r c + s.size ≤ s.stop rows columns := by
  have hrow := address_le_row (s := s) (r := r) hc
  have hmul : r * s.row ≤ (rows - 1) * s.row := Nat.mul_le_mul_right _ (by omega)
  unfold stop
  unfold span at hrow
  omega

/-- One stream ends below the other. -/
theorem apart_of_stop_le (h : s.stop rows columns ≤ t.base) (hr : r < rows) (hc : c < columns) :
    s.Apart t r c r' c' :=
  .inl ((address_le_stop hr hc).trans (h.trans base_le_address))

/-- In every period, the rows of one stream end below those of the other. -/
theorem apart_of_period (hrow : s.row = t.row) (hlow : s.base + s.span columns ≤ t.base)
    (hhigh : t.base + t.span columns ≤ s.base + s.row) (hc : c < columns) (hc' : c' < columns) :
    s.Apart t r c r' c' := by
  have hs := address_le_row (s := s) (r := r) hc
  have ht := address_le_row (s := t) (r := r') hc'
  rcases Nat.lt_or_ge r' r with hlt | hle
  · refine .inr ?_
    have hmul : (r' + 1) * t.row ≤ r * t.row := Nat.mul_le_mul_right _ hlt
    rw [Nat.add_mul, Nat.one_mul, ← hrow] at hmul
    have hbase : s.base + r * s.row ≤ s.address r c := Nat.le_add_right _ _
    rw [← hrow] at ht
    omega
  · refine .inl ?_
    have hmul : r * t.row ≤ r' * t.row := Nat.mul_le_mul_right _ hle
    have hbase : t.base + r' * t.row ≤ t.address r' c' := Nat.le_add_right _ _
    rw [hrow] at hs
    omega

/-- Strides that step over an element and over a row keep a stream off itself. -/
theorem apart_self (hcolumn : columns = 1 ∨ s.size ≤ s.column)
    (hrow : rows = 1 ∨ s.span columns ≤ s.row) (hr : r < rows) (hc : c < columns)
    (hr' : r' < rows) (hc' : c' < columns) (hne : (r, c) ≠ (r', c')) : s.Apart s r c r' c' := by
  -- the later of two elements starts above the end of the earlier one
  have later : ∀ {r c r' c' : Nat}, c < columns → r' < rows → c' < columns →
      (r < r' ∨ r = r' ∧ c < c') → s.address r c + s.size ≤ s.address r' c' := by
    intro r c r' c' hc hr' hc' hlater
    rcases hlater with hlt | ⟨rfl, hlt⟩
    · have hstep := hrow.resolve_left (by omega)
      have helement := address_le_row (s := s) (r := r) hc
      have hmul : (r + 1) * s.row ≤ r' * s.row := Nat.mul_le_mul_right _ hlt
      rw [Nat.add_mul, Nat.one_mul] at hmul
      have hbase : s.base + r' * s.row ≤ s.address r' c' := Nat.le_add_right _ _
      omega
    · have hstep := hcolumn.resolve_left (by omega)
      have hmul : (c + 1) * s.column ≤ c' * s.column := Nat.mul_le_mul_right _ hlt
      rw [Nat.add_mul, Nat.one_mul] at hmul
      unfold address
      omega
  have hcases : (r < r' ∨ r = r' ∧ c < c') ∨ (r' < r ∨ r' = r ∧ c' < c) := by
    rw [Ne, Prod.mk.injEq] at hne
    omega
  rcases hcases with h | h
  · exact .inl (later hc hr' hc' h)
  · exact .inr (later hc' hr hc h)

/-- Below `m` elements and with base, strides and size below `m` it ends below `m * m`. -/
theorem stop_lt {m : Nat} (hrows : 0 < rows) (hcolumns : 0 < columns)
    (hcount : rows * columns < m) (hbase : s.base < m) (hrow : s.row < m) (hcolumn : s.column < m)
    (hsize : s.size < m) : s.stop rows columns < m * m := by
  obtain ⟨R, rfl⟩ := Nat.exists_eq_succ_of_ne_zero hrows.ne'
  obtain ⟨C, rfl⟩ := Nat.exists_eq_succ_of_ne_zero hcolumns.ne'
  obtain ⟨k, rfl⟩ := Nat.exists_eq_succ_of_ne_zero (Nat.ne_zero_of_lt hbase)
  have hsum : R + C + 1 ≤ k := by nlinarith
  have hR : R * s.row ≤ R * k := Nat.mul_le_mul_left _ (by omega)
  have hC : C * s.column ≤ C * k := Nat.mul_le_mul_left _ (by omega)
  have hall : (R + C + 1) * k ≤ k * k := Nat.mul_le_mul_right _ hsum
  unfold stop
  rw [Nat.succ_sub_one, Nat.succ_sub_one]
  calc s.base + R * s.row + C * s.column + s.size ≤ k + R * k + C * k + k := by omega
    _ = (R + C + 1) * k + k := by ring
    _ ≤ k * k + k := by omega
    _ < (k + 1) * (k + 1) := by nlinarith

/-- The element after the last of a row is the first of the next row. -/
theorem next_row {n : Nat} (h : n % columns + 1 = columns) :
    (n + 1) / columns = n / columns + 1 ∧ (n + 1) % columns = 0 := by
  have hdiv := Nat.mod_add_div n columns
  refine (Nat.div_mod_unique (by omega)).mpr ⟨?_, by omega⟩
  rw [Nat.mul_add]
  omega

theorem next_column {n : Nat} (hc : 0 < columns) (h : n % columns + 1 ≠ columns) :
    (n + 1) / columns = n / columns ∧ (n + 1) % columns = n % columns + 1 := by
  have hdiv := Nat.mod_add_div n columns
  have hmod := Nat.mod_lt n hc
  exact (Nat.div_mod_unique hc).mpr ⟨by omega, by omega⟩

end AffineStream

end CppHdl
