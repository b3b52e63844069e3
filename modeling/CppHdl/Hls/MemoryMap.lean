import Mathlib.Data.Nat.Bitwise
import CppHdl.Lib.AffineStream

/-!
# Commands of the memory map

A command gathers from read streams and scatters to write streams over one table of
elements. `command_valid` takes it only where it can show that no stream leaves the
32-bit addresses and that no element written is another element read or written.
The controller then walks each stream with a 32-bit cursor.
-/

namespace CppHdl.Hls

open AffineStream

/-- Base, strides and element size of one stream. -/
structure MapStream where
  base : UInt32
  rowStride : UInt32
  columnStride : UInt32
  size : UInt32
  deriving DecidableEq

/-- The shape of a command and its streams; only the first `read_count_in` and
`write_count_in` take part. -/
structure MemoryMapCommand (Reads Writes : Nat) where
  rows : UInt32
  columns : UInt32
  readCount : UInt32
  writeCount : UInt32
  read : Fin Reads → MapStream
  write : Fin Writes → MapStream

namespace MemoryMapCommand

variable {Reads Writes : Nat} (m : MemoryMapCommand Reads Writes)

def endAddress (s : MapStream) : UInt64 :=
  s.base.toUInt64 + (m.rows - 1).toUInt64 * s.rowStride.toUInt64 +
    (m.columns - 1).toUInt64 * s.columnStride.toUInt64 + s.size.toUInt64

/-- `row_span`, `aspan` and `bspan`. -/
def rowSpan (s : MapStream) : UInt64 :=
  (m.columns - 1).toUInt64 * s.columnStride.toUInt64 + s.size.toUInt64

def sizeValid (size : UInt32) : Bool := decide (size = 1 ∨ size = 2 ∨ size = 4)

def streamValid (s : MapStream) (write : Bool) : Bool :=
  sizeValid s.size && decide ((s.base ||| s.rowStride ||| s.columnStride) &&& (s.size - 1) = 0) &&
    decide (m.endAddress s ≤ 0x100000000) &&
    (!write ||
      (decide (m.columns = 1) || decide (s.size ≤ s.columnStride)) &&
        (decide (m.rows = 1) || decide (m.rowSpan s ≤ s.rowStride.toUInt64)))

def delta (a b : MapStream) : UInt64 :=
  if a.base ≤ b.base then b.base.toUInt64 - a.base.toUInt64
  else a.base.toUInt64 - b.base.toUInt64

def periodic (a b : MapStream) : Bool :=
  decide (a.rowStride ≠ 0) && decide (a.rowStride = b.rowStride) &&
    decide (m.rowSpan a ≤ a.rowStride.toUInt64) && decide (m.rowSpan b ≤ a.rowStride.toUInt64) &&
    if a.base ≤ b.base then
      decide (m.rowSpan a ≤ delta a b) && decide (delta a b + m.rowSpan b ≤ a.rowStride.toUInt64)
    else
      decide (m.rowSpan b ≤ delta a b) && decide (delta a b + m.rowSpan a ≤ a.rowStride.toUInt64)

def disjoint (a b : MapStream) : Bool :=
  decide (m.endAddress a ≤ b.base.toUInt64) || decide (m.endAddress b ≤ a.base.toUInt64) ||
    m.periodic a b

/-- `same` in `command_valid`. -/
def same (a b : MapStream) : Bool :=
  decide (a.base = b.base) && decide (a.size = b.size) &&
    (decide (m.rows = 1) || decide (a.rowStride = b.rowStride)) &&
    (decide (m.columns = 1) || decide (a.columnStride = b.columnStride))

/-- A read stream that takes part. -/
def Reading (r : Fin Reads) : Prop := r < m.readCount.toNat

def Writing (w : Fin Writes) : Prop := w < m.writeCount.toNat

instance (r : Fin Reads) : Decidable (m.Reading r) := inferInstanceAs (Decidable (_ < _))

instance (w : Fin Writes) : Decidable (m.Writing w) := inferInstanceAs (Decidable (_ < _))

/-- What the loop of `command_valid` asks of write stream `w`. -/
def writeValid (w : Fin Writes) : Bool :=
  m.streamValid (m.write w) true &&
    (List.finRange Writes).all (fun v =>
      !decide (v < w ∧ m.Writing v) || m.disjoint (m.write w) (m.write v)) &&
    (List.finRange Reads).all fun r =>
      !decide (m.Reading r) || (m.same (m.read r) (m.write w) || m.disjoint (m.read r) (m.write w))

def commandValid : Bool :=
  decide (m.rows ≠ 0) && decide (m.columns ≠ 0) &&
    decide (m.rows.toUInt64 * m.columns.toUInt64 ≤ 0xffffffff) &&
    decide (m.readCount.toNat ≤ Reads) && decide (m.writeCount ≠ 0) &&
    decide (m.writeCount.toNat ≤ Writes) &&
    (List.finRange Reads).all (fun r => !decide (m.Reading r) || m.streamValid (m.read r) false) &&
    (List.finRange Writes).all fun w => !decide (m.Writing w) || m.writeValid w

/-! ## The cursors -/

/-- `gather_column` or `scatter_column` with `row_base` and `cursor` of one stream. -/
structure Cursor where
  column : UInt32
  rowBase : UInt32
  cursor : UInt32

/-- `finish_gather` and `finish_scatter`. -/
def advance (s : MapStream) (x : Cursor) : Cursor :=
  if x.column + 1 = m.columns then ⟨0, x.rowBase + s.rowStride, x.rowBase + s.rowStride⟩
  else ⟨x.column + 1, x.rowBase, x.cursor + s.columnStride⟩

def cursorAt (s : MapStream) : Nat → Cursor
  | 0 => ⟨0, s.base, s.base⟩
  | n + 1 => m.advance s (cursorAt s n)

end MemoryMapCommand

/-- The stream over unbounded addresses. -/
def MapStream.affine (s : MapStream) : AffineStream :=
  ⟨s.base.toNat, s.rowStride.toNat, s.columnStride.toNat, s.size.toNat⟩

namespace MemoryMapCommand

variable {Reads Writes : Nat} {m : MemoryMapCommand Reads Writes}

structure Shaped (m : MemoryMapCommand Reads Writes) : Prop where
  rows : 0 < m.rows.toNat
  columns : 0 < m.columns.toNat
  count : m.rows.toNat * m.columns.toNat < 2 ^ 32

/-! ## Arithmetic without overflow -/

theorem toNat_pred {x : UInt32} (h : 0 < x.toNat) : (x - 1).toNat = x.toNat - 1 :=
  UInt32.toNat_sub_of_le _ _ (UInt32.le_iff_toNat_le.mpr h)

theorem stop_lt_word (h : m.Shaped) (s : MapStream) :
    s.affine.stop m.rows.toNat m.columns.toNat < 2 ^ 64 :=
  stop_lt h.rows h.columns h.count s.base.toNat_lt s.rowStride.toNat_lt s.columnStride.toNat_lt
    s.size.toNat_lt

theorem toNat_endAddress (h : m.Shaped) (s : MapStream) :
    (m.endAddress s).toNat = s.affine.stop m.rows.toNat m.columns.toNat := by
  have hlt := stop_lt_word h s
  unfold stop MapStream.affine at *
  dsimp only at *
  simp only [endAddress, UInt64.toNat_add, UInt64.toNat_mul, UInt32.toNat_toUInt64,
    toNat_pred h.rows, toNat_pred h.columns]
  omega

theorem toNat_rowSpan (h : m.Shaped) (s : MapStream) :
    (m.rowSpan s).toNat = s.affine.span m.columns.toNat := by
  have hlt := stop_lt_word h s
  unfold stop span MapStream.affine at *
  dsimp only at *
  simp only [rowSpan, UInt64.toNat_add, UInt64.toNat_mul, UInt32.toNat_toUInt64,
    toNat_pred h.columns]
  omega

theorem toNat_delta (a b : MapStream) :
    (delta a b).toNat =
      if a.base.toNat ≤ b.base.toNat then b.base.toNat - a.base.toNat
      else a.base.toNat - b.base.toNat := by
  unfold delta
  by_cases h : a.base.toNat ≤ b.base.toNat
  · rw [if_pos h, if_pos (UInt32.le_iff_toNat_le.mpr h), UInt64.toNat_sub_of_le,
      UInt32.toNat_toUInt64, UInt32.toNat_toUInt64]
    rw [UInt64.le_iff_toNat_le, UInt32.toNat_toUInt64, UInt32.toNat_toUInt64]
    exact h
  · rw [if_neg h, if_neg (mt UInt32.le_iff_toNat_le.mp h), UInt64.toNat_sub_of_le,
      UInt32.toNat_toUInt64, UInt32.toNat_toUInt64]
    rw [UInt64.le_iff_toNat_le, UInt32.toNat_toUInt64, UInt32.toNat_toUInt64]
    omega

theorem shaped (h : m.commandValid = true) : m.Shaped := by
  simp only [commandValid, Bool.and_eq_true, decide_eq_true_iff] at h
  obtain ⟨⟨⟨⟨⟨⟨⟨hrows, hcolumns⟩, hcount⟩, -⟩, -⟩, -⟩, -⟩, -⟩ := h
  have hr := m.rows.toNat_lt
  have hc := m.columns.toNat_lt
  have hmul : m.rows.toNat * m.columns.toNat < 2 ^ 64 :=
    (Nat.mul_lt_mul'' hr hc).trans_eq (by decide)
  rw [UInt64.le_iff_toNat_le, UInt64.toNat_mul, UInt32.toNat_toUInt64, UInt32.toNat_toUInt64,
    Nat.mod_eq_of_lt hmul] at hcount
  refine ⟨Nat.pos_of_ne_zero fun h => hrows (UInt32.toNat_inj.mp h),
    Nat.pos_of_ne_zero fun h => hcolumns (UInt32.toNat_inj.mp h), ?_⟩
  change _ ≤ 0xffffffff at hcount
  omega

/-! ## What the tests say -/

/-- What `stream_valid` says of a stream. -/
structure Fits (m : MemoryMapCommand Reads Writes) (s : MapStream) : Prop where
  size : 0 < s.size.toNat
  stop : s.affine.stop m.rows.toNat m.columns.toNat ≤ 2 ^ 32

theorem toNat_eq_one_iff (x : UInt32) : x = 1 ↔ x.toNat = 1 := UInt32.toNat_inj.symm

theorem fits (hm : m.Shaped) {s : MapStream} {write : Bool} (h : m.streamValid s write = true) :
    m.Fits s := by
  simp only [streamValid, Bool.and_eq_true, decide_eq_true_iff] at h
  obtain ⟨⟨⟨hsize, -⟩, hstop⟩, -⟩ := h
  rw [UInt64.le_iff_toNat_le, toNat_endAddress hm] at hstop
  refine ⟨?_, hstop⟩
  rw [sizeValid, decide_eq_true_iff] at hsize
  rcases hsize with h | h | h <;> rw [h] <;> decide

/-- A write stream steps over its elements and its rows. -/
theorem steps_over (hm : m.Shaped) {s : MapStream} (h : m.streamValid s true = true) :
    (m.columns.toNat = 1 ∨ s.affine.size ≤ s.affine.column) ∧
      (m.rows.toNat = 1 ∨ s.affine.span m.columns.toNat ≤ s.affine.row) := by
  simp only [streamValid, Bool.and_eq_true, Bool.or_eq_true, Bool.not_true, Bool.false_eq_true,
    false_or, decide_eq_true_iff, UInt64.le_iff_toNat_le, UInt32.le_iff_toNat_le,
    toNat_rowSpan hm, UInt32.toNat_toUInt64, toNat_eq_one_iff] at h
  exact h.2

/-- Two streams over the table of the command share no cell. -/
def ApartAll (m : MemoryMapCommand Reads Writes) (a b : MapStream) : Prop :=
  ∀ r c r' c' : Nat, r < m.rows.toNat → c < m.columns.toNat → r' < m.rows.toNat →
    c' < m.columns.toNat → a.affine.Apart b.affine r c r' c'

theorem ApartAll.symm {a b : MapStream} (h : m.ApartAll a b) : m.ApartAll b a :=
  fun r c r' c' hr hc hr' hc' => (h r' c' r c hr' hc' hr hc).symm

/-- Where spans do not pass the end of the addresses, sums with them are exact. -/
theorem toNat_delta_add (hm : m.Shaped) {a b s : MapStream} (hs : m.Fits s) :
    (delta a b + m.rowSpan s).toNat =
      (delta a b).toNat + s.affine.span m.columns.toNat := by
  have hdelta : (delta a b).toNat < 2 ^ 32 := by
    have ha := a.base.toNat_lt
    have hb := b.base.toNat_lt
    rw [toNat_delta]
    split_ifs <;> omega
  have hspan : s.affine.span m.columns.toNat ≤ 2 ^ 32 := by
    refine le_trans ?_ hs.stop
    unfold span stop
    omega
  rw [UInt64.toNat_add, toNat_rowSpan hm, Nat.mod_eq_of_lt (by omega)]

theorem periodic_apart (hm : m.Shaped) {a b : MapStream} (ha : m.Fits a) (hb : m.Fits b)
    (h : m.periodic a b = true) : m.ApartAll a b := by
  intro r c r' c' _ hc _ hc'
  simp only [periodic, Bool.and_eq_true, decide_eq_true_iff] at h
  obtain ⟨⟨⟨⟨-, hrow⟩, -⟩, -⟩, horder⟩ := h
  have hstride : a.affine.row = b.affine.row := congrArg UInt32.toNat hrow
  by_cases hle : a.base ≤ b.base
  · have hbase := UInt32.le_iff_toNat_le.mp hle
    rw [if_pos hle, Bool.and_eq_true, decide_eq_true_iff, decide_eq_true_iff,
      UInt64.le_iff_toNat_le, UInt64.le_iff_toNat_le, toNat_rowSpan hm, toNat_delta_add hm hb,
      toNat_delta, if_pos hbase, UInt32.toNat_toUInt64] at horder
    refine apart_of_period hstride ?_ ?_ hc hc'
    · change a.base.toNat + _ ≤ b.base.toNat
      omega
    · change b.base.toNat + _ ≤ a.base.toNat + a.rowStride.toNat
      omega
  · have hbase := mt UInt32.le_iff_toNat_le.mpr hle
    rw [if_neg hle, Bool.and_eq_true, decide_eq_true_iff, decide_eq_true_iff,
      UInt64.le_iff_toNat_le, UInt64.le_iff_toNat_le, toNat_rowSpan hm, toNat_delta_add hm ha,
      toNat_delta, if_neg hbase, UInt32.toNat_toUInt64, hrow] at horder
    refine (apart_of_period hstride.symm ?_ ?_ hc' hc).symm
    · change b.base.toNat + _ ≤ a.base.toNat
      omega
    · change a.base.toNat + _ ≤ b.base.toNat + b.rowStride.toNat
      omega

theorem disjoint_apart (hm : m.Shaped) {a b : MapStream} (ha : m.Fits a) (hb : m.Fits b)
    (h : m.disjoint a b = true) : m.ApartAll a b := by
  intro r c r' c' hr hc hr' hc'
  simp only [disjoint, Bool.or_eq_true, decide_eq_true_iff, UInt64.le_iff_toNat_le,
    toNat_endAddress hm, UInt32.toNat_toUInt64] at h
  rcases h with (hlow | hhigh) | hperiod
  · exact apart_of_stop_le hlow hr hc
  · exact (apart_of_stop_le hhigh hr' hc').symm
  · exact periodic_apart hm ha hb hperiod r c r' c' hr hc hr' hc'

/-- Two streams visit the same elements. -/
def SameElements (m : MemoryMapCommand Reads Writes) (a b : MapStream) : Prop :=
  a.size = b.size ∧ ∀ r c : Nat, r < m.rows.toNat → c < m.columns.toNat →
    a.affine.address r c = b.affine.address r c

theorem same_elements {a b : MapStream} (h : m.same a b = true) : m.SameElements a b := by
  simp only [same, Bool.and_eq_true, Bool.or_eq_true, decide_eq_true_iff, toNat_eq_one_iff] at h
  obtain ⟨⟨⟨hbase, hsize⟩, hrow⟩, hcolumn⟩ := h
  refine ⟨hsize, fun r c hr hc => ?_⟩
  unfold address MapStream.affine
  dsimp only
  have hrows : r * a.rowStride.toNat = r * b.rowStride.toNat := by
    rcases hrow with hone | heq
    · obtain rfl : r = 0 := by omega
      rw [Nat.zero_mul, Nat.zero_mul]
    · rw [heq]
  have hcolumns : c * a.columnStride.toNat = c * b.columnStride.toNat := by
    rcases hcolumn with hone | heq
    · obtain rfl : c = 0 := by omega
      rw [Nat.zero_mul, Nat.zero_mul]
    · rw [heq]
  rw [hbase, hrows, hcolumns]

/-! ## The walk -/

/-- The cursor at element `n`, modulo the 32 bits it has. -/
theorem cursorAt_eq (hm : m.Shaped) (s : MapStream) (n : Nat) :
    (m.cursorAt s n).column.toNat = n % m.columns.toNat ∧
      (m.cursorAt s n).rowBase.toNat =
        (s.affine.base + n / m.columns.toNat * s.affine.row) % 2 ^ 32 ∧
      (m.cursorAt s n).cursor.toNat =
        s.affine.address (n / m.columns.toNat) (n % m.columns.toNat) % 2 ^ 32 := by
  have hcolumns := hm.columns
  induction n with
  | zero =>
      rw [Nat.zero_mod, Nat.zero_div]
      unfold address
      rw [Nat.zero_mul, Nat.zero_mul, Nat.add_zero]
      have hbase : s.affine.base % 2 ^ 32 = s.base.toNat := Nat.mod_eq_of_lt s.base.toNat_lt
      exact ⟨rfl, hbase.symm, hbase.symm⟩
  | succ n ih =>
      obtain ⟨hcolumn, hrow, hcursor⟩ := ih
      have hlt := m.columns.toNat_lt
      have hmod := Nat.mod_lt n hcolumns
      have hnext : ((m.cursorAt s n).column + 1).toNat = n % m.columns.toNat + 1 := by
        rw [UInt32.toNat_add, hcolumn]
        exact Nat.mod_eq_of_lt (by change _ + 1 < 2 ^ 32; omega)
      have hwrap : (m.cursorAt s n).column + 1 = m.columns ↔
          n % m.columns.toNat + 1 = m.columns.toNat := by
        rw [← UInt32.toNat_inj, hnext]
      rw [cursorAt, advance]
      by_cases hlast : n % m.columns.toNat + 1 = m.columns.toNat
      · obtain ⟨hdiv, hzero⟩ := next_row hlast
        have hstep : ((m.cursorAt s n).rowBase + s.rowStride).toNat =
            (s.affine.base + (n / m.columns.toNat + 1) * s.affine.row) % 2 ^ 32 := by
          rw [UInt32.toNat_add, hrow, Nat.add_mul, Nat.one_mul, ← Nat.add_assoc]
          exact Nat.mod_add_mod ..
        rw [if_pos (hwrap.mpr hlast), hdiv, hzero]
        refine ⟨rfl, hstep, ?_⟩
        unfold address
        rw [Nat.zero_mul, Nat.add_zero]
        exact hstep
      · obtain ⟨hdiv, hone⟩ := next_column hcolumns hlast
        rw [if_neg (mt hwrap.mp hlast), hdiv, hone]
        refine ⟨hnext, hrow, ?_⟩
        unfold address at hcursor ⊢
        change ((m.cursorAt s n).cursor + s.columnStride).toNat = _
        rw [UInt32.toNat_add, hcursor, Nat.add_mul _ 1, Nat.one_mul, ← Nat.add_assoc]
        exact Nat.mod_add_mod ..

/-- An element that lies below the end of the addresses is where the cursor says. -/
theorem cursor_exact (hm : m.Shaped) {s : MapStream} (hs : m.Fits s) {n : Nat}
    (hn : n < m.rows.toNat * m.columns.toNat) :
    (m.cursorAt s n).cursor.toNat =
      s.affine.address (n / m.columns.toNat) (n % m.columns.toNat) := by
  rw [(cursorAt_eq hm s n).2.2]
  have hrow : n / m.columns.toNat < m.rows.toNat :=
    Nat.div_lt_of_lt_mul (by rwa [Nat.mul_comm])
  have hend := address_le_stop (s := s.affine) hrow (Nat.mod_lt n hm.columns)
  have hsize : 0 < s.affine.size := hs.size
  have hstop := hs.stop
  exact Nat.mod_eq_of_lt (by omega)

/-! ## Soundness -/

def Uses (m : MemoryMapCommand Reads Writes) (s : MapStream) : Prop :=
  (∃ r, m.Reading r ∧ m.read r = s) ∨ ∃ w, m.Writing w ∧ m.write w = s

/-- What a command that is taken can rely on: exact arithmetic, elements and cursors
inside the addresses, and no element written that is also another one. -/
structure Sound (m : MemoryMapCommand Reads Writes) : Prop where
  shaped : m.Shaped
  count : (m.rows.toUInt64 * m.columns.toUInt64).toUInt32.toNat =
    m.rows.toNat * m.columns.toNat
  endAddress : ∀ s, m.Uses s →
    (m.endAddress s).toNat = s.affine.stop m.rows.toNat m.columns.toNat
  rowSpan : ∀ s, m.Uses s → (m.rowSpan s).toNat = s.affine.span m.columns.toNat
  delta : ∀ a b s, m.Uses s →
    (delta a b + m.rowSpan s).toNat = (delta a b).toNat + s.affine.span m.columns.toNat
  inside : ∀ s, m.Uses s → ∀ r < m.rows.toNat, ∀ c < m.columns.toNat,
    s.affine.address r c + s.affine.size ≤ 2 ^ 32
  cursor : ∀ s, m.Uses s → ∀ n < m.rows.toNat * m.columns.toNat,
    (m.cursorAt s n).cursor.toNat =
      s.affine.address (n / m.columns.toNat) (n % m.columns.toNat)
  own : ∀ w, m.Writing w → ∀ r < m.rows.toNat, ∀ c < m.columns.toNat, ∀ r' < m.rows.toNat,
    ∀ c' < m.columns.toNat, (r, c) ≠ (r', c') →
      (m.write w).affine.Apart (m.write w).affine r c r' c'
  writes : ∀ v w, m.Writing v → m.Writing w → v ≠ w → m.ApartAll (m.write v) (m.write w)
  reads : ∀ r w, m.Reading r → m.Writing w →
    m.SameElements (m.read r) (m.write w) ∨ m.ApartAll (m.read r) (m.write w)

/-- Every stream of a command that is taken has passed its tests. -/
theorem valid_streams (h : m.commandValid = true) :
    (∀ r, m.Reading r → m.streamValid (m.read r) false = true) ∧
      ∀ w, m.Writing w → m.writeValid w = true := by
  simp only [commandValid, Bool.and_eq_true, List.all_eq_true, List.mem_finRange, true_implies,
    Bool.or_eq_true, Bool.not_eq_true', decide_eq_false_iff_not] at h
  exact ⟨fun r hr => (h.1.2 r).resolve_left (not_not.mpr hr),
    fun w hw => (h.2 w).resolve_left (not_not.mpr hw)⟩

theorem commandValid_sound (h : m.commandValid = true) : m.Sound := by
  have hm := shaped h
  obtain ⟨hreads, hwrites⟩ := valid_streams h
  have hwrite : ∀ w, m.Writing w → m.streamValid (m.write w) true = true ∧
      (∀ v, v < w ∧ m.Writing v → m.disjoint (m.write w) (m.write v) = true) ∧
      ∀ r, m.Reading r → m.same (m.read r) (m.write w) = true ∨
        m.disjoint (m.read r) (m.write w) = true := fun w hw => by
    have hvalid := hwrites w hw
    simp only [writeValid, Bool.and_eq_true, List.all_eq_true, List.mem_finRange, true_implies,
      Bool.or_eq_true, Bool.not_eq_true', decide_eq_false_iff_not] at hvalid
    exact ⟨hvalid.1.1, fun v hv => (hvalid.1.2 v).resolve_left (not_not.mpr hv),
      fun r hr => (hvalid.2 r).resolve_left (not_not.mpr hr)⟩
  have hfits : ∀ s, m.Uses s → m.Fits s := by
    rintro s (⟨r, hr, rfl⟩ | ⟨w, hw, rfl⟩)
    · exact fits hm (hreads r hr)
    · exact fits hm (hwrite w hw).1
  constructor
  · exact hm
  · have hcount := hm.count
    rw [UInt64.toNat_toUInt32, UInt64.toNat_mul, UInt32.toNat_toUInt64, UInt32.toNat_toUInt64]
    omega
  · exact fun s _ => toNat_endAddress hm s
  · exact fun s _ => toNat_rowSpan hm s
  · exact fun a b s hs => toNat_delta_add hm (hfits s hs)
  · exact fun s hs r hr c hc => (address_le_stop hr hc).trans (hfits s hs).stop
  · exact fun s hs n hn => cursor_exact hm (hfits s hs) hn
  · intro w hw r hr c hc r' hr' c' hc' hne
    obtain ⟨hcolumn, hrow⟩ := steps_over hm (hwrite w hw).1
    exact apart_self hcolumn hrow hr hc hr' hc' hne
  · intro v w hv hw hne
    have hv' := hfits _ (.inr ⟨v, hv, rfl⟩)
    have hw' := hfits _ (.inr ⟨w, hw, rfl⟩)
    -- each pair is tested once, in the later stream's turn
    rcases Fin.lt_or_lt_of_ne hne with hlt | hlt
    · exact (disjoint_apart hm hw' hv' ((hwrite w hw).2.1 v ⟨hlt, hv⟩)).symm
    · exact disjoint_apart hm hv' hw' ((hwrite v hv).2.1 w ⟨hlt, hw⟩)
  · intro r w hr hw
    rcases (hwrite w hw).2.2 r hr with hsame | hdisjoint
    · exact .inl (same_elements hsame)
    · exact .inr (disjoint_apart hm (hfits _ (.inl ⟨r, hr, rfl⟩)) (hfits _ (.inr ⟨w, hw, rfl⟩))
        hdisjoint)

/-- Two interleaved halves of a table of three rows; one of them is also read. -/
theorem commandValid_sound_halves :
    let m : MemoryMapCommand 1 2 := ⟨3, 4, 1, 2, fun _ => ⟨0x1000, 32, 4, 4⟩,
      fun w => ⟨if w = 0 then 0x1000 else 0x1010, 32, 4, 4⟩⟩
    m.Sound :=
  commandValid_sound (by decide +kernel)

end MemoryMapCommand

end CppHdl.Hls
