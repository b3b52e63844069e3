import Mathlib.Data.Int.ModEq
import CppHdl.Lib.Carry
import CppHdl.Words.Logic

/-!
# Addition and subtraction of logic vectors

`operator+` and `operator-` work through 64-bit blocks, then through the bytes
that are left, with a carry or borrow between them. The carry of an addition is
exact. The borrow of a block is tested by `a < b + borrow`: where the block of
`b` is all ones and a borrow comes in, the sum wraps to zero and the borrow out
is lost. `modular_iff` says that this is the only way either operator goes wrong.
-/

namespace CppHdl.Words

/-- The bytes written so far and the carry or borrow. -/
abbrev Serial := List UInt8 × UInt64

def addChunk (a b : List UInt8) (s : Serial) (i : Nat) : Serial :=
  let x := load64 a (8 * i)
  let y := load64 b (8 * i)
  let sum := x + y + s.2
  (store64 s.1 (8 * i) sum, if sum < x ∨ (s.2 ≠ 0 ∧ sum = x) then 1 else 0)

def addByte (a b : List UInt8) (s : Serial) (i : Nat) : Serial :=
  let sum := (a.getD i 0).toUInt16 + (b.getD i 0).toUInt16 + s.2.toUInt16
  (writeBytes s.1 i [sum.toUInt8], (sum >>> 8).toUInt64)

def subChunk (a b : List UInt8) (s : Serial) (i : Nat) : Serial :=
  let x := load64 a (8 * i)
  let y := load64 b (8 * i)
  let diff := x - y - s.2
  (store64 s.1 (8 * i) diff, if x < y + s.2 then 1 else 0)

/-- The `int16_t` difference is negative when its top bit is set. -/
def subByte (a b : List UInt8) (s : Serial) (i : Nat) : Serial :=
  let diff := (a.getD i 0).toUInt16 - (b.getD i 0).toUInt16 - s.2.toUInt16
  (writeBytes s.1 i [diff.toUInt8], if 0x8000 ≤ diff then 1 else 0)

def Serial.start (n : Nat) : Serial := (List.replicate n 0, 0)

/-! ## Loops -/

theorem Serial.length_blocks {n : Nat} {chunk byte : Serial → Nat → Serial}
    (hchunk : ∀ i s, 8 * i + 8 ≤ s.1.length → (chunk s i).1.length = s.1.length)
    (hbyte : ∀ i s, i + 1 ≤ s.1.length → (byte s i).1.length = s.1.length) :
    (blocks n chunk byte (start n)).1.length = n := by
  refine blocks_induction (P := fun _ (s : Serial) => s.1.length = n) (List.length_replicate ..) ?_ ?_
  · intro i s hi hlen
    rw [hchunk i s (by omega), hlen]
  · intro i s hi hlen
    rw [hbyte i s (by omega), hlen]

namespace Logic

variable {width : Nat}

def add (a b : Logic width) : Logic width where
  bytes := (blocks (size width) (addChunk a.bytes b.bytes) (addByte a.bytes b.bytes)
    (Serial.start (size width))).1
  length_eq :=
    Serial.length_blocks (fun _ _ h => length_store64 h _) (fun _ _ h => length_writeBytes h)

def sub (a b : Logic width) : Logic width where
  bytes := (blocks (size width) (subChunk a.bytes b.bytes) (subByte a.bytes b.bytes)
    (Serial.start (size width))).1
  length_eq :=
    Serial.length_blocks (fun _ _ h => length_store64 h _) (fun _ _ h => length_writeBytes h)

/-- The carry of `operator+` into block `k`. -/
def carryInto (a b : Logic width) (k : Nat) : UInt64 :=
  ((List.range k).foldl (addChunk a.bytes b.bytes) (Serial.start (size width))).2

/-- The borrow of `operator-` into block `k`. -/
def borrowInto (a b : Logic width) (k : Nat) : UInt64 :=
  ((List.range k).foldl (subChunk a.bytes b.bytes) (Serial.start (size width))).2

end Logic

/-! ## Digits -/

theorem addChunk_digit {x y c : UInt64} (hc : c.toNat ≤ 1) :
    x.toNat + y.toNat + c.toNat = (x + y + c).toNat + 2 ^ 64 *
      (if x + y + c < x ∨ (c ≠ 0 ∧ x + y + c = x) then 1 else 0 : UInt64).toNat := by
  have hx := x.toNat_lt
  have hy := y.toNat_lt
  have hzero : c ≠ 0 ↔ c.toNat ≠ 0 := by rw [Ne, ← UInt64.toNat_inj]; rfl
  have hsum : (x + y + c).toNat = (x.toNat + y.toNat + c.toNat) % 2 ^ 64 := by
    rw [UInt64.toNat_add, UInt64.toNat_add, Nat.mod_add_mod]
  simp only [UInt64.lt_iff_toNat_lt, ← UInt64.toNat_inj (a := x + y + c), hzero, hsum]
  split_ifs with hcarry
  · change _ = _ + 2 ^ 64 * 1
    omega
  · change _ = _ + 2 ^ 64 * 0
    omega

theorem addByte_digit {x y : UInt8} {c : UInt64} (hc : c.toNat ≤ 1) :
    x.toNat + y.toNat + c.toNat =
      (x.toUInt16 + y.toUInt16 + c.toUInt16).toUInt8.toNat +
        2 ^ 8 * ((x.toUInt16 + y.toUInt16 + c.toUInt16) >>> 8).toUInt64.toNat := by
  have hx := x.toNat_lt
  have hy := y.toNat_lt
  have hsum : (x.toUInt16 + y.toUInt16 + c.toUInt16).toNat = x.toNat + y.toNat + c.toNat := by
    simp only [UInt16.toNat_add, UInt8.toNat_toUInt16, UInt64.toNat_toUInt16]
    omega
  have hcarry : ((x.toUInt16 + y.toUInt16 + c.toUInt16) >>> 8).toNat =
      (x.toNat + y.toNat + c.toNat) / 2 ^ 8 := by
    rw [UInt16.toNat_shiftRight, hsum, Nat.shiftRight_eq_div_pow]
    rfl
  rw [UInt16.toNat_toUInt8, UInt16.toNat_toUInt64, hsum, hcarry]
  omega

def borrow (x y c : Nat) : Nat := if x < y + c then 1 else 0

theorem subChunk_digit {x y c : UInt64} (hc : c.toNat ≤ 1) :
    (x - y - c).toNat + y.toNat + c.toNat =
      x.toNat + 2 ^ 64 * borrow x.toNat y.toNat c.toNat := by
  have hx := x.toNat_lt
  have hy := y.toNat_lt
  have hdiff : (x - y - c).toNat = (2 * 2 ^ 64 + x.toNat - y.toNat - c.toNat) % 2 ^ 64 := by
    rw [UInt64.toNat_sub, UInt64.toNat_sub]
    omega
  unfold borrow
  rw [hdiff]
  split_ifs <;> omega

/-- The test of the code misses a borrow in one case. -/
theorem subChunk_borrow {x y c : UInt64} (hc : c.toNat ≤ 1) :
    (if x < y + c then 1 else 0 : UInt64).toNat =
      if y.toNat = 2 ^ 64 - 1 ∧ c.toNat = 1 then 0 else borrow x.toNat y.toNat c.toNat := by
  have hx := x.toNat_lt
  have hy := y.toNat_lt
  have hsum : (y + c).toNat = (y.toNat + c.toNat) % 2 ^ 64 := UInt64.toNat_add ..
  unfold borrow
  simp only [UInt64.lt_iff_toNat_lt, hsum]
  split_ifs <;> first | rfl | omega

theorem subByte_digit {x y : UInt8} {c : UInt64} (hc : c.toNat ≤ 1) :
    (x.toUInt16 - y.toUInt16 - c.toUInt16).toUInt8.toNat + y.toNat + c.toNat =
      x.toNat + 2 ^ 8 *
        (if 0x8000 ≤ x.toUInt16 - y.toUInt16 - c.toUInt16 then 1 else 0 : UInt64).toNat := by
  have hx := x.toNat_lt
  have hy := y.toNat_lt
  have hdiff : (x.toUInt16 - y.toUInt16 - c.toUInt16).toNat =
      (2 * 2 ^ 16 + x.toNat - y.toNat - c.toNat) % 2 ^ 16 := by
    simp only [UInt16.toNat_sub, UInt8.toNat_toUInt16, UInt64.toNat_toUInt16]
    omega
  have hneg : 0x8000 ≤ x.toUInt16 - y.toUInt16 - c.toUInt16 ↔ x.toNat < y.toNat + c.toNat := by
    rw [UInt16.le_iff_toNat_le, hdiff]
    change 32768 ≤ _ ↔ _
    omega
  simp only [hneg, UInt16.toNat_toUInt8, hdiff]
  split_ifs
  · change _ = _ + 2 ^ 8 * 1
    omega
  · change _ = _ + 2 ^ 8 * 0
    omega

/-! ## Addition -/

/-- What the loop of `operator+` knows at bit `p`. -/
structure Adding (a b : List UInt8) (n p : Nat) (s : Serial) : Prop where
  length : s.1.length = n
  carried : Carried p (natOfBytes a) (natOfBytes b) (natOfBytes s.1) s.2.toNat

section

variable {a b : List UInt8} {n : Nat}

theorem Adding.start : Adding a b n 0 (Serial.start n) where
  length := List.length_replicate ..
  carried := Carried.zero ..

theorem Adding.chunk {i : Nat} {s : Serial} (hi : i < n / 8) (h : Adding a b n (64 * i) s) :
    Adding a b n (64 * i + 64) (addChunk a b s i) := by
  have hfit : 8 * i + 8 ≤ s.1.length := by rw [h.length]; omega
  have hwrite := natOfBytes_store64_mod hfit (load64 a (8 * i) + load64 b (8 * i) + s.2)
  have hdigit := addChunk_digit (x := load64 a (8 * i)) (y := load64 b (8 * i)) h.carried.le_one
  rw [show 8 * (8 * i) = 64 * i by omega] at hwrite
  rw [toNat_load64, toNat_load64, show 8 * (8 * i) = 64 * i by omega] at hdigit
  exact ⟨(length_store64 hfit _).trans h.length, h.carried.write hwrite hdigit⟩

theorem Adding.byte {i : Nat} {s : Serial} (hi : i < n) (h : Adding a b n (8 * i) s) :
    Adding a b n (8 * i + 8) (addByte a b s i) := by
  have hfit : i < s.1.length := by rwa [h.length]
  have hwrite := natOfBytes_writeBytes_byte hfit
    ((a.getD i 0).toUInt16 + (b.getD i 0).toUInt16 + s.2.toUInt16).toUInt8
  have hdigit := addByte_digit (x := a.getD i 0) (y := b.getD i 0) h.carried.le_one
  rw [toNat_getD, toNat_getD] at hdigit
  exact ⟨(length_writeBytes hfit).trans h.length, h.carried.write hwrite hdigit⟩

end

/-! ## Subtraction -/

/-- What the loop of `operator-` knows at bit `p`. The borrow out of the last
block, which nothing reads, may be wrong. -/
structure Subtracting (a b : List UInt8) (n p : Nat) (s : Serial) : Prop where
  length : s.1.length = n
  carried : ∃ c, Carried p (natOfBytes s.1) (natOfBytes b) (natOfBytes a) c ∧
    (p < 8 * n → s.2.toNat = c)

section

variable {a b : List UInt8} {n : Nat}

theorem Subtracting.start : Subtracting a b n 0 (Serial.start n) where
  length := List.length_replicate ..
  carried := ⟨0, Carried.zero .., fun _ => rfl⟩

theorem Subtracting.chunk {i : Nat} {s : Serial} (hi : i < n / 8)
    (hsafe : 8 * (i + 1) < n → ¬ (digit (64 * i) 64 (natOfBytes b) = 2 ^ 64 - 1 ∧
      natOfBytes a % 2 ^ (64 * i) < natOfBytes b % 2 ^ (64 * i)))
    (h : Subtracting a b n (64 * i) s) :
    Subtracting a b n (64 * i + 64) (subChunk a b s i) := by
  have hfit : 8 * i + 8 ≤ s.1.length := by rw [h.length]; omega
  obtain ⟨c, hcarried, hc⟩ := h.carried
  obtain rfl := hc (by omega)
  have hwrite := natOfBytes_store64_mod hfit (load64 a (8 * i) - load64 b (8 * i) - s.2)
  have hdigit := subChunk_digit (x := load64 a (8 * i)) (y := load64 b (8 * i)) hcarried.le_one
  have hx := toNat_load64 a (8 * i)
  have hy := toNat_load64 b (8 * i)
  rw [show 8 * (8 * i) = 64 * i by omega] at hwrite hx hy
  refine ⟨(length_store64 hfit _).trans h.length,
    borrow (load64 a (8 * i)).toNat (load64 b (8 * i)).toNat s.2.toNat, ?_, ?_⟩
  · rw [hx, hy] at hdigit ⊢
    exact hcarried.writeDiff hwrite hdigit
  · intro hlt
    have hmiss := hsafe (by omega)
    rw [← hcarried.borrow_iff] at hmiss
    exact (subChunk_borrow hcarried.le_one).trans (if_neg (by rwa [hy]))

theorem Subtracting.byte {i : Nat} {s : Serial} (hi : i < n)
    (h : Subtracting a b n (8 * i) s) : Subtracting a b n (8 * i + 8) (subByte a b s i) := by
  obtain ⟨c, hcarried, hc⟩ := h.carried
  obtain rfl := hc (by omega)
  have hfit : i < s.1.length := by rwa [h.length]
  have hwrite := natOfBytes_writeBytes_byte hfit
    ((a.getD i 0).toUInt16 - (b.getD i 0).toUInt16 - s.2.toUInt16).toUInt8
  have hdigit := subByte_digit (x := a.getD i 0) (y := b.getD i 0) hcarried.le_one
  rw [toNat_getD a, toNat_getD b] at hdigit
  exact ⟨(length_writeBytes hfit).trans h.length, _, hcarried.writeDiff hwrite hdigit,
    fun _ => rfl⟩

end

/-! ## Both operators -/

namespace Logic

variable {width : Nat} (a b : Logic width)

/-- No block of `b` with storage after it is all ones where a borrow comes in. -/
def BorrowSafe : Prop :=
  ∀ i, 8 * (i + 1) < size width → ¬ (b.value / 2 ^ (64 * i) % 2 ^ 64 = 2 ^ 64 - 1 ∧
    a.value % 2 ^ (64 * i) < b.value % 2 ^ (64 * i))

/-- The bits of the vector are those of the sum and of the difference, and every
carry and borrow that goes on into storage is exact. -/
structure Modular : Prop where
  add : (a.add b).value = (a.value + b.value) % 2 ^ width
  sub : ((a.sub b).value : Int) = ((a.value : Int) - b.value) % 2 ^ width
  carry : ∀ k, 8 * k < size width → (a.carryInto b k).toNat =
    if 2 ^ (64 * k) ≤ a.value % 2 ^ (64 * k) + b.value % 2 ^ (64 * k) then 1 else 0
  borrow : ∀ k, 8 * k < size width → (a.borrowInto b k).toNat =
    if a.value % 2 ^ (64 * k) < b.value % 2 ^ (64 * k) then 1 else 0

variable {a b}

theorem carried_add : ∃ c, Carried (8 * size width) a.toNat b.toNat (a.add b).toNat c :=
  ⟨_, (blocks_induction Adding.start (fun _ _ => Adding.chunk) (fun _ _ => Adding.byte)).carried⟩

theorem toNat_add : (a.add b).toNat = (a.toNat + b.toNat) % 2 ^ (8 * size width) := by
  obtain ⟨c, hc⟩ := @carried_add width a b
  rw [← hc.mod (Nat.le_refl _), Nat.mod_eq_of_lt (toNat_lt _)]

theorem digit_value (x : Logic width) {p d : Nat} (h : p + d ≤ width) :
    digit p d x.value = digit p d x.toNat := by
  have hlow := x.value_mod (p := p) (by omega)
  have hall := x.value_mod h
  rw [mod_two_pow_digit, mod_two_pow_digit, hlow] at hall
  exact Nat.eq_of_mul_eq_mul_left (Nat.two_pow_pos p) (Nat.add_left_cancel hall)

theorem BorrowSafe.chunk (h : BorrowSafe a b) {i : Nat} {s : Serial} (hi : i < size width / 8)
    (hs : Subtracting a.bytes b.bytes (size width) (64 * i) s) :
    Subtracting a.bytes b.bytes (size width) (64 * i + 64) (subChunk a.bytes b.bytes s i) := by
  refine hs.chunk hi fun hlt => ?_
  have hwidth := lt_width_of_lt_size hlt
  have := h i hlt
  rwa [a.value_mod (by omega), b.value_mod (by omega),
    show b.value / 2 ^ (64 * i) % 2 ^ 64 = digit (64 * i) 64 b.value from rfl,
    digit_value b (by omega)] at this

theorem BorrowSafe.carried (h : BorrowSafe a b) :
    ∃ c, Carried (8 * size width) (a.sub b).toNat b.toNat a.toNat c := by
  obtain ⟨c, hc, -⟩ := (blocks_induction Subtracting.start (fun _ _ => h.chunk) (fun _ _ => Subtracting.byte)).carried
  exact ⟨c, hc⟩

theorem le_blocks_of_lt {k : Nat} (h : 8 * k < size width) : k ≤ size width / 8 := by
  omega

theorem toNat_carryInto {k : Nat} (hk : 8 * k < size width) : (a.carryInto b k).toNat =
    if 2 ^ (64 * k) ≤ a.value % 2 ^ (64 * k) + b.value % 2 ^ (64 * k) then 1 else 0 := by
  have hwidth := lt_width_of_lt_size hk
  have hadding : Adding a.bytes b.bytes (size width) (64 * k) _ :=
    chunks_induction Adding.start (fun _ _ => Adding.chunk) (le_blocks_of_lt hk)
  have hcarried := hadding.carried
  have hle := hcarried.le_one
  rw [a.value_mod (by omega), b.value_mod (by omega)]
  split_ifs with hover
  · exact hcarried.carry_iff.mpr hover
  · have := mt hcarried.carry_iff.mp hover
    change (a.carryInto b k).toNat ≠ 1 at this
    change (a.carryInto b k).toNat ≤ 1 at hle
    omega

theorem BorrowSafe.toNat_borrowInto (h : BorrowSafe a b) {k : Nat} (hk : 8 * k < size width) :
    (a.borrowInto b k).toNat =
      if a.value % 2 ^ (64 * k) < b.value % 2 ^ (64 * k) then 1 else 0 := by
  have hwidth := lt_width_of_lt_size hk
  obtain ⟨c, hcarried, hc⟩ := (chunks_induction Subtracting.start
    (fun _ _ => h.chunk) (le_blocks_of_lt hk)).carried
  have hle := hcarried.le_one
  rw [show (a.borrowInto b k).toNat = c from hc (by omega), a.value_mod (by omega),
    b.value_mod (by omega)]
  split_ifs with hlt
  · exact hcarried.borrow_iff.mpr hlt
  · have := mt hcarried.borrow_iff.mp hlt
    omega

/-- A lost borrow shows in the next block. -/
theorem BorrowSafe.of_borrowInto (h : ∀ k, 8 * k < size width → (a.borrowInto b k).toNat =
    if a.value % 2 ^ (64 * k) < b.value % 2 ^ (64 * k) then 1 else 0) : BorrowSafe a b := by
  rintro i hi ⟨hones, hlt⟩
  have hwidth := lt_width_of_lt_size hi
  have hin := h i (by omega)
  have hout := h (i + 1) hi
  rw [if_pos hlt] at hin
  rw [if_pos] at hout
  · have hloop : a.borrowInto b (i + 1) =
        if load64 a.bytes (8 * i) < load64 b.bytes (8 * i) + a.borrowInto b i
        then 1 else 0 := by
      unfold borrowInto
      rw [List.range_succ, List.foldl_append]
      rfl
    have hy : (load64 b.bytes (8 * i)).toNat = 2 ^ 64 - 1 := by
      rw [toNat_load64, show 8 * (8 * i) = 64 * i by omega]
      exact (digit_value b (by omega)).symm.trans hones
    rw [hloop, subChunk_borrow (by omega), if_pos ⟨hy, hin⟩] at hout
    cases hout
  · -- below an all-ones block with a borrow, `b` is the larger one
    have ha := Nat.mod_lt (a.value / 2 ^ (64 * i)) (Nat.two_pow_pos 64)
    rw [show 64 * (i + 1) = 64 * i + 64 by omega, mod_two_pow_digit, mod_two_pow_digit, digit,
      digit, hones]
    have hle : 2 ^ (64 * i) * (a.value / 2 ^ (64 * i) % 2 ^ 64) ≤
        2 ^ (64 * i) * (2 ^ 64 - 1) := Nat.mul_le_mul_left _ (by omega)
    omega

/-- Both operators are modular, with exact carries, exactly when no borrow is lost. -/
theorem modular_iff (a b : Logic width) : Modular a b ↔ BorrowSafe a b := by
  constructor
  · exact fun h => BorrowSafe.of_borrowInto h.borrow
  · intro h
    have hle := le_size width
    refine ⟨?_, ?_, fun k hk => toNat_carryInto hk, fun k hk => h.toNat_borrowInto hk⟩
    · obtain ⟨c, hc⟩ := @carried_add width a b
      rw [value, hc.mod hle, Nat.add_mod]
      rfl
    · obtain ⟨c, hc⟩ := h.carried
      have hsum := hc.mod hle
      have hint : ((a.sub b).toNat : Int) ≡ a.toNat - b.toNat [ZMOD 2 ^ width] := by
        have hnat : a.toNat ≡ (a.sub b).toNat + b.toNat [MOD 2 ^ width] := hsum
        have := (Int.natCast_modEq_iff.mpr hnat).symm.sub_right b.toNat
        push_cast at this
        rwa [Int.add_sub_cancel] at this
      unfold value
      push_cast
      rw [hint, Int.sub_emod]

/-- A borrow comes into a block of ones: `2^128 - (2^128 - 2^64 + 1)` comes out as
`2^128 + 2^64 - 1`. -/
theorem sub_loses_borrow :
    let a := Logic.ofNat 192 (2 ^ 128)
    let b := Logic.ofNat 192 (2 ^ 128 - 2 ^ 64 + 1)
    a.Canonical ∧ b.Canonical ∧ ¬ Modular a b := by
  refine ⟨?_, ?_, fun h => ?_⟩
  · unfold Canonical
    decide +kernel
  · unfold Canonical
    decide +kernel
  · have hsub := h.sub
    revert hsub
    decide +kernel

end Logic

end CppHdl.Words
