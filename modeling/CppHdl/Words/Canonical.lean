import Mathlib.Logic.Function.Basic
import CppHdl.Lib.Transition
import CppHdl.Words.Arithmetic
import CppHdl.Words.Cat

/-!
# Padding in programs over logic vectors

A program computes with variables of fixed widths, one operation at a time.
Where all padding is zero, the comparisons, `bool`, `to_uint64` and the bytes
themselves depend on the values of the vectors only (`reads_value`). Every
operation keeps it so, except `<<`, `+` and `-`: they return what their loops
leave in the storage and do not mask. `Op.canonical_iff` says when their results
are canonical.
-/

namespace CppHdl.Words

open Logic

/-- One operation on variables of widths `W`, indexed by the width of its result. -/
inductive Op {ι : Type} (W : ι → Nat) : Nat → Type
  | integer {width : Nat} (x : UInt64) : Op W width
  | convert {width : Nat} (x : ι) : Op W width
  | complement (x : ι) : Op W (W x)
  | and (x y : ι) : Op W (W x)
  | or (x y : ι) : Op W (W x)
  | xor (x y : ι) : Op W (W x)
  | shl (x : ι) (shift : Nat) : Op W (W x)
  | shr (x : ι) (shift : Nat) : Op W (W x)
  | add (x y : ι) : Op W (W x)
  | sub (x y : ι) : Op W (W x)
  | increment (x : ι) : Op W (W x)
  | decrement (x : ι) : Op W (W x)
  | bits (x : ι) (last first : Nat) (h : first ≤ last ∧ last < W x) : Op W (W x)
  | constBits (x : ι) (last first : Nat) (h : first ≤ last ∧ last < W x) : Op W (W x)
  | slice (x : ι) (last first : Nat) (h : first ≤ last ∧ last < W x) : Op W (last - first + 1)
  | writeBits (x : ι) (last first : Nat) (h : first ≤ last ∧ last < W x) (y : ι) : Op W (W x)
  | cat (xs : List ι) : Op W (xs.map W).sum

section

variable {ι : Type} {W : ι → Nat}

/-- The contents of the variables. -/
abbrev Store (W : ι → Nat) := ∀ x, Logic (W x)

theorem totalWidth_fields (s : Store W) (xs : List ι) :
    totalWidth (xs.map fun x => ⟨W x, s x⟩) = (xs.map W).sum := by
  rw [totalWidth, List.map_map]
  rfl

namespace Op

/-- The second operand is converted to the width of the first. -/
def eval (s : Store W) : {width : Nat} → Op W width → Logic width
  | _, integer x => assignUInt64 _ x
  | _, convert x => Logic.convert _ (s x)
  | _, complement x => (s x).complement
  | _, and x y => (s x).and (Logic.convert _ (s y))
  | _, or x y => (s x).or (Logic.convert _ (s y))
  | _, xor x y => (s x).xor (Logic.convert _ (s y))
  | _, shl x shift => (s x).shl shift
  | _, shr x shift => (s x).shr shift
  | _, add x y => (s x).add (Logic.convert _ (s y))
  | _, sub x y => (s x).sub (Logic.convert _ (s y))
  | _, increment x => (s x).increment
  | _, decrement x => (s x).decrement
  | _, bits x last first h => (s x).snapshot last first h
  | _, constBits x last first h => (s x).constBits last first h
  | _, slice x last first _ => (s x).slice last first
  | _, writeBits x last first h y => (s x).writeBits last first h (s y)
  | _, cat xs => Logic.cat _ (xs.map fun x => ⟨W x, s x⟩) (totalWidth_fields s xs)

/-- What must hold of the operands for a canonical result: a shift or a sum stays
in the vector or wraps around the storage into it, and a difference is not
negative, unless the vector fills its storage. -/
def Keeps (s : Store W) : {width : Nat} → Op W width → Prop
  | _, shl x shift => (s x).value * 2 ^ shift % 2 ^ (8 * size (W x)) < 2 ^ W x
  | _, add x y =>
      ((s x).value + (s y).value % 2 ^ W x) % 2 ^ (8 * size (W x)) < 2 ^ W x
  | _, sub x y => W x % 8 = 0 ∨
      ((s y).value % 2 ^ W x ≤ (s x).value ∧ BorrowSafe (s x) (Logic.convert _ (s y)))
  | _, _ => True

end Op

/-- `target = operation`, where the widths agree. -/
structure Statement (W : ι → Nat) where
  target : ι
  width : Nat
  op : Op W width
  fits : width = W target

namespace Statement

variable [DecidableEq ι]

def run (st : Statement W) (s : Store W) : Store W :=
  Function.update s st.target (st.fits ▸ st.op.eval s)

end Statement

/-- Programs that start with zero padding. -/
def programs [DecidableEq ι] (W : ι → Nat) : Transitions (Store W) (Statement W) where
  init s := ∀ x, (s x).Canonical
  step s e s' := ∃ st, e = some st ∧ s' = st.run s

/-- Programs that meet the condition at every step. -/
def keeping [DecidableEq ι] (W : ι → Nat) : Transitions (Store W) (Statement W) where
  init := (programs W).init
  step s e s' := (programs W).step s e s' ∧ ∀ st, e = some st → st.op.Keeps s

/-! ## One operation -/

theorem convert_canonical {other width : Nat} {x : Logic other} (h : x.Canonical) :
    (Logic.convert width x).Canonical := by
  unfold Canonical
  rw [toNat_convert]
  split_ifs with hwidth
  · exact hwidth ▸ h
  · exact Nat.mod_lt _ (Nat.two_pow_pos _)

theorem toNat_convert_canonical {other width : Nat} {x : Logic other} (h : x.Canonical) :
    (Logic.convert width x).toNat = x.value % 2 ^ width := by
  rw [toNat_convert, h.value_eq]
  split_ifs with hwidth
  · exact (Nat.mod_eq_of_lt (hwidth ▸ h)).symm
  · rfl

theorem canonical_of_testBit {width : Nat} {x : Logic width}
    (h : ∀ i, width ≤ i → x.toNat.testBit i = false) : x.Canonical :=
  Nat.lt_pow_two_of_testBit _ h

theorem Canonical.testBit {width : Nat} {x : Logic width} (h : x.Canonical) {i : Nat}
    (hi : width ≤ i) : x.toNat.testBit i = false :=
  Nat.testBit_lt_two_pow (Nat.lt_of_lt_of_le h (Nat.pow_le_pow_right (by decide) hi))

theorem binary_canonical {width : Nat} {op : UInt64 → UInt64 → UInt64} {f : Bool → Bool → Bool}
    (hop : Bitwise op f) (hf : f false false = false) {x y : Logic width} (hx : x.Canonical)
    (hy : y.Canonical) : (Logic.binary op x y).Canonical :=
  canonical_of_testBit fun i hi => by
    rw [testBit_binary hop hf, Canonical.testBit hx hi, Canonical.testBit hy hi, hf]

/-- Numbers of a range of bits fit the vector. -/
theorem mod_field_lt {x first last width : Nat} (h : first ≤ last ∧ last < width) :
    x / 2 ^ first % 2 ^ (last + 1 - first) < 2 ^ width :=
  Nat.lt_of_lt_of_le (Nat.mod_lt _ (Nat.two_pow_pos _))
    (Nat.pow_le_pow_right (by decide) (by omega))

/-- A difference leaves the padding alone when the storage has none or nothing is
borrowed at the end. -/
theorem sub_canonical_iff {width : Nat} {a b : Logic width} (ha : a.Canonical)
    (hb : b.Canonical) (h : BorrowSafe a b) :
    (a.sub b).Canonical ↔ width % 8 = 0 ∨ b.toNat ≤ a.toNat := by
  obtain ⟨c, hc⟩ := h.carried
  have hle := hc.le_one
  have hlt := (a.sub b).toNat_lt
  unfold Carried at hc
  rw [Nat.mod_eq_of_lt hlt, Nat.mod_eq_of_lt a.toNat_lt, Nat.mod_eq_of_lt b.toNat_lt] at hc
  unfold Canonical at *
  rcases Nat.eq_zero_or_pos (width % 8) with hwhole | hpart
  · rw [show 8 * size width = width by unfold size; omega] at hlt
    exact ⟨fun _ => .inl hwhole, fun _ => hlt⟩
  · have hpow : 2 ^ (width + 1) ≤ 2 ^ (8 * size width) :=
      Nat.pow_le_pow_right (by decide) (by unfold size; omega)
    rw [Nat.pow_succ] at hpow
    rw [or_iff_right (by omega)]
    rcases Nat.eq_zero_or_pos c with rfl | hborrow
    · constructor <;> omega
    · obtain rfl : c = 1 := by omega
      constructor <;> omega

namespace Op

variable {s : Store W} {width : Nat}

/-- No borrow is lost in a subtraction. -/
def Exact (s : Store W) : {width : Nat} → Op W width → Prop
  | _, sub x y => BorrowSafe (s x) (Logic.convert _ (s y))
  | _, _ => True

/-- The result of an operation is canonical exactly under its condition, where no
borrow is lost. -/
theorem canonical_iff (hs : ∀ x, (s x).Canonical) (op : Op W width) (h : op.Exact s) :
    (op.eval s).Canonical ↔ op.Keeps s := by
  cases op with
  | integer x =>
      refine iff_of_true ?_ trivial
      exact (toNat_assignUInt64 x).trans_lt (Nat.mod_lt _ (Nat.two_pow_pos _))
  | convert x => exact iff_of_true (convert_canonical (hs x)) trivial
  | complement x =>
      refine iff_of_true (canonical_of_testBit fun i hi => ?_) trivial
      change (s x).complement.toNat.testBit i = false
      rw [testBit_complement, decide_eq_false (by omega), Bool.false_and]
  | and x y =>
      exact iff_of_true (binary_canonical bitwise_and rfl (hs x) (convert_canonical (hs y)))
        trivial
  | or x y =>
      exact iff_of_true (binary_canonical bitwise_or rfl (hs x) (convert_canonical (hs y)))
        trivial
  | xor x y =>
      exact iff_of_true (binary_canonical bitwise_xor rfl (hs x) (convert_canonical (hs y)))
        trivial
  | shl x shift =>
      change ((s x).shl shift).toNat < _ ↔ (s x).value * _ % _ < _
      rw [toNat_shl, (hs x).value_eq]
  | shr x shift =>
      refine iff_of_true ?_ trivial
      change ((s x).shr shift).toNat < _
      rw [toNat_shr]
      exact Nat.lt_of_le_of_lt (Nat.div_le_self _ _) (hs x)
  | add x y =>
      change ((s x).add _).toNat < _ ↔ ((s x).value + _) % _ < _
      rw [toNat_add, (hs x).value_eq, toNat_convert_canonical (hs y)]
  | sub x y =>
      have hy : (Logic.convert (W x) (s y)).Canonical := convert_canonical (hs y)
      refine (sub_canonical_iff (hs x) hy h).trans ?_
      rw [toNat_convert_canonical (hs y), ← (hs x).value_eq]
      exact or_congr_right (and_iff_left h).symm
  | increment x | decrement x =>
      refine iff_of_true ?_ trivial
      exact (toNat_assignUInt64 _).trans_lt (Nat.mod_lt _ (Nat.two_pow_pos _))
  | bits x last first hrange =>
      exact iff_of_true ((toNat_snapshot (s x) last first hrange).trans_lt (mod_field_lt hrange))
        trivial
  | constBits x last first hrange =>
      exact iff_of_true ((toNat_constBits (s x) last first hrange).trans_lt (mod_field_lt hrange))
        trivial
  | slice x last first _ =>
      exact iff_of_true ((toNat_slice (s x) last first).trans_lt
        (Nat.mod_lt _ (Nat.two_pow_pos _))) trivial
  | writeBits x last first hrange y =>
      refine iff_of_true (canonical_of_testBit fun i hi => ?_) trivial
      exact (testBit_writeBits (s x) hrange (s y) i).trans
        ((if_neg (by omega)).trans (Canonical.testBit (hs x) hi))
  | cat xs =>
      refine iff_of_true ?_ trivial
      have hlt := catValue_lt (xs.map fun x => (⟨W x, s x⟩ : Field))
      rw [totalWidth_fields] at hlt
      exact (toNat_cat (totalWidth_fields s xs)).trans_lt hlt

/-- The condition rules out lost borrows, or they do not matter. -/
theorem Keeps.canonical (hs : ∀ x, (s x).Canonical) {op : Op W width} (h : op.Keeps s) :
    (op.eval s).Canonical := by
  cases op with
  | sub x y =>
      rcases h with hwhole | ⟨hle, hsafe⟩
      · have hlt := ((s x).sub (Logic.convert _ (s y))).toNat_lt
        rwa [show 8 * size (W x) = W x by unfold size; omega] at hlt
      · exact (canonical_iff hs (.sub x y) hsafe).mpr (.inr ⟨hle, hsafe⟩)
  | _ =>
      refine (canonical_iff hs _ ?_).mpr h
      trivial

end Op

/-! ## Runs -/

theorem Statement.canonical [DecidableEq ι] {s : Store W} {st : Statement W}
    (hs : ∀ x, (s x).Canonical) (h : st.op.Keeps s) (x : ι) : (st.run s x).Canonical := by
  obtain ⟨target, width, op, rfl⟩ := st
  unfold Statement.run
  by_cases hx : x = target
  · subst hx
    rw [Function.update_self]
    exact h.canonical hs
  · rw [Function.update_of_ne hx]
    exact hs x

/-- What reads vectors reads their values only: the comparisons, the conversions
and the bytes of the storage. -/
structure ReadsValue {width other : Nat} (a b : Logic width) (c : Logic other) : Prop where
  equal : a.equal b = true ↔ a.value = b.value
  equalOther : a.equalOther c = true ↔ a.value = c.value
  less : a.less b = true ↔ a.value < b.value
  toBool : a.toBool = true ↔ a.value % 2 ^ 64 ≠ 0
  toUInt64 : a.toUInt64 = UInt64.ofNat a.value
  bytes : a.bytes = bytesOfNat (size width) a.value

theorem reads_value {width other : Nat} {a b : Logic width} {c : Logic other}
    (ha : a.Canonical) (hb : b.Canonical) (hc : c.Canonical) : ReadsValue a b c where
  equal := by rw [ha.value_eq, hb.value_eq, equal_iff]
  equalOther := by rw [ha.value_eq, hc.value_eq, equalOther_iff]
  less := by rw [ha.value_eq, hb.value_eq, less_iff]
  toBool := by
    unfold Logic.toBool
    rw [decide_eq_true_iff, Ne, ← UInt64.toNat_inj, toNat_toUInt64, ha.value_eq]
    rfl
  toUInt64 := by rw [ha.value_eq, ← UInt64.toNat_inj, toNat_toUInt64, UInt64.toNat_ofNat']
  bytes := by
    refine natOfBytes_inj (by rw [a.length_eq, length_bytesOfNat]) ?_
    rw [natOfBytes_bytesOfNat, ha.value_eq]
    exact (Nat.mod_eq_of_lt a.toNat_lt).symm

/-- A vector is the content of a variable. -/
def Store.Holds (s : Store W) {width : Nat} (a : Logic width) : Prop :=
  ∃ x, (⟨W x, s x⟩ : Field) = ⟨width, a⟩

theorem Store.Holds.canonical {s : Store W} (hs : ∀ x, (s x).Canonical) {width : Nat}
    {a : Logic width} (h : s.Holds a) : a.Canonical := by
  obtain ⟨x, hx⟩ := h
  obtain ⟨rfl, ha⟩ := Field.mk.inj hx
  exact eq_of_heq ha ▸ hs x

/-- In every run whose steps all meet the condition all padding stays zero, and
whatever reads variables reads their values. -/
theorem padding_stays_zero [DecidableEq ι] {s : Store W} {es : List (Statement W)}
    (h : (keeping W).Traces es s) :
    (∀ x, (s x).Canonical) ∧ ∀ {width other : Nat} (a b : Logic width) (c : Logic other),
      s.Holds a → s.Holds b → s.Holds c → ReadsValue a b c := by
  obtain ⟨s₀, hinit, hrun⟩ := h
  have hcanonical : ∀ x, (s x).Canonical := by
    refine hrun.invariant (fun _ (t : Store W) => ∀ x, (t x).Canonical) hinit ?_
    rintro _ t _ _ ht ⟨⟨st, rfl, rfl⟩, hkeeps⟩
    exact Statement.canonical ht (hkeeps st rfl)
  exact ⟨hcanonical, fun a b c ha hb hc =>
    reads_value (ha.canonical hcanonical) (hb.canonical hcanonical) (hc.canonical hcanonical)⟩

end

/-- Shifting 3 by one bit stays in five bits. -/
theorem padding_stays_zero_shift :
    let W : Unit → Nat := fun _ => 5
    let st : Statement W := ⟨(), 5, .shl () 1, rfl⟩
    (st.run (fun _ => ofNat 5 3) ()).Canonical := by
  intro W st
  have hrun : (keeping W).Traces [st] (st.run fun _ => ofNat 5 3) := by
    refine ⟨fun _ => ofNat 5 3, fun x => ?_,
      (Transitions.Run.refl _).shows ⟨⟨st, rfl, rfl⟩, fun _ h => ?_⟩⟩
    · change (ofNat 5 3).toNat < 2 ^ 5
      decide +kernel
    · cases h
      change (ofNat 5 3).value * 2 ^ 1 % 2 ^ (8 * size 5) < 2 ^ 5
      decide +kernel
  exact (padding_stays_zero hrun).1 ()

/-- Five bits: `31 + 1` leaves 32 in the storage, which has the value of zero and
does not compare equal to it. -/
theorem sum_enters_padding :
    let W : Bool → Nat := fun _ => 5
    let s : Store W := fun x => ofNat 5 (if x then 31 else 1)
    let st : Statement W := ⟨true, 5, .add true false, rfl⟩
    (programs W).Traces [st] (st.run s) ∧ ¬ (st.run s true).Canonical ∧
      (st.run s true).value = (zero 5).value ∧ (st.run s true).equal (zero 5) = false := by
  intro W s st
  refine ⟨⟨s, ?_, (Transitions.Run.refl s).shows ⟨st, rfl, rfl⟩⟩, ?_, ?_, ?_⟩
  · intro x
    change (s x).toNat < 2 ^ 5
    revert x
    decide
  · change ¬ (st.run s true).toNat < 2 ^ 5
    decide +kernel
  · change (st.run s true).toNat % 2 ^ 5 = 0
    decide +kernel
  · decide +kernel

end CppHdl.Words
