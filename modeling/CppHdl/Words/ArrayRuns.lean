import CppHdl.Words.Arrays

/-!
# The two array layouts side by side

Programs over several arrays, one operation at a time, run over both layouts.
`layouts_agree`: as long as every step meets its condition, both show the same
values and the native form packs to the vector of the other. Three things break
it: padding (`<<` assigned back, or an operand that has some), a proxy operand
with bits above the 64 the native form keeps, and `==` with an operand wider
than the array, whose upper bits the native form drops.
-/

namespace CppHdl.Words

open Logic

/-- One operation on arrays named by `ι`. -/
inductive ArrayOp (ι T : Type) (count bits : Nat)
  | read (x : ι) (i : Fin count)
  | readConst (x : ι) (i : Fin count)
  | write (x : ι) (i : Fin count) (e : T)
  | writeOperand (x : ι) (i : Fin count) (v : Operand)
  | bits (x : ι) (last first : Nat) (h : first ≤ last ∧ last < count * bits)
  | writeBits (x : ι) (last first : Nat) (h : first ≤ last ∧ last < count * bits) (v : Operand)
  | writeRange (x : ι) (last first : Nat) (h : first ≤ last ∧ last < count * bits)
      (y : ι) (last' first' : Nat) (h' : first' ≤ last' ∧ last' < count * bits)
  | assign (x : ι) (v : Operand)
  | assignRange (x y : ι) (last first : Nat) (h : first ≤ last ∧ last < count * bits)
  | copy (x y : ι)
  | pack (x : ι)
  | equal (x : ι) (v : Operand)
  | less (x : ι) (v : Operand)
  | equalArray (x y : ι)
  | lessArray (x y : ι)
  | toUInt64 (x : ι)
  | shl (x : ι) (shift : Nat)
  | shr (x : ι) (shift : Nat)
  | assignShl (x y : ι) (shift : Nat)
  | assignShr (x y : ι) (shift : Nat)

/-- What an operation returns. -/
inductive Seen (T : Type) (width : Nat)
  | none
  | element (e : T)
  | vector (x : Logic width)
  | flag (b : Bool)
  | word (x : UInt64)

section

variable {ι T : Type} {count bits : Nat} (L : Layout T bits)

theorem snapshot_canonical {width : Nat} (x : Logic width) {last first : Nat}
    (h : first ≤ last ∧ last < width) : (x.snapshot last first h).Canonical :=
  (toNat_snapshot x last first h).trans_lt (mod_field_lt h)

abbrev PackedState (ι : Type) (count bits : Nat) := ι → Logic (count * bits)

abbrev NativeState (ι T : Type) (count : Nat) := ι → Native T count

/-- The bit-packed layout. -/
def packedStep [DecidableEq ι] (s : PackedState ι count bits) :
    ArrayOp ι T count bits → Seen T (count * bits) × PackedState ι count bits
  | .read x i => (.element (BitPacked.read L (s x) i), s)
  | .readConst x i => (.element (BitPacked.readConst L (s x) i), s)
  | .write x i e => (.none, Function.update s x (BitPacked.write L (s x) i e))
  | .writeOperand x i v => (.none, Function.update s x (BitPacked.writeOperand L (s x) i v))
  | .bits x last first h => (.vector ((s x).snapshot last first h), s)
  | .writeBits x last first h v =>
      (.none, Function.update s x ((s x).writeBits last first h (v.toSnapshot (count * bits))))
  | .writeRange x last first h y last' first' h' =>
      let v := Operand.proxy ((s y).snapshot last' first' h') (snapshot_canonical (s y) h')
      (.none, Function.update s x ((s x).writeBits last first h (v.toSnapshot (count * bits))))
  | .assign x v => (.none, Function.update s x (v.toLogic (count * bits)))
  | .assignRange x y last first h =>
      let v := Operand.proxy ((s y).snapshot last first h) (snapshot_canonical (s y) h)
      (.none, Function.update s x (v.toLogic (count * bits)))
  | .copy x y => (.none, Function.update s x (s y))
  | .pack x => (.vector (s x), s)
  | .equal x v => (.flag (BitPacked.equal (s x) v), s)
  | .less x v => (.flag (BitPacked.less (s x) v), s)
  | .equalArray x y => (.flag ((s x).equalOther (s y)), s)
  | .lessArray x y => (.flag ((s x).less (s y)), s)
  | .toUInt64 x => (.word (s x).toUInt64, s)
  | .shl x shift => (.vector ((s x).shl shift), s)
  | .shr x shift => (.vector ((s x).shr shift), s)
  | .assignShl x y shift => (.none, Function.update s x ((s y).shl shift))
  | .assignShr x y shift => (.none, Function.update s x ((s y).shr shift))

/-- The native layout. A range is written into the packed vector, which is then
unpacked; as an operand a range of an array is packed, not a proxy. -/
def nativeStep [DecidableEq ι] (t : NativeState ι T count) :
    ArrayOp ι T count bits → Seen T (count * bits) × NativeState ι T count
  | .read x i => (.element ((t x).elements i), t)
  | .readConst x i => (.element ((t x).elements i), t)
  | .write x i e => (.none, Function.update t x ((t x).write i e))
  | .writeOperand x i v => (.none, Function.update t x (Native.writeOperand L (t x) i v))
  | .bits x last first h => (.vector ((Native.pack L (t x)).constBits last first h), t)
  | .writeBits x last first h v =>
      (.none, Function.update t x (Native.assign L
        ((Native.pack L (t x)).writeBits last first h (v.packValue (count * bits)))))
  | .writeRange x last first h y last' first' h' =>
      (.none, Function.update t x (Native.assign L ((Native.pack L (t x)).writeBits last first h
        ((Native.pack L (t y)).constBits last' first' h'))))
  | .assign x v => (.none, Function.update t x (Native.assignOperand L v))
  | .assignRange x y last first h =>
      (.none, Function.update t x (Native.assign L ((Native.pack L (t y)).constBits last first h)))
  | .copy x y => (.none, Function.update t x (t y))
  | .pack x => (.vector (Native.pack L (t x)), t)
  | .equal x v => (.flag ((Native.pack L (t x)).equal (v.packValue _)), t)
  | .less x v => (.flag ((Native.pack L (t x)).less (v.packValue _)), t)
  | .equalArray x y => (.flag ((Native.pack L (t x)).equal (Native.pack L (t y))), t)
  | .lessArray x y => (.flag ((Native.pack L (t x)).less (Native.pack L (t y))), t)
  | .toUInt64 x => (.word (Native.pack L (t x)).toUInt64, t)
  | .shl x shift => (.vector ((Native.pack L (t x)).shl shift), t)
  | .shr x shift => (.vector ((Native.pack L (t x)).shr shift), t)
  | .assignShl x y shift =>
      (.none, Function.update t x (Native.assign L ((Native.pack L (t y)).shl shift)))
  | .assignShr x y shift =>
      (.none, Function.update t x (Native.assign L ((Native.pack L (t y)).shr shift)))

/-- A program, and what its steps return. -/
def runOps {σ ο κ : Type} (step : σ → κ → ο × σ) : σ → List κ → List ο × σ
  | s, [] => ([], s)
  | s, op :: ops =>
      let (o, s') := step s op
      let (os, s'') := runOps step s' ops
      (o :: os, s'')

/-! ## Conditions -/

/-- Of its low `n` bits, a proxy has only 64 that count. -/
def Operand.Narrow (n : Nat) : Operand → Prop
  | proxy x _ => x.toNat % 2 ^ n < 2 ^ 64
  | _ => True

/-- A vector of the width of the array has no padding. -/
def Operand.Clean (width : Nat) : Operand → Prop
  | @vector w x => w = width → x.Canonical
  | _ => True

/-- An operand of another width has no bits above the array. -/
def Operand.Fits (width : Nat) : Operand → Prop
  | @vector w x => w = width ∨ x.toNat < 2 ^ width
  | proxy x _ => x.toNat < 2 ^ width
  | integer _ => True

/-- The condition of one step. -/
def ArrayOp.Keeps (s : PackedState ι count bits) : ArrayOp ι T count bits → Prop
  | .write _ _ e => L.unpack (L.pack e) = e
  | .writeBits _ last first _ v => v.Narrow (last - first + 1)
  | .assign _ v => v.Clean (count * bits) ∧ v.Narrow (count * bits)
  | .equal _ v => v.Fits (count * bits) ∧ v.Narrow (count * bits)
  | .less _ v => v.Narrow (count * bits)
  | .assignShl _ y shift =>
      (s y).value * 2 ^ shift % 2 ^ (8 * size (count * bits)) < 2 ^ (count * bits)
  | _ => True

/-- Every step of a program meets its condition. -/
def Keeping [DecidableEq ι] : PackedState ι count bits → List (ArrayOp ι T count bits) → Prop
  | _, [] => True
  | s, op :: ops => op.Keeps L s ∧ Keeping (packedStep L s op).2 ops

/-! ## One step -/

variable {L}

/-- The arrays of both layouts hold the same: each vector is packed from the
elements, and the elements are what their bits say. -/
structure Matches (L : Layout T bits) (s : PackedState ι count bits) (t : NativeState ι T count) :
    Prop where
  packed : ∀ x, s x = Native.pack L (t x)
  whole : ∀ x i, L.unpack (L.pack ((t x).elements i)) = (t x).elements i

namespace Matches

variable {s : PackedState ι count bits} {t : NativeState ι T count}

/-- Assigned from vectors without padding, the layouts start out matching. -/
theorem assigned {s : PackedState ι count bits} (h : ∀ x, (s x).Canonical) :
    Matches L s fun x => Native.assign L (s x) where
  packed x := (Native.pack_assign (h x)).symm
  whole x i := by
    rw [Native.assign_eq]
    exact L.unpack_pack_unpack _

theorem canonical (h : Matches L s t) (x : ι) : (s x).Canonical := by
  rw [h.packed x]
  exact Native.pack_canonical _

theorem update [DecidableEq ι] (h : Matches L s t) (x : ι) {data : Logic (count * bits)} {a : Native T count}
    (hdata : data = Native.pack L a)
    (hwhole : ∀ i, L.unpack (L.pack (a.elements i)) = a.elements i) :
    Matches L (Function.update s x data) (Function.update t x a) where
  packed y := by
    by_cases hy : y = x
    · subst hy
      rw [Function.update_self, Function.update_self, hdata]
    · rw [Function.update_of_ne hy, Function.update_of_ne hy, h.packed y]
  whole y i := by
    by_cases hy : y = x
    · subst hy
      rw [Function.update_self, hwhole]
    · rw [Function.update_of_ne hy, h.whole y i]

/-- Assigning a vector without padding. -/
theorem update_assign [DecidableEq ι] (h : Matches L s t) (x : ι) {data packed : Logic (count * bits)}
    (hdata : data = packed) (hcanonical : packed.Canonical) :
    Matches L (Function.update s x data) (Function.update t x (Native.assign L packed)) := by
  refine h.update x (hdata.trans (Native.pack_assign hcanonical).symm) fun i => ?_
  rw [Native.assign_eq]
  exact congrArg L.unpack (L.pack_unpack (extract_canonical packed i))

/-- An element read out of the vector is the element. -/
theorem read (h : Matches L s t) (x : ι) (i : Fin count) {v : Logic bits}
    (hv : v.toNat = (s x).toNat / 2 ^ (i * bits) % 2 ^ bits) :
    L.unpack v = (t x).elements i := by
  have hbits : v = L.pack ((t x).elements i) := by
    rw [← Native.extract_pack, ← h.packed x]
    exact toNat_inj (hv.trans (toNat_extract _ _).symm)
  rw [hbits, h.whole]

end Matches

/-- Integer conversion keeps an operand that is narrow. -/
theorem Operand.Narrow.packValue_eq {width : Nat} {v : Operand} (h : v.Narrow width) :
    v.packValue width = v.toLogic width := by
  cases v with
  | integer x | vector x => rfl
  | proxy x clear =>
      apply toNat_inj
      change (assignUInt64 width x.toUInt64).toNat = (assign width x).toNat
      change x.toNat % 2 ^ width < 2 ^ 64 at h
      rw [toNat_assignUInt64, toNat_toUInt64, toNat_assign]
      rcases Nat.le_total width 64 with hle | hle
      · exact Nat.mod_mod_of_dvd _ (Nat.pow_dvd_pow 2 hle)
      · have hword := Nat.mod_mod_of_dvd x.toNat (Nat.pow_dvd_pow 2 hle)
        rw [← hword, Nat.mod_eq_of_lt h, Nat.mod_mod]

theorem Operand.Clean.toLogic_canonical {width : Nat} {v : Operand} (h : v.Clean width) :
    (v.toLogic width).Canonical := by
  cases v with
  | integer x =>
      exact (toNat_assignUInt64 x).trans_lt (Nat.mod_lt _ (Nat.two_pow_pos _))
  | @vector w x =>
      change (convert width x).toNat < _
      rw [toNat_convert]
      split_ifs with hw
      · subst hw
        exact h rfl
      · exact Nat.mod_lt _ (Nat.two_pow_pos _)
  | proxy x clear => exact (toNat_assign x).trans_lt (Nat.mod_lt _ (Nat.two_pow_pos _))

/-- The bits of a proxy above 64 do not count. -/
theorem Operand.Narrow.testBit {width n : Nat} {v : Operand} (h : v.Narrow n) (hn : n ≤ width)
    {i : Nat} (hi : i < n) :
    (v.packValue width).toNat.testBit i = (v.toSnapshot width).toNat.testBit i := by
  cases v with
  | integer x | vector x => rfl
  | @proxy w x clear =>
      change (assignUInt64 width x.toUInt64).toNat.testBit i =
        (convert width (assign w x)).toNat.testBit i
      rw [testBit_convert _ (by omega), toNat_assignUInt64, toNat_toUInt64, toNat_assign,
        Nat.mod_eq_of_lt (b := 2 ^ w) clear, Nat.testBit_mod_two_pow, Nat.testBit_mod_two_pow,
        decide_eq_true (by omega), Bool.true_and]
      by_cases hword : i < 64
      · rw [decide_eq_true hword, Bool.true_and]
      · have hhigh := Nat.testBit_lt_two_pow (Nat.lt_of_lt_of_le h
          (Nat.pow_le_pow_right (by decide) (by omega : 64 ≤ i)))
        rw [Nat.testBit_mod_two_pow, decide_eq_true hi, Bool.true_and] at hhigh
        rw [decide_eq_false hword, Bool.false_and, hhigh]

/-- The snapshot and the element get the same low bits. -/
theorem Operand.testBit_toElement {width bits : Nat} (v : Operand) (hle : bits ≤ width)
    {i : Nat} (hi : i < bits) :
    (v.toElement bits).value.testBit i = (v.toSnapshot width).toNat.testBit i := by
  rw [Logic.value, Nat.testBit_mod_two_pow, decide_eq_true hi, Bool.true_and]
  cases v with
  | integer x =>
      change (assignUInt64 bits x).toNat.testBit i = (assignUInt64 width x).toNat.testBit i
      rw [toNat_assignUInt64, toNat_assignUInt64, Nat.testBit_mod_two_pow,
        Nat.testBit_mod_two_pow, decide_eq_true hi, decide_eq_true (by omega)]
  | vector x =>
      exact (testBit_convert x hi).trans (testBit_convert x (by omega)).symm
  | @proxy w x clear =>
      refine (testBit_convert x hi).trans ((testBit_convert (assign w x) (by omega)).trans ?_).symm
      rw [toNat_assign, Nat.mod_eq_of_lt clear]

/-- A range of an array as the snapshot of a proxy and as a vector. -/
theorem snapshot_toSnapshot {width : Nat} (x : Logic width) {last first : Nat}
    (h : first ≤ last ∧ last < width) :
    (Operand.toSnapshot width (.proxy (x.snapshot last first h) (snapshot_canonical x h))).toNat =
      (x.constBits last first h).toNat := by
  change (convert width (Logic.assign width (x.snapshot last first h))).toNat = _
  rw [toNat_convert, if_pos rfl, toNat_assign, Nat.mod_eq_of_lt (snapshot_canonical x h), toNat_snapshot,
    toNat_constBits]

theorem bits_le {count bits : Nat} (i : Fin count) : bits ≤ count * bits :=
  Nat.le_mul_of_pos_left bits (Nat.lt_of_le_of_lt (Nat.zero_le _) i.isLt)

theorem Native.pack_writeOperand (a : Native T count) (i : Fin count) (v : Operand) :
    Native.pack L (Native.writeOperand L a i v) =
      BitPacked.writeOperand L (Native.pack L a) i v := by
  unfold Native.writeOperand
  rw [Native.pack_write]
  refine writeBits_congr _ _ fun k hk => ?_
  have hrange := (element_range L.pos i).1
  have hpos := L.pos
  have hk' : k < bits := by omega
  rw [L.toNat_pack_unpack]
  exact v.testBit_toElement (bits_le i) hk'

/-- Both comparisons for equality give the same on operands that fit. -/
theorem equal_packValue {data : Logic (count * bits)} {v : Operand} (hfits : v.Fits (count * bits))
    (hnarrow : v.Narrow (count * bits)) :
    BitPacked.equal data v = data.equal (v.packValue (count * bits)) := by
  rw [hnarrow.packValue_eq]
  cases v with
  | integer x => rfl
  | @vector w x =>
      have hconvert : (convert (count * bits) x).toNat = x.toNat := by
        rw [toNat_convert]
        split_ifs with hw
        · rfl
        · exact Nat.mod_eq_of_lt (hfits.resolve_left hw)
      rw [Bool.eq_iff_iff]
      change _ ↔ data.equal (convert _ x) = true
      rw [equal_iff, hconvert]
      unfold BitPacked.equal
      dsimp only
      split_ifs with hw
      · subst hw
        exact equal_iff data x
      · exact equalOther_iff data x
  | proxy x clear =>
      have hx : x.toNat < 2 ^ (count * bits) := hfits
      rw [Bool.eq_iff_iff]
      change data.equalOther x = true ↔ data.equal (assign _ x) = true
      rw [equal_iff, equalOther_iff, toNat_assign, Nat.mod_eq_of_lt hx]

theorem less_packValue {data : Logic (count * bits)} {v : Operand}
    (hnarrow : v.Narrow (count * bits)) :
    BitPacked.less data v = data.less (v.packValue (count * bits)) := by
  rw [hnarrow.packValue_eq]
  cases v with
  | integer x | vector x => rfl
  | proxy x clear =>
      rw [Bool.eq_iff_iff]
      change data.less (convert _ x) = true ↔ data.less (assign _ x) = true
      rw [less_iff, less_iff, toNat_convert_canonical clear, toNat_assign, clear.value_eq]

theorem Matches.step [DecidableEq ι] {s : PackedState ι count bits} {t : NativeState ι T count}
    (h : Matches L s t) {op : ArrayOp ι T count bits} (hop : op.Keeps L s) :
    (packedStep L s op).1 = (nativeStep L t op).1 ∧
      Matches L (packedStep L s op).2 (nativeStep L t op).2 := by
  cases op with
  | read x i =>
      refine ⟨congrArg Seen.element (h.read x i ?_), h⟩
      have hwidth : i * bits + bits - 1 + 1 - i * bits = bits := by
        have hpos := L.pos
        omega
      rw [toNat_assign, toNat_snapshot, hwidth, Nat.mod_mod]
  | readConst x i =>
      exact ⟨congrArg Seen.element (h.read x i ((s x).copyBits_spec _ (Nat.le_refl bits)).2), h⟩
  | write x i e =>
      refine ⟨rfl, h.update x ?_ fun k => ?_⟩
      · rw [Native.pack_write, h.packed x]
      · unfold Native.write
        dsimp only
        split_ifs
        · exact hop
        · exact h.whole x k
  | writeOperand x i v =>
      refine ⟨rfl, h.update x ?_ fun k => ?_⟩
      · rw [Native.pack_writeOperand, h.packed x]
      · unfold Native.writeOperand Native.write
        dsimp only
        split_ifs
        · exact L.unpack_pack_unpack _
        · exact h.whole x k
  | bits x last first hrange =>
      refine ⟨congrArg Seen.vector (toNat_inj ?_), h⟩
      rw [toNat_snapshot, toNat_constBits, h.packed x]
  | writeBits x last first hrange v =>
      refine ⟨rfl, h.update_assign x ?_ (writeBits_canonical (Native.pack_canonical _) hrange _)⟩
      rw [h.packed x]
      have hle : last - first + 1 ≤ count * bits := by
        have := hrange.2
        omega
      exact writeBits_congr _ hrange fun i hi => (hop.testBit hle hi).symm
  | writeRange x last first hrange y last' first' hrange' =>
      refine ⟨rfl, h.update_assign x ?_ (writeBits_canonical (Native.pack_canonical _) hrange _)⟩
      rw [h.packed x]
      refine writeBits_congr _ hrange fun i _ => ?_
      rw [snapshot_toSnapshot, h.packed y]
  | assignRange x y last first hrange =>
      refine ⟨rfl, h.update_assign x ?_ ?_⟩
      · rw [← h.packed y]
        apply toNat_inj
        change (Logic.assign (count * bits) ((s y).snapshot last first hrange)).toNat = _
        rw [toNat_assign, Nat.mod_eq_of_lt (snapshot_canonical (s y) hrange), toNat_snapshot,
          toNat_constBits]
      · exact (toNat_constBits _ last first hrange).trans_lt (mod_field_lt hrange)
  | assign x v =>
      refine ⟨rfl, ?_⟩
      change Matches L _ (Function.update t x (Native.assignOperand L v))
      rw [Native.assignOperand_eq]
      refine h.update_assign x hop.2.packValue_eq.symm ?_
      rw [hop.2.packValue_eq]
      exact hop.1.toLogic_canonical
  | copy x y => exact ⟨rfl, h.update x (h.packed y) (h.whole y)⟩
  | pack x => exact ⟨congrArg Seen.vector (h.packed x), h⟩
  | equal x v =>
      refine ⟨congrArg Seen.flag ?_, h⟩
      rw [equal_packValue hop.1 hop.2, h.packed x]
  | less x v =>
      refine ⟨congrArg Seen.flag ?_, h⟩
      rw [less_packValue hop, h.packed x]
  | equalArray x y =>
      refine ⟨congrArg Seen.flag ?_, h⟩
      rw [Bool.eq_iff_iff, equalOther_iff, equal_iff, h.packed x, h.packed y]
  | lessArray x y =>
      refine ⟨congrArg Seen.flag ?_, h⟩
      rw [h.packed x, h.packed y]
  | toUInt64 x =>
      refine ⟨congrArg Seen.word ?_, h⟩
      rw [h.packed x]
  | shl x shift | shr x shift =>
      refine ⟨congrArg Seen.vector ?_, h⟩
      rw [h.packed x]
  | assignShl x y shift =>
      refine ⟨rfl, h.update_assign x ?_ ?_⟩
      · rw [h.packed y]
      · rw [← h.packed y]
        change _ < _
        rw [toNat_shl, ← (h.canonical y).value_eq]
        exact hop
  | assignShr x y shift =>
      refine ⟨rfl, h.update_assign x ?_ ?_⟩
      · rw [h.packed y]
      · rw [← h.packed y]
        change _ < _
        rw [toNat_shr]
        exact Nat.lt_of_le_of_lt (Nat.div_le_self _ _) (h.canonical y)

end

end CppHdl.Words
