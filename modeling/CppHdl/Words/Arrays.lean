import CppHdl.Words.Canonical

/-!
# Packed arrays and their two layouts

`array<COUNT, TYPE, true>` keeps its elements side by side in one vector. For
generated element types it has a second form with the same interface that keeps
the elements themselves and makes the vector only where one is asked for. Both
are here operation by operation; `Words/ArrayRuns` compares them.

An operand is an integer, a vector or a `logic_bits` proxy, that is the snapshot
of a slice. Where the native form turns an operand into a vector, it takes a
proxy for an integer and keeps 64 bits of it.
-/

namespace CppHdl.Words

open Logic

/-- What an array needs of its elements: `pack()` and assignment from a vector. -/
structure Layout (T : Type) (bits : Nat) where
  pack : T → Logic bits
  unpack : Logic bits → T
  pos : 0 < bits
  pack_canonical : ∀ e, (pack e).Canonical
  toNat_pack_unpack : ∀ v : Logic bits, (pack (unpack v)).toNat = v.value
  /-- The fields are cut out of the vector: its padding does not matter. -/
  unpack_congr : ∀ v w : Logic bits, v.value = w.value → unpack v = unpack w

theorem Layout.pack_unpack {T : Type} {bits : Nat} (L : Layout T bits) {v : Logic bits}
    (h : v.Canonical) : L.pack (L.unpack v) = v :=
  toNat_inj ((L.toNat_pack_unpack v).trans h.value_eq)

/-- An element that came out of a vector is what its bits say. -/
theorem Layout.unpack_pack_unpack {T : Type} {bits : Nat} (L : Layout T bits) (v : Logic bits) :
    L.unpack (L.pack (L.unpack v)) = L.unpack v :=
  L.unpack_congr _ _ ((L.pack_canonical _).value_eq.trans (L.toNat_pack_unpack v))

/-- A generated element of one field. -/
def Layout.field (bits : Nat) (h : 0 < bits) : Layout (Logic bits) bits where
  pack := assign bits
  unpack := assign bits
  pos := h
  pack_canonical e := (toNat_assign e).trans_lt (Nat.mod_lt _ (Nat.two_pow_pos _))
  toNat_pack_unpack v := by
    rw [toNat_assign, toNat_assign, Nat.mod_mod]
    rfl
  unpack_congr v w h := toNat_inj <| by
    rw [toNat_assign, toNat_assign]
    exact h

/-- What is assigned, written or compared. The constructor of a proxy clears
everything above its range. -/
inductive Operand
  | integer (x : UInt64)
  | vector {width : Nat} (x : Logic width)
  | proxy {width : Nat} (x : Logic width) (clear : x.Canonical)

namespace Operand

/-- `logic<WIDTH>::operator=`. -/
def toLogic (width : Nat) : Operand → Logic width
  | integer x => assignUInt64 width x
  | vector x => convert width x
  | proxy x _ => assign width x

/-- The snapshot `logic_bits<WIDTH>::operator=` writes back. -/
def toSnapshot (width : Nat) : Operand → Logic width
  | integer x => assignUInt64 width x
  | vector x => convert width x
  | @proxy w x _ => convert width (assign w x)

/-- `array_pack_value<WIDTH>`: a proxy converts to `uint64_t`. -/
def packValue (width : Nat) : Operand → Logic width
  | integer x => assignUInt64 width x
  | vector x => convert width x
  | proxy x _ => assignUInt64 width x.toUInt64

/-- `TYPE::operator=` of a generated element; a proxy binds as the vector it is. -/
def toElement (bits : Nat) : Operand → Logic bits
  | integer x => assignUInt64 bits x
  | vector x => convert bits x
  | proxy x _ => convert bits x

end Operand

theorem element_range {count bits : Nat} (h : 0 < bits) (i : Fin count) :
    i * bits ≤ i * bits + bits - 1 ∧ i * bits + bits - 1 < count * bits := by
  have hmul : (i + 1) * bits ≤ count * bits := Nat.mul_le_mul_right bits i.isLt
  rw [Nat.add_mul, Nat.one_mul] at hmul
  omega

/-! ## One vector -/

namespace BitPacked

variable {T : Type} {count bits : Nat} (L : Layout T bits) (data : Logic (count * bits))

/-- `operator[]`: the element behind a proxy. -/
def read (i : Fin count) : T :=
  L.unpack (assign bits (data.snapshot _ _ (element_range L.pos i)))

/-- `operator[] const`: the element bit by bit. -/
def readConst (i : Fin count) : T :=
  L.unpack ⟨data.copyBits (i * bits) bits bits, (data.copyBits_spec _ (Nat.le_refl bits)).1⟩

def write (i : Fin count) (e : T) : Logic (count * bits) :=
  data.writeBits _ _ (element_range L.pos i) (L.pack e)

def writeOperand (i : Fin count) (v : Operand) : Logic (count * bits) :=
  data.writeBits _ _ (element_range L.pos i) (v.toSnapshot (count * bits))

/-- `operator==` with an operand. -/
def equal : Operand → Bool
  | .integer x => data.equal (assignUInt64 _ x)
  | @Operand.vector w x =>
      if h : w = count * bits then data.equal (h ▸ x) else data.equalOther x
  | .proxy x _ => data.equalOther x

/-- `operator<`: the operand is converted; a proxy of the same width is read as it is. -/
def less : Operand → Bool
  | .integer x => data.less (assignUInt64 _ x)
  | .vector x => data.less (convert _ x)
  | .proxy x _ => data.less (convert _ x)

end BitPacked

/-! ## Native elements -/

structure Native (T : Type) (count : Nat) where
  elements : Fin count → T

namespace Native

variable {T : Type} {count bits : Nat} (L : Layout T bits)

/-- The bytes of element `index` out of a vector. -/
def extract (packed : Logic (count * bits)) (index : Nat) : Logic bits :=
  masked bits (window packed.bytes (index * bits / 8) (index * bits % 8) (size bits))
    (by rw [window, List.length_map, List.length_range])

/-- `operator=` from a vector. All bytes zero is a case of its own. -/
def assign (packed : Logic (count * bits)) : Native T count :=
  if packed.bytes.all (· == 0) then ⟨fun _ => L.unpack (zero bits)⟩
  else ⟨fun i => L.unpack (extract packed i)⟩

/-- `operator=` from an operand; so is the integer zero. -/
def assignOperand : Operand → Native T count
  | .integer x =>
      if x = 0 then ⟨fun _ => L.unpack (zero bits)⟩
      else assign L ((Operand.integer x).packValue (count * bits))
  | v => assign L (v.packValue (count * bits))

/-- The bytes of `pack()`: every element is written over its bits. -/
def packBytes (a : Native T count) : List UInt8 :=
  (List.finRange count).foldl (fun packed i =>
    updateParent (count * bits) packed (convert (count * bits) (L.pack (a.elements i))).bytes
      ((i + 1) * bits - 1) (i * bits)) (List.replicate (size (count * bits)) 0)

def write (a : Native T count) (i : Fin count) (e : T) : Native T count :=
  ⟨fun k => if k = i then e else a.elements k⟩

def writeOperand (a : Native T count) (i : Fin count) (v : Operand) : Native T count :=
  a.write i (L.unpack (v.toElement bits))

end Native

/-! ## What the native form packs and unpacks -/

theorem mul_add_lt {count bits i j : Nat} (hi : i < count) (hj : j < bits) :
    i * bits + j < count * bits := by
  have hmul : (i + 1) * bits ≤ count * bits := Nat.mul_le_mul_right bits hi
  rw [Nat.add_mul, Nat.one_mul] at hmul
  omega

/-- The bits of different elements are different bits. -/
theorem in_element_iff {bits i j k : Nat} (hj : j < bits) :
    k * bits ≤ i * bits + j ∧ i * bits + j ≤ k * bits + bits - 1 ↔ i = k := by
  rcases Nat.lt_trichotomy i k with hlt | rfl | hgt
  · have hmul : (i + 1) * bits ≤ k * bits := Nat.mul_le_mul_right bits hlt
    rw [Nat.add_mul, Nat.one_mul] at hmul
    omega
  · omega
  · have hmul : (k + 1) * bits ≤ i * bits := Nat.mul_le_mul_right bits hgt
    rw [Nat.add_mul, Nat.one_mul] at hmul
    omega

theorem toNat_extract {count bits : Nat} (packed : Logic (count * bits)) (i : Nat) :
    (Native.extract packed i).toNat = packed.toNat / 2 ^ (i * bits) % 2 ^ bits := by
  unfold Native.extract
  rw [toNat_masked, natOfBytes_window]
  exact Nat.mod_mod_of_dvd _ (Nat.pow_dvd_pow 2 (le_size bits))

theorem extract_canonical {count bits : Nat} (packed : Logic (count * bits)) (i : Nat) :
    (Native.extract packed i).Canonical :=
  (toNat_extract packed i).trans_lt (Nat.mod_lt _ (Nat.two_pow_pos _))

theorem testBit_extract {count bits : Nat} (packed : Logic (count * bits)) (i j : Nat) :
    (Native.extract packed i).toNat.testBit j =
      (decide (j < bits) && packed.toNat.testBit (i * bits + j)) := by
  rw [toNat_extract, Nat.testBit_mod_two_pow, Nat.testBit_div_two_pow, Nat.add_comm]

/-- A conversion keeps the bits below the new width. -/
theorem testBit_convert {other width : Nat} (x : Logic other) {i : Nat} (hi : i < width) :
    (convert width x).toNat.testBit i = x.toNat.testBit i := by
  rw [toNat_convert]
  split_ifs
  · rfl
  · rw [Nat.testBit_mod_two_pow, decide_eq_true hi, Bool.true_and]

/-- A write depends on the bits that reach the range. -/
theorem writeBits_congr {width other other' : Nat} (parent : Logic width) {last first : Nat}
    (h : first ≤ last ∧ last < width) {x : Logic other} {y : Logic other'}
    (hbits : ∀ i, i < last - first + 1 → x.toNat.testBit i = y.toNat.testBit i) :
    parent.writeBits last first h x = parent.writeBits last first h y := by
  refine toNat_inj (Nat.eq_of_testBit_eq fun i => ?_)
  rw [testBit_writeBits, testBit_writeBits]
  split_ifs with hi
  · rw [testBit_convert _ (by omega), testBit_convert _ (by omega), hbits _ (by omega)]
  · rfl

theorem writeBits_canonical {width other : Nat} {parent : Logic width}
    (hparent : parent.Canonical) {last first : Nat} (h : first ≤ last ∧ last < width)
    (x : Logic other) : (parent.writeBits last first h x).Canonical :=
  canonical_of_testBit fun i hi => by
    rw [testBit_writeBits, if_neg (by omega), Canonical.testBit hparent hi]

namespace Native

variable {T : Type} {count bits : Nat} (L : Layout T bits)

theorem assign_eq (packed : Logic (count * bits)) :
    assign L packed = ⟨fun i => L.unpack (extract packed i)⟩ := by
  unfold assign
  split_ifs with hzero
  · have hnat : packed.toNat = 0 := (natOfBytes_eq_zero_iff _).mpr hzero
    congr 1
    funext i
    congr 1
    apply toNat_inj
    rw [toNat_extract, hnat, toNat_zero, Nat.zero_div, Nat.zero_mod]
  · rfl

theorem assignOperand_eq (v : Operand) :
    assignOperand L v = assign L (v.packValue (count * bits)) := by
  cases v with
  | integer x =>
      unfold assignOperand
      dsimp only
      split_ifs with hzero
      · subst hzero
        rw [assign_eq]
        congr 1
        funext i
        congr 1
        apply toNat_inj
        have hnat : (Operand.packValue (count * bits) (.integer 0)).toNat = 0 :=
          (toNat_assignUInt64 0).trans (Nat.zero_mod _)
        rw [toNat_extract, hnat, toNat_zero, Nat.zero_div, Nat.zero_mod]
      · rfl
  | vector x => rfl
  | proxy x clear => rfl

theorem packBytes_loop (a : Native T count) (order : List (Fin count)) :
    let bytes := order.foldl (fun packed i =>
      updateParent (count * bits) packed (convert (count * bits) (L.pack (a.elements i))).bytes
        ((i + 1) * bits - 1) (i * bits)) (List.replicate (size (count * bits)) 0)
    bytes.length = size (count * bits) ∧
      (∀ i, count * bits ≤ i → (natOfBytes bytes).testBit i = false) ∧
      ∀ (i : Fin count) (j : Nat), j < bits →
        (natOfBytes bytes).testBit (i * bits + j) =
          (decide (i ∈ order) && (L.pack (a.elements i)).toNat.testBit j) := by
  induction order using List.reverseRecOn with
  | nil =>
      refine ⟨List.length_replicate .., fun i _ => ?_, fun i j _ => ?_⟩
      · change (natOfBytes (List.replicate _ 0)).testBit _ = _
        rw [natOfBytes_replicate_zero, Nat.zero_testBit]
      · change (natOfBytes (List.replicate _ 0)).testBit _ = _
        rw [natOfBytes_replicate_zero, Nat.zero_testBit, decide_eq_false List.not_mem_nil,
          Bool.false_and]
  | append_singleton order k ih =>
      obtain ⟨hlen, hpad, hbits⟩ := ih
      rw [List.foldl_append]
      have hrange : k * bits ≤ (k + 1) * bits - 1 ∧ (k + 1) * bits - 1 < count * bits := by
        have := element_range L.pos k
        rw [Nat.add_mul, Nat.one_mul]
        exact this
      obtain ⟨hlen', hbits'⟩ := @updateParent_spec (count * bits) _ _ _
        (convert (count * bits) (L.pack (a.elements k))).bytes hlen hrange
      refine ⟨hlen', fun i hi => (hbits' i).trans ((if_neg (by omega)).trans (hpad i hi)),
        fun i j hj => (hbits' _).trans ?_⟩
      have hin : k * bits ≤ i * bits + j ∧ i * bits + j ≤ (k + 1) * bits - 1 ↔ i = k := by
        rw [Nat.add_mul, Nat.one_mul, in_element_iff hj, Fin.val_inj]
      by_cases hik : i = k
      · subst hik
        rw [if_pos (hin.mpr rfl), decide_eq_true (by simp), Bool.true_and,
          Nat.add_sub_cancel_left]
        exact testBit_convert _ (Nat.lt_of_le_of_lt (Nat.le_add_left _ _) (mul_add_lt i.isLt hj))
      · rw [if_neg (mt hin.mp hik), hbits i j hj]
        simp [hik]

/-- `pack()`. -/
def pack (a : Native T count) : Logic (count * bits) :=
  ⟨packBytes L a, (packBytes_loop L a (List.finRange count)).1⟩

variable {L}

theorem testBit_pack (a : Native T count) (i : Fin count) {j : Nat} (hj : j < bits) :
    (pack L a).toNat.testBit (i * bits + j) = (L.pack (a.elements i)).toNat.testBit j := by
  refine ((packBytes_loop L a (List.finRange count)).2.2 i j hj).trans ?_
  rw [decide_eq_true (List.mem_finRange i), Bool.true_and]

/-- Vectors agree when the bits of all elements do and there is no padding. -/
theorem eq_of_elements {x y : Logic (count * bits)} (hx : x.Canonical) (hy : y.Canonical)
    (hbits : 0 < bits) (h : ∀ (i : Fin count) (j : Nat), j < bits →
      x.toNat.testBit (i * bits + j) = y.toNat.testBit (i * bits + j)) : x = y := by
  refine toNat_inj (Nat.eq_of_testBit_eq fun i => ?_)
  rcases Nat.lt_or_ge i (count * bits) with hlt | hge
  · have hbit := h ⟨i / bits, (Nat.div_lt_iff_lt_mul hbits).mpr hlt⟩ (i % bits)
      (Nat.mod_lt i hbits)
    have hindex : i / bits * bits + i % bits = i := by rw [Nat.mul_comm, Nat.div_add_mod]
    dsimp only at hbit
    rwa [hindex] at hbit
  · rw [Canonical.testBit hx hge, Canonical.testBit hy hge]

theorem pack_canonical (a : Native T count) : (pack L a).Canonical :=
  canonical_of_testBit (packBytes_loop L a (List.finRange count)).2.1

/-- Unpacking and packing again changes nothing. -/
theorem pack_assign {packed : Logic (count * bits)} (h : packed.Canonical) :
    pack L (assign L packed) = packed := by
  refine eq_of_elements (pack_canonical _) h L.pos fun i j hj => ?_
  rw [testBit_pack _ i hj, assign_eq, L.pack_unpack (extract_canonical packed i),
    testBit_extract, decide_eq_true hj, Bool.true_and]

/-- The bits of an element out of the packed vector. -/
theorem extract_pack (a : Native T count) (i : Fin count) :
    extract (pack L a) i = L.pack (a.elements i) := by
  refine toNat_inj (Nat.eq_of_testBit_eq fun j => ?_)
  rw [testBit_extract]
  rcases Nat.lt_or_ge j bits with hlt | hge
  · rw [decide_eq_true hlt, Bool.true_and, testBit_pack _ i hlt]
  · rw [decide_eq_false (by omega), Bool.false_and,
      Canonical.testBit (L.pack_canonical _) hge]

theorem pack_write (a : Native T count) (i : Fin count) (e : T) :
    pack L (a.write i e) = BitPacked.write L (pack L a) i e := by
  have hrange := element_range L.pos i
  have hwrite : (BitPacked.write L (pack L a) i e).Canonical :=
    writeBits_canonical (pack_canonical a) hrange _
  refine eq_of_elements (pack_canonical _) hwrite L.pos fun k j hj => ?_
  rw [testBit_pack _ k hj]
  refine Eq.trans ?_ (testBit_writeBits _ hrange _ _).symm
  unfold write
  dsimp only
  by_cases hk : k = i
  · subst hk
    rw [if_pos rfl, if_pos ((in_element_iff hj).mpr rfl), Nat.add_sub_cancel_left]
    exact (testBit_convert _
      (Nat.lt_of_le_of_lt (Nat.le_add_left _ _) (mul_add_lt k.isLt hj))).symm
  · rw [if_neg hk, if_neg (mt (in_element_iff hj).mp (by rwa [Fin.val_inj])), testBit_pack _ k hj]

end Native

end CppHdl.Words
