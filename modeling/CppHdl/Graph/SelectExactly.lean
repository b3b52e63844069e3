import CppHdl.Graph.SelectExact

/-!
# When element selects address one element

The condition under which every select keeps to its meaning is also necessary.
An index the selector type does not have among its numbers is hit by a run-time
selector of another number, and a number too far from the indices brings a
constant selector back among the bits.
-/

namespace CppHdl

open Failing Lowering

/-- Every select of these widths and this sign reads and writes the element its
selector names, whether the selector is constant or not. -/
def Addresses (r : FixedRange) (count width : Nat) (isSigned : Bool) : Prop :=
  ∀ s : Select r count width isSigned, s.Reads ∧ s.Writes

namespace Select

/-! ## A select of given bits -/

/-- The select of a variable with given bits by a variable with given bits. -/
def ofBits (r : FixedRange) (count : Nat) (isSigned : Bool) (g : Graph) (hg : g.Closed)
    (array : Value) {index : Value} {width : Nat} (hlen : index.length = width)
    (hhas : g.Has index) : Select r count width isSigned where
  graph := g
  closed := hg
  lowering := { signal := fun symbol => if symbol = 0 then array else index }
  array := 0
  arrayType := ⟨array.length, false⟩
  elementSigned := false
  selector := .namedValue 1 ⟨width, isSigned⟩
  index := index
  lowers := rfl
  selector_isSigned := rfl
  index_length := hlen
  index_has := hhas

def inputs (width : Nat) : Graph :=
  { nodes := Array.replicate width ⟨.input, 1, [], [], [], "", ""⟩ }

def inputBits (width : Nat) : Value := (List.range width).map nodeBase

/-- The environment that gives the inputs these values. -/
def inputEnv (bits : List Bool) : Env where
  leaf bit := bits.getD (owner bit) false
  memory _ _ _ := false

theorem closed_inputs (width : Nat) : (inputs width).Closed := Graph.closed_of_no_aliases rfl

theorem bound_inputs (width : Nat) : (inputs width).bound = nodeBase width := by
  simp [inputs, Graph.bound]

theorem has_inputBits (width : Nat) : (inputs width).Has (inputBits width) := by
  intro b hb
  obtain ⟨k, hk, rfl⟩ := List.mem_map.mp hb
  rw [List.mem_range] at hk
  rw [bound_inputs]
  unfold nodeBase
  omega

theorem value_input (P : Primitives) {width : Nat} (bits : List Bool) {k : Nat} (hk : k < width) :
    (inputs width).value P (inputEnv bits) (nodeBase k) = some (bits.getD k false) := by
  have hbase : nodeBase k = nodeBase k + 0 := rfl
  have howner : owner (nodeBase k) = k := by rw [hbase, owner_nodeBase_add (by omega)]
  have hlane : lane (nodeBase k) = 0 := by rw [hbase, lane_nodeBase_add (by omega)]
  rw [Graph.value_eq_node P (inputs width) (inputEnv bits) Std.ExtTreeMap.getElem?_empty
    (by unfold nodeBase; omega) (n := ⟨.input, 1, [], [], [], "", ""⟩)
    (by rw [howner]; simp [inputs, hk]) (by rw [hlane]; exact Nat.one_pos)]
  simp [Node.bitValue, Op.isLeaf, inputEnv, howner]

theorem mapM_inputBits (P : Primitives) {width : Nat} {bits : List Bool} (h : bits.length = width) :
    (inputBits width).mapM ((inputs width).value P (inputEnv bits)) = some bits := by
  rw [World.mapM_eq_some_iff]
  have := World.reads_map_range (w := (inputs width).world P (inputEnv bits))
    fun i (hi : i < width) => value_input P bits hi
  rwa [map_getD_range h] at this

theorem mapM_constants (P : Primitives) {g : Graph} (hg : g.Closed) (env : Env)
    (bits : List Bool) : (bits.map Bool.toNat).mapM (g.value P env) = some bits := by
  have hconsts := (hg.wf.respects_world P env).consts
  rw [World.mapM_eq_some_iff, List.forall₂_map_left_iff, List.forall₂_same]
  intro b _
  cases b with
  | false => exact hconsts.zero
  | true => exact hconsts.one

theorem has_constants (g : Graph) (bits : List Bool) : g.Has (bits.map Bool.toNat) := by
  intro b hb
  obtain ⟨x, -, rfl⟩ := List.mem_map.mp hb
  exact Nat.lt_of_lt_of_le (Bool.toNat_lt x) (by have := g.two_lt_bound; omega)

/-! ## Run-time selectors -/

variable {r : FixedRange} {count width : Nat} {isSigned : Bool}

theorem getElem?_replacedBits_true {bits : List Bool} (offset : Int) {j : Nat}
    (h : bits[j]? = some true) :
    (replacedBits bits (List.replicate count true) offset count)[j]? = some true := by
  rw [getElem?_replacedBits]
  split_ifs with hj
  · rw [List.getD_eq_getElem _ _ (by simp; omega), List.getElem_replicate]
  · exact h

/-- Ones written through a selector stand in the element of every index that
equals it. -/
theorem getElem?_writtenBits {sbits : List Bool} (hsize : r.width * count ≤ 2 ^ 20)
    {item : Int} (hitem : r.Contains item)
    (hs : sbits = bitsOfNat sbits.length (toUInt64 item)) {i : Nat} (hi : i < count)
    {items : List Int} {bits : List Bool} (hbits : bits.length = r.width * count)
    (h : item ∈ items ∨ bits[r.place item * count + i]? = some true) :
    (writtenBits r count bits (List.replicate count true) sbits items)[r.place item * count + i]? =
      some true := by
  induction items generalizing bits with
  | nil => exact h.resolve_left List.not_mem_nil
  | cons first rest ih =>
      have hplace : r.place item * count + count ≤ r.width * count :=
        FixedRange.place_mul_le hitem
      refine ih ?_ ?_ <;> beta_reduce
      · split_ifs
        · rw [length_replacedBits, hbits]
        · exact hbits
      · -- ones stay once they are written
        have hstay : ∀ offset, bits[r.place item * count + i]? = some true →
            (replacedBits bits (List.replicate count true) offset count)[
              r.place item * count + i]? = some true :=
          fun offset hone => getElem?_replacedBits_true offset hone
        rcases h with hmem | hone
        · rcases List.mem_cons.mp hmem with rfl | hrest
          · refine .inr ?_
            rw [if_pos hs, getElem?_replacedBits, FixedRange.elementOffset_of_contains hsize hitem,
              if_pos (by omega), List.getD_eq_getElem _ _ (by simp; omega), List.getElem_replicate]
          · exact .inl hrest
        · refine .inr ?_
          split_ifs
          · exact hstay _ hone
          · exact hone

/-- Nothing but the element of the index is written. -/
theorem getElem?_withElement {bits new : List Bool} (hbits : bits.length = r.width * count)
    {v item : Int} (hitem : r.Contains item) (hne : v ≠ item) {i : Nat} (hi : i < count) :
    (r.withElement count bits new v)[r.place item * count + i]? =
      bits[r.place item * count + i]? := by
  unfold FixedRange.withElement
  split_ifs with hv
  · have hplace : r.place v ≠ r.place item := by
      intro heq
      have h₁ := FixedRange.position_eq_place hv
      have h₂ := FixedRange.position_eq_place hitem
      unfold FixedRange.position at h₁ h₂
      split_ifs at h₁ h₂ <;> omega
    have hle : r.place v * count + count ≤ r.width * count := FixedRange.place_mul_le hv
    have hle' : r.place item * count + count ≤ r.width * count := FixedRange.place_mul_le hitem
    have happ := @replacedBits_inside bits new (r.place v * count) count (by omega)
    rw [← happ, getElem?_replacedBits, if_neg]
    rintro ⟨h₁, h₂, -⟩
    rcases Nat.lt_or_gt_of_ne hplace with hlt | hgt
    · have := Nat.mul_le_mul_right count (Nat.succ_le_of_lt hlt)
      rw [Nat.succ_mul] at this
      omega
    · have := Nat.mul_le_mul_right count (Nat.succ_le_of_lt hgt)
      rw [Nat.succ_mul] at this
      omega
  · rfl

end Select

open Select

variable {r : FixedRange} {count width : Nat} {isSigned : Bool}

/-- If every write keeps to the meaning, each index is the number of its low
bits. -/
theorem Addresses.selectorNumber_item (h : Addresses r count width isSigned) (hcount : 0 < count)
    (hw : 0 < width) (hsize : r.width * count ≤ 2 ^ 20) {item : Int} (hitem : r.Contains item) :
    selectorNumber isSigned (bitsOfNat width (toUInt64 item)) = item := by
  by_contra hne
  have hlen : (inputBits width).length = width := by simp [inputBits]
  let s := ofBits r count isSigned (inputs width) (closed_inputs width)
    ((List.replicate (r.width * count) false).map Bool.toNat) hlen (has_inputBits width)
  have hone : (inputs width).Has [1] := .singleton (inputs width).one_lt_bound
  have hnum : number s.index = none := by
    obtain ⟨n, rfl⟩ : ∃ n, width = n + 1 := ⟨width - 1, by omega⟩
    change number (inputBits (n + 1)) = none
    unfold number inputBits
    rw [List.range_succ_eq_map, List.map_cons, List.any_cons]
    split_ifs with h₁ h₂
    · rfl
    · rfl
    · exact absurd (by simp [nodeBase]) h₂
  obtain ⟨l', k, hrun, -, hspec⟩ := (h s).2 ((List.replicate count true).map Bool.toNat) false [1]
    (by simp [s, ofBits, target, environment, Lowering.read]) (has_constants _ _) hone
    (has_constants _ _) hone
  let P : Primitives := ⟨fun _ _ _ _ => 0, fun _ _ _ _ _ => 0⟩
  let sbits := bitsOfNat width (toUInt64 item)
  have hsbits : sbits.length = width := length_bitsOfNat _ _
  have hconst : ∀ bits : List Bool, (bits.map Bool.toNat).mapM
      ((inputs width).value P (inputEnv sbits)) = some bits :=
    mapM_constants P (closed_inputs width) _
  have hmeant := hspec P (inputEnv sbits) _ _ sbits [true] [true] (hconst _) (hconst _)
    (mapM_inputBits P hsbits) (hconst [true]) (hconst [true])
  rw [s.assign_of_dynamic _ _ _ hnum] at hrun
  obtain ⟨hwritten, hconsts, hkeep⟩ := value_of_run (writeItems_builds _ _ _ _ _ _ _ _ _)
    s.closed hrun P (inputEnv sbits)
  have hdone := hwritten.reads _ _ sbits [true] [true] hconsts (hkeep _ _ (hconst _))
    (hkeep _ _ (hconst _)) (hkeep _ _ (mapM_inputBits P hsbits)) (hkeep _ _ (hconst [true]))
    (hkeep _ _ (hconst [true]))
  have heq := hdone.unique (World.mapM_eq_some_iff.mp hmeant)
  simp only [List.any_cons, id_eq, Bool.true_or, Bool.and_self, if_true] at heq
  have hold : (List.replicate (r.width * count) false).length = r.width * count := by simp
  have hset := getElem?_writtenBits hsize hitem
    (show sbits = bitsOfNat sbits.length (toUInt64 item) by rw [hsbits]) hcount hold
    (.inl (FixedRange.mem_items.mpr hitem))
  rw [heq, getElem?_withElement hold hitem hne hcount, List.getElem?_replicate] at hset
  split_ifs at hset with hlt
  cases Option.some.inj hset

/-! ## Constant selectors -/

/-- Every number of a selector type is the number of some bits. -/
theorem exists_selector (hw : 0 < width) {v : Int}
    (hv : smallest width isSigned ≤ v ∧ v ≤ largest width isSigned) :
    ∃ sbits : List Bool, sbits.length = width ∧ selectorNumber isSigned sbits = v := by
  have hpos : (0 : Int) < 2 ^ width := by positivity
  have hnonneg := Int.emod_nonneg v hpos.ne'
  have hlen : (bitsOfNat width (v % 2 ^ width).toNat).length = width := length_bitsOfNat _ _
  refine ⟨_, hlen, ?_⟩
  have hbounds := @selectorNumber_bounds isSigned
    (bitsOfNat width (v % 2 ^ width).toNat) (by omega)
  have hmod := selectorNumber_emod isSigned (bitsOfNat width (v % 2 ^ width).toNat)
  rw [hlen] at hbounds hmod
  refine eq_of_emod hw hbounds hv ?_
  rw [hmod, natOfBits_bitsOfNat]
  push_cast
  rw [Int.toNat_of_nonneg hnonneg, Int.emod_emod]

theorem number_constants {bits : List Bool} (h : bits.length ≤ 64) :
    ∃ known, number (bits.map Bool.toNat) = some known := by
  unfold number
  rw [if_neg (by simpa using h), if_neg]
  · exact ⟨_, rfl⟩
  · rw [List.any_eq_true]
    rintro ⟨b, hb, hlt⟩
    obtain ⟨x, -, rfl⟩ := List.mem_map.mp hb
    have := Bool.toNat_le x
    simp at hlt
    omega

/-- The elements are few beside the quotient of the offsets. -/
theorem width_lt_quotient (hcount : 0 < count) (hsize : r.width * count ≤ 2 ^ 20) :
    (r.width : Int) < 2 ^ 64 / count := by
  obtain ⟨-, hlt⟩ := quotient_mul_bounds hcount
  by_contra hge
  have hmul : (2 : Int) ^ 64 / count * count ≤ r.width * count :=
    Int.mul_le_mul_of_nonneg_right (by omega) (by omega)
  have hsize' : (r.width * count : Int) ≤ 2 ^ 20 := by exact_mod_cast hsize
  have hone : 1 * (count : Int) ≤ r.width * count :=
    Int.mul_le_mul_of_nonneg_right (by exact_mod_cast r.width_pos) (by omega)
  omega

/-- If every read keeps to the meaning, no number of a selector that may be
constant has an offset that wraps back into the bits. -/
theorem Addresses.not_wrapping (h : Addresses r count width isSigned) (hcount : 0 < count)
    (hw : 0 < width) (hw' : width ≤ 64) (hsize : r.width * count ≤ 2 ^ 20) {v : Int}
    (hv : smallest width isSigned ≤ v ∧ v ≤ largest width isSigned) :
    ¬ (r.position v = 2 ^ 64 / count ∨ r.position v = r.width - 1 - 2 ^ 64 / count) := by
  intro hposition
  have hquotient := width_lt_quotient hcount hsize
  have hout : ¬ r.Contains v := by
    rw [FixedRange.contains_iff]
    omega
  obtain ⟨sbits, hlen, hnumber⟩ := exists_selector hw hv
  obtain ⟨known, hknown⟩ := @number_constants sbits (by omega)
  have hg : ({} : Graph).Closed := Graph.closed_of_no_aliases rfl
  let s := ofBits r count isSigned {} hg ((List.replicate (r.width * count) true).map Bool.toNat)
    (show (sbits.map Bool.toNat).length = width by simpa using hlen) (has_constants _ _)
  let P : Primitives := ⟨fun _ _ _ _ => 0, fun _ _ _ _ _ => 0⟩
  let env := inputEnv []
  have hones := mapM_constants P hg env (List.replicate (r.width * count) true)
  have hindex := mapM_constants P hg env sbits
  obtain ⟨result, k, hrun, hspec⟩ := (h s).1 (by simp [s, ofBits, Lowering.read])
    (has_constants _ _)
  rw [s.expr_of_static hknown] at hrun
  obtain ⟨rfl, rfl⟩ := ok_pure.mp hrun
  have hmeant := hspec P env _ _ hones hindex
  have hconsts := (hg.wf.respects_world P env).consts
  have hread : (({} : Graph).world P env).Reads _ (List.replicate (r.width * count) true) :=
    World.mapM_eq_some_iff.mp hones
  have hslice := (hread.slice hconsts (elementOffset r count (staticIndex isSigned known width))
    count).unique (World.mapM_eq_some_iff.mp hmeant)
  rw [FixedRange.elementOffset_congr
    (s.staticIndex_emod hknown hconsts (World.mapM_eq_some_iff.mp hindex)), hnumber] at hslice
  unfold FixedRange.element at hslice
  rw [if_neg hout] at hslice
  -- yet one of the bits of the slice is a bit of the array
  obtain ⟨hlow, hhigh⟩ := offset_inside hcount r.width_pos hsize hposition
  change -(count : Int) < elementOffset r count v at hlow
  change elementOffset r count v < r.width * count at hhigh
  generalize elementOffset r count v = offset at *
  have hi : (-offset).toNat < count := by omega
  have hget := congrArg (·.getD (-offset).toNat true) hslice
  rw [List.getD_eq_getElem _ _ (by simpa using hi), List.getD_eq_getElem _ _ (by simpa using hi),
    List.getElem_replicate] at hget
  simp only [sliceBits, List.getElem_map, List.getElem_range] at hget
  rw [if_pos (by omega), List.getD_eq_getElem _ _ (by
    rw [List.length_replicate]
    have hcast : (r.width * count : Int) = (r.width * count : Nat) := by push_cast; rfl
    have hpos := Nat.mul_pos r.width_pos hcount
    omega), List.getElem_replicate] at hget
  cases hget

/-! ## The condition is exact -/

/-- Element selects address one element exactly when the selector type names all
declared indices. -/
theorem addresses_iff_names (hcount : 0 < count) (hw : 0 < width)
    (hsize : r.width * count ≤ 2 ^ 20) :
    Addresses r count width isSigned ↔ r.Names count width isSigned := by
  constructor
  · intro h
    have hitem : ∀ item, r.Contains item →
        smallest width isSigned ≤ item ∧ item ≤ largest width isSigned := by
      intro item hin
      have hlen := length_bitsOfNat width (toUInt64 item)
      have hbounds := @selectorNumber_bounds isSigned (bitsOfNat width (toUInt64 item))
        (by omega)
      rwa [h.selectorNumber_item hcount hw hsize hin, hlen] at hbounds
    have hwidth := r.width_eq
    have hpos := r.width_pos
    have hlower : r.Contains r.lower := ⟨le_refl _, by omega⟩
    have hupper : r.Contains r.upper := ⟨by omega, le_refl _⟩
    have hquotient := width_lt_quotient hcount hsize
    refine ⟨(hitem _ hlower).1, (hitem _ hupper).2, fun hwide => ?_, fun hnarrow => ?_,
      fun hnarrow => ?_⟩
    · -- a negative index has 64 low bits of a number that is not negative
      by_contra hneg
      have hbounds := FixedRange.contains_bounds hlower
      have hmod := selectorNumber_emod isSigned (bitsOfNat width (toUInt64 r.lower))
      rw [h.selectorNumber_item hcount hw hsize hlower, length_bitsOfNat, natOfBits_bitsOfNat] at hmod
      have hlt : toUInt64 r.lower < 2 ^ 64 := by unfold toUInt64; omega
      have hpow : (2 : Nat) ^ 65 ≤ 2 ^ width := Nat.pow_le_pow_right (by omega) hwide
      rw [Nat.mod_eq_of_lt (by omega)] at hmod
      have hpow' : (2 : Int) ^ 65 ≤ 2 ^ width := by exact_mod_cast hpow
      rw [← Int.add_emod_right, Int.emod_eq_of_lt (by omega) (by omega)] at hmod
      omega
    · by_contra hfar
      refine h.not_wrapping hcount hw hnarrow hsize (v := r.lower + 2 ^ 64 / count)
        ⟨by have := (hitem _ hlower).1; omega, by omega⟩ ?_
      unfold FixedRange.position
      unfold FixedRange.upper FixedRange.lower at *
      split_ifs <;> omega
    · by_contra hfar
      refine h.not_wrapping hcount hw hnarrow hsize (v := r.upper - 2 ^ 64 / count)
        ⟨by omega, by have := (hitem _ hupper).2; omega⟩ ?_
      unfold FixedRange.position
      unfold FixedRange.upper FixedRange.lower at *
      split_ifs <;> omega
  · exact fun h s => ⟨reads_of_names h hcount hw hsize s, writes_of_names h hcount hw hsize s⟩

/-- Nibbles `[-2:1]` and a signed selector of three bits. -/
theorem addresses_signed : Addresses { left := -2, right := 1 } 4 3 true :=
  (addresses_iff_names (by decide) (by decide) (by decide)).mpr
    ⟨by decide, by decide, by decide, by decide, by decide⟩

/-! ## A selector that is too narrow -/

/-- `a[sel]` for five bits `a = 1` and a selector of two bits. -/
def narrowSelect : Select { left := 4, right := 0 } 1 2 false :=
  ofBits _ 1 false (inputs 2) (closed_inputs 2) [1, 0, 0, 0, 0]
    (show (inputBits 2).length = 2 from rfl) (has_inputBits 2)

/-- The selector zero reads bit 4 instead of bit 0. -/
theorem narrow_reads_other : ¬ narrowSelect.Reads ∧
    ∃ result h, Ok (narrowSelect.lowering.expr narrowSelect.expression) narrowSelect.graph result h ∧
      ∀ P, result.mapM (h.value P (inputEnv [false, false])) = some [false] := by
  have hnum : number narrowSelect.index = none := rfl
  have hhas : narrowSelect.graph.Has (narrowSelect.lowering.read narrowSelect.array) :=
    has_constants _ [true, false, false, false, false]
  have hbits := fun P => mapM_constants P (closed_inputs 2) (inputEnv [false, false])
    [true, false, false, false, false]
  have hindex := fun P => mapM_inputBits P (rfl : [false, false].length = 2)
  have hcode : ∀ result h,
      Ok (narrowSelect.lowering.expr narrowSelect.expression) narrowSelect.graph result h →
        ∀ P, result.mapM (h.value P (inputEnv [false, false])) = some [false] := by
    intro result h hrun P
    rw [narrowSelect.expr_of_dynamic hnum] at hrun
    obtain ⟨⟨-, hresult⟩, hconsts, hkeep⟩ := value_of_run (selectItems_builds _ 1 _ _)
      narrowSelect.closed hrun P (inputEnv [false, false])
    exact World.mapM_eq_some_iff.mpr (hresult [true, false, false, false, false] [false, false]
      hconsts (hkeep _ _ (hbits P)) (hkeep _ _ (hindex P)))
  obtain ⟨result, h, hrun, -⟩ := selectItems_returns narrowSelect.closed { left := 4, right := 0 } 1
    hhas narrowSelect.index_has (by decide)
  have hrun' : Ok _ _ _ _ := hrun
  rw [← narrowSelect.expr_of_dynamic hnum] at hrun'
  refine ⟨fun hreads => ?_, result, h, hrun', hcode result h hrun'⟩
  obtain ⟨result, h, hrun, hspec⟩ := hreads rfl hhas
  let P : Primitives := ⟨fun _ _ _ _ => 0, fun _ _ _ _ _ => 0⟩
  have hmeant := hspec P (inputEnv [false, false]) [true, false, false, false, false]
    [false, false] (hbits P) (hindex P)
  rw [hcode result h hrun P] at hmeant
  exact absurd hmeant (by decide)

end CppHdl