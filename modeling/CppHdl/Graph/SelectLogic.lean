import CppHdl.Graph.Total
import CppHdl.Graph.Lowering

/-!
# What the select builders build

The logic of an element select, in the bits its operands read. A comparison
holds exactly for equal bits, a run-time read takes the last declared index whose
bits the selector has, and a guarded write replaces the element of every such
index.
-/

namespace CppHdl

open Failing

namespace World

variable {w : World}

theorem reads_iff_num {v : Value} {bits : List Bool} :
    w.Reads v bits ↔ v.length = bits.length ∧ w.Num v (natOfBits bits) := by
  constructor
  · exact fun h => ⟨h.length_eq, h.num⟩
  · rintro ⟨hlen, hnum⟩
    rw [num_iff_reads, hlen, bitsOfNat_natOfBits] at hnum
    exact hnum

theorem Follows.reads {res src : Value} (h : w.Follows res src) {bits : List Bool}
    (hbits : w.Reads src bits) : w.Reads res bits :=
  reads_iff_num.mpr ⟨h.1.trans hbits.length_eq, h.num hbits.num⟩

theorem Reads.getD {v : Value} {bits : List Bool} (h : w.Reads v bits) (hw : w.Consts)
    (i : Nat) : w.look (v.getD i 0) = some (bits.getD i false) := by
  by_cases hi : i < v.length
  · have hi' : i < bits.length := h.length_eq ▸ hi
    rw [List.getD_eq_getElem _ _ hi, List.getD_eq_getElem _ _ hi']
    exact (reads_iff_getElem.mp h).2 i hi hi'
  · rw [List.getD_eq_default _ _ (by omega),
      List.getD_eq_default _ _ (by rw [← h.length_eq]; omega)]
    exact hw.zero

/-- A value given lane by lane. -/
theorem reads_map_range {n : Nat} {f : Nat → Nat} {x : Nat → Bool}
    (h : ∀ i < n, w.look (f i) = some (x i)) :
    w.Reads ((List.range n).map f) ((List.range n).map x) := by
  rw [reads_iff_getElem]
  refine ⟨by simp, fun i h₁ _ => ?_⟩
  have hi : i < n := by simpa using h₁
  simpa using h i hi

end World

/-! ## Wiring -/

/-- The bits of a slice; positions outside read zero. -/
def sliceBits (bits : List Bool) (offset : Int) (width : Nat) : List Bool :=
  (List.range width).map fun (i : Nat) =>
    if 0 ≤ offset + i then bits.getD (offset + i).toNat false else false

@[simp] theorem length_sliceBits (bits : List Bool) (offset : Int) (width : Nat) :
    (sliceBits bits offset width).length = width := by
  simp [sliceBits]

theorem World.Reads.slice {w : World} {v : Value} {bits : List Bool} (h : w.Reads v bits)
    (hw : w.Consts) (offset : Int) (width : Nat) :
    w.Reads (slice v offset width) (sliceBits bits offset width) := by
  refine World.reads_map_range fun i _ => ?_
  split_ifs
  · exact h.getD hw _
  · exact hw.zero

theorem World.Reads.resize {w : World} {v : Value} {bits : List Bool} (h : w.Reads v bits)
    (hw : w.Consts) (width : Nat) :
    w.Reads (resize v width) ((List.range width).map (bits.getD · false)) := by
  have hresize : CppHdl.resize v width = (List.range width).map (v.getD · 0) := by
    apply List.ext_getElem
    · rw [length_resize, List.length_map, List.length_range]
    · intro i h₁ h₂
      have hi : i < width := by rwa [length_resize] at h₁
      rw [← List.getD_eq_getElem _ 0, getD_resize v hi, List.getElem_map, List.getElem_range]
  rw [hresize]
  exact World.reads_map_range fun i _ => h.getD hw i

def replacedBits (original value : List Bool) (offset : Int) (count : Nat) : List Bool :=
  (List.range count).foldl (fun (updated : List Bool) (index : Nat) =>
    if 0 ≤ offset + index then updated.set (offset + index).toNat (value.getD index false)
    else updated) original

theorem World.Reads.set {w : World} {v : Value} {bits : List Bool} (h : w.Reads v bits)
    {b : Nat} {x : Bool} (hx : w.look b = some x) (i : Nat) :
    w.Reads (v.set i b) (bits.set i x) := by
  rw [World.reads_iff_getElem] at h ⊢
  refine ⟨by simpa using h.1, fun k h₁ h₂ => ?_⟩
  rw [List.getElem_set, List.getElem_set]
  split_ifs
  · exact hx
  · exact h.2 k (by simpa using h₁) (by simpa using h₂)

theorem World.Reads.replaced {w : World} {v u : Value} {bits new : List Bool}
    (h : w.Reads v bits) (hu : w.Reads u new) (hw : w.Consts) (offset : Int) (count : Nat) :
    w.Reads (Lowering.replaced v u offset count) (replacedBits bits new offset count) := by
  unfold Lowering.replaced replacedBits
  induction List.range count generalizing v bits with
  | nil => exact h
  | cons index rest ih =>
      refine ih ?_
      beta_reduce
      split_ifs
      · exact h.set (hu.getD hw index) _
      · exact h

theorem length_replaced (v u : Value) (offset : Int) (count : Nat) :
    (Lowering.replaced v u offset count).length = v.length := by
  unfold Lowering.replaced
  induction List.range count generalizing v with
  | nil => rfl
  | cons index rest ih =>
      rw [List.foldl_cons, ih]
      split_ifs
      · exact List.length_set
      · rfl

/-- The constant an index is compared with reads its low 64 bits. -/
theorem reads_itemBits {w : World} (hw : w.Consts) (item : Int) (width : Nat) :
    w.Reads (Lowering.itemBits item width) (bitsOfNat width (toUInt64 item)) := by
  refine World.reads_map_range fun i _ => ?_
  have hlt : toUInt64 item < 2 ^ 64 := by unfold toUInt64; omega
  by_cases hi : i < 64
  · rw [if_pos hi, Nat.and_one_is_mod, Nat.shiftRight_eq_div_pow, Nat.testBit_eq_decide_div_mod_eq]
    rcases Nat.mod_two_eq_zero_or_one (toUInt64 item / 2 ^ i) with h | h
    · rw [h]; exact hw.zero
    · rw [h]; exact hw.one
  · rw [if_neg hi, Nat.testBit_lt_two_pow (Nat.lt_of_lt_of_le hlt
      (Nat.pow_le_pow_right (by omega) (by omega)))]
    exact hw.zero

/-! ## Conditions -/

theorem World.reads_singleton_of_num {w : World} {v : Value} (hlen : v.length = 1) {b : Bool}
    (h : w.Num v b.toNat) : w.Reads v [b] :=
  World.reads_of_look hlen (h.look_bit hlen)

theorem boolean_builds (value : Value) :
    GraphBuilds (Lowering.boolean value) fun w result => result.length = 1 ∧
      ∀ bits, w.Consts → w.Reads value bits → w.Reads result [bits.any id] := by
  refine (unary_builds (rfl : Op.reduces .any = true) value).mono ?_
  rintro w result ⟨hlen, hany⟩
  exact ⟨hlen, fun bits hw hbits => World.reads_of_look hlen (hany bits hw hbits)⟩

theorem both_builds (left right : Value) :
    GraphBuilds (Lowering.both left right) fun w result => result.length = 1 ∧
      ∀ xs ys, w.Consts → w.Reads left xs → w.Reads right ys →
        w.Reads result [xs.any id && ys.any id] := by
  refine (boolean_builds left).bind fun l => (boolean_builds right).bind fun r => ?_
  refine (bitwise_num (.inl rfl) l r 1).mono ?_
  rintro w result ⟨hlen, hand⟩ ⟨hrlen, hr⟩ ⟨hllen, hl⟩
  refine ⟨hlen, fun xs ys hw hxs hys => World.reads_singleton_of_num hlen ?_⟩
  have hleft := hl xs hw hxs
  have hright := hr ys hw hys
  have := hand _ _ hw hleft.num hleft.num_lt hright.num hright.num_lt
  generalize xs.any id = x at this ⊢
  generalize ys.any id = y at this ⊢
  cases x <;> cases y <;> exact this

theorem xor_ne_zero_iff {x y : Nat} : x ^^^ y ≠ 0 ↔ x ≠ y := by
  rw [ne_eq, ne_eq, Nat.xor_eq_zero_iff]

theorem equality_builds (left right : Value) :
    GraphBuilds (Lowering.equality left right) fun w result => result.length = 1 ∧
      ∀ xs ys, w.Consts → w.Reads left xs → w.Reads right ys → left.length = right.length →
        w.Reads result [decide (xs = ys)] := by
  refine (bitwise_num (.inr (.inr rfl)) left right left.length).bind fun difference => ?_
  refine (unary_builds (rfl : Op.reduces .any = true) difference).bind fun different => ?_
  refine (unaryNot_num different).mono ?_
  rintro w result ⟨hlen, hnot⟩ ⟨hone, hany⟩ ⟨hdlen, hxor⟩
  refine ⟨hlen.trans hone, fun xs ys hw hxs hys hsame => ?_⟩
  have hlt : natOfBits xs ^^^ natOfBits ys < 2 ^ difference.length := by
    rw [hdlen]
    exact Nat.xor_lt_two_pow hxs.num_lt (hsame ▸ hys.num_lt)
  obtain ⟨bits, hbits, hval⟩ :=
    (hxor _ _ hw hxs.num hxs.num_lt hys.num hys.num_lt).reads_any hlt
  have hlook := hany bits hw hbits
  rw [show reduction .any bits = bits.any id from rfl, hval] at hlook
  have hnum := hnot _ hw (World.num_of_look hone hlook) (by rw [hone]; exact Bool.toNat_lt _)
  have heq : bitwiseNat .xor (natOfBits xs) (natOfBits ys) ≠ 0 ↔ xs ≠ ys :=
    xor_ne_zero_iff.trans (not_congr
      ⟨natOfBits_inj (hxs.length_eq.symm.trans (hsame.trans hys.length_eq)), congrArg natOfBits⟩)
  refine World.reads_singleton_of_num (hlen.trans hone) ?_
  rw [hone] at hnum
  simp only [heq] at hnum
  by_cases h : xs = ys
  · simpa [h] using hnum
  · simpa [h] using hnum

/-- A multiplexer reads the operand its condition selects. -/
theorem mux_reads (condition yes no : Value) :
    GraphBuilds (mux condition yes no) fun w result =>
      result.length = yes.length ∧ yes.length = no.length ∧
        ∀ c bits, w.Consts → w.Reads condition [c] →
          w.Reads (if c then yes else no) bits → w.Reads result bits := by
  refine (mux_builds condition yes no).mono ?_
  rintro w result ⟨hlen, hsame, hfollows⟩
  refine ⟨hlen, hsame, fun c bits hw hc hbits => ?_⟩
  have := hfollows [c] hw hc
  rw [show [c].any id = c by simp] at this
  exact this.reads hbits

/-! ## Run-time reads -/

/-- The bits a run-time selector reads: those of the last index it equals. -/
def selectedBits (range : FixedRange) (count : Nat) (bits index : List Bool)
    (items : List Int) : List Bool :=
  items.foldl (fun result item =>
    if index = bitsOfNat index.length (toUInt64 item) then
      sliceBits bits (Lowering.elementOffset range count item) count
    else result) (List.replicate count false)

theorem selectedBits_concat (range : FixedRange) (count : Nat) (bits index : List Bool)
    (items : List Int) (item : Int) :
    selectedBits range count bits index (items ++ [item]) =
      if index = bitsOfNat index.length (toUInt64 item) then
        sliceBits bits (Lowering.elementOffset range count item) count
      else selectedBits range count bits index items := by
  simp [selectedBits]

theorem equality_item_builds (index : Value) (item : Int) :
    GraphBuilds (Lowering.equality index (Lowering.itemBits item index.length)) fun w same =>
      ∀ sbits, w.Consts → w.Reads index sbits →
        w.Reads same [decide (sbits = bitsOfNat sbits.length (toUInt64 item))] := by
  refine (equality_builds index _).mono ?_
  rintro w same ⟨_, hsame⟩ sbits hw hsbits
  have hlength : index.length = (Lowering.itemBits item index.length).length := by
    simp [Lowering.itemBits, constant]
  rw [← hsbits.length_eq]
  exact hsame sbits _ hw hsbits (reads_itemBits hw item index.length) hlength

theorem selectItems_builds (range : FixedRange) (count : Nat) (value index : Value) :
    GraphBuilds (Lowering.selectItems range count value index) fun w result =>
      result.length = count ∧ ∀ bits sbits, w.Consts → w.Reads value bits → w.Reads index sbits →
        w.Reads result (selectedBits range count bits sbits range.items) := by
  refine Builds.foldlM (fun done (w : World) (result : Value) => result.length = count ∧
    ∀ bits sbits, w.Consts → w.Reads value bits → w.Reads index sbits →
      w.Reads result (selectedBits range count bits sbits done)) ?_ ?_
  · exact fun w => ⟨by simp, fun bits sbits hw _ _ => World.reads_replicate hw.zero count⟩
  · intro done item result _
    refine (equality_item_builds index item).bind fun same => (mux_reads same _ result).mono ?_
    rintro w next ⟨hlen, _, hmux⟩ hsame ⟨_, hdone⟩
    refine ⟨hlen.trans (length_slice _ _ _), fun bits sbits hw hbits hsbits => ?_⟩
    refine hmux _ _ hw (hsame sbits hw hsbits) ?_
    rw [selectedBits_concat]
    by_cases h : sbits = bitsOfNat sbits.length (toUInt64 item)
    · rw [decide_eq_true h, if_pos h]
      exact hbits.slice hw _ _
    · rw [decide_eq_false h, if_neg h]
      exact hdone bits sbits hw hbits hsbits

/-! ## Writes -/

namespace Lowering

/-- The bits an assignment to a symbol starts from. -/
def target (l : Lowering) (nonblocking : Bool) (symbol : Nat) : Value :=
  (l.environment nonblocking symbol).getD (l.read symbol)

/-- The condition under which statements of this path take effect. -/
def live (l : Lowering) : Value := if l.inFunction then [1] else l.active

/-- `l'` differs from `l` at most in what the written environment binds to one
symbol. -/
def Rebinds (l l' : Lowering) (nonblocking : Bool) (symbol : Nat) : Prop :=
  l' = l ∨ ∃ value, l' = l.bindSymbol nonblocking symbol value

variable {l l' : Lowering} {nonblocking : Bool} {symbol : Nat}

@[simp] theorem target_bindSymbol (value : Value) :
    (l.bindSymbol nonblocking symbol value).target nonblocking symbol = value := by
  cases nonblocking <;> simp [bindSymbol, target, environment]

@[simp] theorem live_bindSymbol (value : Value) :
    (l.bindSymbol nonblocking symbol value).live = l.live := by
  cases nonblocking <;> rfl

@[simp] theorem bindSymbol_bindSymbol (u v : Value) :
    (l.bindSymbol nonblocking symbol u).bindSymbol nonblocking symbol v =
      l.bindSymbol nonblocking symbol v := by
  cases nonblocking <;> simp [bindSymbol]

/-- Reading through the scheduled updates is reading what the write starts
from. -/
theorem scheduled_read : (l.scheduled nonblocking).read symbol = l.target nonblocking symbol := by
  cases nonblocking
  · cases h : l.current symbol <;> simp [scheduled, target, environment, read, h]
  · cases h : l.pending symbol <;> simp [scheduled, target, environment, read, h]

theorem Rebinds.live (h : l.Rebinds l' nonblocking symbol) : l'.live = l.live := by
  rcases h with rfl | ⟨value, rfl⟩
  · rfl
  · exact live_bindSymbol value

theorem Rebinds.bindSymbol (h : l.Rebinds l' nonblocking symbol) (value : Value) :
    l.Rebinds (l'.bindSymbol nonblocking symbol value) nonblocking symbol := by
  rcases h with rfl | ⟨u, rfl⟩
  · exact .inr ⟨value, rfl⟩
  · exact .inr ⟨value, bindSymbol_bindSymbol u value⟩

end Lowering

open Lowering

theorem map_getD_range {bits : List Bool} {n : Nat} (h : bits.length = n) :
    (List.range n).map (bits.getD · false) = bits := by
  subst h
  apply List.ext_getElem
  · simp
  · intro i h₁ h₂
    simp [h₂]

theorem assign_named_builds (l : Lowering) (a : Nat) (type : IntegralType) {value : Value}
    (nonblocking : Bool) (guard : Value) (hsame : value.length = (l.target nonblocking a).length) :
    GraphBuilds (l.assign (.namedValue a type) value nonblocking guard) fun w l' =>
      ∃ new, l' = l.bindSymbol nonblocking a new ∧ new.length = value.length ∧
        ∀ old bits ls gs, w.Consts → w.Reads (l.target nonblocking a) old → w.Reads value bits →
          w.Reads l.live ls → w.Reads guard gs →
            w.Reads new (if ls.any id && gs.any id then bits else old) := by
  unfold Lowering.assign
  refine (both_builds l.live guard).bind fun enabled => ?_
  refine (mux_reads enabled _ (l.target nonblocking a)).bind fun new => Builds.pure ?_
  rintro w ⟨hlen, _, hmux⟩ ⟨_, hboth⟩
  refine ⟨new, rfl, hlen.trans ((length_resize _ _ _).trans hsame.symm),
    fun old bits ls gs hw hold hbits hls hgs => hmux _ _ hw (hboth ls gs hw hls hgs) ?_⟩
  cases ls.any id && gs.any id
  · exact hold
  · have := hbits.resize hw (l.target nonblocking a).length
    rwa [map_getD_range (hbits.length_eq.symm.trans hsame)] at this

/-- The bits after a write through a run-time selector: the element of every
index the selector equals is replaced. -/
def writtenBits (range : FixedRange) (count : Nat) (bits new index : List Bool)
    (items : List Int) : List Bool :=
  items.foldl (fun bits item =>
    if index = bitsOfNat index.length (toUInt64 item) then
      replacedBits bits new (Lowering.elementOffset range count item) count
    else bits) bits

theorem writtenBits_concat (range : FixedRange) (count : Nat) (bits new index : List Bool)
    (items : List Int) (item : Int) :
    writtenBits range count bits new index (items ++ [item]) =
      if index = bitsOfNat index.length (toUInt64 item) then
        replacedBits (writtenBits range count bits new index items) new
          (Lowering.elementOffset range count item) count
      else writtenBits range count bits new index items := by
  simp [writtenBits]

/-- One write of the loop over the indices. -/
def writeItem (range : FixedRange) (type : IntegralType) (a : Nat) (base : IntegralType)
    (value : Value) (nonblocking : Bool) (guard index : Value) (l : Lowering) (item : Int) :
    GraphM Lowering := do
  let same ← equality index (itemBits item index.length)
  let condition ← both guard same
  l.assign (.namedValue a base)
    (replaced (l.target nonblocking a) value (elementOffset range type.width item) type.width)
    nonblocking condition

/-- What the loop over the indices has done of a write. -/
structure Written (l : Lowering) (a : Nat) (nonblocking : Bool) (guard : Value)
    (value index : Value) (range : FixedRange) (count : Nat) (done : List Int) (w : World)
    (l' : Lowering) : Prop where
  rebinds : l.Rebinds l' nonblocking a
  length : (l'.target nonblocking a).length = (l.target nonblocking a).length
  reads : ∀ old new sbits ls gs, w.Consts → w.Reads (l.target nonblocking a) old →
    w.Reads value new → w.Reads index sbits → w.Reads l.live ls → w.Reads guard gs →
      w.Reads (l'.target nonblocking a)
        (if ls.any id && gs.any id then writtenBits range count old new sbits done else old)

theorem writeItem_builds {l l₀ : Lowering} {range : FixedRange} {type : IntegralType} {a : Nat}
    {base : IntegralType} {value : Value} {nonblocking : Bool} {guard index : Value}
    {done : List Int} (item : Int) :
    GraphBuilds (writeItem range type a base value nonblocking guard index l item) fun w l' =>
      Written l₀ a nonblocking guard value index range type.width done w l →
        Written l₀ a nonblocking guard value index range type.width (done ++ [item]) w l' := by
  refine (equality_item_builds index item).bind fun same =>
    (both_builds guard same).bind fun condition => ?_
  refine (assign_named_builds l a base nonblocking condition (length_replaced _ _ _ _)).mono ?_
  rintro w l' ⟨bits, rfl, hlen, hassign⟩ ⟨_, hboth⟩ hsame hwritten
  refine ⟨hwritten.rebinds.bindSymbol bits, ?_, fun old new sbits ls gs hw hold hnew hs hls hgs => ?_⟩
  · rw [target_bindSymbol, hlen, length_replaced]
    exact hwritten.length
  · have hcond := hboth gs _ hw hgs (hsame sbits hw hs)
    have hbefore := hwritten.reads old new sbits ls gs hw hold hnew hs hls hgs
    have hlive : w.Reads l.live ls := by rw [hwritten.rebinds.live]; exact hls
    have := hassign _ _ ls _ hw hbefore
      (hbefore.replaced hnew hw (elementOffset range type.width item) type.width) hlive hcond
    rw [target_bindSymbol]
    convert this using 1
    rw [writtenBits_concat]
    cases ls.any id <;> cases gs.any id <;> simp

/-- A write through a run-time selector. -/
theorem writeItems_builds (l : Lowering) (range : FixedRange) (type : IntegralType) (a : Nat)
    (base : IntegralType) (value : Value) (nonblocking : Bool) (guard index : Value) :
    GraphBuilds (range.items.foldlM (writeItem range type a base value nonblocking guard index) l)
      (Written l a nonblocking guard value index range type.width range.items) := by
  refine Builds.foldlM _ (fun w => ⟨.inl rfl, rfl, fun old new sbits ls gs _ hold _ _ _ _ => ?_⟩)
    fun done item l' _ => writeItem_builds item
  simpa [writtenBits] using hold

end CppHdl
