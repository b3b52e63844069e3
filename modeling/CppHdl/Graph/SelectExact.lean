import CppHdl.Graph.SelectMeaning

/-!
# Element selects address one element

A select means the element whose declared index is the number of the selector,
and nothing where no index is. Constant selectors are placed by arithmetic on
64-bit offsets, run-time selectors by comparing the low bits of every index, and
both keep to the meaning exactly when the type of the selector has every
declared index among its numbers and none of its numbers lies so far from an
index that the offset wraps.
-/

namespace CppHdl

open Failing Lowering

/-! ## The builders return -/

variable {g : Graph}

theorem both_returns (hg : g.Closed) {left right : Value} (hl : g.Has left) (hr : g.Has right) :
    ReturnsValue g (both left right) 1 := by
  refine (unary_returns hg rfl hl).bind fun l h hh hle ⟨hhas, _⟩ => ?_
  refine (unary_returns hh rfl (hr.mono hle)).bind fun r k hk hle' ⟨hhas', _⟩ => ?_
  exact binary_returns hk rfl (hhas.mono hle') hhas' (by omega)

theorem equality_returns (hg : g.Closed) {left right : Value} (hl : g.Has left)
    (hr : g.Has right) (hw : 0 < left.length) : ReturnsValue g (equality left right) 1 := by
  refine (binary_returns hg (rfl : Op.integer .xor = true) hl hr hw).bind
    fun difference h hh hle ⟨hdifference, _⟩ => ?_
  refine (unary_returns hh rfl hdifference).bind fun different k hk hle' ⟨hdifferent, hone⟩ => ?_
  have := unaryNot_returns hk hdifferent
  rwa [hone] at this

theorem Graph.Has.sliced {v : Value} (hv : g.Has v) (offset : Int) (width : Nat) :
    g.Has (CppHdl.slice v offset width) := by
  refine Graph.Has.map_range fun i => ?_
  split_ifs
  · exact hv.getD _
  · exact Graph.Has.zero_lt g

theorem Graph.Has.replaced {v u : Value} (hv : g.Has v) (hu : g.Has u) (offset : Int)
    (count : Nat) : g.Has (Lowering.replaced v u offset count) := by
  unfold Lowering.replaced
  induction List.range count generalizing v with
  | nil => exact hv
  | cons index rest ih =>
      refine ih ?_
      beta_reduce
      split_ifs
      · intro b hb
        rcases List.mem_or_eq_of_mem_set hb with h | rfl
        · exact hv b h
        · exact hu.getD index
      · exact hv

theorem selectItems_returns (hg : g.Closed) (range : FixedRange) (count : Nat) {value index : Value}
    (hvalue : g.Has value) (hindex : g.Has index) (hw : 0 < index.length) :
    ReturnsValue g (selectItems range count value index) count := by
  refine Returns.foldlM (fun _ h (result : Value) => h.Has result ∧ result.length = count) hg
    ⟨.replicate (Graph.Has.zero_lt g) count, by simp⟩ ?_
  rintro done item result h - hh hle ⟨hresult, hlen⟩
  refine (equality_returns hh (hindex.mono hle) (.constant _ _) hw).bind
    fun same k hk hle' ⟨hsame, _⟩ => ?_
  have := mux_returns hk hsame ((hvalue.mono (hle.trans hle')).sliced
    (elementOffset range count item) count) (hresult.mono hle') (by rw [length_slice, hlen])
  rwa [length_slice] at this

theorem assign_named_returns (hg : g.Closed) (l : Lowering) (a : Nat) (type : IntegralType)
    {value : Value} (nonblocking : Bool) {guard : Value} (hvalue : g.Has value)
    (hguard : g.Has guard) (hold : g.Has (l.target nonblocking a)) (hlive : g.Has l.live)
    (hsame : value.length = (l.target nonblocking a).length) :
    Returns g (l.assign (.namedValue a type) value nonblocking guard) fun h l' =>
      ∃ new, l' = l.bindSymbol nonblocking a new ∧ new.length = value.length ∧ h.Has new := by
  unfold Lowering.assign
  refine (both_returns hg hlive hguard).bind ?_
  intro enabled h hh hle henabled
  refine (mux_returns hh henabled.1 ((hvalue.resize _).mono hle) (hold.mono hle)
    (length_resize _ _ _)).bind ?_
  intro new k hk hle' hnew
  refine Returns.pure hk ?_
  exact ⟨new, rfl, by rw [hnew.2, length_resize, hsame], hnew.1⟩

theorem writeItems_returns (hg : g.Closed) (l : Lowering) (range : FixedRange)
    (type : IntegralType) (a : Nat) (base : IntegralType) {value : Value} (nonblocking : Bool)
    {guard index : Value} (hvalue : g.Has value) (hguard : g.Has guard) (hindex : g.Has index)
    (hold : g.Has (l.target nonblocking a)) (hlive : g.Has l.live) (hw : 0 < index.length) :
    Returns g (range.items.foldlM (writeItem range type a base value nonblocking guard index) l)
      fun _ _ => True := by
  refine (Returns.foldlM (fun _ h l' => l.Rebinds l' nonblocking a ∧
    h.Has (l'.target nonblocking a)) hg ⟨.inl rfl, hold⟩ ?_).mono fun _ _ _ _ => trivial
  rintro done item l' h - hh hle ⟨hrebinds, htarget⟩
  refine (equality_returns hh (hindex.mono hle) (.constant _ _) hw).bind
    fun same k hk hle' ⟨hsame, _⟩ => ?_
  refine (both_returns hk (hguard.mono (hle.trans hle')) hsame).bind
    fun condition j hj hle'' ⟨hcondition, _⟩ => ?_
  have hle₃ := hle'.trans hle''
  refine (assign_named_returns hj l' a base nonblocking
    ((htarget.mono hle₃).replaced (hvalue.mono (hle.trans hle₃)) _ _) hcondition
    (htarget.mono hle₃) (hrebinds.live ▸ hlive.mono (hle.trans hle₃))
    (length_replaced _ _ _ _)).mono ?_
  rintro i l'' hle₄ ⟨new, rfl, _, hnew⟩
  exact ⟨hrebinds.bindSymbol new, by rw [target_bindSymbol]; exact hnew⟩

/-! ## One select -/

/-- The bits of a selector that is a name or a literal. -/
def Lowering.operand (l : Lowering) : Expression → Option Value
  | .literal bits _ => some bits
  | .namedValue symbol _ => some (l.read symbol)
  | .elementSelect _ _ _ _ => none

theorem Lowering.expr_operand {l : Lowering} {selector : Expression} {index : Value}
    (h : l.operand selector = some index) : l.expr selector = pure index := by
  cases selector with
  | elementSelect => cases h
  | literal | namedValue =>
      rw [operand, Option.some.injEq] at h
      rw [← h]
      rfl

/-- A select `a[sel]` at some point of the lowering of a design: a range and
elements of `count` bits, a selector of a width and a sign. -/
structure Select (r : FixedRange) (count width : Nat) (isSigned : Bool) where
  graph : Graph
  closed : graph.Closed
  lowering : Lowering
  array : Nat
  arrayType : IntegralType
  elementSigned : Bool
  selector : Expression
  index : Value
  lowers : lowering.operand selector = some index
  selector_isSigned : selector.type.isSigned = isSigned
  index_length : index.length = width
  index_has : graph.Has index

namespace Select

variable {r : FixedRange} {count width : Nat} {isSigned : Bool} (s : Select r count width isSigned)

def expression : Expression :=
  .elementSelect (.namedValue s.array s.arrayType) s.selector r ⟨count, s.elementSigned⟩

/-- Reading `a[sel]` gives the element the selector names. -/
def Reads : Prop :=
  (s.lowering.read s.array).length = r.width * count → s.graph.Has (s.lowering.read s.array) →
    ∃ result h, Ok (s.lowering.expr s.expression) s.graph result h ∧
      ∀ (P : Primitives) (env : Env) (bits sbits : List Bool),
        (s.lowering.read s.array).mapM (s.graph.value P env) = some bits →
        s.index.mapM (s.graph.value P env) = some sbits →
          result.mapM (h.value P env) =
            some (r.element count bits (selectorNumber isSigned sbits))

/-- Assigning `a[sel]` replaces that element, where the path is live and the
guard holds, and binds nothing but `a`. -/
def Writes : Prop :=
  ∀ (value : Value) (nonblocking : Bool) (guard : Value),
    (s.lowering.target nonblocking s.array).length = r.width * count →
    s.graph.Has (s.lowering.target nonblocking s.array) → s.graph.Has s.lowering.live →
    s.graph.Has value → s.graph.Has guard →
      ∃ l' h, Ok (s.lowering.assign s.expression value nonblocking guard) s.graph l' h ∧
        s.lowering.Rebinds l' nonblocking s.array ∧
        ∀ (P : Primitives) (env : Env) (old new sbits ls gs : List Bool),
          (s.lowering.target nonblocking s.array).mapM (s.graph.value P env) = some old →
          value.mapM (s.graph.value P env) = some new →
          s.index.mapM (s.graph.value P env) = some sbits →
          s.lowering.live.mapM (s.graph.value P env) = some ls →
          guard.mapM (s.graph.value P env) = some gs →
            (l'.target nonblocking s.array).mapM (h.value P env) =
              some (if ls.any id && gs.any id then
                r.withElement count old new (selectorNumber isSigned sbits) else old)

/-! ### What is lowered -/

def staticIndex (isSigned : Bool) (known width : Nat) : Int :=
  if isSigned then signedNumber known width else toInt64 known

theorem integer_index {known : Nat} (h : number s.index = some known) :
    integer s.index s.selector.type.isSigned = pure (staticIndex isSigned known width) := by
  unfold integer staticIndex
  rw [h, s.selector_isSigned, s.index_length]

theorem expr_of_static {known : Nat} (h : number s.index = some known) :
    s.lowering.expr s.expression = pure (slice (s.lowering.read s.array)
      (elementOffset r count (staticIndex isSigned known width)) count) := by
  unfold expression expr
  simp only [expr_operand s.lowers, pure_bind, h, s.integer_index h]
  rfl

theorem expr_of_dynamic (h : number s.index = none) :
    s.lowering.expr s.expression = selectItems r count (s.lowering.read s.array) s.index := by
  unfold expression expr
  simp only [expr_operand s.lowers, pure_bind, h]
  rfl

variable (value : Value) (nonblocking : Bool) (guard : Value)

def writeStatic (index : Int) : GraphM Lowering := do
  let condition ← both guard [1]
  s.lowering.assign (.namedValue s.array s.arrayType)
    (replaced (s.lowering.target nonblocking s.array) value (elementOffset r count index) count)
    nonblocking condition

theorem assign_of_static {known : Nat} (h : number s.index = some known) :
    s.lowering.assign s.expression value nonblocking guard =
      s.writeStatic value nonblocking guard (staticIndex isSigned known width) := by
  unfold expression assign
  simp only [expr_operand s.lowers, pure_bind, h, s.integer_index h, expr, scheduled_read]
  rfl

theorem assign_of_dynamic (h : number s.index = none) :
    s.lowering.assign s.expression value nonblocking guard =
      r.items.foldlM (writeItem r ⟨count, s.elementSigned⟩ s.array s.arrayType value nonblocking
        guard s.index) s.lowering := by
  unfold expression assign
  simp only [expr_operand s.lowers, pure_bind, h, expr, scheduled_read]
  rfl

/-! ### What is built -/

variable {s value nonblocking guard}

theorem value_of_run {α : Type} {m : GraphM α} {Q : World → α → Prop} (hm : GraphBuilds m Q)
    {g h : Graph} (hg : g.Closed) {a : α} (hrun : Ok m g a h) (P : Primitives) (env : Env) :
    Q (h.world P env) a ∧ (h.world P env).Consts ∧
      ∀ v bits, v.mapM (g.value P env) = some bits → (h.world P env).Reads v bits := by
  obtain ⟨hwf, hgrows, -⟩ := hm.ok hg.wf hrun
  exact ⟨hm.value hg.wf hrun P env, (hwf.respects_world P env).consts, fun v bits hv =>
    World.mapM_eq_some_iff.mp ((hgrows.value_below hwf P env).mapM hv)⟩

theorem writeStatic_builds (index : Int) :
    GraphBuilds (s.writeStatic value nonblocking guard index) fun w l' =>
      s.lowering.Rebinds l' nonblocking s.array ∧
        ∀ old new ls gs, w.Consts → w.Reads (s.lowering.target nonblocking s.array) old →
          w.Reads value new → w.Reads s.lowering.live ls → w.Reads guard gs →
            w.Reads (l'.target nonblocking s.array) (if ls.any id && gs.any id then
              replacedBits old new (elementOffset r count index) count else old) := by
  refine (both_builds guard [1]).bind fun condition => ?_
  refine (assign_named_builds _ _ _ nonblocking condition (length_replaced _ _ _ _)).mono ?_
  rintro w l' ⟨bits, rfl, -, hassign⟩ ⟨_, hboth⟩
  refine ⟨.inr ⟨bits, rfl⟩, fun old new ls gs hw hold hnew hls hgs => ?_⟩
  have hcond := hboth gs [true] hw hgs (World.reads_singleton.mpr hw.one)
  have := hassign old _ ls _ hw hold
    (hold.replaced hnew hw (elementOffset r count index) count) hls hcond
  rw [target_bindSymbol]
  simpa using this

theorem writeStatic_returns (index : Int) (hvalue : s.graph.Has value)
    (hguard : s.graph.Has guard) (hold : s.graph.Has (s.lowering.target nonblocking s.array))
    (hlive : s.graph.Has s.lowering.live) :
    Returns s.graph (s.writeStatic value nonblocking guard index) fun _ _ => True := by
  refine (both_returns s.closed hguard (.singleton s.graph.one_lt_bound)).bind
    fun condition h hh hle ⟨hcondition, _⟩ => ?_
  exact (assign_named_returns hh _ _ _ nonblocking ((hold.replaced hvalue _ _).mono hle)
    hcondition (hold.mono hle) (hlive.mono hle) (length_replaced _ _ _ _)).mono
    fun _ _ _ _ => trivial

/-- The index of a constant selector is its number, up to 64 bits. -/
theorem staticIndex_emod {known : Nat} (h : number s.index = some known) {w : World}
    (hw : w.Consts) {sbits : List Bool} (hsbits : w.Reads s.index sbits) :
    staticIndex isSigned known width % 2 ^ 64 = selectorNumber isSigned sbits % 2 ^ 64 := by
  obtain ⟨hlen, -⟩ := hw.reads_number h
  rw [hw.number_eq h hsbits]
  have hlength : sbits.length = width := hsbits.length_eq.symm.trans s.index_length
  unfold staticIndex selectorNumber
  cases isSigned with
  | true =>
      rw [if_pos rfl, if_pos rfl, ← hlength, signedNumber_natOfBits (by
        rw [← hsbits.length_eq]; exact hlen)]
  | false =>
      simp only [Bool.false_eq_true, if_false]
      unfold toInt64
      split_ifs <;> omega

theorem width_le_of_static {known : Nat} (h : number s.index = some known) : width ≤ 64 := by
  rw [← s.index_length]
  unfold number at h
  split_ifs at h with h64
  omega

/-! ### The condition is enough -/

section Sound

variable (hN : r.Names count width isSigned) (hcount : 0 < count) (hw : 0 < width)
  (hsize : r.width * count ≤ 2 ^ 20)
include hN hcount hw hsize

theorem reads_of_names (s : Select r count width isSigned) : s.Reads := by
  intro hlen hhas
  cases hnum : number s.index with
  | some known =>
      refine ⟨_, s.graph, by rw [s.expr_of_static hnum]; rfl, fun P env bits sbits hbits hsbits => ?_⟩
      have hconsts := (s.closed.wf.respects_world P env).consts
      have hread : (s.graph.world P env).Reads _ bits := World.mapM_eq_some_iff.mp hbits
      have hindex : (s.graph.world P env).Reads _ sbits := World.mapM_eq_some_iff.mp hsbits
      have hlength : sbits.length = width := hindex.length_eq.symm.trans s.index_length
      have hv := @selectorNumber_bounds isSigned sbits (by omega)
      rw [hlength] at hv
      rw [FixedRange.elementOffset_congr (s.staticIndex_emod hnum hconsts hindex),
        ← hN.slice_eq hcount hsize (s.width_le_of_static hnum) hv
          (hread.length_eq.symm.trans hlen)]
      exact World.mapM_eq_some_iff.mpr (hread.slice hconsts _ _)
  | none =>
      obtain ⟨result, h, hrun, -⟩ := selectItems_returns s.closed r count hhas s.index_has
        (by rw [s.index_length]; exact hw)
      refine ⟨result, h, by rw [s.expr_of_dynamic hnum]; exact hrun,
        fun P env bits sbits hbits hsbits => ?_⟩
      obtain ⟨⟨-, hresult⟩, hconsts, hkeep⟩ :=
        value_of_run (selectItems_builds r count _ _) s.closed hrun P env
      have hread := hkeep _ _ hbits
      have hindex := hkeep _ _ hsbits
      rw [← hN.selectedBits_eq hw hsize (hread.length_eq.symm.trans hlen)
        (hindex.length_eq.symm.trans s.index_length)]
      exact World.mapM_eq_some_iff.mpr (hresult bits sbits hconsts hread hindex)

theorem writes_of_names (s : Select r count width isSigned) : s.Writes := by
  intro value nonblocking guard hlen hhas hlive hvalue hguard
  cases hnum : number s.index with
  | some known =>
      obtain ⟨l', h, hrun, -⟩ := s.writeStatic_returns (staticIndex isSigned known width)
        hvalue hguard hhas hlive
      have hspec := value_of_run (s.writeStatic_builds (staticIndex isSigned known width))
        s.closed hrun
      refine ⟨l', h, by rw [s.assign_of_static _ _ _ hnum]; exact hrun,
        (hspec ⟨fun _ _ _ _ => 0, fun _ _ _ _ _ => 0⟩
          ⟨fun _ => false, fun _ _ _ => false, fun _ _ _ => none, fun _ => none⟩).1.1,
        fun P env old new sbits ls gs hold hnew hs hls hgs => ?_⟩
      obtain ⟨⟨-, hresult⟩, hconsts, hkeep⟩ := hspec P env
      have hindex := hkeep _ _ hs
      have hlength : sbits.length = width := hindex.length_eq.symm.trans s.index_length
      have hv := @selectorNumber_bounds isSigned sbits (by omega)
      rw [hlength] at hv
      rw [← hN.replaced_eq hcount hsize (s.width_le_of_static hnum) hv
          ((hkeep _ _ hold).length_eq.symm.trans hlen),
        ← FixedRange.elementOffset_congr (s.staticIndex_emod hnum hconsts hindex)]
      exact World.mapM_eq_some_iff.mpr
        (hresult old new ls gs hconsts (hkeep _ _ hold) (hkeep _ _ hnew) (hkeep _ _ hls)
          (hkeep _ _ hgs))
  | none =>
      obtain ⟨l', h, hrun, -⟩ := writeItems_returns s.closed s.lowering r ⟨count, s.elementSigned⟩
        s.array s.arrayType nonblocking hvalue hguard s.index_has hhas hlive
        (by rw [s.index_length]; exact hw)
      have hspec := value_of_run (writeItems_builds s.lowering r ⟨count, s.elementSigned⟩ s.array
        s.arrayType value nonblocking guard s.index) s.closed hrun
      refine ⟨l', h, by rw [s.assign_of_dynamic _ _ _ hnum]; exact hrun,
        (hspec ⟨fun _ _ _ _ => 0, fun _ _ _ _ _ => 0⟩
          ⟨fun _ => false, fun _ _ _ => false, fun _ _ _ => none, fun _ => none⟩).1.rebinds,
        fun P env old new sbits ls gs hold hnew hs hls hgs => ?_⟩
      obtain ⟨hwritten, hconsts, hkeep⟩ := hspec P env
      have hindex := hkeep _ _ hs
      rw [← hN.writtenBits_eq hw hsize ((hkeep _ _ hold).length_eq.symm.trans hlen)
        (hindex.length_eq.symm.trans s.index_length)]
      exact World.mapM_eq_some_iff.mpr
        (hwritten.reads old new sbits ls gs hconsts (hkeep _ _ hold) (hkeep _ _ hnew) hindex
          (hkeep _ _ hls) (hkeep _ _ hgs))

end Sound

end Select

end CppHdl
