import CppHdl.Graph.Acyclic
import CppHdl.Graph.Binary

/-!
# The builders return

On a closed graph, with operands that exist and a result of at least one bit,
`binary` and the builders under it throw nothing: they return as many bits as
asked for, all of which exist.
-/

namespace CppHdl

open Failing

/-- The builder returns `width` bits that exist. -/
abbrev ReturnsValue (g : Graph) (m : GraphM Value) (width : Nat) : Prop :=
  Returns g m fun h result => h.Has result ∧ result.length = width

namespace Graph.Has

variable {g : Graph}

theorem zero_lt (g : Graph) : 0 < g.bound := Nat.lt_of_lt_of_le (by omega) g.two_lt_bound

theorem nil : g.Has [] := fun _ hb => absurd hb List.not_mem_nil

theorem singleton {b : Nat} (hb : b < g.bound) : g.Has [b] := fun c hc => by
  rwa [List.mem_singleton.mp hc]

theorem append {u v : Value} (hu : g.Has u) (hv : g.Has v) : g.Has (u ++ v) := fun b hb =>
  (List.mem_append.mp hb).elim (hu b) (hv b)

theorem replicate {b : Nat} (hb : b < g.bound) (n : Nat) : g.Has (List.replicate n b) :=
  fun c hc => by rwa [(List.mem_replicate.mp hc).2]

theorem getD {v : Value} (hv : g.Has v) (i : Nat) : v.getD i 0 < g.bound :=
  getD_of_forall (zero_lt g) hv i

theorem getLastD {v : Value} (hv : g.Has v) : v.getLastD 0 < g.bound :=
  getLastD_of_forall (zero_lt g) hv

theorem padTo {v : Value} (hv : g.Has v) (width : Nat) {fill : Nat} (hfill : fill < g.bound) :
    g.Has (padTo v width fill) :=
  append (fun b hb => hv b (List.mem_of_mem_take hb)) (replicate hfill _)

theorem resize {v : Value} (hv : g.Has v) (width : Nat) : g.Has (resize v width) :=
  hv.padTo width (zero_lt g)

theorem slice {v : Value} (hv : g.Has v) (offset width : Nat) : g.Has (slice v offset width) := by
  intro b hb
  obtain ⟨i, hi⟩ := List.getElem?_of_mem hb
  obtain ⟨hlt, rfl⟩ := List.getElem?_eq_some_iff.mp hi
  rw [length_slice] at hlt
  rw [← List.getD_eq_getElem _ 0, getD_slice v offset hlt]
  exact hv.getD _

theorem map_range {f : Nat → Nat} {n : Nat} (hf : ∀ i, f i < g.bound) :
    g.Has ((List.range n).map f) := by
  intro b hb
  obtain ⟨i, -, rfl⟩ := List.mem_map.mp hb
  exact hf i

theorem constant (k width : Nat) : g.Has (constant k width) :=
  constant_of_forall (p := (· < g.bound)) (zero_lt g)
    (Nat.lt_of_lt_of_le (by omega) g.two_lt_bound) k width

end Graph.Has

variable {g : Graph}

theorem returns_chunks {β : Type} {step count : Nat} (hstep : 0 < step)
    {f : β → Nat → GraphM β} {b : β} (I : Nat → Graph → β → Prop) (hg : g.Closed) (h₀ : I 0 g b)
    (h : ∀ offset b h, offset < count → h.Closed → g.bound ≤ h.bound → I offset h b →
      Returns h (f b offset) (I (min (offset + step) count))) :
    Returns g ((chunks step count).foldlM f b) (I count) := by
  refine (Returns.foldlM (fun done h b => I (min (done.length * step) count) h b) hg
    (by simpa using h₀) ?_).mono ?_
  · intro done offset b k hinitial hk hle hb
    obtain ⟨rfl, hlt⟩ := chunks_prefix hstep hinitial
    rw [Nat.min_eq_left hlt.le] at hb
    rw [List.length_append, List.length_singleton, Nat.succ_mul]
    exact h _ b k hlt hk hle hb
  · intro k c _ hc
    rwa [chunks_cover hstep] at hc

theorem Op.known_of_bitwise {op : Op} (h : op.bitwise = true) : op.known = true := by
  cases op <;> first | rfl | cases h

theorem Op.known_of_arithmetic {op : Op} (h : op.arithmetic = true) : op.known = true := by
  cases op <;> first | rfl | cases h

theorem Op.known_of_reduces {op : Op} (h : op.reduces = true) : op.known = true := by
  cases op <;> first | rfl | cases h

theorem bitwise_returns (hg : g.Closed) {op : Op} (hop : op.bitwise = true) {left right : Value}
    (hl : g.Has left) (hr : g.Has right) (width : Nat) :
    ReturnsValue g (bitwise op left right width) width := by
  unfold bitwise
  refine returns_chunks (by omega) (fun offset h (result : Value) => h.Has result ∧
    result.length = offset) hg ⟨Graph.Has.nil, rfl⟩ ?_
  rintro offset result h hoffset hh hle ⟨hresult, hlen⟩
  refine (add_returns hh (Op.known_of_bitwise hop) (by omega) (by omega)
    (((hl.resize width).mono hle).slice _ _) (((hr.resize width).mono hle).slice _ _)
    Graph.Has.nil _).bind fun part k hk hle' ⟨hpart, hpartlen⟩ => Returns.pure hk ⟨?_, ?_⟩
  · exact (hresult.mono hle').append hpart
  · rw [List.length_append, hlen, hpartlen]
    omega

theorem Graph.one_lt_bound (g : Graph) : 1 < g.bound :=
  Nat.lt_of_lt_of_le (by omega) g.two_lt_bound

theorem unaryNot_returns (hg : g.Closed) {value : Value} (hvalue : g.Has value) :
    ReturnsValue g (unaryNot value) value.length :=
  bitwise_returns hg rfl hvalue (.replicate g.one_lt_bound _) _

theorem reduceWord_returns (hg : g.Closed) {op : Op} (hop : op.reduces = true) {part : Value}
    (hpart : g.Has part) : ReturnsValue g (reduceWord op part) 1 := by
  unfold reduceWord
  split
  · exact Returns.pure hg ⟨.constant _ _, by simp [constant]⟩
  · exact add_returns hg (Op.known_of_reduces hop) (by omega) (by omega) hpart .nil .nil _

theorem unary_returns (hg : g.Closed) {op : Op} (hop : op.reduces = true) {value : Value}
    (hvalue : g.Has value) : ReturnsValue g (unary op value) 1 := by
  unfold unary
  refine returns_chunks (by omega) (fun _ h (result : Value) => h.Has result ∧ result.length = 1)
    hg ⟨.singleton ?_, rfl⟩ ?_
  · split_ifs
    · exact g.one_lt_bound
    · exact Graph.Has.zero_lt g
  · rintro offset result h - hh hle ⟨hresult, -⟩
    refine (reduceWord_returns hh hop ((hvalue.mono hle).slice _ _)).bind
      fun reduced k hk hle' ⟨hreduced, _⟩ => ?_
    exact bitwise_returns hk (by cases op <;> rfl) (hresult.mono hle') hreduced 1

theorem mux_returns (hg : g.Closed) {condition yes no : Value} (hc : g.Has condition)
    (hy : g.Has yes) (hn : g.Has no) (hlen : yes.length = no.length) :
    ReturnsValue g (mux condition yes no) yes.length := by
  unfold mux
  refine (unary_returns hg rfl hc).bind fun any h hh hle ⟨hany, _⟩ => ?_
  refine Returns.ite (fun hne => absurd hlen hne) fun _ => ?_
  refine Returns.ite (fun _ => Returns.pure hh ?_) fun _ =>
    Returns.ite (fun _ => Returns.pure hh ⟨hy.mono hle, rfl⟩) fun _ => ?_
  · split_ifs
    · exact ⟨hy.mono hle, rfl⟩
    · exact ⟨hn.mono hle, hlen.symm⟩
  · refine returns_chunks (by omega) (fun offset h (result : Value) => h.Has result ∧
      result.length = offset) hh ⟨.nil, rfl⟩ ?_
    rintro offset result k hoffset hk hle' ⟨hresult, hreslen⟩
    refine (add_returns hk rfl (by omega) (by omega) ((hy.mono (hle.trans hle')).slice _ _)
      ((hn.mono (hle.trans hle')).slice _ _) (hany.mono hle') _).bind
      fun part j hj hle'' ⟨hpart, hpartlen⟩ => Returns.pure hj ⟨?_, ?_⟩
    · exact (hresult.mono hle'').append hpart
    · rw [List.length_append, hreslen, hpartlen]
      omega

theorem wordBinary_returns (hg : g.Closed) {op : Op} (hop : op.arithmetic = true)
    {left right : Value} (hl : g.Has left) (hr : g.Has right) {width : Nat} (h₀ : 0 < width)
    (h₆₄ : width ≤ 64) : ReturnsValue g (wordBinary op left right width) width := by
  unfold wordBinary
  split
  · rename_i lhs rhs _ _
    obtain ⟨word, hword⟩ := calculate_ok hop lhs rhs left.length
    rw [hword]
    exact Returns.pure hg ⟨.constant _ _, by simp [constant]⟩
  · exact add_returns hg (Op.known_of_arithmetic hop) h₀ h₆₄ hl hr .nil _

theorem wideEq_returns (hg : g.Closed) {left right : Value} (hl : g.Has left) (hr : g.Has right)
    (width : Nat) : ReturnsValue g (wideEq left right width) width := by
  unfold wideEq
  refine (bitwise_returns hg rfl (hl.resize _) (hr.resize _) _).bind
    fun different h hh _ ⟨hdifferent, _⟩ => ?_
  refine (unary_returns hh rfl hdifferent).bind fun any k hk _ ⟨hany, _⟩ => ?_
  refine (unaryNot_returns hk hany).bind fun same j hj _ ⟨hsame, _⟩ => ?_
  exact Returns.pure hj ⟨hsame.resize width, length_resize _ _ _⟩

theorem wideLt_returns (hg : g.Closed) {left right : Value} (hl : g.Has left) (hr : g.Has right)
    (width : Nat) : ReturnsValue g (wideLt left right width) width := by
  unfold wideLt
  refine Returns.bind (returns_chunks (by omega) (fun _ h (less : Value) => h.Has less ∧
    less.length = 1) hg ⟨.singleton (Graph.Has.zero_lt g), rfl⟩ ?_) fun less h hh _ ⟨hless, _⟩ =>
      Returns.pure hh ⟨hless.resize width, length_resize _ _ _⟩
  rintro offset less h hoffset hh hle ⟨hless, hlesslen⟩
  have ha := ((hl.resize (max left.length right.length)).mono hle).slice offset
    (min 64 (max left.length right.length - offset))
  have hb := ((hr.resize (max left.length right.length)).mono hle).slice offset
    (min 64 (max left.length right.length - offset))
  refine (wordBinary_returns hh rfl ha hb (by omega) (by omega)).bind
    fun same k hk hle' ⟨hsame, _⟩ => ?_
  refine (wordBinary_returns hk rfl (ha.mono hle') (hb.mono hle') (by omega) (by omega)).bind
    fun below j hj hle'' ⟨hbelow, hbelowlen⟩ => ?_
  refine (mux_returns hj (hsame.mono hle'') (hless.mono (hle'.trans hle'')) hbelow
    (by omega)).mono fun _ result _ ⟨hresult, hlen⟩ => ⟨hresult, by omega⟩

theorem shiftRightStage_returns (hg : g.Closed) {left right : Value} (hl : g.Has left)
    (hr : g.Has right) (width : Nat) {fill : Nat} (hfill : fill < g.bound) (stage : Nat) :
    Returns g (shiftRightStage right width fill left stage) fun h result => h.Has result := by
  have hmoved : ∀ i, (if 2 ^ stage < left.length - i then left.getD (i + 2 ^ stage) 0 else fill) <
      g.bound := by
    intro i
    split_ifs
    · exact hl.getD _
    · exact hfill
  unfold shiftRightStage
  simp only
  split
  · rename_i bit hbit
    refine (mux_returns hg (.singleton (hr bit (List.mem_of_getElem? hbit)))
      (.map_range hmoved) (hl.padTo _ hfill) ?_).mono fun _ result _ h => h.1
    rw [List.length_map, List.length_range, length_padTo]
  · exact Returns.pure hg (hl.padTo _ hfill)

theorem wideShiftRight_returns (hg : g.Closed) (op : Op) {left right : Value} (hl : g.Has left)
    (hr : g.Has right) (width : Nat) :
    ReturnsValue g (wideShiftRight op left right width) width := by
  have hfill : (if op = .sar ∧ (!left.isEmpty) = true then left.getLastD 0 else 0) < g.bound := by
    split_ifs
    · exact hl.getLastD
    · exact Graph.Has.zero_lt g
  unfold wideShiftRight
  generalize (if op = .sar ∧ (!left.isEmpty) = true then left.getLastD 0 else 0) = fill at hfill ⊢
  simp only
  refine (Returns.foldlM (fun _ h (left : Value) => h.Has left) hg (hl.padTo _ hfill)
    fun _ stage current h _ hh hle hcurrent => shiftRightStage_returns hh hcurrent (hr.mono hle)
      width (hfill.trans_le hle) stage).bind fun shifted h hh hle hshifted => ?_
  refine Returns.ite (fun _ => ?_) fun _ =>
    Returns.pure hh ⟨hshifted.padTo _ (hfill.trans_le hle), length_padTo _ _ _⟩
  refine (unary_returns hh (rfl : Op.reduces .any = true) ((hr.mono hle).slice _ _)).bind
    fun beyond k hk hle' ⟨hover, _⟩ => ?_
  refine (mux_returns hk hover (.replicate (hfill.trans_le (hle.trans hle')) width)
    ((hshifted.padTo _ (hfill.trans_le hle)).mono hle') ?_).mono
    fun _ result _ ⟨hresult, hlen⟩ => ⟨hresult, by rw [hlen, List.length_replicate]⟩
  rw [List.length_replicate, length_padTo]

theorem wideShl_returns (hg : g.Closed) {left right : Value} (hl : g.Has left)
    (hr : g.Has right) (width : Nat) : ReturnsValue g (wideShl left right width) width := by
  unfold wideShl
  refine (Returns.foldlM (fun _ h (left : Value) => h.Has left) hg
    (hl.padTo _ (Graph.Has.zero_lt g)) ?_).bind fun shifted h hh _ hshifted =>
      Returns.pure hh ⟨hshifted.resize width, length_resize _ _ _⟩
  intro _ stage current h _ hh hle hcurrent
  refine (mux_returns hh (.singleton ((hr.mono hle).getD stage)) (.map_range fun i => ?_) hcurrent
    (by rw [List.length_map, List.length_range])).mono fun _ result _ h => h.1
  split_ifs
  · exact hcurrent.getD _
  · exact Graph.Has.zero_lt h

theorem addendLimb_returns (hg : g.Closed) (op : Op) {limb : Value} (hlimb : g.Has limb) :
    ReturnsValue g (addendLimb op limb) limb.length := by
  unfold addendLimb
  exact Returns.ite (fun _ => unaryNot_returns hg hlimb) fun _ => Returns.pure hg ⟨hlimb, rfl⟩

theorem addLimb_returns (hg : g.Closed) (op : Op) {left right : Value} (hl : g.Has left)
    (hr : g.Has right) (width : Nat) {acc : Value × Value} (hresult : g.Has acc.1)
    (hcarry : g.Has acc.2) (offset : Nat) :
    Returns g (addLimb op left right width acc offset) fun h next =>
      h.Has next.1 ∧ h.Has next.2 ∧
        next.1.length = acc.1.length + min 32 (width - offset) := by
  obtain ⟨result, carry⟩ := acc
  unfold addLimb
  simp only
  refine (addendLimb_returns hg op (hr.slice _ _)).bind fun b h hh hle ⟨hb, _⟩ => ?_
  refine (wordBinary_returns hh rfl (((hl.slice _ _).mono hle).resize _) (hb.resize _) (by omega)
    (by omega)).bind fun first k hk hle' ⟨hfirst, _⟩ => ?_
  refine (wordBinary_returns hk rfl hfirst ((hcarry.mono (hle.trans hle')).resize _) (by omega)
    (by omega)).bind fun sum j hj hle'' ⟨hsum, _⟩ => Returns.pure hj ⟨?_, ?_, ?_⟩
  · exact (hresult.mono ((hle.trans hle').trans hle'')).append (hsum.slice 0 _)
  · exact hsum.slice _ _
  · rw [List.length_append, length_slice]

theorem wideAddSub_returns (hg : g.Closed) (op : Op) {left right : Value} (hl : g.Has left)
    (hr : g.Has right) (width : Nat) : ReturnsValue g (wideAddSub op left right width) width := by
  unfold wideAddSub
  refine (returns_chunks (by omega) (fun offset h (acc : Value × Value) => h.Has acc.1 ∧
    h.Has acc.2 ∧ acc.1.length = offset) hg ⟨.nil, .singleton ?_, rfl⟩ ?_).bind
      fun acc h hh _ ⟨hresult, _, hlen⟩ => Returns.pure hh ⟨hresult, hlen⟩
  · split_ifs
    · exact g.one_lt_bound
    · exact Graph.Has.zero_lt g
  · rintro offset acc h hoffset hh hle ⟨hresult, hcarry, hlen⟩
    refine (addLimb_returns hh op ((hl.resize width).mono hle) ((hr.resize width).mono hle) width
      hresult hcarry offset).mono fun _ next _ ⟨h₁, h₂, h₃⟩ => ⟨h₁, h₂, by omega⟩

theorem addSub_returns (hg : g.Closed) {op : Op} (hop : op = .add ∨ op = .sub)
    {left right : Value} (hl : g.Has left) (hr : g.Has right) {width : Nat} (h₀ : 0 < width) :
    ReturnsValue g (addSub op left right width) width := by
  unfold addSub
  refine Returns.ite (fun _ => wideAddSub_returns hg op hl hr width) fun hnarrow => ?_
  simp only [isWide, decide_eq_true_eq, not_or, Nat.not_lt] at hnarrow
  exact wordBinary_returns hg (by rcases hop with rfl | rfl <;> rfl) hl hr h₀ hnarrow.2.2

theorem constantPower_returns (hg : g.Closed) {value : Value} (hvalue : g.Has value) :
    Returns g (constantPower value) fun _ _ => True := by
  unfold constantPower
  exact (resolved_returns hg hvalue).bind fun roots h hh _ _ => Returns.pure hh trivial

theorem powerProduct_returns (hg : g.Closed) {left right : Value} (hl : g.Has left)
    (hr : g.Has right) (width : Nat) :
    Returns g (powerProduct left right width) fun h product => ∀ result, product = some result →
      h.Has result ∧ result.length = width := by
  have hshifted : ∀ {h : Graph} {v : Value} (shift : Nat), h.Has v →
      h.Has (resize (List.replicate (min shift width) 0 ++ v) width) := fun shift hv =>
    ((Graph.Has.replicate (Graph.Has.zero_lt _) _).append hv).resize width
  unfold powerProduct
  refine (constantPower_returns hg hr).bind fun power h hh hle _ => ?_
  cases power with
  | some shift =>
      refine Returns.pure hh fun result hresult => ?_
      rw [← Option.some.inj hresult]
      exact ⟨hshifted shift (hl.mono hle), length_resize _ _ _⟩
  | none =>
      refine (constantPower_returns hh (hl.mono hle)).bind fun power k hk hle' _ => ?_
      cases power with
      | some shift =>
          refine Returns.pure hk fun result hresult => ?_
          rw [← Option.some.inj hresult]
          exact ⟨hshifted shift (hr.mono (hle.trans hle')), length_resize _ _ _⟩
      | none => exact Returns.pure hk fun result hresult => by cases hresult

theorem wordMul_returns (hg : g.Closed) {left right : Value} (hl : g.Has left)
    (hr : g.Has right) {width : Nat} (h₀ : 0 < width) (h₆₄ : width ≤ 64) :
    ReturnsValue g (wordMul left right width) width := by
  unfold wordMul
  refine (powerProduct_returns hg hl hr width).bind fun product h hh hle hproduct => ?_
  cases product with
  | some result => exact Returns.pure hh (hproduct result rfl)
  | none => exact wordBinary_returns hh rfl (hl.mono hle) (hr.mono hle) h₀ h₆₄

theorem wideMul_returns (hg : g.Closed) {left right : Value} (hl : g.Has left)
    (hr : g.Has right) {width : Nat} (h₀ : 0 < width) :
    ReturnsValue g (wideMul left right width) width := by
  unfold wideMul
  refine (Returns.foldlM (fun _ h (result : Value) => h.Has result ∧ result.length = width) hg
    ⟨.replicate (Graph.Has.zero_lt g) _, List.length_replicate⟩ ?_)
  rintro _ a result h _ hh hle ⟨hresult, hlen⟩
  unfold mulRow
  refine (Returns.foldlM (fun _ h (result : Value) => h.Has result ∧ result.length = width) hh
    ⟨hresult, hlen⟩ ?_)
  rintro _ b acc k _ hk hle' ⟨hacc, hacclen⟩
  have hlhs := ((hl.resize width).mono (hle.trans hle')).slice a (min 32 (width - a))
  have hrhs := ((hr.resize width).mono (hle.trans hle')).slice b (min 32 (width - b))
  unfold mulLimb
  refine (wordMul_returns hk (hlhs.resize 64) (hrhs.resize 64) (by omega) (by omega)).bind
    fun product j hj hle'' ⟨hproduct, _⟩ => ?_
  exact addSub_returns hj (.inl rfl) (hacc.mono hle'')
    (((Graph.Has.replicate (Graph.Has.zero_lt j) (a + b)).append hproduct).resize width) h₀

theorem binaryCore_returns (hg : g.Closed) {op : Op} (hop : op.integer = true)
    {left right : Value} (hl : g.Has left) (hr : g.Has right) {width : Nat} (h₀ : 0 < width) :
    ReturnsValue g (binaryCore op left right width) width := by
  have hword : op.arithmetic = true → isWide left right width ≠ true →
      ReturnsValue g (wordBinary op left right width) width := by
    intro harith hnarrow
    simp only [isWide, ne_eq, decide_eq_true_eq, not_or, Nat.not_lt] at hnarrow
    exact wordBinary_returns hg harith hl hr h₀ hnarrow.2.2
  cases op <;> cases hop <;> unfold binaryCore
  case and | or | xor => exact bitwise_returns hg rfl hl hr width
  case add | sub => exact Returns.ite (fun _ => wideAddSub_returns hg _ hl hr width) (hword rfl)
  case shr | sar =>
    exact Returns.ite (fun _ => wideShiftRight_returns hg _ hl hr width) (hword rfl)
  case mul => exact Returns.ite (fun _ => wideMul_returns hg hl hr h₀) (hword rfl)
  case eq => exact Returns.ite (fun _ => wideEq_returns hg hl hr width) (hword rfl)
  case lt => exact Returns.ite (fun _ => wideLt_returns hg hl hr width) (hword rfl)
  case shl => exact Returns.ite (fun _ => wideShl_returns hg hl hr width) (hword rfl)

theorem binary_returns (hg : g.Closed) {op : Op} (hop : op.integer = true)
    {left right : Value} (hl : g.Has left) (hr : g.Has right) {width : Nat} (h₀ : 0 < width) :
    ReturnsValue g (binary op left right width) width := by
  unfold binary
  refine Returns.ite (fun _ => ?_) fun _ => binaryCore_returns hg hop hl hr h₀
  refine (powerProduct_returns hg hl hr width).bind fun product h hh hle hproduct => ?_
  cases product with
  | some result => exact Returns.pure hh (hproduct result rfl)
  | none => exact binaryCore_returns hh hop (hl.mono hle) (hr.mono hle) h₀

/-! ## The operators are correct -/

theorem Graph.closed_of_no_aliases {g : Graph} (h : g.aliases = ∅) : g.Closed := by
  have hnone : ∀ b : Nat, g.aliases[b]? = none := fun b => by rw [h]; exact Std.ExtTreeMap.getElem?_empty
  refine ⟨fun b s hs => ?_, fun b s hs => ?_, ⟨fun b => Acc.intro b fun s hs => ?_⟩⟩ <;>
    · rw [hnone] at hs
      cases hs

/-- Whatever bits `binary` builds evaluate to the integer result modulo
`2 ^ width`, and it builds them for every result of at least one bit. The two
bounds are those of `unsigned` and of a vector of bits. -/
theorem binary_correct {op : Op} (hop : op.integer = true) {left right : Value} {width : Nat}
    (hwidth : width < 2 ^ 32) (hleft : left.length < 2 ^ 60) {g : Graph} (hg : g.Closed)
    (hl : g.Has left) (hr : g.Has right) :
    (0 < width → ∃ result h, Ok (binary op left right width) g result h) ∧
    ∀ result h, Ok (binary op left right width) g result h → result.length = width ∧
      ∀ (P : Primitives) (env : Env) (l r : List Bool),
        left.mapM (g.value P env) = some l → right.mapM (g.value P env) = some r →
          result.mapM (h.value P env) =
            some (bitsOfNat width (integerResult op l r % 2 ^ width).toNat) := by
  constructor
  · intro h₀
    obtain ⟨result, h, hrun, -⟩ := binary_returns hg hop hl hr h₀
    exact ⟨result, h, hrun⟩
  · intro result h hrun
    have hbuilds := binary_integer hop left right width (by omega)
    obtain ⟨hwf, hgrows, -⟩ := hbuilds.ok hg.wf hrun
    have hspec := fun P env => hbuilds.value hg.wf hrun P env
    refine ⟨(hspec ⟨fun _ _ _ _ => 0, fun _ _ _ _ _ => 0⟩
      ⟨fun _ => false, fun _ _ _ => false, fun _ _ _ => none, fun _ => none⟩).1, fun P env l r hlr hrr => ?_⟩
    obtain ⟨hlen, hholds⟩ := hspec P env
    have hbelow := hgrows.value_below hwf P env
    have hconsts := (hwf.respects_world P env).consts
    have := (hholds l r hconsts (World.mapM_eq_some_iff.mp (hbelow.mapM hlr))
      (World.mapM_eq_some_iff.mp (hbelow.mapM hrr))).mapM_eq
    rw [hlen] at this
    exact this

/-- A 70-bit difference of two inputs. -/
theorem binary_correct_inputs :
    let g : Graph := { nodes := #[⟨.input, 4, [], [], [], "a", ""⟩] }
    ∃ result h, Ok (binary .sub [66, 67] [68, 69] 70) g result h ∧
      ∀ (P : Primitives) (env : Env) (l r : List Bool),
        [66, 67].mapM (g.value P env) = some l → [68, 69].mapM (g.value P env) = some r →
          result.mapM (h.value P env) =
            some (bitsOfNat 70 (integerResult .sub l r % 2 ^ 70).toNat) := by
  intro g
  have hg : g.Closed := Graph.closed_of_no_aliases rfl
  have hhas : ∀ v : Value, (∀ b ∈ v, b < 130) → g.Has v := fun v hv => hv
  obtain ⟨hreturns, hcorrect⟩ := binary_correct (rfl : Op.integer .sub = true)
    (show 70 < 2 ^ 32 by omega) (by decide) hg (hhas [66, 67] (by decide))
    (hhas [68, 69] (by decide))
  obtain ⟨result, h, hrun⟩ := hreturns (by omega)
  exact ⟨result, h, hrun, (hcorrect result h hrun).2⟩

end CppHdl
