import Mathlib.Data.List.Nodup
import Mathlib.Data.List.Perm.Subperm
import Mathlib.Order.WellFounded
import CppHdl.Graph.Allocate

/-!
# Acyclic aliases

Resolution follows alias chains, so it returns exactly when no chain runs in a
circle. `Closed` collects what a graph under construction satisfies: only bits
of existing nodes are aliased, to bits that exist, and never in a circle.
Resolving keeps that, and so does adding a node whose operands exist; neither
throws on such a graph.
-/

namespace CppHdl

open Failing

/-- No alias chain runs in a circle. -/
def AcyclicAliases (aliases : Std.ExtTreeMap Nat Nat) : Prop :=
  WellFounded fun s b : Nat => aliases[b]? = some s

/-- A path of aliases from one bit to another. -/
abbrev AliasPath (aliases : Std.ExtTreeMap Nat Nat) (b s : Nat) : Prop :=
  Relation.TransGen (fun s b : Nat => aliases[b]? = some s) s b

theorem AcyclicAliases.irrefl {aliases : Std.ExtTreeMap Nat Nat} (h : AcyclicAliases aliases)
    (b : Nat) : ¬ AliasPath aliases b b := fun hb =>
  (WellFounded.irrefl (WellFounded.transGen h)).irrefl b hb

/-- Distinct aliased bits are at most as many as the map has entries. -/
theorem length_le_size {aliases : Std.ExtTreeMap Nat Nat} {path : List Nat} (hnodup : path.Nodup)
    (hkeys : ∀ e ∈ path, (aliases[e]?).isSome) : path.length ≤ aliases.size := by
  rw [← Std.ExtTreeMap.length_keys]
  refine (List.Nodup.subperm hnodup fun e he => ?_).length_le
  rw [Std.ExtTreeMap.mem_keys]
  exact Std.ExtTreeMap.mem_iff_isSome_getElem?.mpr (hkeys e he)

theorem AcyclicAliases.chase_isSome {aliases : Std.ExtTreeMap Nat Nat}
    (h : AcyclicAliases aliases) : ∀ (fuel : Nat) (path : List Nat) (cursor : Nat), path.Nodup →
      (∀ e ∈ path, (aliases[e]?).isSome ∧ AliasPath aliases e cursor) →
      aliases.size < fuel + path.length → (chase aliases fuel path cursor).isSome := by
  intro fuel
  induction fuel with
  | zero =>
      intro path cursor hnodup hpath hsize
      have := length_le_size hnodup fun e he => (hpath e he).1
      omega
  | succ fuel ih =>
      intro path cursor hnodup hpath hsize
      unfold chase
      cases hc : aliases[cursor]? with
      | none => rfl
      | some source =>
          have hnew : cursor ∉ path := fun hmem => h.irrefl cursor (hpath cursor hmem).2
          have hcontains : path.contains cursor = false := by simpa using hnew
          simp only [hcontains, Bool.false_eq_true, if_false]
          refine ih _ source ?_ ?_ ?_
          · rw [List.nodup_append]
            refine ⟨hnodup, List.nodup_singleton cursor, ?_⟩
            rintro e he c hc' rfl
            exact hnew (List.mem_singleton.mp hc' ▸ he)
          · intro e he
            rcases List.mem_append.mp he with he | he
            · exact ⟨(hpath e he).1, .head hc (hpath e he).2⟩
            · obtain rfl := List.mem_singleton.mp he
              exact ⟨by rw [hc]; rfl, .single hc⟩
          · rw [List.length_append, List.length_singleton]
            omega

/-- A chain that ends ends at the root of every bit on it. -/
theorem AcyclicAliases.compressPath {aliases : Std.ExtTreeMap Nat Nat}
    (h : AcyclicAliases aliases) {path : List Nat} {root : Nat}
    (hroot : (compressPath aliases path root)[root]? = none) :
    AcyclicAliases (compressPath aliases path root) := by
  refine ⟨fun b => ?_⟩
  induction b using h.induction with
  | _ b ih =>
      refine Acc.intro b fun s hs => ?_
      rw [getElem?_compressPath] at hs
      split_ifs at hs with hmem
      · obtain rfl := Option.some.inj hs
        exact Acc.intro _ fun t ht => by rw [hroot] at ht; cases ht
      · exact ih s hs

/-- A graph whose aliases are in order. -/
structure Graph.Closed (g : Graph) : Prop where
  wf : g.Wf
  targets : ∀ b s : Nat, g.aliases[b]? = some s → s < g.bound
  acyclic : AcyclicAliases g.aliases

/-- All bits of a value exist. -/
def Graph.Has (g : Graph) (v : List Nat) : Prop := ∀ b ∈ v, b < g.bound

theorem Graph.Has.mono {g h : Graph} {v : List Nat} (hv : g.Has v) (hgh : g.bound ≤ h.bound) :
    h.Has v := fun b hb => Nat.lt_of_lt_of_le (hv b hb) hgh

theorem Graph.two_lt_bound (g : Graph) : 66 ≤ g.bound := by
  unfold Graph.bound nodeBase
  omega

/-! ## Runs that succeed -/

/-- From `g`, the program returns in a closed graph, with a result as `Q`
says. -/
def Returns {α : Type} (g : Graph) (m : GraphM α) (Q : Graph → α → Prop) : Prop :=
  ∃ a h, m g = .ok a h ∧ h.Closed ∧ g.bound ≤ h.bound ∧ Q h a

namespace Returns

variable {α β : Type} {g : Graph}

theorem pure {Q : Graph → α → Prop} {a : α} (hg : g.Closed) (h : Q g a) :
    Returns g (Pure.pure a) Q := ⟨a, g, rfl, hg, Nat.le_refl _, h⟩

theorem bind {m : GraphM α} {f : α → GraphM β} {Q : Graph → α → Prop} {R : Graph → β → Prop}
    (hm : Returns g m Q)
    (hf : ∀ a h, h.Closed → g.bound ≤ h.bound → Q h a → Returns h (f a) R) :
    Returns g (m >>= f) R := by
  obtain ⟨a, h, hrun, hclosed, hle, hQ⟩ := hm
  obtain ⟨b, k, hrun', hclosed', hle', hR⟩ := hf a h hclosed hle hQ
  refine ⟨b, k, ?_, hclosed', hle.trans hle', hR⟩
  rw [bind_apply, hrun]
  exact hrun'

theorem mono {m : GraphM α} {Q R : Graph → α → Prop} (hm : Returns g m Q)
    (h : ∀ k a, g.bound ≤ k.bound → Q k a → R k a) : Returns g m R := by
  obtain ⟨a, k, hrun, hclosed, hle, hQ⟩ := hm
  exact ⟨a, k, hrun, hclosed, hle, h k a hle hQ⟩

theorem ite {c : Prop} [Decidable c] {m n : GraphM α} {Q : Graph → α → Prop}
    (hm : c → Returns g m Q) (hn : ¬ c → Returns g n Q) : Returns g (if c then m else n) Q := by
  by_cases h : c
  · rw [if_pos h]; exact hm h
  · rw [if_neg h]; exact hn h

/-- A loop over a list with an invariant on the elements done so far. -/
theorem foldlM {f : β → α → GraphM β} {l : List α} {b : β} (I : List α → Graph → β → Prop)
    (hg : g.Closed) (h₀ : I [] g b)
    (hstep : ∀ done a b h, done ++ [a] <+: l → h.Closed → g.bound ≤ h.bound → I done h b →
      Returns h (f b a) (I (done ++ [a]))) :
    Returns g (l.foldlM f b) (I l) := by
  have main : ∀ rest done b h, done ++ rest = l → h.Closed → g.bound ≤ h.bound → I done h b →
      Returns h (rest.foldlM f b) (I l) := by
    intro rest
    induction rest with
    | nil =>
        intro done b h hl hh _ hb
        rw [List.append_nil] at hl
        subst hl
        exact Returns.pure hh hb
    | cons a rest ih =>
        intro done b h hl hh hle hb
        rw [List.foldlM_cons]
        refine (hstep done a b h ⟨rest, by simpa using hl⟩ hh hle hb).bind
          fun c k hk hle' hc => ?_
        exact ih (done ++ [a]) c k (by simpa using hl) hk (hle.trans hle') hc
  exact main l [] b g rfl hg (Nat.le_refl _) h₀

end Returns

/-! ## Resolution -/

/-- A chain without an entry ends where it starts; any other ends in the target
of an alias. -/
theorem chase_root {aliases : Std.ExtTreeMap Nat Nat} {fuel cursor root : Nat}
    {path path' : List Nat} (h : chase aliases fuel path cursor = some (path', root)) :
    root = cursor ∧ path' = path ∨ ∃ b : Nat, aliases[b]? = some root := by
  induction fuel generalizing path cursor with
  | zero => cases h
  | succ fuel ih =>
      unfold chase at h
      cases hc : aliases[cursor]? with
      | none =>
          rw [hc] at h
          obtain ⟨rfl, rfl⟩ := Prod.mk.inj (Option.some.inj h)
          exact .inl ⟨rfl, rfl⟩
      | some source =>
          rw [hc] at h
          simp only at h
          split_ifs at h
          rcases ih h with ⟨rfl, -⟩ | hroot
          · exact .inr ⟨cursor, hc⟩
          · exact .inr hroot

/-- What resolution leaves of a graph: aliases of the same bits. -/
structure Compressed (g h : Graph) : Prop where
  rest : h = { g with aliases := h.aliases }
  keys : ∀ b : Nat, h.aliases[b]? = none ↔ g.aliases[b]? = none

theorem Compressed.refl (g : Graph) : Compressed g g := ⟨rfl, fun _ => Iff.rfl⟩

theorem Compressed.trans {g h k : Graph} (hgh : Compressed g h) (hhk : Compressed h k) :
    Compressed g k :=
  ⟨by rw [hhk.rest, hgh.rest], fun b => (hhk.keys b).trans (hgh.keys b)⟩

theorem Compressed.bound {g h : Graph} (hgh : Compressed g h) : h.bound = g.bound := by
  rw [hgh.rest]
  rfl

theorem compressPath_closed {g : Graph} (hg : g.Closed) {fuel bit root : Nat} {path : List Nat}
    (h : chase g.aliases fuel [] bit = some (path, root)) (hbit : bit < g.bound) :
    let g' := { g with aliases := compressPath g.aliases path root }
    g'.Closed ∧ root < g.bound ∧ g'.aliases[root]? = none ∧ Compressed g g' := by
  obtain ⟨hwf, -, hroot, -⟩ := compress_grows h hg.wf
  obtain ⟨passed, hpath, -, -, hpassed⟩ := chase_spec h
  rw [List.nil_append] at hpath
  subst hpath
  have hlt : root < g.bound := by
    rcases chase_root h with ⟨rfl, -⟩ | ⟨c, hc⟩
    · exact hbit
    · exact hg.targets c root hc
  have hget : ∀ b : Nat, (compressPath g.aliases path root)[b]? =
      if b ∈ path then some root else g.aliases[b]? := getElem?_compressPath _ _ _
  refine ⟨⟨hwf, fun b s hs => ?_, hg.acyclic.compressPath hroot⟩, hlt, hroot, rfl, fun b => ?_⟩
  · change (compressPath g.aliases path root)[b]? = some s at hs
    rw [hget] at hs
    split_ifs at hs with hmem
    · rw [← Option.some.inj hs]
      exact hlt
    · exact hg.targets b s hs
  · change (compressPath g.aliases path root)[b]? = none ↔ _
    rw [hget]
    split_ifs with hmem
    · obtain ⟨s, hs, -⟩ := hpassed b hmem
      simp [hs]
    · exact Iff.rfl

theorem resolve_returns {g : Graph} (hg : g.Closed) {bit : Nat} (hbit : bit < g.bound) :
    Returns g (resolve bit) fun h root =>
      root < h.bound ∧ h.aliases[root]? = none ∧ Compressed g h := by
  have hsome := hg.acyclic.chase_isSome (g.aliases.size + 2) [] bit List.nodup_nil
    (fun e he => by cases he) (by rw [List.length_nil]; omega)
  obtain ⟨⟨path, root⟩, hchase⟩ := Option.isSome_iff_exists.mp hsome
  obtain ⟨hclosed, hlt, hroot, hcompressed⟩ := compressPath_closed hg hchase hbit
  refine ⟨root, _, ?_, hclosed, Nat.le_refl _, hlt, hroot, hcompressed⟩
  rw [resolve_run, hchase]

/-- The bits of a value exist and are not aliased. -/
def Graph.Roots (g : Graph) (v : List Nat) : Prop :=
  ∀ b ∈ v, b < g.bound ∧ g.aliases[b]? = none

theorem Graph.Roots.compressed {g h : Graph} {v : List Nat} (hv : g.Roots v)
    (hgh : Compressed g h) : h.Roots v := fun b hb =>
  ⟨by rw [hgh.bound]; exact (hv b hb).1, (hgh.keys b).mpr (hv b hb).2⟩

theorem resolved_returns {g : Graph} (hg : g.Closed) {value : Value} (hvalue : g.Has value) :
    Returns g (resolved value) fun h roots =>
      h.Roots roots ∧ roots.length = value.length ∧ Compressed g h := by
  unfold resolved
  induction value generalizing g with
  | nil => exact Returns.pure hg ⟨fun b hb => absurd hb List.not_mem_nil, rfl, Compressed.refl g⟩
  | cons b value ih =>
      rw [List.mapM_cons]
      refine (resolve_returns hg (hvalue b List.mem_cons_self)).bind
        fun root h hh hle ⟨hlt, hroot, hgh⟩ => ?_
      have hvalue' : h.Has value :=
        Graph.Has.mono (fun c hc => hvalue c (List.mem_cons_of_mem _ hc)) hle
      refine (ih hh hvalue').bind fun roots k hk hle' ⟨hroots, hlen, hhk⟩ => ?_
      refine Returns.pure hk ⟨fun c hc => ?_, by simp [hlen], hgh.trans hhk⟩
      rcases List.mem_cons.mp hc with rfl | hc
      · exact ⟨by rw [hhk.bound]; exact hlt, (hhk.keys c).mpr hroot⟩
      · exact hroots c hc

/-! ## Redirection targets

Rewriting invents no bits: what holds of the constants and of the operands of a
node holds of the operands it is left with and of every redirection target. -/

section Targets

variable {p : Nat → Prop} (h₀ : p 0)
include h₀

theorem getD_of_forall {v : Value} (hv : ∀ b ∈ v, p b) (i : Nat) : p (v.getD i 0) := by
  rw [List.getD_eq_getElem?_getD]
  cases h : v[i]? with
  | none => exact h₀
  | some b => exact hv b (List.mem_of_getElem? h)

theorem headD_of_forall {v : Value} (hv : ∀ b ∈ v, p b) : p (v.headD 0) := by
  cases v with
  | nil => exact h₀
  | cons b v => exact hv b List.mem_cons_self

theorem getLastD_of_forall {v : Value} (hv : ∀ b ∈ v, p b) : p (v.getLastD 0) := by
  rw [List.getLastD_eq_getLast?]
  cases h : v.getLast? with
  | none => exact h₀
  | some b => exact hv b (List.mem_of_getLast? h)

theorem Node.expandPower_operands {n : Node} (hn : ∀ b ∈ n.operands, p b) :
    ∀ b ∈ n.expandPower.operands, p b := by
  have hl : ∀ b ∈ n.left, p b := fun b hb => hn b (by simp [operands, hb])
  have hr : ∀ b ∈ n.right, p b := fun b hb => hn b (by simp [operands, hb])
  unfold expandPower
  split_ifs
  case neg => exact hn
  cases hpower : n.powerOperand with
  | none => exact hn
  | some q =>
      obtain ⟨shift, enable, operand⟩ := q
      have hq : p enable ∧ ∀ b ∈ operand, p b := by
        unfold powerOperand at hpower
        split at hpower
        · rename_i hright
          obtain ⟨rfl, rfl, rfl⟩ := by simpa using hpower
          exact ⟨hr _ (List.mem_of_getElem? (powerOf_spec hright).1), hl⟩
        · split_ifs at hpower
          obtain ⟨q, hleft, hq⟩ := Option.map_eq_some_iff.mp hpower
          obtain ⟨rfl, rfl, rfl⟩ := by simpa using hq
          exact ⟨hl _ (List.mem_of_getElem? (powerOf_spec hleft).1), hr⟩
      intro b hb
      simp only [operands, List.append_nil, List.mem_append, List.mem_map,
        List.mem_replicate] at hb
      rcases hb with ⟨i, -, rfl⟩ | ⟨-, rfl⟩
      · unfold powerLane
        split <;> split_ifs <;> first | exact h₀ | exact getD_of_forall h₀ hq.2 _
      · exact hq.1

variable (h₁ : p 1)
include h₁

theorem toNat_of_forall (b : Bool) : p b.toNat := by cases b <;> assumption

theorem constant_of_forall (k width : Nat) : ∀ b ∈ constant k width, p b := by
  intro b hb
  obtain ⟨i, -, rfl⟩ := List.mem_map.mp hb
  split_ifs
  · rw [Nat.and_one_is_mod]
    rcases Nat.mod_two_eq_zero_or_one (k >>> i) with h | h <;> rw [h] <;> assumption
  · exact h₀

theorem Node.reductionRedirect_target {op : Op} {v : Value} (hv : ∀ b ∈ v, p b) {t : Nat}
    (ht : reductionRedirect op v = some t) : p t := by
  unfold reductionRedirect at ht
  split at ht
  · rw [← Option.some.inj ht]
    split <;> exact toNat_of_forall h₀ h₁ _
  · by_cases hparity : op = .parity
    · simp [hparity] at ht
    · have hd : p (if op = .any then 1 else 0) := by split_ifs <;> assumption
      simp only [if_neg hparity] at ht
      generalize (if op = .any then 1 else 0) = d at ht hd
      split_ifs at ht
      · rw [← Option.some.inj ht]
        exact hd
      · split at ht
        · cases ht
        · rename_i bit rest hfilter
          split_ifs at ht
          rw [← Option.some.inj ht]
          exact hv bit (List.mem_of_mem_filter (by rw [hfilter]; exact List.mem_cons_self))

theorem Node.laneRedirect_target {op : Op} {left right select t : Nat} (hl : p left)
    (hr : p right) (hs : p select) (ht : laneRedirect op left right select = some t) : p t := by
  unfold laneRedirect at ht
  split at ht <;> (try cases ht) <;> split_ifs at ht <;>
    obtain rfl := Option.some.inj ht <;> assumption

omit h₁ in
theorem Node.shiftLane_target {op : Op} {v : Value} (hv : ∀ b ∈ v, p b) (shift i : Nat) :
    p (shiftLane op v shift i) := by
  have hfill : p (if op = .sar then v.getLastD 0 else 0) := by
    split_ifs
    · exact getLastD_of_forall h₀ hv
    · exact h₀
  unfold shiftLane
  split_ifs <;> first | exact getD_of_forall h₀ hv _ | exact hfill | exact h₀ |
    exact getLastD_of_forall h₀ hv

theorem Node.foldRedirects_target {n : Node} {rs : List (Nat × Nat)}
    (h : n.foldRedirects = .ok rs) {o t : Nat} (hm : (o, t) ∈ rs) : p t := by
  unfold foldRedirects at h
  split at h
  · split at h
    · cases h
    · obtain rfl := Except.ok.inj h
      obtain ⟨i, -, heq⟩ := List.mem_map.mp hm
      rw [← (Prod.mk.inj heq).2]
      exact getD_of_forall h₀ (constant_of_forall h₀ h₁ _ _) _
  · obtain rfl := Except.ok.inj h
    cases hm

theorem Node.redirects_target {n : Node} (hn : ∀ b ∈ n.operands, p b) {rs : List (Nat × Nat)}
    (h : n.redirects = .ok rs) {o t : Nat} (hm : (o, t) ∈ rs) : p t := by
  have hl : ∀ b ∈ n.left, p b := fun b hb => hn b (by simp [operands, hb])
  have hr : ∀ b ∈ n.right, p b := fun b hb => hn b (by simp [operands, hb])
  have hs : ∀ b ∈ n.select, p b := fun b hb => hn b (by simp [operands, hb])
  unfold redirects at h
  split at h
  case h_1 =>
    split at h
    · split_ifs at h <;> try exact absurd hm (not_mem_of_ok_nil h)
      all_goals
        obtain rfl := Except.ok.inj h
        obtain ⟨i, -, heq⟩ := List.mem_map.mp hm
        rw [← (Prod.mk.inj heq).2]
        first | exact getD_of_forall h₀ hl _ | exact h₀
    · exact absurd hm (not_mem_of_ok_nil h)
  case h_9 | h_10 | h_11 | h_12 =>
    obtain rfl := Except.ok.inj h
    obtain ⟨i, -, hbit⟩ := List.mem_filterMap.mp hm
    obtain ⟨t', ht', heq⟩ := Option.map_eq_some_iff.mp hbit
    rw [← (Prod.mk.inj heq).2]
    exact laneRedirect_target h₀ h₁ (getD_of_forall h₀ hl _) (getD_of_forall h₀ hr _)
      (headD_of_forall h₀ hs) ht'
  case h_13 | h_14 | h_15 =>
    obtain rfl := Except.ok.inj h
    rw [Option.mem_toList, Option.map_eq_some_iff] at hm
    obtain ⟨t', ht', heq⟩ := hm
    rw [← (Prod.mk.inj heq).2]
    exact reductionRedirect_target h₀ h₁ hl ht'
  case h_16 | h_17 | h_18 =>
    split at h
    · obtain rfl := Except.ok.inj h
      obtain ⟨i, -, heq⟩ := List.mem_map.mp hm
      rw [← (Prod.mk.inj heq).2]
      exact shiftLane_target h₀ hl _ _
    · exact absurd hm (not_mem_of_ok_nil h)
  case h_19 =>
    by_cases hright : n.right.isEmpty
    · rw [if_pos hright] at h
      exact absurd hm (not_mem_of_ok_nil h)
    · rw [if_neg hright] at h
      split at h
      · cases h
      · rename_i folded hfold
        obtain rfl := Except.ok.inj h
        rcases List.mem_append.mp hm with hm | hm
        · exact foldRedirects_target h₀ h₁ hfold hm
        · split_ifs at hm
          · obtain ⟨-, rfl⟩ := Prod.mk.inj (List.mem_singleton.mp hm)
            exact h₁
          · cases hm
  all_goals exact absurd hm (not_mem_of_ok_nil h)

end Targets

theorem calculate_ok {op : Op} (h : op.arithmetic = true) (l r width : Nat) :
    ∃ word, calculate op l r width = .ok word := by
  cases op <;> cases h <;> unfold calculate <;>
    first | exact ⟨_, rfl⟩ | (simp only; split_ifs <;> exact ⟨_, rfl⟩)

theorem Node.foldRedirects_ok {n : Node} (h : n.op.arithmetic = true) :
    ∃ rs, n.foldRedirects = .ok rs := by
  unfold foldRedirects
  split
  · rename_i left right _ _
    obtain ⟨word, hword⟩ := calculate_ok h left right n.left.length
    rw [hword]
    exact ⟨_, rfl⟩
  · exact ⟨_, rfl⟩

/-- Operations that rewriting knows. -/
def Op.known (op : Op) : Bool := op.arithmetic || op.bitwise || op.reduces

/-- Folding knows every operation that reaches it. -/
theorem Node.redirects_ok {n : Node} (hop : n.op.known = true) :
    ∃ rs, n.redirects = .ok rs := by
  unfold redirects
  split
  case h_19 =>
    have harith : n.op.arithmetic = true := by
      cases hn : n.op <;> simp_all [Op.known, Op.arithmetic, Op.bitwise, Op.reduces]
    obtain ⟨folded, hfolded⟩ := foldRedirects_ok harith
    rw [hfolded]
    by_cases hright : n.right.isEmpty
    · rw [if_pos hright]
      exact ⟨_, rfl⟩
    · rw [if_neg hright]
      exact ⟨_, rfl⟩
  all_goals first
    | exact ⟨_, rfl⟩
    | split <;> first | exact ⟨_, rfl⟩ | (split_ifs <;> exact ⟨_, rfl⟩)

theorem Node.expandPower_known (n : Node) : n.expandPower.op.known = n.op.known := by
  unfold Node.expandPower
  split_ifs with hop
  · have : n.op.known = true := by rcases hop with h | h | h <;> rw [h] <;> rfl
    cases n.powerOperand with
    | none => rfl
    | some p => rw [this]; rfl
  · rfl

/-! ## Adding nodes -/

/-- Simplification resolves the operands and reports the rewrites of the node
that is left, which may be an operation that folding does not know. -/
theorem simplifyNode_run {g : Graph} (hg : g.Closed) {n : Node} (hn : g.Has n.operands) :
    ∃ (m : Node) (h : Graph), h.Closed ∧ Compressed g h ∧ m.op.known = n.op.known ∧
      (∀ b ∈ m.operands, b < h.bound ∧ h.aliases[b]? = none) ∧
      simplifyNode n g = match m.redirects with
        | .error e => .error e h
        | .ok rs => .ok (m, rs) h := by
  have hl : g.Has n.left := fun b hb => hn b (by simp [Node.operands, hb])
  have hr : g.Has n.right := fun b hb => hn b (by simp [Node.operands, hb])
  have hs : g.Has n.select := fun b hb => hn b (by simp [Node.operands, hb])
  obtain ⟨left, g₁, hrun₁, hg₁, hle₁, hleft, -, hc₁⟩ := resolved_returns hg hl
  obtain ⟨right, g₂, hrun₂, hg₂, hle₂, hright, -, hc₂⟩ := resolved_returns hg₁ (hr.mono hle₁)
  obtain ⟨select, g₃, hrun₃, hg₃, -, hselect, -, hc₃⟩ :=
    resolved_returns hg₂ (hs.mono (hle₁.trans hle₂))
  refine ⟨Node.expandPower { n with left, right, select }, g₃, hg₃, (hc₁.trans hc₂).trans hc₃,
    Node.expandPower_known _, ?_, ?_⟩
  · refine Node.expandPower_operands (p := fun b => b < g₃.bound ∧ g₃.aliases[b]? = none) ?_ ?_
    · refine ⟨by have := g₃.two_lt_bound; omega, ?_⟩
      cases h : g₃.aliases[0]? with
      | none => rfl
      | some s =>
          have := (hg₃.wf 0 s h).1
          omega
    · intro b hb
      simp only [Node.operands, List.mem_append] at hb
      rcases hb with (hb | hb) | hb
      · exact (hleft.compressed (hc₂.trans hc₃)) b hb
      · exact (hright.compressed hc₃) b hb
      · exact hselect b hb
  · unfold simplifyNode
    rw [bind_apply, hrun₁]
    simp only
    rw [bind_apply, hrun₂]
    simp only
    rw [bind_apply, hrun₃]
    simp only
    generalize Node.expandPower { n with left, right, select } = m
    cases m.redirects <;> rfl

/-- New aliases lead from new bits to bits that are not aliased. -/
theorem Graph.Closed.pushNode {g : Graph} (hg : g.Closed) {n : Node} {result : Value}
    (hlen : result.length ≤ 64)
    (hresult : ∀ (i t : Nat), result[i]? = some t → t = g.bound + i ∨
      t < g.bound ∧ g.aliases[t]? = none) : (g.pushNode n result).Closed := by
  have hcases : ∀ b s : Nat, (g.pushNode n result).aliases[b]? = some s →
      g.aliases[b]? = some s ∨ g.bound ≤ b ∧ s < g.bound ∧ g.aliases[s]? = none := by
    intro b s hs
    rw [getElem?_pushNode] at hs
    split at hs
    · rename_i t ht
      split_ifs at ht with hb
      split_ifs at hs with heq
      · exact .inl hs
      · rw [← Option.some.inj hs]
        rcases hresult _ _ ht with h | h
        · omega
        · exact .inr ⟨hb, h⟩
    · exact .inl hs
  refine ⟨hg.wf.pushNode hlen, fun b s hs => ?_, ⟨fun b => ?_⟩⟩
  · rw [bound_pushNode]
    rcases hcases b s hs with h | ⟨-, h, -⟩
    · have := hg.targets b s h
      omega
    · omega
  · -- old chains are as they were
    have hold : ∀ b, b < g.bound →
        Acc (fun s b : Nat => (g.pushNode n result).aliases[b]? = some s) b := by
      intro b
      induction b using hg.acyclic.induction with
      | _ b ih =>
          intro hb
          refine Acc.intro b fun s hs => ?_
          rw [getElem?_pushNode_old hb] at hs
          exact ih s hs (hg.targets b s hs)
    refine Acc.intro b fun s hs => ?_
    rcases hcases b s hs with h | ⟨-, h, -⟩
    · exact hold s (hg.targets b s h)
    · exact hold s h

section Add

variable {g : Graph} {op : Op} {width : Nat} {left right select : Value} {name : String}

theorem has_operands {scope : String} (hl : g.Has left) (hr : g.Has right) (hs : g.Has select) :
    g.Has (Node.operands ⟨op, width, left, right, select, name, scope⟩) := by
  intro b hb
  simp only [Node.operands, List.mem_append] at hb
  rcases hb with (hb | hb) | hb
  · exact hl b hb
  · exact hr b hb
  · exact hs b hb

/-- Whatever is added, a closed graph stays closed and the result exists. -/
theorem add_closed (hg : g.Closed) (hl : g.Has left) (hr : g.Has right) (hs : g.Has select)
    {result : Value} {k : Graph} (hadd : Ok (add op width left right select name) g result k) :
    k.Closed ∧ g.bound ≤ k.bound ∧ k.Has result ∧ result.length = width := by
  obtain ⟨n, h, hh, hgh, -, hroots, hrun⟩ := simplifyNode_run hg
    (n := ⟨op, width, left, right, select, name, g.currentScope⟩) (has_operands hl hr hs)
  unfold Ok at hadd
  rw [add_run, hrun] at hadd
  split_ifs at hadd with hwidth
  cases hrs : n.redirects with
  | error e => rw [hrs] at hadd; cases hadd
  | ok rs =>
  rw [hrs] at hadd
  have hbound := hgh.bound
  have hconst : ∀ b < 2, b < h.bound ∧ h.aliases[b]? = none := by
    intro b hb
    refine ⟨by have := h.two_lt_bound; omega, ?_⟩
    cases halias : h.aliases[b]? with
    | none => rfl
    | some s =>
        have := (hh.wf b s halias).1
        omega
  simp only at hadd
  generalize hresult : redirectLanes ((List.range width).map (g.bound + ·)) rs = lanes at hadd
  have hlen : lanes.length = width := by rw [← hresult, length_redirectLanes]; simp
  have htarget : ∀ i t, lanes[i]? = some t →
      t = h.bound + i ∨ t < h.bound ∧ h.aliases[t]? = none := by
    intro i t ht
    rw [← hresult] at ht
    rcases getElem?_redirectLanes ht with ht | ht
    · rw [List.getElem?_map, Option.map_eq_some_iff] at ht
      obtain ⟨j, hj, rfl⟩ := ht
      obtain ⟨-, rfl⟩ := List.getElem?_eq_some_iff.mp hj
      left
      rw [hbound]
      simp
    · exact .inr (Node.redirects_target (p := fun b => b < h.bound ∧ h.aliases[b]? = none)
        (hconst 0 (by omega)) (hconst 1 (by omega)) hroots hrs ht)
  have hlanes : ∀ (i t : Nat), lanes[i]? = some t → i < width := by
    intro i t ht
    obtain ⟨hi, -⟩ := List.getElem?_eq_some_iff.mp ht
    omega
  split_ifs at hadd with hany
  all_goals obtain ⟨rfl, rfl⟩ := EStateM.Result.ok.inj hadd
  · refine ⟨hh.pushNode (by omega) htarget, ?_, ?_, hlen⟩
    · rw [Graph.bound_pushNode]; omega
    · intro b hb
      obtain ⟨i, hi⟩ := List.getElem?_of_mem hb
      have := hlanes i b hi
      rw [Graph.bound_pushNode]
      rcases htarget i b hi with h | ⟨h, -⟩ <;> omega
  · refine ⟨hh, by omega, ?_, hlen⟩
    intro b hb
    obtain ⟨i, hi⟩ := List.getElem?_of_mem hb
    have hi' := hlanes i b hi
    rcases htarget i b hi with hself | ⟨hlt, -⟩
    · refine absurd (List.any_eq_true.mpr ⟨b, hb, ?_⟩) hany
      simp only [decide_eq_true_eq]
      omega
    · exact hlt

/-- `add` of an operation that folding knows returns. -/
theorem add_returns (hg : g.Closed) (hop : op.known = true) (h₀ : 0 < width) (h₆₄ : width ≤ 64)
    (hl : g.Has left) (hr : g.Has right) (hs : g.Has select) (name : String) :
    Returns g (add op width left right select name) fun h result =>
      h.Has result ∧ result.length = width := by
  obtain ⟨n, h, -, -, hknown, -, hrun⟩ := simplifyNode_run hg
    (n := ⟨op, width, left, right, select, name, g.currentScope⟩) (has_operands hl hr hs)
  obtain ⟨rs, hrs⟩ := Node.redirects_ok (n := n) (by rw [hknown]; exact hop)
  have hreturns : ∃ result k, Ok (add op width left right select name) g result k := by
    unfold Ok
    rw [add_run, if_neg (by omega), hrun, hrs]
    simp only
    split_ifs
    · exact ⟨_, _, rfl⟩
    · exact ⟨_, _, rfl⟩
  obtain ⟨result, k, hadd⟩ := hreturns
  obtain ⟨hk, hle, hhas, hlen⟩ := add_closed hg hl hr hs hadd
  exact ⟨result, k, hadd, hk, hle, hhas, hlen⟩

end Add

end CppHdl
