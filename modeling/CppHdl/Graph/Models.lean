import Mathlib.Data.List.Forall2
import CppHdl.Graph.Build

/-!
# Graphs as constraints on valuations

A graph constrains the valuations of its bits: an alias reads like its target
and a lane has at least the value its node computes. Building only ever adds
constraints, so the builders are specified in the logic of `Failing.Builds`:
a returned value means the right thing under *every* valuation that respects
the final graph. `Graph.value` is one of these valuations, and the least.

A valuation may exempt some old bits from their definition. That is what lets
a bit be redefined by logic built from its own operands: while the logic is
built the bit is exempt, and afterwards the alias takes the definition's place.
-/

namespace CppHdl

open Failing

/-- A valuation of bits with everything it depends on. -/
structure World where
  prims : Primitives
  memories : List Memory
  env : Env
  /-- Bits not held to the definition their node gives them. -/
  exempt : Nat → Prop
  look : Nat → Option Bool

namespace World

abbrev laneValue (w : World) (n : Node) (i : Nat) : Option Bool :=
  n.laneValue w.prims w.memories w.env w.look i

abbrev bitValue (w : World) (n : Node) (bit : Nat) : Option Bool :=
  n.bitValue w.prims w.memories w.env w.look bit

abbrev Reads (w : World) (v : Value) (bits : List Bool) : Prop :=
  List.Forall₂ (fun b x => w.look b = some x) v bits

end World

structure Respects (g : Graph) (w : World) : Prop where
  memories : w.memories = g.memories
  zero : w.look 0 = some false
  one : w.look 1 = some true
  aliased : ∀ b s : Nat, g.aliases[b]? = some s → w.look b = w.look s
  node : ∀ (b : Nat) (n : Node) (v : Bool), g.aliases[b]? = none → ¬ w.exempt b → 66 ≤ b →
    g.nodes[owner b]? = some n → lane b < n.width → w.bitValue n b = some v →
    w.look b = some v

/-- Only bits of existing nodes are aliased. -/
def Graph.Wf (g : Graph) : Prop := ∀ b s : Nat, g.aliases[b]? = some s → 66 ≤ b ∧ b < g.bound

/-- `h` extends `g`: it keeps the nodes, implies the aliases and leaves the
undriven and computed bits of `g` alone. -/
structure Grows (g h : Graph) : Prop where
  nodes : ∀ (i : Nat) (n : Node), g.nodes[i]? = some n → h.nodes[i]? = some n
  aliased : ∀ look : Nat → Option Bool, (∀ b s : Nat, h.aliases[b]? = some s → look b = look s) →
    ∀ b s : Nat, g.aliases[b]? = some s → look b = look s
  free : ∀ b : Nat, b < g.bound → g.aliases[b]? = none → h.aliases[b]? = none
  rest : h = { g with nodes := h.nodes, aliases := h.aliases, currentScope := h.currentScope }

namespace Grows

theorem refl (g : Graph) : Grows g g :=
  ⟨fun _ _ h => h, fun _ h => h, fun _ _ h => h, rfl⟩

theorem size_le {g h : Graph} (hgh : Grows g h) : g.nodes.size ≤ h.nodes.size := by
  by_contra hlt
  have hi : h.nodes.size < g.nodes.size := by omega
  have := hgh.nodes h.nodes.size g.nodes[h.nodes.size] (by simp [hi])
  simp at this

theorem bound_le {g h : Graph} (hgh : Grows g h) : g.bound ≤ h.bound := by
  have := hgh.size_le
  unfold Graph.bound nodeBase
  omega

theorem memories {g h : Graph} (hgh : Grows g h) : h.memories = g.memories := by
  rw [hgh.rest]

theorem trans {g h k : Graph} (hgh : Grows g h) (hhk : Grows h k) : Grows g k where
  nodes i n hn := hhk.nodes i n (hgh.nodes i n hn)
  aliased look hk := hgh.aliased look (hhk.aliased look hk)
  free b hb hfree := hhk.free b (Nat.lt_of_lt_of_le hb hgh.bound_le) (hgh.free b hb hfree)
  rest := by rw [hhk.rest, hgh.rest]

end Grows

theorem owner_lt_size {g : Graph} {i : Nat} {n : Node} (h : g.nodes[i]? = some n) :
    i < g.nodes.size := by
  by_contra hge
  rw [Array.getElem?_eq_none (by omega)] at h
  cases h

theorem lt_bound_of_owned {g : Graph} {b : Nat} {n : Node} (hb : 66 ≤ b)
    (h : g.nodes[owner b]? = some n) : b < g.bound :=
  (owner_lt_iff hb).mp (owner_lt_size h)

theorem Respects.anti {g h : Graph} {w : World} (hgh : Grows g h) (hw : Respects h w) :
    Respects g w where
  memories := by rw [hw.memories, hgh.memories]
  zero := hw.zero
  one := hw.one
  aliased := hgh.aliased w.look hw.aliased
  node b n v halias hexempt hb hn hlane hv :=
    hw.node b n v (hgh.free b (lt_bound_of_owned hb hn) halias) hexempt hb
      (hgh.nodes _ n hn) hlane hv

/-- The constraint logic of graph construction. -/
def graphConstraints : Constraints Graph World where
  Inv := Graph.Wf
  Le := Grows
  Fresh g w := ∀ b, w.exempt b → b < g.bound
  Sat := Respects
  le_refl := Grows.refl
  le_trans := Grows.trans
  fresh_mono hgh hfresh b hb := Nat.lt_of_lt_of_le (hfresh b hb) hgh.bound_le
  sat_anti := Respects.anti

/-- `m` only extends the graph, and its result satisfies `Q` under every
valuation that respects the graph it leaves. -/
abbrev GraphBuilds {α : Type} (m : GraphM α) (Q : World → α → Prop) : Prop :=
  Builds graphConstraints m Q

/-! ## The least valuation -/

/-- The world in which every bit has the value of its evaluation. -/
noncomputable def Graph.world (P : Primitives) (g : Graph) (env : Env) : World where
  prims := P
  memories := g.memories
  env := env
  exempt := fun _ => False
  look := g.value P env

theorem Graph.value_eq_alias (P : Primitives) (g : Graph) (env : Env) {b s : Nat}
    (h : g.aliases[b]? = some s) : g.value P env b = g.value P env s := by
  rw [g.value_eq_bitStep P env b]
  simp only [Graph.bitStep, h]

theorem Graph.value_eq_node (P : Primitives) (g : Graph) (env : Env) {b : Nat} {n : Node}
    (halias : g.aliases[b]? = none) (hb : 66 ≤ b) (hn : g.nodes[owner b]? = some n)
    (hlane : lane b < n.width) :
    g.value P env b = n.bitValue P g.memories env (g.value P env) b := by
  rw [g.value_eq_bitStep P env b]
  have h2 : ¬ b < 2 := by omega
  have h66 : ¬ b < 66 := by omega
  simp only [Graph.bitStep, halias, h2, h66, if_false, hn, hlane, if_true]

theorem Graph.Wf.value_const (P : Primitives) {g : Graph} (hg : g.Wf) (env : Env) {b : Nat}
    (hb : b < 2) : g.value P env b = some (b == 1) := by
  have halias : g.aliases[b]? = none := by
    cases h : g.aliases[b]? with
    | none => rfl
    | some s =>
        have := hg b s h
        omega
  rw [g.value_eq_bitStep P env b]
  simp only [Graph.bitStep, halias, hb, if_true]

theorem Graph.Wf.respects_world (P : Primitives) {g : Graph} (hg : g.Wf) (env : Env) :
    Respects g (g.world P env) where
  memories := rfl
  zero := hg.value_const P env (by omega)
  one := hg.value_const P env (by omega)
  aliased _ _ h := g.value_eq_alias P env h
  node b n v halias _ hb hn hlane hv := by
    change g.value P env b = some v
    rw [g.value_eq_node P env halias hb hn hlane]
    exact hv

/-- Every valuation that respects a graph extends the evaluation. -/
theorem Respects.value_below {g : Graph} {w : World} (hw : Respects g w)
    (hexempt : ∀ b, ¬ w.exempt b) : Below (g.value w.prims w.env) w.look := by
  apply g.value_below
  intro b v hv
  unfold Graph.bitStep at hv
  split at hv
  · rename_i s halias
    rw [hw.aliased b s halias]; exact hv
  · rename_i halias
    split_ifs at hv with h2 h66
    · have : b = 0 ∨ b = 1 := by omega
      rcases this with rfl | rfl
      · rw [hw.zero]; simpa using hv
      · rw [hw.one]; simpa using hv
    · cases hn : g.nodes[owner b]? with
      | none => rw [hn] at hv; cases hv
      | some n =>
          rw [hn] at hv
          simp only at hv
          split_ifs at hv with hlane
          refine hw.node b n v halias (hexempt b) (by omega) hn hlane ?_
          change n.bitValue w.prims w.memories w.env w.look b = some v
          rw [hw.memories]; exact hv

/-- What a builder promises of its result holds of the evaluation. -/
theorem Failing.Builds.value {α : Type} {m : GraphM α} {Q : World → α → Prop}
    (hm : GraphBuilds m Q) {g h : Graph} {a : α} (hg : g.Wf) (hrun : Ok m g a h)
    (P : Primitives) (env : Env) : Q (h.world P env) a := by
  obtain ⟨hwf, -, hQ⟩ := hm.ok hg hrun
  exact hQ _ (fun b hb => hb.elim) (hwf.respects_world P env)

/-- Extending a graph never withdraws or changes a value. -/
theorem Grows.value_below {g h : Graph} (hgh : Grows g h) (hh : h.Wf) (P : Primitives)
    (env : Env) : Below (g.value P env) (h.value P env) :=
  ((hh.respects_world P env).anti hgh).value_below fun _ hb => hb.elim

/-! ## Reading values -/

namespace World

variable {w : World}

theorem mapM_eq_some_iff {look : Nat → Option Bool} {v : Value} {bits : List Bool} :
    v.mapM look = some bits ↔ List.Forall₂ (fun b x => look b = some x) v bits := by
  induction v generalizing bits with
  | nil =>
      simp only [List.mapM_nil, Option.pure_def, Option.some.injEq, List.forall₂_nil_left_iff]
      exact eq_comm
  | cons b v ih =>
      simp only [List.mapM_cons, Option.pure_def, Option.bind_eq_bind,
        Option.bind_eq_some_iff, Option.some.injEq, List.forall₂_cons_left_iff, ih]
      constructor
      · rintro ⟨x, hx, xs, hxs, rfl⟩
        exact ⟨x, xs, hx, hxs, rfl⟩
      · rintro ⟨x, xs, hx, hxs, rfl⟩
        exact ⟨x, hx, xs, hxs, rfl⟩

theorem Reads.length_eq {v : Value} {bits : List Bool} (h : w.Reads v bits) :
    v.length = bits.length := List.Forall₂.length_eq h

theorem reads_iff_getElem {v : Value} {bits : List Bool} :
    w.Reads v bits ↔ v.length = bits.length ∧
      ∀ i (h₁ : i < v.length) (h₂ : i < bits.length), w.look v[i] = some bits[i] := by
  rw [World.Reads, List.forall₂_iff_get]
  simp only [List.get_eq_getElem]

theorem Reads.getElem {v : Value} {bits : List Bool} (h : w.Reads v bits) {i : Nat}
    (h₁ : i < v.length) : w.look v[i] = some (bits.get ⟨i, h.length_eq ▸ h₁⟩) :=
  (reads_iff_getElem.mp h).2 i h₁ _

theorem Reads.getElem? {v : Value} {bits : List Bool} (h : w.Reads v bits) (i : Nat) :
    v[i]?.bind w.look = bits[i]? := by
  by_cases hi : i < v.length
  · have hi' : i < bits.length := h.length_eq ▸ hi
    rw [List.getElem?_eq_getElem hi, Option.bind_some, h.getElem hi,
      List.getElem?_eq_getElem hi', List.get_eq_getElem]
  · rw [List.getElem?_eq_none (by omega), List.getElem?_eq_none (by rw [← h.length_eq]; omega)]
    rfl

theorem Reads.append {u v : Value} {xs ys : List Bool} (h₁ : w.Reads u xs)
    (h₂ : w.Reads v ys) : w.Reads (u ++ v) (xs ++ ys) :=
  List.rel_append h₁ h₂

theorem Reads.take {v : Value} {bits : List Bool} (h : w.Reads v bits) (n : Nat) :
    w.Reads (v.take n) (bits.take n) := List.forall₂_take n h

theorem Reads.drop {v : Value} {bits : List Bool} (h : w.Reads v bits) (n : Nat) :
    w.Reads (v.drop n) (bits.drop n) := List.forall₂_drop n h

theorem Reads.unique {v : Value} {xs ys : List Bool} (h₁ : w.Reads v xs) (h₂ : w.Reads v ys) :
    xs = ys := by
  have h₁' := mapM_eq_some_iff.mpr h₁
  rw [mapM_eq_some_iff.mpr h₂] at h₁'
  exact (Option.some.inj h₁').symm

theorem reads_replicate {b : Nat} {x : Bool} (h : w.look b = some x) (n : Nat) :
    w.Reads (List.replicate n b) (List.replicate n x) := by
  rw [reads_iff_getElem]
  simp [h]

theorem reads_singleton {b : Nat} {x : Bool} : w.Reads [b] [x] ↔ w.look b = some x := by
  simp [World.Reads]

end World

end CppHdl
