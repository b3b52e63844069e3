import Mathlib.Data.List.Dedup
import CppHdl.Graph.Sealed
import CppHdl.Graph.Total
import CppHdl.Graph.GuardedCycle

/-!
# What an evaluation under a choice knows

Every result of `evaluate` stands for the bit it was asked for: wherever the
choice is the one the selector makes, it has the value the bit has in the graph
the evaluation started from. The bit the evaluation is for is redefined at the
end, so nothing may rest on its own definition; that is why results are compared
with the rounds of the evaluation before, and only with these.

Bits that evaluate to themselves are *settled*: so are all they read. The bit the
evaluation is for is never among them, and that is why a bit on a cycle does not
come back unchanged.
-/

namespace CppHdl

open Failing

/-! ## What a bit reads -/

def Node.laneOperands (n : Node) (i : Nat) : List Nat :=
  match n.op with
  | .input | .state | .wire => []
  | .mux => [n.left.getD i 0, n.right.getD i 0, n.select.headD 0]
  | .and | .or | .xor => [n.left.getD i 0, n.right.getD i 0]
  | _ => n.operands

namespace Graph

/-- Behind its aliases, an operand of `b` is `d`. -/
def Feeds (g : Graph) (d b : Nat) : Prop :=
  g.aliases[b]? = none ∧ 66 ≤ b ∧ ∃ n, g.nodes[owner b]? = some n ∧
    ∃ raw ∈ n.laneOperands (lane b), EndsAt g.aliases raw d

/-- The bit reads itself, directly or through others. -/
def OnCycle (g : Graph) (b : Nat) : Prop := Relation.TransGen g.Feeds b b

/-- Constants and lanes of nodes. -/
def Exists (g : Graph) (b : Nat) : Prop :=
  b < 2 ∨ 66 ≤ b ∧ ∃ n, g.nodes[owner b]? = some n ∧ lane b < n.width

/-- What the graph refers to exists, and a projection of a host call names the call. -/
structure Intact (g : Graph) : Prop where
  closed : g.Closed
  targets : ∀ b s : Nat, g.aliases[b]? = some s → g.Exists s
  operands : ∀ (i : Nat) (n : Node), g.nodes[i]? = some n → ∀ b ∈ n.operands, g.Exists b
  projections : ∀ (i : Nat) (n : Node), g.nodes[i]? = some n → n.op = .hostDebugOutput →
    ∀ b ∈ n.operands, b < 2 ∨ g.aliases[b]? = none ∧ ∃ m, g.nodes[owner b]? = some m ∧
      m.hostEffect = true

theorem Exists.lt_bound {g : Graph} {b : Nat} (h : g.Exists b) : b < g.bound := by
  rcases h with h | ⟨hb, n, hn, -⟩
  · have := g.two_lt_bound
    omega
  · exact lt_bound_of_owned hb hn

theorem Intact.exists_of_endsAt {g : Graph} (hg : g.Intact) {b r : Nat} (hb : g.Exists b)
    (h : EndsAt g.aliases b r) : g.Exists r := by
  induction h with
  | root _ => exact hb
  | link hs _ ih => exact ih (hg.targets _ _ hs)

/-- A lane reads operands of its node, or the constant 0 in their place. -/
theorem Intact.laneOperands {g : Graph} (hg : g.Intact) {i : Nat} {n : Node}
    (hn : g.nodes[i]? = some n) {j raw : Nat} (hraw : raw ∈ n.laneOperands j) : g.Exists raw := by
  have h₀ : g.Exists 0 := .inl (by omega)
  have hall := hg.operands i n hn
  have hl : g.Exists (n.left.getD j 0) :=
    getD_of_forall h₀ (fun b hb => hall b (by simp [Node.operands, hb])) j
  have hr : g.Exists (n.right.getD j 0) :=
    getD_of_forall h₀ (fun b hb => hall b (by simp [Node.operands, hb])) j
  have hs : g.Exists (n.select.headD 0) :=
    headD_of_forall h₀ fun b hb => hall b (by simp [Node.operands, hb])
  unfold Node.laneOperands at hraw
  split at hraw
  case h_1 | h_2 | h_3 => exact absurd hraw List.not_mem_nil
  case h_4 =>
    simp only [List.mem_cons, List.not_mem_nil, or_false] at hraw
    rcases hraw with rfl | rfl | rfl <;> assumption
  case h_5 | h_6 | h_7 =>
    simp only [List.mem_cons, List.not_mem_nil, or_false] at hraw
    rcases hraw with rfl | rfl <;> assumption
  case h_8 => exact hall raw hraw

/-- A bit that reads settled bits only is on no cycle, if settled bits read settled bits
only and it is not one of them. -/
theorem not_onCycle {g : Graph} {t : Nat} {settled : Nat → Prop} (ht : ¬ settled t)
    (hclosed : ∀ b, settled b ∨ b = t → ∀ d, g.Feeds d b → d < 2 ∨ settled d) : ¬ g.OnCycle t := by
  intro hcycle
  have hback : ∀ b, Relation.TransGen g.Feeds b t → b < 2 ∨ settled b := by
    intro b hb
    induction hb using Relation.TransGen.head_induction_on with
    | single h => exact hclosed t (.inr rfl) _ h
    | head h _ ih =>
        rcases ih with hlow | hsettled
        · have := h.2.1
          omega
        · exact hclosed _ (.inl hsettled) _ h
  obtain ⟨d, -, hfeeds⟩ := Relation.TransGen.tail'_iff.mp hcycle
  rcases hback t hcycle with hlow | hsettled
  · have := hfeeds.2.1
    omega
  · exact ht hsettled

end Graph

/-! ## Standing for a bit -/

/-- `r` has the value of `b` in `g`, as soon as what was evaluated in fewer rounds
has its value. -/
def World.Stands (w : World) (g : Graph) (b r : Nat) : Prop :=
  ∀ k, (∀ m < k, Below (g.evaluate w.prims w.env m) w.look) →
    ∀ v, g.evaluate w.prims w.env k b = some v → w.look r = some v

namespace World.Stands

variable {w : World} {g : Graph} {b r : Nat}

theorem of_endsAt {raw : Nat} (h : w.Stands g b r) (hraw : EndsAt g.aliases raw b) :
    w.Stands g raw r := by
  induction hraw with
  | root _ => exact h
  | @link raw s b hs _ ih =>
      intro k hbelow v hv
      cases k with
      | zero => cases hv
      | succ m =>
          refine ih h m (fun i hi => hbelow i (by omega)) v ?_
          change g.bitStep w.prims w.env (g.evaluate w.prims w.env m) raw = some v at hv
          unfold Graph.bitStep at hv
          rwa [hs] at hv

/-- What a round of the evaluation computes from the round before. -/
theorem of_node (halias : g.aliases[b]? = none)
    (hconst : b < 2 → ∀ v, some (b == 1) = some v → w.look r = some v)
    (h : ∀ n m, 66 ≤ b → g.nodes[owner b]? = some n → lane b < n.width →
      (∀ i ≤ m, Below (g.evaluate w.prims w.env i) w.look) → ∀ v,
      n.bitValue w.prims g.memories w.env (g.evaluate w.prims w.env m) b = some v →
        w.look r = some v) : w.Stands g b r := by
  intro k hbelow v hv
  cases k with
  | zero => cases hv
  | succ m =>
      change g.bitStep w.prims w.env (g.evaluate w.prims w.env m) b = some v at hv
      unfold Graph.bitStep at hv
      rw [halias] at hv
      simp only at hv
      split_ifs at hv with hlow hfree
      · exact hconst hlow v hv
      · cases hn : g.nodes[owner b]? with
        | none => rw [hn] at hv; cases hv
        | some n =>
            rw [hn] at hv
            simp only at hv
            split_ifs at hv with hlane
            exact h n m (by omega) hn hlane (fun i hi => hbelow i (by omega)) v hv

theorem round {raw m : Nat} (h : w.Stands g raw r)
    (hbelow : ∀ i ≤ m, Below (g.evaluate w.prims w.env i) w.look) {v : Bool}
    (hv : g.evaluate w.prims w.env m raw = some v) : w.look r = some v :=
  h m (fun i hi => hbelow i (by omega)) v hv

end World.Stands

/-! ## The state of an evaluation -/

/-- Beside the tables of an evaluation: the graph, and the bits that evaluated to
themselves. -/
structure Progress where
  graph : Graph
  settled : Nat → Prop

/-- Nodes are added and bits are settled. -/
def Progress.Le (c d : Progress) : Prop :=
  Grows c.graph d.graph ∧ ∀ b, c.settled b → d.settled b

theorem Progress.Le.refl (c : Progress) : c.Le c := ⟨Grows.refl _, fun _ h => h⟩

theorem Progress.Le.trans {c d e : Progress} (hcd : c.Le d) (hde : d.Le e) : c.Le e :=
  ⟨hcd.1.trans hde.1, fun b hb => hde.2 b (hcd.2 b hb)⟩

namespace Graph

def Independent (g : Graph) (b : Nat) : Prop :=
  g.aliases[b]? = none ∧ 66 ≤ b ∧ ∃ n, g.nodes[owner b]? = some n ∧ lane b < n.width ∧
    (n.op = .input ∨ n.op = .state)

/-- Not the result of a host call. -/
def Quiet (g : Graph) (b : Nat) : Prop :=
  ∀ n : Node, g.nodes[owner b]? = some n → n.hostEffect = false

end Graph

section

variable (g₀ : Graph) (t : Nat)

/-- What an evaluation returns: constants, bits it added and settled bits. -/
def Progress.Plain (c : Progress) (b : Nat) : Prop := b < 2 ∨ g₀.bound ≤ b ∨ c.settled b

/-- What was added to `g₀` for the sake of the bit `t`. -/
structure Kept (c : Progress) : Prop where
  sealed : Sealed g₀.bound (c.Plain g₀) c.graph
  grows : Grows g₀ c.graph
  roots : KeepsRoots g₀.bound g₀ c.graph
  settled : ∀ b, c.settled b → b ≠ t ∧ b < g₀.bound ∧ g₀.aliases[b]? = none ∧
    ∀ d, g₀.Feeds d b → d < 2 ∨ c.settled d

/-- A world of the graph, but for what its node says of `t`. -/
structure Models (c : Progress) (w : World) : Prop where
  respects : Respects c.graph w
  exempt : ∀ b, w.exempt b → b = t

def World.Chooses (w : World) (selector : Value) (choice : Nat) : Prop :=
  ∀ p ∈ selector.zipIdx, w.env.leaf p.1 = choice.testBit p.2

variable (selector : Value) (choice : Nat)

def Progress.Means (c : Progress) (b r : Nat) : Prop :=
  ∀ w, Models t c w → w.Chooses selector choice → w.Stands g₀ b r

/-- The tables are right. Inside its evaluation `t` is active. -/
structure Held (inside : Prop) (c : Progress) (s : Guarded) : Prop where
  graph : s.graph = c.graph
  kept : Kept g₀ t c
  active : ∀ b ∈ s.active, owner b < g₀.nodes.size
  inside : inside → t ∈ s.active
  cache : ∀ b r : Nat, s.cache[b]? = some r → c.Plain g₀ r ∧ g₀.Quiet b ∧
    (g₀.aliases[b]? = none → c.Means g₀ t selector choice b r)
  controls : ∀ bits ∈ s.controls, bits.length ≤ 6 ∧ ∀ b ∈ bits, g₀.Independent b

def evaluating (inside : Prop) : Ghosts Guarded Progress where
  Inv := Held g₀ t selector choice inside
  Le := Progress.Le
  le_refl := Progress.Le.refl
  le_trans := Progress.Le.trans

/-- What `evaluate` promises of the result for an operand. -/
structure Evaluated (raw : Nat) (c : Progress) (r : Nat) : Prop where
  plain : c.Plain g₀ r
  means : c.Means g₀ t selector choice raw r
  quiet : ∀ e, EndsAt g₀.aliases raw e → 2 ≤ e → g₀.Quiet e
  const : raw < 2 → r = raw

end

section

variable {g₀ : Graph} {t : Nat} {selector : Value} {choice : Nat} {inside : Prop}
  {c d : Progress} {s : Guarded}

theorem Progress.Plain.mono (h : ∀ b, c.settled b → d.settled b) {b : Nat} (hb : c.Plain g₀ b) :
    d.Plain g₀ b :=
  hb.imp_right fun hb => hb.imp_right (h b)

theorem Models.anti (h : Grows c.graph d.graph) {w : World} (hw : Models t d w) : Models t c w :=
  ⟨hw.respects.anti h, hw.exempt⟩

theorem Progress.Means.mono (h : Grows c.graph d.graph) {b r : Nat}
    (hr : c.Means g₀ t selector choice b r) : d.Means g₀ t selector choice b r :=
  fun w hw hchosen => hr w (hw.anti h) hchosen

theorem Evaluated.mono {raw r : Nat} (h : c.Le d)
    (hr : Evaluated g₀ t selector choice raw c r) : Evaluated g₀ t selector choice raw d r :=
  ⟨hr.plain.mono h.2, hr.means.mono h.1, hr.quiet, hr.const⟩

theorem Kept.node (h : Kept g₀ t c) {b : Nat} (hb : g₀.Exists b) (hlow : 2 ≤ b) {n : Node}
    (hn : c.graph.nodes[owner b]? = some n) : g₀.nodes[owner b]? = some n := by
  obtain ⟨-, m, hm, -⟩ := hb.resolve_left (by omega)
  rw [hm, ← hn, h.grows.nodes _ m hm]

/-- A settled bit was no alias and is none. -/
theorem Kept.unaliased (h : Kept g₀ t c) {b : Nat} (hb : b < g₀.bound)
    (halias : g₀.aliases[b]? = none) : c.graph.aliases[b]? = none :=
  (h.roots.unaliased hb).mpr halias

theorem Kept.memories (h : Kept g₀ t c) {w : World} (hw : Models t c w) :
    w.memories = g₀.memories := hw.respects.memories.trans h.grows.memories

theorem Kept.settle (h : Kept g₀ t c) {settled : Nat → Prop} (hmono : ∀ b, c.settled b → settled b)
    (hsettled : ∀ b, settled b → b ≠ t ∧ b < g₀.bound ∧ g₀.aliases[b]? = none ∧
      ∀ d, g₀.Feeds d b → d < 2 ∨ settled d) : Kept g₀ t ⟨c.graph, settled⟩ := by
  have hsealed := h.sealed
  refine ⟨⟨hsealed.wf, hsealed.size, hsealed.old,
    fun b s hb hs => (hsealed.new b s hb hs).imp_right fun hs => hs.imp_right (hmono s),
    fun b hb hlt => ?_, fun b hb => .inl hb⟩, h.grows, h.roots, hsettled⟩
  rcases hb with hb | hb | hb
  · exact hsealed.roots b (.inl hb) hlt
  · exact hsealed.roots b (.inr (.inl hb)) hlt
  · exact h.unaliased hlt (hsettled b hb).2.2.1

/-- A bit other than `t` stands for itself. -/
theorem Kept.means_self (h : Kept g₀ t c) {b : Nat} (hb : b < g₀.bound)
    (halias : g₀.aliases[b]? = none) (hne : b ≠ t) : c.Means g₀ t selector choice b b := by
  intro w hw _
  refine .of_node halias (fun hlow v hv => ?_) fun n m h66 hn hlane hbelow v hv => ?_
  · rw [hw.respects.consts.look_of_lt_two hlow, hv]
  · refine hw.respects.node b n v (h.unaliased hb halias) (fun he => hne (hw.exempt b he)) h66
      (h.grows.nodes _ n hn) hlane ?_
    unfold World.bitValue
    rw [h.memories hw]
    exact n.bitValue_mono _ _ _ b (hbelow m (Nat.le_refl m)) hv

theorem Held.onGraph {α : Type} {m : GraphM α} {Q : World → α → Prop} {R : α → Prop}
    (hs : Held g₀ t selector choice inside c s) (ht : t < g₀.bound) (hm : GraphBuilds m Q)
    (hseal : Keeps (sealing g₀.bound (c.Plain g₀)) c.graph c.graph m fun _ a => R a) :
    Keeps (evaluating g₀ t selector choice inside) c s (onGraph m) fun d a =>
      d.settled = c.settled ∧ Ok m c.graph a d.graph ∧ R a ∧ ∀ w, Models t d w → Q w a := by
  have hbuilds := hm c.graph hs.kept.sealed.wf
  unfold Keeps at hseal ⊢
  unfold CppHdl.onGraph
  rw [hs.graph]
  have hgoes : ∀ h : Graph, Grows c.graph h → KeepsRoots g₀.bound c.graph h →
      Sealed g₀.bound (c.Plain g₀) h →
      (evaluating g₀ t selector choice inside).Inv ⟨h, c.settled⟩ { s with graph := h } :=
    fun h hgrows hroots hsealed =>
      ⟨rfl, ⟨hsealed, hs.kept.grows.trans hgrows, hs.kept.roots.trans hroots, hs.kept.settled⟩,
        hs.active, hs.inside,
        fun b r hr => ⟨(hs.cache b r hr).1, (hs.cache b r hr).2.1,
          fun ha => ((hs.cache b r hr).2.2 ha).mono hgrows⟩, hs.controls⟩
  cases hrun : m c.graph with
  | ok a h =>
      rw [hrun] at hbuilds hseal
      obtain ⟨_, hroots, ⟨rfl, hsealed⟩, hR⟩ := hseal
      refine ⟨⟨h, c.settled⟩, ⟨hbuilds.2.1, fun _ hb => hb⟩, hgoes h hbuilds.2.1 hroots hsealed,
        rfl, hrun, hR, fun w hw => hbuilds.2.2 w (fun b hb => ?_) hw.respects⟩
      rw [hw.exempt b hb]
      exact Nat.lt_of_lt_of_le ht hs.kept.grows.bound_le
  | error e h =>
      rw [hrun] at hbuilds hseal
      obtain ⟨_, hroots, rfl, hsealed⟩ := hseal
      exact ⟨⟨h, c.settled⟩, ⟨hbuilds.2, fun _ hb => hb⟩, hgoes h hbuilds.2 hroots hsealed⟩

/-! ### Methods that build nothing -/

theorem resolve_builds (bit : Nat) :
    GraphBuilds (resolve bit) fun w root => w.look root = w.look bit :=
  (resolve_equates bit).along World.look (fun _ => Iff.rfl) (fun _ _ h => h.1)
    (fun _ _ _ => trivial) fun _ _ h => h.aliased

theorem Held.resolve (hs : Held g₀ t selector choice inside c s) (ht : t < g₀.bound) {raw : Nat}
    (hraw : raw < g₀.bound) :
    Keeps (evaluating g₀ t selector choice inside) c s (CppHdl.onGraph (resolve raw)) fun _ r =>
      EndsAt g₀.aliases raw r := by
  refine (hs.onGraph ht (resolve_builds raw) (R := fun r => EndsAt g₀.aliases raw r) ?_).mono
    fun _ _ _ h => h.2.2.1
  exact (hs.kept.sealed.resolve raw).mono fun _ _ _ h => (hs.kept.roots.ends raw hraw _).mp h.1

theorem Held.resolved (hs : Held g₀ t selector choice inside c s) (ht : t < g₀.bound)
    {value : Value} (hvalue : ∀ b ∈ value, b < g₀.bound) :
    Keeps (evaluating g₀ t selector choice inside) c s (CppHdl.onGraph (CppHdl.resolved value))
      fun _ roots => List.Forall₂ (EndsAt g₀.aliases) value roots := by
  refine (hs.onGraph ht (resolved_builds value)
    (R := fun roots => List.Forall₂ (EndsAt g₀.aliases) value roots) ?_).mono
    fun _ _ _ h => h.2.2.1
  refine (hs.kept.sealed.resolved_endsAt hvalue).mono fun _ roots _ h => ?_
  rw [List.forall₂_iff_get] at h ⊢
  exact ⟨h.1, fun i hi hi' => (hs.kept.roots.ends _ (hvalue _ (List.get_mem _ _)) _).mp (h.2 i hi hi')⟩

theorem Grows.setScope (g : Graph) (scope : String) : Grows g { g with currentScope := scope } :=
  ⟨fun _ _ h => h, fun _ h => h, fun _ _ h => h, rfl⟩

theorem Kept.setScope (h : Kept g₀ t c) (scope : String) :
    Kept g₀ t ⟨{ c.graph with currentScope := scope }, c.settled⟩ :=
  ⟨⟨h.sealed.wf, h.sealed.size, h.sealed.old, h.sealed.new, h.sealed.roots, h.sealed.const⟩,
    h.grows.trans (Grows.setScope _ scope), ⟨h.roots.ends, h.roots.along⟩, h.settled⟩

theorem Held.setScope (hs : Held g₀ t selector choice inside c s) (scope : String) :
    Keeps (evaluating g₀ t selector choice inside) c s (setScope scope) fun _ _ => True := by
  refine Keeps.modify (d := ⟨{ c.graph with currentScope := scope }, c.settled⟩)
    ⟨Grows.setScope _ scope, fun _ h => h⟩ ?_ trivial
  exact ⟨by rw [hs.graph], hs.kept.setScope scope, hs.active, hs.inside,
    fun b r hr => ⟨(hs.cache b r hr).1, (hs.cache b r hr).2.1,
      fun ha => ((hs.cache b r hr).2.2 ha).mono (Grows.setScope _ scope)⟩, hs.controls⟩

theorem forall₂_endsAt_unique {aliases : Std.ExtTreeMap Nat Nat} {raw u v : Value}
    (hu : List.Forall₂ (EndsAt aliases) raw u) (hv : List.Forall₂ (EndsAt aliases) raw v) :
    u = v := by
  induction hu generalizing v with
  | nil => cases hv; rfl
  | cons h _ ih =>
      cases hv with
      | cons h' htail => rw [h.unique h', ih htail]

theorem Held.changed (ht : t < g₀.bound) {pairs : List (Value × Value)}
    (hpairs : ∀ p ∈ pairs, ∀ b ∈ p.2, b < g₀.bound)
    (hs : Held g₀ t selector choice inside c s) :
    Keeps (evaluating g₀ t selector choice inside) c s (changed pairs) fun _ differs =>
      differs = true ↔ ¬ ∀ p ∈ pairs, List.Forall₂ (EndsAt g₀.aliases) p.2 p.1 := by
  induction pairs generalizing c s with
  | nil => exact Keeps.pure hs (by simp)
  | cons p pairs ih =>
      obtain ⟨values, raw⟩ := p
      unfold CppHdl.changed
      refine (hs.resolved ht (hpairs _ List.mem_cons_self)).bind fun roots d u _ hu hroots => ?_
      refine Keeps.ite (fun hne => Keeps.pure hu ?_) fun heq => ?_
      · refine ⟨fun _ hall => hne ?_, fun _ => rfl⟩
        exact forall₂_endsAt_unique (hall _ List.mem_cons_self) hroots
      · refine (ih (fun q hq => hpairs q (List.mem_cons_of_mem _ hq)) hu).mono
          fun _ differs _ h => h.trans (not_congr ?_)
        rw [List.forall_mem_cons]
        refine ⟨fun hall => ⟨?_, hall⟩, fun hall => hall.2⟩
        rw [not_not.mp heq]
        exact hroots

theorem mem_selector {bits : List Nat} {b : Nat} : b ∈ CppHdl.selector bits ↔ b ∈ bits := by
  unfold CppHdl.selector
  rw [List.mem_insertionSort, List.mem_dedup]

theorem Held.consider (hg₀ : g₀.Intact) (ht : t < g₀.bound) {index : Nat}
    (hindex : index < g₀.nodes.size) (hs : Held g₀ t selector choice inside c s) :
    Keeps (evaluating g₀ t selector choice inside) c s (consider index) fun _ _ => True := by
  unfold CppHdl.consider
  refine Keeps.get_bind ?_
  have hproducer : g₀.nodes[index]? = some g₀.nodes[index] := Array.getElem?_eq_getElem hindex
  rw [hs.graph, hs.kept.grows.nodes _ _ hproducer]
  dsimp only
  have hoperands := hg₀.operands _ _ hproducer
  refine Keeps.ite (fun _ => Keeps.pure hs trivial) fun _ => ?_
  have hraw : g₀.Exists (g₀.nodes[index].select.headD 0) :=
    headD_of_forall (.inl (by omega)) fun b hb => hoperands b (by simp [Node.operands, hb])
  refine (hs.resolve ht hraw.lt_bound).bind fun condition d u _ hu hcondition => ?_
  refine Keeps.ite (fun _ => Keeps.pure hu trivial) fun hlow => Keeps.get_bind ?_
  have hexists := hg₀.exists_of_endsAt hraw hcondition
  rw [hu.graph]
  cases hcomparison : d.graph.nodes[owner condition]? with
  | none => exact Keeps.throw hu
  | some comparison =>
      dsimp only
      have hold := hu.kept.node hexists (by omega) hcomparison
      refine Keeps.ite (fun _ => Keeps.pure hu trivial) fun _ => ?_
      have hbits : ∀ b ∈ comparison.left ++ comparison.right, g₀.Exists b := fun b hb =>
        hg₀.operands _ _ hold b (by simp only [Node.operands, List.mem_append] at hb ⊢; tauto)
      refine (hu.resolved ht fun b hb => (hbits b hb).lt_bound).bind
        fun roots e v _ hv hroots => ?_
      refine Keeps.modify ((evaluating g₀ t selector choice inside).le_refl e) ?_ trivial
      split_ifs with hkeep
      · refine ⟨hv.graph, hv.kept, hv.active, hv.inside, hv.cache, fun bits hmem => ?_⟩
        rcases List.mem_append.mp hmem with hmem | hmem
        · exact hv.controls bits hmem
        · obtain rfl := List.mem_singleton.mp hmem
          refine ⟨hkeep.2.2.1, fun b hb => ?_⟩
          have hall := List.all_eq_true.mp hkeep.1 b hb
          rw [mem_selector, List.mem_filter] at hb
          obtain ⟨i, hi, rfl⟩ := List.mem_iff_getElem.mp hb.1
          have hlen := hroots.length_eq
          have hend : EndsAt g₀.aliases _ roots[i] :=
            (List.forall₂_iff_get.mp hroots).2 i (by omega) hi
          have hthere := hg₀.exists_of_endsAt (hbits _ (List.get_mem _ _)) hend
          have h2 : 2 ≤ roots[i] := of_decide_eq_true hb.2
          obtain ⟨h66, n, hn, hlane⟩ := hthere.resolve_left (by omega)
          rw [hv.graph, hv.kept.grows.nodes _ n hn] at hall
          exact ⟨hend.unaliased, h66, n, hn, hlane, of_decide_eq_true hall⟩
      · exact hv

end

end CppHdl
