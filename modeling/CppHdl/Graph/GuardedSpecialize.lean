import CppHdl.Graph.GuardedAttempts

/-!
# What specialization does to a graph

A bit that is specialized keeps the value it has wherever its evaluation is well
founded, and so does every other bit. A specialization that fails leaves the
graph as it was, but for the aliases that were followed on the way: `resolve`
points them further along their chains.
-/

namespace CppHdl

open Failing

/-- The graph is the same but for aliases that lead further along their chains. -/
structure Shortened (g h : Graph) : Prop where
  rest : h = { g with aliases := h.aliases }
  along : ∀ b s : Nat, h.aliases[b]? = some s → AliasPath g.aliases b s
  unaliased : ∀ b : Nat, h.aliases[b]? = none → g.aliases[b]? = none

section

variable {g₀ : Graph} {t : Nat}

/-- Attempts that were taken back left shorter chains. -/
theorem Ready.shortened (hg₀ : g₀.Intact) {s : Guarded} (hs : Ready g₀ t s)
    (hscope : s.graph.currentScope = g₀.currentScope) : Shortened g₀ s.graph := by
  have hbound : s.graph.bound = g₀.bound := by
    unfold Graph.bound
    rw [hs.nodes]
  refine ⟨?_, fun b r hr => ?_, fun b hb => ?_⟩
  · have hrest := hs.kept.grows.rest
    rw [hs.nodes, hscope] at hrest
    exact hrest
  · have hlt := (hs.kept.sealed.wf b r hr).2
    exact Relation.TransGen.mono (fun _ _ h => h.2) _ _ (hs.kept.roots.along b (hbound ▸ hlt) r hr)
  · by_cases hlt : b < g₀.bound
    · exact (hs.kept.roots.unaliased hlt).mp hb
    · exact hg₀.closed.wf.getElem?_aliases_of_ge (by omega)

/-- A bit that others read exists. -/
theorem Graph.OnCycle.exists (hg₀ : g₀.Intact) (ht : g₀.OnCycle t) : g₀.Exists t := by
  obtain ⟨b, hfeeds, -⟩ := Relation.TransGen.head'_iff.mp ht
  obtain ⟨-, -, n, hn, raw, hraw, hend⟩ := hfeeds
  exact hg₀.exists_of_endsAt (hg₀.laneOperands hn hraw) hend

/-- Bits no node owns are never defined. -/
theorem Graph.Wf.evaluate_of_ge (hg : g₀.Wf) (P : Primitives) (env : Env) (k : Nat) {b : Nat}
    (hb : g₀.bound ≤ b) : g₀.evaluate P env k b = none := by
  have h66 : 66 ≤ g₀.bound := by unfold Graph.bound nodeBase; omega
  cases k with
  | zero => rfl
  | succ k =>
      change g₀.bitStep P env _ b = none
      unfold Graph.bitStep
      rw [hg.getElem?_aliases_of_ge hb]
      dsimp only
      have howner : g₀.nodes.size ≤ owner b := by
        unfold Graph.bound nodeBase at hb
        unfold owner
        omega
      rw [if_neg (by omega), if_neg (by omega), Array.getElem?_eq_none howner]

/-- What stands for a bit may take its place. -/
theorem Replaced.value_below (hg₀ : g₀.Intact) (ht : g₀.OnCycle t) {h : Graph}
    (hh : Replaced g₀ t h) (P : Primitives) (env : Env) :
    Below (g₀.value P env) (h.value P env) := by
  obtain ⟨htalias, ht66, htowner⟩ := ht.lane
  have htlt : t < g₀.bound := (owner_lt_iff ht66).mp htowner
  obtain ⟨c, r, hc, hstands, rfl⟩ := hh
  have hct : c.graph.aliases[t]? = none := hc.unaliased htlt htalias
  generalize hdef : ({ c.graph with aliases := c.graph.aliases.insert t r } : Graph) = h
  have haliases : ∀ b : Nat, h.aliases[b]? = if b = t then some r else c.graph.aliases[b]? := by
    intro b
    rw [← hdef]
    change (c.graph.aliases.insert t r)[b]? = _
    rw [Std.ExtTreeMap.getElem?_insert]
    by_cases hb : b = t
    · simp [hb]
    · simp [hb, Ne.symm hb]
  have hnodes : h.nodes = c.graph.nodes := by rw [← hdef]
  have hwf : h.Wf := fun b s hs => by
    rw [haliases] at hs
    have hbound : h.bound = c.graph.bound := by unfold Graph.bound; rw [hnodes]
    rw [hbound]
    split_ifs at hs with hb
    · exact ⟨hb ▸ ht66, hb ▸ Nat.lt_of_lt_of_le htlt hc.grows.bound_le⟩
    · exact hc.sealed.wf b s hs
  -- the new evaluation is a world of the old graph in which `t` is exempt
  let w : World := { h.world P env with exempt := (· = t) }
  have hrespects : Respects c.graph w := by
    have hmemories : h.memories = c.graph.memories := by rw [← hdef]
    refine ⟨hmemories, hwf.value_const P env (by omega), hwf.value_const P env (by omega),
      fun b s hs => ?_, fun b n v halias hexempt h66 hn hlane hv => ?_⟩
    · have hne : b ≠ t := fun hb => by rw [hb, hct] at hs; cases hs
      exact h.value_eq_alias P env (by rw [haliases, if_neg hne, hs])
    · change h.value P env b = some v
      rw [h.value_eq_node P env (by rw [haliases, if_neg hexempt, halias]) h66 (hnodes ▸ hn) hlane]
      exact hv
  have hw : Models t c w := ⟨hrespects, fun _ hb => hb⟩
  have hold : Respects g₀ w := hrespects.anti hc.grows
  have hstand : ∀ b < g₀.bound, ∃ s, w.Stands g₀ b s ∧ w.look b = w.look s := by
    intro b hb
    obtain ⟨e, he⟩ := hg₀.closed.acyclic.exists_endsAt b
    have hlook : w.look b = w.look e := he.look_eq hold.aliased
    by_cases heq : e = t
    · subst heq
      exact ⟨r, (hstands w hw).of_endsAt he,
        hlook.trans (h.value_eq_alias P env (by rw [haliases, if_pos rfl]))⟩
    · have hlt := hc.sealed.lt_of_endsAt hb ((hc.roots.ends b hb e).mpr he)
      have hself : c.Means g₀ t [] 0 e e := hc.means_self hlt he.unaliased heq
      exact ⟨e, (hself w hw fun _ hp => absurd hp List.not_mem_nil).of_endsAt he, hlook⟩
  have hrounds : ∀ k, Below (g₀.evaluate P env k) w.look := by
    intro k
    induction k using Nat.strong_induction_on with
    | _ k ih =>
        intro b v hv
        by_cases hb : b < g₀.bound
        · obtain ⟨s, hs, hlook⟩ := hstand b hb
          rw [hlook]
          exact hs k ih v hv
        · rw [hg₀.closed.wf.evaluate_of_ge P env k (by omega)] at hv
          cases hv
  intro b v hv
  obtain ⟨k, hk⟩ := (g₀.system P env).value_eq_some_iff.mp hv
  exact hrounds k b v hk

end

theorem specializeGuardedCycle_ok {root : Nat} {path : List Nat} {g g' : Graph} {done : Bool} :
    Ok (specializeGuardedCycle root path) g done g' ↔
      ∃ s, Ok (do path.forM consider; attempts root g.currentScope 32 []) { graph := g } done s ∧
        s.graph = g' := by
  unfold specializeGuardedCycle Ok
  dsimp only
  cases (do path.forM consider; attempts root g.currentScope 32 [] : GuardedM Bool) { graph := g } with
  | ok a s =>
      constructor
      · intro h
        injection h with ha hs
        exact ⟨s, by rw [ha], hs⟩
      · rintro ⟨s', h, rfl⟩
        injection h with ha hs
        rw [ha, hs]
  | error e s =>
      constructor
      · intro h
        cases h
      · rintro ⟨s', h, -⟩
        cases h

/-- A bit on a cycle that is specialized keeps its value wherever its evaluation
is well founded, and so do all others. When no attempt succeeds, the graph is as
before the call but for the aliases that were followed, which lead further along
their chains. -/
theorem specializeGuardedCycle_sound {g g' : Graph} {root : Nat} {path : List Nat} {done : Bool}
    (hg : g.Intact) (hcycle : g.OnCycle (nodeBase root)) (hpath : ∀ i ∈ path, i < g.nodes.size)
    (hrun : Ok (specializeGuardedCycle root path) g done g') :
    (done = true → ∃ replacement, g'.aliases[nodeBase root]? = some replacement ∧
      ∀ P env, Below (g.value P env) (g'.value P env) ∧
        ∀ v, g.value P env (nodeBase root) = some v → g'.value P env replacement = some v) ∧
    (done = false → Shortened g g') := by
  have hexists := hcycle.exists hg
  have hlt := hexists.lt_bound
  obtain ⟨s, hattempts, rfl⟩ := specializeGuardedCycle_ok.mp hrun
  obtain ⟨_, u, hconsider, hattempts⟩ := ok_bind.mp hattempts
  obtain ⟨hready, hscope⟩ := ready_of_consider hg hlt hpath hconsider
  have hresult := attempts_ok hg hcycle rfl hexists hready hscope hattempts
  refine ⟨fun hdone => ?_, fun hdone => ?_⟩ <;> subst hdone
  · have hbelow := Replaced.value_below hg hcycle hresult
    obtain ⟨c, r, -, -, hgraph⟩ := hresult
    have halias : s.graph.aliases[nodeBase root]? = some r := by
      rw [hgraph]
      exact Std.ExtTreeMap.getElem?_insert_self
    refine ⟨r, halias, fun P env => ⟨hbelow P env, fun v hv => ?_⟩⟩
    rw [← s.graph.value_eq_alias P env halias]
    exact hbelow P env _ v hv
  · exact hresult.1.shortened hg hresult.2

/-! ## Runs -/

theorem Graph.exists_of_all {g : Graph}
    (h : ∀ n ∈ g.nodes.toList, ∀ b ∈ n.operands, b < 2 ∨ 66 ≤ b ∧
      (g.nodes[owner b]?).any (fun m => lane b < m.width) = true) (i : Nat) (n : Node)
    (hn : g.nodes[i]? = some n) : ∀ b ∈ n.operands, g.Exists b := by
  intro b hb
  refine (h n (by simpa using Array.mem_of_getElem? hn) b hb).imp_right fun ⟨h66, hany⟩ => ⟨h66, ?_⟩
  cases hm : g.nodes[owner b]? with
  | none => rw [hm] at hany; cases hany
  | some m =>
      rw [hm] at hany
      exact ⟨m, rfl, of_decide_eq_true hany⟩

theorem Graph.intact_of_all {g : Graph} (haliases : g.aliases = ∅)
    (hcalls : ∀ n ∈ g.nodes.toList, n.op ≠ .hostDebugOutput)
    (h : ∀ n ∈ g.nodes.toList, ∀ b ∈ n.operands, b < 2 ∨ 66 ≤ b ∧
      (g.nodes[owner b]?).any (fun m => lane b < m.width) = true) : g.Intact where
  closed := Graph.closed_of_no_aliases haliases
  targets b s hs := by
    rw [haliases, Std.ExtTreeMap.getElem?_empty] at hs
    cases hs
  operands := Graph.exists_of_all h
  projections i n hn hop := absurd hop (hcalls n (by simpa using Array.mem_of_getElem? hn))

/-- Node 3 reads node 4 in state 1, and node 4 reads node 3 in state 0. -/
def feedback : Graph :=
  { nodes := #[⟨.state, 1, [], [], [], "x", ""⟩, ⟨.eq, 1, [66], [1], [], "", ""⟩,
      ⟨.eq, 1, [66], [0], [], "", ""⟩, ⟨.mux, 1, [322], [386], [130], "", ""⟩,
      ⟨.mux, 1, [258], [386], [194], "", ""⟩, ⟨.input, 1, [], [], [], "y", ""⟩] }

theorem feedback_onCycle : feedback.OnCycle (nodeBase 3) := by
  have hread : ∀ b : Nat, feedback.aliases[b]? = none := fun _ => Std.ExtTreeMap.getElem?_empty
  have hback : feedback.Feeds 258 322 :=
    ⟨hread _, by decide, _, rfl, 258, by decide, .root (hread _)⟩
  have hforth : feedback.Feeds 322 258 :=
    ⟨hread _, by decide, _, rfl, 322, by decide, .root (hread _)⟩
  exact .tail (.single hback) hforth

theorem specializeGuardedCycle_sound_feedback :
    ∃ g', Ok (specializeGuardedCycle 3 [3, 4]) feedback true g' ∧
      ∃ replacement, g'.aliases[nodeBase 3]? = some replacement ∧
        ∀ P env, Below (feedback.value P env) (g'.value P env) ∧
          ∀ v, feedback.value P env (nodeBase 3) = some v → g'.value P env replacement = some v := by
  have hdone : (match specializeGuardedCycle 3 [3, 4] feedback with
      | .ok done _ => done
      | .error _ _ => false) = true := by decide +kernel
  obtain ⟨g', hrun⟩ : ∃ g', Ok (specializeGuardedCycle 3 [3, 4]) feedback true g' := by
    cases hrun : specializeGuardedCycle 3 [3, 4] feedback with
    | ok done g' =>
        rw [hrun] at hdone
        exact ⟨g', hrun.trans (by rw [show done = true from hdone])⟩
    | error e g' => rw [hrun] at hdone; cases hdone
  exact ⟨g', hrun, (specializeGuardedCycle_sound
    (Graph.intact_of_all rfl (by decide) (by decide +kernel)) feedback_onCycle (by decide) hrun).1 rfl⟩

/-- Node 3 reads node 4 where `x` is 0, and node 4 reads node 3 where it is 1; both
see `x` through two wires. -/
def feedbackThroughWires : Graph :=
  { nodes := #[⟨.input, 1, [], [], [], "x", ""⟩, ⟨.wire, 1, [], [], [], "a", ""⟩,
      ⟨.wire, 1, [], [], [], "b", ""⟩, ⟨.mux, 1, [66], [322], [194], "", ""⟩,
      ⟨.mux, 1, [258], [66], [194], "", ""⟩]
    aliases := (Std.ExtTreeMap.empty.insert 130 66).insert 194 130 }

theorem getElem?_feedbackThroughWires (b : Nat) : feedbackThroughWires.aliases[b]? =
    if b = 194 then some 130 else if b = 130 then some 66 else none := by
  unfold feedbackThroughWires
  rw [Std.ExtTreeMap.getElem?_insert, Std.ExtTreeMap.getElem?_insert]
  by_cases h : b = 194
  · simp [h]
  · by_cases h' : b = 130
    · simp [h']
    · simp [h, h', Ne.symm h, Ne.symm h']

theorem feedbackThroughWires_intact : feedbackThroughWires.Intact := by
  have hsome : ∀ b s : Nat, feedbackThroughWires.aliases[b]? = some s →
      b = 194 ∧ s = 130 ∨ b = 130 ∧ s = 66 := by
    intro b s hs
    rw [getElem?_feedbackThroughWires] at hs
    split_ifs at hs with h h'
    · exact .inl ⟨h, (Option.some.inj hs).symm⟩
    · exact .inr ⟨h', (Option.some.inj hs).symm⟩
  have hbound : feedbackThroughWires.bound = 386 := rfl
  refine ⟨⟨fun b s hs => ?_, fun b s hs => ?_, ?_⟩, fun b s hs => ?_, Graph.exists_of_all (by decide),
    fun i n hn hop => absurd hop ?_⟩
  · rcases hsome b s hs with ⟨rfl, rfl⟩ | ⟨rfl, rfl⟩ <;> rw [hbound] <;> omega
  · rcases hsome b s hs with ⟨rfl, rfl⟩ | ⟨rfl, rfl⟩ <;> rw [hbound] <;> omega
  · have hlt : ∀ s b : Nat, feedbackThroughWires.aliases[b]? = some s → s < b := by
      intro s b hs
      rcases hsome b s hs with ⟨rfl, rfl⟩ | ⟨rfl, rfl⟩ <;> decide
    exact Subrelation.wf (fun {s b} hs => hlt s b hs) wellFounded_lt
  · rcases hsome b s hs with ⟨rfl, rfl⟩ | ⟨rfl, rfl⟩
    · exact .inr ⟨by omega, _, rfl, by decide⟩
    · exact .inr ⟨by omega, _, rfl, by decide⟩
  · have hcalls : ∀ n ∈ feedbackThroughWires.nodes.toList, n.op ≠ .hostDebugOutput := by decide
    exact hcalls n (by simpa using Array.mem_of_getElem? hn)

theorem feedbackThroughWires_onCycle : feedbackThroughWires.OnCycle (nodeBase 3) := by
  have hback : feedbackThroughWires.Feeds 258 322 :=
    ⟨getElem?_feedbackThroughWires 322, by decide, _, rfl, 258, by decide,
      .root (getElem?_feedbackThroughWires 258)⟩
  have hforth : feedbackThroughWires.Feeds 322 258 :=
    ⟨getElem?_feedbackThroughWires 258, by decide, _, rfl, 322, by decide,
      .root (getElem?_feedbackThroughWires 322)⟩
  exact .tail (.single hback) hforth

/-- A failed specialization may shorten an alias chain. -/
theorem specializeGuardedCycle_shortens :
    ¬ ∀ (g g' : Graph) (root : Nat) (path : List Nat), g.Intact → g.OnCycle (nodeBase root) →
      (∀ i ∈ path, i < g.nodes.size) → Ok (specializeGuardedCycle root path) g false g' →
      g' = g := by
  intro hatomic
  have hrun : (match specializeGuardedCycle 3 [3, 4] feedbackThroughWires with
      | .ok done g' => !done && g'.aliases[194]? == some 66
      | .error _ _ => false) = true := by decide +kernel
  cases hresult : specializeGuardedCycle 3 [3, 4] feedbackThroughWires with
  | error e g' => rw [hresult] at hrun; cases hrun
  | ok done g' =>
      rw [hresult] at hrun
      simp only [Bool.and_eq_true, Bool.not_eq_true', beq_iff_eq] at hrun
      obtain ⟨rfl, halias⟩ := hrun
      rw [hatomic _ g' 3 [3, 4] feedbackThroughWires_intact feedbackThroughWires_onCycle
        (by decide) hresult, getElem?_feedbackThroughWires] at halias
      cases halias

end CppHdl
