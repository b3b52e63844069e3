import CppHdl.Graph.Link
import CppHdl.Graph.Number

/-!
# A linked graph is its two halves side by side

The linked graph simulates the coupling in both directions: the bits of host
and child have the values they have side by side, and so both commit the same.
The one premise that linking does not establish itself is that the memory
operand of a read of the child is wide enough for the number of its memory in
the linked graph; `linkNode` keeps the width of the operand.
-/

namespace CppHdl

open Failing

/-! ## Constant operands -/

/-- The constants are read as constants, or not at all yet. -/
def Grounded (look : Nat → Option Bool) : Prop :=
  (look 0 = none ∧ look 1 = none) ∨ (look 0 = some false ∧ look 1 = some true)

theorem Graph.SelfContained.value_const {g : Graph} (hg : g.SelfContained) (P : Primitives) (env : Env)
    (look : Nat → Option Bool) {b : Nat} (hb : b < 2) :
    g.bitStep P env look b = some (b == 1) := by
  have halias : g.aliases[b]? = none := by
    cases h : g.aliases[b]? with
    | none => rfl
    | some s =>
        have := (hg.aliases h).1
        omega
  unfold Graph.bitStep
  rw [halias]
  simp only [hb, if_true]

theorem number_some {v : Value} {k : Nat} (h : number v = some k) :
    v.length ≤ 64 ∧ (∀ b ∈ v, b < 2) ∧ natOfBits (v.map (· == 1)) = k := by
  unfold number at h
  split_ifs at h with hlen hany
  refine ⟨by omega, fun b hb => ?_, Option.some.inj h⟩
  rw [List.any_eq_true] at hany
  push Not at hany
  have := hany b hb
  simp at this
  omega

theorem constant_spec (x : Nat) {width : Nat} (hwidth : width ≤ 64) :
    (∀ b ∈ constant x width, b < 2) ∧ natOfBits ((constant x width).map (· == 1)) = x % 2 ^ width := by
  have hlane : ∀ i < width, (x >>> i) &&& 1 = (x.testBit i).toNat := by
    intro i _
    rw [Nat.and_one_is_mod, Nat.testBit_eq_decide_div_mod_eq, Nat.shiftRight_eq_div_pow]
    rcases Nat.mod_two_eq_zero_or_one (x / 2 ^ i) with h | h <;> simp [h]
  have hconstant : constant x width = (bitsOfNat width x).map Bool.toNat := by
    unfold constant bitsOfNat
    rw [List.map_map]
    refine List.map_congr_left fun i hi => ?_
    have hi' := List.mem_range.mp hi
    rw [if_pos (by omega), hlane i hi']
    rfl
  refine ⟨?_, ?_⟩
  · intro b hb
    rw [hconstant] at hb
    obtain ⟨x, -, rfl⟩ := List.mem_map.mp hb
    cases x <;> simp
  · rw [hconstant, List.map_map, ← natOfBits_bitsOfNat width x]
    congr 1
    conv_rhs => rw [← List.map_id (bitsOfNat width x)]
    refine List.map_congr_left fun b _ => ?_
    cases b <;> rfl

theorem Grounded.mapM_constants {look : Nat → Option Bool} (h : Grounded look) {v : Value}
    (hv : ∀ b ∈ v, b < 2) :
    v.mapM look = if look 0 = none ∧ v ≠ [] then none else some (v.map (· == 1)) := by
  rcases h with ⟨h0, h1⟩ | ⟨h0, h1⟩
  · cases v with
    | nil => simp
    | cons b v =>
        have hb : look b = none := by
          have := hv b List.mem_cons_self
          obtain rfl | rfl : b = 0 ∨ b = 1 := by omega
          · exact h0
          · exact h1
        simp [List.mapM_cons, hb, h0]
  · rw [if_neg (by simp [h0])]
    rw [World.mapM_eq_some_iff, List.forall₂_map_right_iff, List.forall₂_same]
    intro b hb
    have := hv b hb
    obtain rfl | rfl : b = 0 ∨ b = 1 := by omega
    · exact h0
    · exact h1

namespace Coupling

variable (L : Coupling)

/-! ## The linked graph, node by node -/

theorem Linked.node_host {L : Coupling} {inst : String} {linked : Graph} (h : L.Linked inst linked)
    {b : Nat} (hb : 66 ≤ b) (howned : L.host.Owns b) :
    linked.nodes[owner b]? = L.host.nodes[owner b]? := by
  obtain ⟨ms, -, hnodes⟩ := h.nodes
  have hlt : owner b < L.host.nodes.size := by
    rw [owner_lt_iff hb]
    exact howned.resolve_left (by omega) |>.2
  rw [hnodes, Array.getElem?_append_left hlt]

theorem Linked.node_child {L : Coupling} {inst : String} {linked : Graph} (h : L.Linked inst linked)
    {c : Nat} (hc : 66 ≤ c) :
    Option.Rel (LinkedNode L.base L.host.memories.length) L.child.nodes[owner c]?
      linked.nodes[owner (rebase L.base c)]? := by
  obtain ⟨ms, hms, hnodes⟩ := h.nodes
  rw [owner_rebase _ hc, hnodes, Array.getElem?_append_right (Nat.le_add_left _ _),
    Nat.add_sub_cancel, List.getElem?_toArray, ← Array.getElem?_toList]
  generalize L.child.nodes.toList = ns at hms
  generalize owner c = i
  clear hnodes
  induction hms generalizing i with
  | nil => exact .none
  | cons hnode _ ih =>
      cases i with
      | zero => exact .some hnode
      | succ i => exact ih i

theorem Linked.memories {L : Coupling} {inst : String} {linked : Graph}
    (h : L.Linked inst linked) : linked.memories = L.host.memories ++
      L.child.memories.map fun m => { m with name := linkScope inst m.name } := by
  rw [h.rest]
  rfl

/-! ## What corresponds -/

/-- Outside of the linked graph and of its halves, the same happens. -/
structure JoinedStimulus (x : Stimulus) (y : Stimulus × Stimulus) : Prop where
  host : ∀ b, 66 ≤ b → L.host.Owns b → x.leaf b = y.1.leaf b
  child : ∀ c, 66 ≤ c → L.child.Owns c → x.leaf (rebase L.base c) = y.2.leaf c
  hostProjection : ∀ b rest select i, 66 ≤ b → L.host.Owns b →
    x.projection (b :: rest) select i = y.1.projection (b :: rest) select i
  childProjection : ∀ c rest select i, 66 ≤ c → L.child.Owns c →
    x.projection ((c :: rest).map (rebase L.base)) (select.map (rebase L.base)) i =
      y.2.projection (c :: rest) select i

/-- Host and child keep their registers and rows under their new names. -/
structure JoinedStore (s : Store) (t : Store × Store) : Prop where
  host : ∀ b, 66 ≤ b → L.host.Owns b → s.register b = t.1.register b
  child : ∀ c, 66 ≤ c → L.child.Owns c → s.register (rebase L.base c) = t.2.register c
  hostRows : ∀ k < L.host.memories.length, s.memory k = t.1.memory k
  childRows : ∀ k < L.child.memories.length,
    s.memory (k + L.host.memories.length) = t.2.memory k

/-- The values of both halves and of the linked graph. -/
structure JoinedLook (look : Nat ⊕ Nat → Option Bool) (linkedLook : Nat → Option Bool) : Prop where
  host : ∀ b, L.host.Owns b → linkedLook b = look (.inl b)
  child : ∀ c, L.child.Owns c → linkedLook (rebase L.base c) = look (.inr c)
  grounded : Grounded linkedLook

/-- Every memory read of the child names its memory by an operand that holds
the number of that memory in the linked graph. -/
def ReadsFit : Prop := ∀ {i : Nat} {n : Node} {k : Nat}, L.child.nodes[i]? = some n →
  n.op = .memoryRead → number n.right = some k →
    L.host.memories.length + k < 2 ^ n.right.length

variable {L} {inst : String} {linked : Graph} {x : Stimulus} {y : Stimulus × Stimulus} {s : Store}
  {t : Store × Store}

theorem readWord_congr {m m' : Memory} {env env' : Env} {index index' : Nat}
    (hm : m' = { m with name := m'.name }) (hrows : env'.memory index' = env.memory index)
    (row word : Nat) : m'.readWord env' index' row word = m.readWord env index row word := by
  unfold Memory.readWord Memory.bitAt Memory.words
  rw [hm, hrows]

/-- A host read finds its own memory in the linked graph. -/
theorem readAt_host (h : L.Linked inst linked) (hs : L.JoinedStore s t) {r : List Bool}
    (hr : natOfBits r < L.host.memories.length) (l select : List Bool) :
    readAt linked.memories (linked.env x s) r l select =
      readAt L.host.memories (L.host.env y.1 t.1) r l select := by
  unfold readAt
  rw [h.memories, List.getElem?_append_left hr]
  refine Option.map_congr fun m _ => readWord_congr rfl (hs.hostRows _ hr) _ _

theorem readAt_child (h : L.Linked inst linked) (hs : L.JoinedStore s t) {r r' : List Bool}
    (hr : natOfBits r < L.child.memories.length)
    (hr' : natOfBits r' = L.host.memories.length + natOfBits r) (l select : List Bool) :
    readAt linked.memories (linked.env x s) r' l select =
      readAt L.child.memories (L.child.env y.2 t.2) r l select := by
  unfold readAt
  rw [h.memories, hr', List.getElem?_append_right (Nat.le_add_right _ _), Nat.add_sub_cancel_left,
    List.getElem?_map, Option.map_map]
  refine Option.map_congr fun m _ => readWord_congr rfl ?_ _ _
  rw [Nat.add_comm]
  exact hs.childRows _ hr

/-! ## Bits -/

section

variable {f : Nat ⊕ Nat → Option Bool} {f' : Nat → Option Bool}

/-- Neither the registers nor the inputs of the host are confused with those of
the child. -/
theorem leaf_host (h : L.Linked inst linked) (hx : L.JoinedStimulus x y) (hs : L.JoinedStore s t)
    {b : Nat} (hb : 66 ≤ b) (howned : L.host.Owns b) :
    (linked.env x s).leaf b = (L.host.env y.1 t.1).leaf b := by
  unfold Graph.env Graph.isRegister
  simp only [h.node_host hb howned, hs.host b hb howned, hx.host b hb howned]

theorem host_bitStep (h : L.Linked inst linked) (hhost : L.host.SelfContained)
    (hx : L.JoinedStimulus x y) (hs : L.JoinedStore s t) (hf : L.JoinedLook f f')
    (P : Primitives) {b : Nat} (hb : L.host.Owns b) (hpin : L.toHost b = none) :
    linked.bitStep P (linked.env x s) f' b =
      L.host.bitStep P (L.host.env y.1 t.1) (fun b => f (.inl b)) b := by
  have halias := h.hostAlias hb
  rw [hpin, Option.map_none, Option.none_or] at halias
  unfold Graph.bitStep
  rw [halias]
  cases hsource : L.host.aliases[b]? with
  | some source => exact hf.host source (hhost.aliases hsource).2.2
  | none =>
      simp only
      split_ifs with h2 h66
      · rfl
      · rfl
      · have hge : 66 ≤ b := by omega
        rw [h.node_host hge hb]
        cases hn : L.host.nodes[owner b]? with
        | none => rfl
        | some n =>
            simp only
            split
            · have hv : ∀ a ∈ n.operands, f' (id a) = f (.inl a) := fun a ha =>
                hf.host a (hhost.operands hn a ha)
              refine Node.bitValue_rename P rfl rfl (fun _ => rfl) (fun hop => ?_)
                (fun _ => leaf_host h hx hs hge hb)
                (Node.laneValue_rename P rfl rfl rfl (List.map_id _).symm (List.map_id _).symm
                  (fun _ => (List.map_id _).symm) (fun hop => ?_) hv (lane b))
              · obtain ⟨a, rest, hleft, ha⟩ := hhost.projections hn hop
                rw [hleft]
                exact hx.hostProjection a rest _ _ ha
                  (hhost.operands hn a (by simp [Node.operands, hleft]))
              · obtain ⟨k, hk, hlt⟩ := hhost.reads hn hop
                obtain ⟨-, hconst, hnat⟩ := number_some hk
                have hsame : n.right.mapM f' = n.right.mapM fun a => f (.inl a) :=
                  mapM_congr fun a ha => hv a (by simp [Node.operands, ha])
                rw [← hsame, hf.grounded.mapM_constants hconst]
                split
                · exact .none
                · exact .some fun l select => readAt_host h hs (by rw [hnat]; exact hlt) l select
            · rfl

/-- The lanes of the child: its registers and inputs under their new names. -/
theorem leaf_child (h : L.Linked inst linked) (hx : L.JoinedStimulus x y)
    (hs : L.JoinedStore s t) {c : Nat} (hc : 66 ≤ c) (howned : L.child.Owns c) :
    (linked.env x s).leaf (rebase L.base c) = (L.child.env y.2 t.2).leaf c := by
  have hregister : linked.isRegister (rebase L.base c) = L.child.isRegister c := by
    have hnode := h.node_child hc
    unfold Graph.isRegister
    generalize linked.nodes[owner (rebase L.base c)]? = o' at hnode ⊢
    generalize L.child.nodes[owner c]? = o at hnode ⊢
    cases hnode with
    | none => rfl
    | some hlinked =>
        simp only [hlinked.op]
        split <;> simp_all
  unfold Graph.env
  simp only [hregister, hs.child c hc howned, hx.child c hc howned]

theorem JoinedLook.groundedChild (hf : L.JoinedLook f f') :
    f' 0 = f (.inr 0) ∧ Grounded fun c => f (.inr c) := by
  have h0 := hf.child 0 (.inl (by omega))
  have h1 := hf.child 1 (.inl (by omega))
  rw [rebase_of_lt _ (by omega)] at h0 h1
  have hg := hf.grounded
  unfold Grounded at hg ⊢
  rw [h0, h1] at hg
  exact ⟨h0, hg⟩

theorem linked_bitValue (h : L.Linked inst linked) (hchild : L.child.SelfContained) (hfit : L.ReadsFit)
    (hx : L.JoinedStimulus x y) (hs : L.JoinedStore s t) (hf : L.JoinedLook f f')
    (P : Primitives) {c : Nat} (hge : 66 ≤ c) (howned : L.child.Owns c) {n m : Node}
    (hn : L.child.nodes[owner c]? = some n) (hm : LinkedNode L.base L.host.memories.length n m) :
    m.bitValue P linked.memories (linked.env x s) f' (rebase L.base c) =
      if n.op = .input then none
      else n.bitValue P L.child.memories (L.child.env y.2 t.2) (fun c => f (.inr c)) c := by
  by_cases hinput : n.op = .input
  · -- an input has become a wire, and only its pin drives it
    rw [if_pos hinput]
    unfold Node.bitValue
    rw [hm.op, if_pos hinput]
    rfl
  · rw [if_neg hinput]
    have hop : m.op = n.op := hm.op.trans (if_neg hinput)
    have hv : ∀ a ∈ n.operands, f' (rebase L.base a) = f (.inr a) := fun a ha =>
      hf.child a (hchild.operands hn a ha)
    refine Node.bitValue_rename P hop (lane_rebase _ hge) (fun _ => rfl) (fun hproj => ?_)
      (fun _ => leaf_child h hx hs hge howned)
      (Node.laneValue_rename P hop hm.width hm.name hm.left hm.select hm.right (fun hread => ?_)
        hv (lane c))
    · obtain ⟨a, rest, hleft, ha⟩ := hchild.projections hn hproj
      rw [hm.left, hm.select, hleft]
      exact hx.childProjection a rest _ _ ha
        (hchild.operands hn a (by simp [Node.operands, hleft]))
    · obtain ⟨k, hk, hlt⟩ := hchild.reads hn hread
      obtain ⟨k', hk', hright⟩ := hm.read hread
      obtain rfl : k = k' := Option.some.inj (hk.symm.trans hk')
      obtain ⟨hlen, hconst, hnat⟩ := number_some hk
      obtain ⟨hconst', hnat'⟩ := constant_spec (L.host.memories.length + k) hlen
      rw [Nat.mod_eq_of_lt (hfit hn hread hk)] at hnat'
      obtain ⟨h0, hchildLook⟩ := hf.groundedChild
      have hempty : constant (L.host.memories.length + k) n.right.length ≠ [] ↔ n.right ≠ [] := by
        rw [← List.length_pos_iff, ← List.length_pos_iff]
        simp [constant]
      rw [hright, hf.grounded.mapM_constants hconst', hchildLook.mapM_constants hconst, h0]
      simp only [hempty]
      split
      · exact .none
      · refine .some fun l select => readAt_child h hs (by rw [hnat]; exact hlt) ?_ l select
        rw [hnat, hnat']

theorem child_bitStep (h : L.Linked inst linked) (hchild : L.child.SelfContained) (hfit : L.ReadsFit)
    (hx : L.JoinedStimulus x y) (hs : L.JoinedStore s t) (hf : L.JoinedLook f f')
    (P : Primitives) {c : Nat} (hc : L.child.Owns c) (hpin : L.toChild c = none) :
    linked.bitStep P (linked.env x s) f' (rebase L.base c) =
      if L.opensAt c then none
      else L.child.bitStep P (L.child.env y.2 t.2) (fun c => f (.inr c)) c := by
  have halias := h.childAlias hc
  rw [hpin, Option.none_or] at halias
  rcases hc with hconst | hge
  · -- a constant keeps its name
    have hnone : L.child.aliases[c]? = none := by
      cases hsource : L.child.aliases[c]? with
      | none => rfl
      | some source =>
          have := (hchild.aliases hsource).1
          omega
    have hopen : L.opensAt c = false := by
      unfold opensAt
      simp [show ¬ 66 ≤ c by omega]
    rw [hopen, hchild.value_const P _ _ hconst]
    unfold Graph.bitStep
    rw [halias, hnone, rebase_of_lt _ hconst]
    simp [hconst]
  · have howned : L.child.Owns c := .inr hge
    have hbig : 66 ≤ rebase L.base c := by
      rw [rebase_of_ge _ hge.1]
      omega
    unfold Graph.bitStep
    rw [halias]
    cases hsource : L.child.aliases[c]? with
    | some source =>
        have hopen : L.opensAt c = false := by
          unfold opensAt
          simp [hsource]
        rw [hopen]
        exact hf.child source (hchild.aliases hsource).2.2
    | none =>
        simp only [Option.map_none, show ¬ rebase L.base c < 2 by omega,
          show ¬ rebase L.base c < 66 by omega, show ¬ c < 2 by omega, show ¬ c < 66 by omega,
          if_false]
        have hopen : L.opensAt c = L.child.nodes[owner c]?.any fun n => decide (n.op = .input) := by
          unfold opensAt
          rw [hsource]
          cases L.child.nodes[owner c]? <;> simp [hge.1]
        rw [hopen]
        have hnode := h.node_child hge.1
        cases hn : L.child.nodes[owner c]? with
        | none =>
            rw [hn] at hnode
            generalize linked.nodes[owner (rebase L.base c)]? = o at hnode ⊢
            cases hnode
            rfl
        | some n =>
            rw [hn] at hnode
            generalize linked.nodes[owner (rebase L.base c)]? = o at hnode ⊢
            cases hnode with
            | some hlinked =>
                rename_i m
                simp only [hlinked.width, lane_rebase _ hge.1, Option.any_some, decide_eq_true_eq]
                split
                · exact linked_bitValue h hchild hfit hx hs hf P hge.1 howned hn hlinked
                · exact (ite_self _).symm

/-- One round of evaluation keeps the correspondence. -/
theorem JoinedLook.step (h : L.Linked inst linked) (hhost : L.host.SelfContained)
    (hchild : L.child.SelfContained) (hfit : L.ReadsFit) (hx : L.JoinedStimulus x y)
    (hs : L.JoinedStore s t) (P : Primitives) (hf : L.JoinedLook f f') :
    L.JoinedLook (L.step P (L.host.env y.1 t.1) (L.child.env y.2 t.2) f)
      (linked.bitStep P (linked.env x s) f') where
  host b hb := by
    cases hpin : L.toHost b with
    | none =>
        rw [host_bitStep h hhost hx hs hf P hb hpin]
        simp only [Coupling.step, hpin]
    | some c =>
        have halias := h.hostAlias hb
        rw [hpin, Option.map_some, Option.some_or] at halias
        unfold Graph.bitStep
        rw [halias]
        simp only [Coupling.step, hpin]
        exact hf.child c (h.toHost hpin).2
  child c hc := by
    cases hpin : L.toChild c with
    | none =>
        rw [child_bitStep h hchild hfit hx hs hf P hc hpin]
        simp only [Coupling.step, hpin]
    | some b =>
        have halias := h.childAlias hc
        rw [hpin, Option.some_or] at halias
        unfold Graph.bitStep
        rw [halias]
        simp only [Coupling.step, hpin]
        exact hf.host b (h.toChild hpin).2.1
  grounded := by
    have hconst : ∀ b < 2, linked.bitStep P (linked.env x s) f' b = some (b == 1) := by
      intro b hb
      have hpin : L.toHost b = none := by
        cases hpin : L.toHost b with
        | none => rfl
        | some c => exact absurd (h.toHost hpin).1 (by omega)
      rw [host_bitStep h hhost hx hs hf P (.inl hb) hpin]
      exact hhost.value_const P _ _ hb
    exact .inr ⟨hconst 0 (by omega), hconst 1 (by omega)⟩

end

/-- The bits of the linked graph have the values they have side by side. -/
theorem joined_value (h : L.Linked inst linked) (hhost : L.host.SelfContained)
    (hchild : L.child.SelfContained) (hfit : L.ReadsFit) (hx : L.JoinedStimulus x y)
    (hs : L.JoinedStore s t) (P : Primitives) :
    L.JoinedLook (L.value P (L.host.env y.1 t.1) (L.child.env y.2 t.2))
      (linked.value P (linked.env x s)) := by
  have along := fun {a : Nat ⊕ Nat} {c : Nat} =>
    PartialSystem.value_along (L.system P (L.host.env y.1 t.1) (L.child.env y.2 t.2))
      (linked.system P (linked.env x s)) L.JoinedLook ⟨fun _ _ => rfl, fun _ _ => rfl, .inl ⟨rfl, rfl⟩⟩
      (fun f f' hf => hf.step h hhost hchild hfit hx hs P) (a := a) (c := c)
  have hhostValue : ∀ b, L.host.Owns b → linked.value P (linked.env x s) b =
      L.value P (L.host.env y.1 t.1) (L.child.env y.2 t.2) (.inl b) :=
    fun b hb => along fun f f' hf => hf.host b hb
  refine ⟨hhostValue, fun c hc => along fun f f' hf => hf.child c hc, .inr ?_⟩
  have hconst : ∀ b < 2, linked.value P (linked.env x s) b = some (b == 1) := by
    intro b hb
    have hpin : L.toHost b = none := by
      cases hpin : L.toHost b with
      | none => rfl
      | some c => exact absurd (h.toHost hpin).1 (by omega)
    rw [hhostValue b (.inl hb), Coupling.value, PartialSystem.value_unfold]
    change L.step P (L.host.env y.1 t.1) (L.child.env y.2 t.2) _ (.inl b) = _
    simp only [Coupling.step, hpin]
    exact hhost.value_const P _ _ hb
  exact ⟨hconst 0 (by omega), hconst 1 (by omega)⟩

/-! ## Clocks -/

theorem edge_of_no_clocks {g : Graph} (hg : g.clocks = []) (x : Stimulus) (s : Store) :
    g.edge x s = fun clock _ => if clock < 0 then some true else none := by
  funext clock falling
  unfold Graph.edge
  simp [hg]

section

variable {f : Nat ⊕ Nat → Option Bool} {f' : Nat → Option Bool} {E : Edges}

theorem Linked.depth_host (h : L.Linked inst linked) {k : Nat}
    (hk : k < L.host.memories.length) :
    linked.memories[id k]?.map Memory.depth = L.host.memories[k]?.map Memory.depth := by
  rw [h.memories, id, List.getElem?_append_left hk]

theorem Linked.depth_child (h : L.Linked inst linked) (k : Nat) :
    linked.memories[k + L.host.memories.length]?.map Memory.depth =
      L.child.memories[k]?.map Memory.depth := by
  rw [h.memories, List.getElem?_append_right (Nat.le_add_left _ _), Nat.add_sub_cancel,
    List.getElem?_map, Option.map_map]
  rfl

/-- An event for each node of both graphs, in the order of the nodes. -/
theorem node_events {β : Type} (event : (Nat → Option Bool) → Node → Option (Option β))
    (h : L.Linked inst linked)
    (hhost : ∀ n ∈ L.host.nodes.toList, event f' n = event (fun b => f (.inl b)) n)
    (hchild : ∀ n ∈ L.child.nodes.toList, ∀ m,
      LinkedNode L.base L.host.memories.length n m → event f' m = event (fun c => f (.inr c)) n) :
    events (event f') linked.nodes.toList = (do
      let xs ← events (event fun b => f (.inl b)) L.host.nodes.toList
      let ys ← events (event fun c => f (.inr c)) L.child.nodes.toList
      pure (xs ++ ys)) := by
  obtain ⟨ms, hms, hnodes⟩ := h.nodes
  have hpairs : List.Forall₂ (fun n m => event f' m = event (fun c => f (.inr c)) n)
      L.child.nodes.toList ms := by
    refine List.forall₂_iff_get.mpr ⟨hms.length_eq, fun i hi hi' => ?_⟩
    exact hchild _ (List.get_mem _ _) _ ((List.forall₂_iff_get.mp hms).2 i hi hi')
  rw [hnodes, Array.toList_append, List.toList_toArray, events_append, events_congr hhost,
    events_forall₂ hpairs]

theorem calls_joined (h : L.Linked inst linked) (hhost : L.host.SelfContained) (hchild : L.child.SelfContained)
    (hf : L.JoinedLook f f') : events (·.call f') linked.nodes.toList = (do
      let xs ← events (·.call fun b => f (.inl b)) L.host.nodes.toList
      let ys ← events (·.call fun c => f (.inr c)) L.child.nodes.toList
      pure (xs ++ ys)) := by
  refine node_events (fun look n => n.call look) h (fun n hn => ?_) fun n hn m hm => ?_
  · obtain ⟨i, hi⟩ := List.getElem?_of_mem hn
    rw [Array.getElem?_toList] at hi
    exact Node.call_rename (κ := id) rfl
      (fun _ => ⟨rfl, (List.map_id _).symm, (List.map_id _).symm⟩)
      fun b hb => hf.host b (hhost.operands hi b (Node.effectOperands_subset hb))
  · obtain ⟨i, hi⟩ := List.getElem?_of_mem hn
    rw [Array.getElem?_toList] at hi
    refine Node.call_rename hm.effects.1 (fun heffect => ⟨?_, hm.right ?_, hm.select⟩)
      fun c hc => hf.child c (hchild.operands hi c (Node.effectOperands_subset hc))
    · refine hm.op.trans (if_neg fun hop => ?_)
      simp [Node.hostEffect, hop, Op.hostEffect] at heffect
    · intro hop
      simp [Node.hostEffect, hop, Op.hostEffect] at heffect

theorem failures_joined (h : L.Linked inst linked) (hhost : L.host.SelfContained)
    (hchild : L.child.SelfContained) (hf : L.JoinedLook f f') :
    events (·.failure f') linked.nodes.toList = (do
      let xs ← events (·.failure fun b => f (.inl b)) L.host.nodes.toList
      let ys ← events (·.failure fun c => f (.inr c)) L.child.nodes.toList
      pure (xs ++ ys)) := by
  refine node_events (fun look n => n.failure look) h (fun n hn => ?_) fun n hn m hm => ?_
  · obtain ⟨i, hi⟩ := List.getElem?_of_mem hn
    rw [Array.getElem?_toList] at hi
    exact Node.failure_rename (κ := id) rfl (fun _ => ⟨rfl, (List.map_id _).symm⟩)
      fun b hb => hf.host b (hhost.operands hi b (Node.effectOperands_subset hb))
  · obtain ⟨i, hi⟩ := List.getElem?_of_mem hn
    rw [Array.getElem?_toList] at hi
    exact Node.failure_rename hm.effects.2 (fun _ => ⟨hm.name, hm.left⟩)
      fun c hc => hf.child c (hchild.operands hi c (Node.effectOperands_subset hc))

theorem accessFaults_joined (h : L.Linked inst linked) (hhost : L.host.SelfContained)
    (hchild : L.child.SelfContained) (hf : L.JoinedLook f f') :
    events (fun a => (a.exceeds f' E linked.memories).map fun e => if e then some a.memory else none)
      linked.memoryAccesses = (do
      let xs ← events (fun a => (a.exceeds (fun b => f (.inl b)) E L.host.memories).map fun e =>
        if e then some a.memory else none) L.host.memoryAccesses
      let ys ← events (fun a => (a.exceeds (fun c => f (.inr c)) E L.child.memories).map fun e =>
        if e then some a.memory else none) L.child.memoryAccesses
      pure (xs ++ ys.map (· + L.host.memories.length))) := by
  have hlist : linked.memoryAccesses = L.host.memoryAccesses ++
      L.child.memoryAccesses.map
        (MemoryAccess.rename (rebase L.base) (· + L.host.memories.length)) := by
    rw [h.rest]
    rfl
  rw [hlist]
  refine events_faults MemoryAccess.memory L.host.memories.length (fun a ha => ?_)
    (fun a ha => ?_) fun a => rfl
  · have hrename := MemoryAccess.exceeds_rename (κ := id) (μ := id) (E := E) (a := a)
      (h.depth_host (hhost.accesses a ha).1) fun b hb => hf.host b ((hhost.accesses a ha).2 b hb)
    rwa [MemoryAccess.rename, List.map_id, List.map_id] at hrename
  · exact MemoryAccess.exceeds_rename (h.depth_child a.memory)
      fun c hc => hf.child c ((hchild.accesses a ha).2 c hc)

theorem writeFaults_joined (h : L.Linked inst linked) (hhost : L.host.SelfContained)
    (hchild : L.child.SelfContained) (hf : L.JoinedLook f f') :
    events (fun w => (w.exceeds f' E linked.memories).map fun e => if e then some w.memory else none)
      linked.memoryWrites = (do
      let xs ← events (fun w => (w.exceeds (fun b => f (.inl b)) E L.host.memories).map fun e =>
        if e then some w.memory else none) L.host.memoryWrites
      let ys ← events (fun w => (w.exceeds (fun c => f (.inr c)) E L.child.memories).map fun e =>
        if e then some w.memory else none) L.child.memoryWrites
      pure (xs ++ ys.map (· + L.host.memories.length))) := by
  have hlist : linked.memoryWrites = L.host.memoryWrites ++
      L.child.memoryWrites.map
        (MemoryWrite.rename (rebase L.base) (· + L.host.memories.length)) := by
    rw [h.rest]
    rfl
  rw [hlist]
  refine events_faults MemoryWrite.memory L.host.memories.length (fun w hw => ?_)
    (fun w hw => ?_) fun w => rfl
  · have hrename := MemoryWrite.exceeds_rename (κ := id) (μ := id) (E := E) (w := w)
      (h.depth_host (hhost.writes w hw).1) fun b hb => hf.host b ((hhost.writes w hw).2 b hb)
    rwa [MemoryWrite.rename, List.map_id, List.map_id, List.map_id] at hrename
  · exact MemoryWrite.exceeds_rename (h.depth_child w.memory)
      fun c hc => hf.child c ((hchild.writes w hw).2 c hc)

theorem outputs_joined (h : L.Linked inst linked) (hhost : L.host.SelfContained)
    (hf : L.JoinedLook f f') :
    outputsOf f' linked.ports = outputsOf (fun b => f (.inl b)) L.host.ports := by
  have hports : linked.ports = L.host.ports := by
    rw [h.rest]
    rfl
  rw [hports]
  refine events_congr fun p hp => ?_
  rw [mapM_congr fun b hb => hf.host b (hhost.ports p hp b hb)]

theorem observe_joined (h : L.Linked inst linked) (hhost : L.host.SelfContained) (hchild : L.child.SelfContained)
    (hf : L.JoinedLook f f') : linked.observe f' E = (do
      let shown ← L.host.observe (fun b => f (.inl b)) E
      let within ← { L.child with ports := [] }.observe (fun c => f (.inr c)) E
      pure ⟨shown.outputs, shown.calls ++ within.calls, shown.failures ++ within.failures,
        shown.accessFaults ++ within.accessFaults.map (· + L.host.memories.length),
        shown.writeFaults ++ within.writeFaults.map (· + L.host.memories.length)⟩) := by
  unfold Graph.observe
  rw [outputs_joined h hhost hf, calls_joined h hhost hchild hf, failures_joined h hhost hchild hf,
    accessFaults_joined h hhost hchild hf, writeFaults_joined h hhost hchild hf]
  have hnone : outputsOf (fun c => f (.inr c)) [] = some [] := rfl
  -- both sides read the same ten computations, in another order
  simp only [hnone, Option.bind_eq_bind, Option.pure_def, Option.bind_some]
  generalize outputsOf (fun b => f (.inl b)) L.host.ports = outputs
  generalize events (·.call fun b => f (.inl b)) L.host.nodes.toList = calls
  generalize events (·.call fun c => f (.inr c)) L.child.nodes.toList = calls'
  generalize events (·.failure fun b => f (.inl b)) L.host.nodes.toList = failures
  generalize events (·.failure fun c => f (.inr c)) L.child.nodes.toList = failures'
  generalize events _ L.host.memoryAccesses = accesses
  generalize events _ L.child.memoryAccesses = accesses'
  generalize events _ L.host.memoryWrites = writes
  generalize events _ L.child.memoryWrites = writes'
  cases outputs <;> [simp; skip]
  cases calls <;> [simp; skip]
  cases calls' <;> [simp; skip]
  cases failures <;> [simp; skip]
  cases failures' <;> [simp; skip]
  cases accesses <;> [simp; skip]
  cases accesses' <;> [simp; skip]
  cases writes <;> [simp; skip]
  cases writes' <;> simp

/-! ### Commits -/

theorem registers_joined (h : L.Linked inst linked) (hhost : L.host.SelfContained)
    (hchild : L.child.SelfContained) (hs : L.JoinedStore s t) (hf : L.JoinedLook f f') :
    Option.Rel (fun r p => (∀ b, 66 ≤ b → L.host.Owns b → r b = p.1 b) ∧
        ∀ c, 66 ≤ c → L.child.Owns c → r (rebase L.base c) = p.2 c)
      (linked.commitRegisters f' E s.register)
      ((L.host.commitRegisters (fun b => f (.inl b)) E t.1.register).bind fun hr =>
        (L.child.commitRegisters (fun c => f (.inr c)) E t.2.register).map fun cr => (hr, cr)) := by
  have hlist : linked.states = L.host.states.map (State.rename id) ++
      L.child.states.map (State.rename (rebase L.base)) := by
    rw [show State.rename id = id from funext State.rename_id, List.map_id, h.rest]
    rfl
  unfold Graph.commitRegisters
  rw [hlist, List.foldlM_append]
  have happart : ∀ {b c : Nat}, L.host.Owns b → 66 ≤ b → 66 ≤ c → L.child.Owns c →
      rebase L.base c ≠ b := fun hb hb66 _ hc => L.rebase_ne_host (by omega) hb hc
  refine rel_bind (commitStates_rename (D := fun b => 66 ≤ b ∧ L.host.Owns b)
    s.register (fun _ _ _ _ heq => heq)
    (fun st hst b hb => ⟨(hhost.registers st hst b hb).1, .inr (hhost.registers st hst b hb)⟩)
    (fun st hst b hb => hf.host b (hhost.states st hst b hb))
    ⟨fun b hb => hs.host b hb.1 hb.2, fun _ _ => rfl⟩) fun r₁ hr hr₁ => ?_
  refine rel_map_right (commitStates_rename (D := fun c => 66 ≤ c ∧ L.child.Owns c) r₁
    (fun a c ha hc => L.rebase_injOn ha.2 hc.2)
    (fun st hst c hc => ⟨(hchild.registers st hst c hc).1, .inr (hchild.registers st hst c hc)⟩)
    (fun st hst c hc => hf.child c (hchild.states st hst c hc))
    ⟨fun c hc => ?_, fun _ _ => rfl⟩) fun r₂ cr hr₂ => ⟨fun b hb howned => ?_, fun c hc howned => ?_⟩
  · rw [hr₁.2 _ fun b hb => (happart hb.2 hb.1 hc.1 hc.2).symm]
    exact hs.child c hc.1 hc.2
  · rw [hr₂.2 b fun c hc => happart howned hb hc.1 hc.2]
    exact hr₁.1 b ⟨hb, howned⟩
  · exact hr₂.1 c ⟨hc, howned⟩

theorem rows_joined (h : L.Linked inst linked) (hhost : L.host.SelfContained)
    (hchild : L.child.SelfContained) (hs : L.JoinedStore s t) (hf : L.JoinedLook f f') :
    Option.Rel (fun q p => (∀ k < L.host.memories.length, q k = p.1 k) ∧
        ∀ k < L.child.memories.length, q (k + L.host.memories.length) = p.2 k)
      (linked.commitRows f' E s.memory)
      ((L.host.commitRows (fun b => f (.inl b)) E t.1.memory).bind fun hq =>
        (L.child.commitRows (fun c => f (.inr c)) E t.2.memory).map fun cq => (hq, cq)) := by
  have hlist : linked.memoryWrites = L.host.memoryWrites.map (MemoryWrite.rename id id) ++
      L.child.memoryWrites.map
        (MemoryWrite.rename (rebase L.base) (· + L.host.memories.length)) := by
    rw [show MemoryWrite.rename id id = id from funext MemoryWrite.rename_id, List.map_id, h.rest]
    rfl
  unfold Graph.commitRows
  rw [hlist, List.foldlM_append]
  refine rel_bind (commitWrites_rename (M := fun k => k < L.host.memories.length)
    s.memory (fun _ _ _ _ heq => heq) (fun w hw => (hhost.writes w hw).1)
    (fun w hw => h.depth_host (hhost.writes w hw).1)
    (fun w hw b hb => hf.host b ((hhost.writes w hw).2 b hb))
    ⟨hs.hostRows, fun _ _ => rfl⟩) fun q₁ hq hq₁ => ?_
  refine rel_map_right (commitWrites_rename (M := fun k => k < L.child.memories.length)
    q₁ (fun a b _ _ heq => Nat.add_right_cancel heq)
    (fun w hw => (hchild.writes w hw).1) (fun w hw => h.depth_child w.memory)
    (fun w hw c hc => hf.child c ((hchild.writes w hw).2 c hc))
    ⟨fun k hk => ?_, fun _ _ => rfl⟩) fun q₂ cq hq₂ => ⟨fun k hk => ?_, hq₂.1⟩
  · rw [hq₁.2 _ fun j hj heq => ?_]
    · exact hs.childRows k hk
    · change j = k + L.host.memories.length at heq
      omega
  · rw [hq₂.2 k fun j hj heq => ?_]
    · exact hq₁.1 k hk
    · change j + L.host.memories.length = k at heq
      omega

end

/-! ## Runs -/

theorem cycle_joined (h : L.Linked inst linked) (hhost : L.host.SelfContained) (hchild : L.child.SelfContained)
    (hs : L.JoinedStore s t) {f : Nat ⊕ Nat → Option Bool} {f' : Nat → Option Bool}
    (hf : L.JoinedLook f f') :
    Option.Rel (fun p q => p.1 = q.1 ∧ L.JoinedStore p.2 q.2) (linked.cycle f' x s)
      (L.cycle f y t) := by
  have hedge : linked.edge x s = L.host.edge y.1 t.1 := by
    rw [edge_of_no_clocks h.clocks.1, edge_of_no_clocks]
    rw [h.rest]
    exact h.clocks.1
  have hchildEdge : ({ L.child with ports := [] } : Graph).edge y.2 t.2 = L.host.edge y.1 t.1 := by
    rw [edge_of_no_clocks h.clocks.1, edge_of_no_clocks]
    exact h.clocks.2
  have hregisters := registers_joined (E := L.host.edge y.1 t.1) h hhost hchild hs hf
  have hrows := rows_joined (E := L.host.edge y.1 t.1) h hhost hchild hs hf
  unfold Coupling.cycle Graph.cycle
  rw [hedge, hchildEdge, observe_joined h hhost hchild hf]
  have hchildRegisters : ({ L.child with ports := [] } : Graph).commitRegisters =
      L.child.commitRegisters := rfl
  have hchildRows : ({ L.child with ports := [] } : Graph).commitRows = L.child.commitRows := rfl
  simp only [Option.bind_eq_bind, Option.pure_def, hchildRegisters, hchildRows]
  generalize linked.commitRegisters f' _ s.register = registers at hregisters ⊢
  generalize linked.commitRows f' _ s.memory = rows at hrows ⊢
  generalize L.host.commitRegisters _ _ _ = registers₁ at hregisters ⊢
  generalize L.child.commitRegisters _ _ _ = registers₂ at hregisters ⊢
  generalize L.host.commitRows _ _ _ = rows₁ at hrows ⊢
  generalize L.child.commitRows _ _ _ = rows₂ at hrows ⊢
  generalize L.host.observe _ _ = shown
  generalize Graph.observe _ _ _ = within
  cases shown <;> [simp; skip]
  cases within <;> [simp; skip]
  cases registers₁ <;> [(cases hregisters; simp); skip]
  cases registers₂ <;> [(cases hregisters; simp); skip]
  cases rows₁ <;> [(cases hrows; simp); skip]
  cases rows₂ <;> [(cases hrows; simp); skip]
  cases hregisters with
  | some hregisters =>
      cases hrows with
      | some hrows =>
          exact .some ⟨rfl, hregisters.1, hregisters.2, hrows.1, hrows.2⟩

end Coupling

/-! ## Linking is composition -/

/-- A register starts at the same level in the linked graph. -/
theorem Coupling.Linked.initialBit {L : Coupling} {inst : String} {linked : Graph}
    (h : L.Linked inst linked) :
    (∀ b, 66 ≤ b → L.host.Owns b → linked.initialBit b = L.host.initialBit b) ∧
      ∀ c, 66 ≤ c → L.child.Owns c →
        linked.initialBit (rebase L.base c) = L.child.initialBit c := by
  constructor
  · intro b hb howned
    unfold Graph.initialBit
    rw [h.node_host hb howned]
  · intro c hc howned
    have hnode := h.node_child hc
    unfold Graph.initialBit
    generalize linked.nodes[owner (rebase L.base c)]? = o' at hnode ⊢
    generalize L.child.nodes[owner c]? = o at hnode ⊢
    cases hnode with
    | none => rfl
    | some hm =>
        simp only [hm.left, lane_rebase _ hc, List.getElem?_map]
        cases hinit : (_ : List Nat)[lane c]? with
        | none => rfl
        | some b =>
            have hone : rebase L.base b = 1 ↔ b = 1 := by
              unfold rebase nodeBase
              split <;> omega
            simp [hone]

namespace Coupling

variable {L : Coupling} {inst : String} {linked : Graph}

/-- The new names of the child's bits lie past those of the host. -/
theorem Linked.rebase_lt (h : L.Linked inst linked) {c : Nat} (hc : 66 ≤ c)
    (howned : L.child.Owns c) : L.host.bound ≤ rebase L.base c ∧ rebase L.base c < linked.bound := by
  refine ⟨L.bound_le_rebase hc, ?_⟩
  obtain ⟨ms, hms, hnodes⟩ := h.nodes
  have hlen := hms.length_eq
  rw [Array.length_toList] at hlen
  have hsize : linked.nodes.size = L.host.nodes.size + L.child.nodes.size := by
    rw [hnodes, Array.size_append, hlen]
    simp
  have hlt := (howned.resolve_left (by omega)).2
  rw [rebase_of_ge _ hc]
  unfold Graph.bound nodeBase at hlt ⊢
  change c + 64 * L.host.nodes.size < _
  omega

end Coupling

/-- The linked graph and the two graphs side by side take the same steps, from
every pair of stores that correspond and under all stimuli that do: they show
the same at every clock, and their registers and rows stay corresponding. The
new names of the child's bits are apart from each other and from the host's. -/
theorem linkGraphInstance_composes (P : Primitives) {host child linked : Graph} {pins : Pins}
    {inst : String} (hhost : host.SelfContained) (hchild : child.SelfContained)
    (hpins : host.OwnsPins pins)
    (hrun : Ok (linkGraphInstance child pins inst) host () linked)
    (hfit : Coupling.ReadsFit ⟨host, child, pins⟩) :
    let L : Coupling := ⟨host, child, pins⟩
    (∀ {xs ys s t}, List.Forall₂ L.JoinedStimulus xs ys → L.JoinedStore s t →
      Option.Rel (fun p q => p.1 = q.1 ∧ L.JoinedStore p.2 q.2)
        ((linked.machine P).run xs s) ((L.machine P).run ys t)) ∧
    ((∀ b, 66 ≤ b → host.Owns b → linked.initialBit b = host.initialBit b) ∧
      ∀ c, 66 ≤ c → child.Owns c → linked.initialBit (rebase L.base c) = child.initialBit c) ∧
    (∀ c, 66 ≤ c → child.Owns c →
      host.bound ≤ rebase L.base c ∧ rebase L.base c < linked.bound) ∧
    ∀ a b, child.Owns a → child.Owns b → rebase L.base a = rebase L.base b → a = b := by
  intro L
  have hlinked : L.Linked inst linked := linkGraphInstance_ok (L := L) hhost hchild hpins hrun
  refine ⟨fun {xs ys s t} hstimuli hstore => ?_, hlinked.initialBit,
    fun c hc => hlinked.rebase_lt hc, fun a b => L.rebase_injOn⟩
  have hsim : Machine.Bisimulates (linked.machine P) (L.machine P) L.JoinedStimulus Eq
      L.JoinedStore := fun x y s t hx hs =>
    Coupling.cycle_joined hlinked hhost hchild hs
      (Coupling.joined_value hlinked hhost hchild hfit hx hs P)
  have hruns := hsim.run hstimuli hstore
  simpa only [List.forall₂_eq_eq_eq] using hruns

/-- A host with one memory and a wire that shows what its instance reads. -/
def readerHost (memories : List Memory) : Graph :=
  { nodes := #[⟨.wire, 1, [], [], [], "q", ""⟩]
    ports := [⟨"q", [66], false⟩]
    memories }

/-- A module that reads its only memory, naming it by `index`. -/
def readerChild (index : Value) : Graph :=
  { nodes := #[⟨.memoryRead, 1, [0], index, [0], "", ""⟩]
    ports := [⟨"q", [66], false⟩]
    memories := [⟨"zero", 1, 1, [0]⟩] }

def readerPins : Pins := (∅ : Pins).insert "q" [66]

def oneRom (name : String) : Memory := ⟨name, 1, 1, [1]⟩

theorem readerPins_owned (memories : List Memory) : (readerHost memories).OwnsPins readerPins := by
  intro name bits h b hb
  unfold readerPins at h
  rw [Std.ExtTreeMap.getElem?_insert] at h
  split at h
  · cases h
    rw [List.mem_singleton] at hb
    subst hb
    exact .inr ⟨by omega, by unfold Graph.bound nodeBase readerHost; simp⟩
  · simp at h

/-- The pair of a host with these memories and the module that reads. -/
def readerPair (memories : List Memory) (index : Value) : Coupling :=
  ⟨readerHost memories, readerChild index, readerPins⟩

def readerLinked (memories : List Memory) (index : Value) : Graph :=
  after (linkGraphInstance (readerChild index) readerPins "u") (readerHost memories)

theorem readerPair_dark (memories : List Memory) (index : Value) :
    (readerPair memories index).JoinedStimulus dark (dark, dark) ∧
      (readerPair memories index).JoinedStore emptyStore (emptyStore, emptyStore) :=
  ⟨⟨fun _ _ _ => rfl, fun _ _ _ => rfl, fun _ _ _ _ _ _ => rfl, fun _ _ _ _ _ _ => rfl⟩,
    fun _ _ _ => rfl, fun _ _ _ => rfl, fun _ _ => rfl, fun _ _ => rfl⟩

/-- A reader with a full index operand, linked behind a memory of the host. -/
theorem linkGraphInstance_composes_reader :
    Option.Rel
      (fun p q => p.1 = q.1 ∧ (readerPair [oneRom "one"] (constant 0 64)).JoinedStore p.2 q.2)
      (((readerLinked [oneRom "one"] (constant 0 64)).machine noPrimitives).run [dark] emptyStore)
      (((readerPair [oneRom "one"] (constant 0 64)).machine noPrimitives).run [(dark, dark)]
        (emptyStore, emptyStore)) := by
  refine (linkGraphInstance_composes noPrimitives (.of_check (by decide +kernel))
    (.of_check (by decide +kernel)) (fun {_ _} h => readerPins_owned _ h)
    (ok_after (by decide +kernel)) ?_).1
    (.cons (readerPair_dark _ _).1 .nil) (readerPair_dark _ _).2
  intro i n k hn _ hk
  rcases i with _ | i
  · obtain rfl : _ = n := Option.some.inj hn
    obtain rfl : 0 = k := Option.some.inj hk
    decide
  · simp [readerChild] at hn

/-- A one-bit index operand cannot hold the number 2: behind two memories of
the host, the linked graph reads a memory of the host. -/
theorem linkGraphInstance_crosses :
    returns (linkGraphInstance (readerChild [0]) readerPins "u")
        (readerHost [oneRom "a", oneRom "b"]) = true ∧
      (readerHost [oneRom "a", oneRom "b"]).SelfContained ∧ (readerChild [0]).SelfContained ∧
      (readerPair [oneRom "a", oneRom "b"] [0]).JoinedStimulus dark (dark, dark) ∧
      (readerPair [oneRom "a", oneRom "b"] [0]).JoinedStore emptyStore (emptyStore, emptyStore) ∧
      (((readerLinked [oneRom "a", oneRom "b"] [0]).machine noPrimitives).run [dark]
        emptyStore).map Prod.fst = some [⟨[("q", [true])], [], [], [], []⟩] ∧
      (((readerPair [oneRom "a", oneRom "b"] [0]).machine noPrimitives).run [(dark, dark)]
        (emptyStore, emptyStore)).map Prod.fst = some [⟨[("q", [false])], [], [], [], []⟩] := by
  refine ⟨by decide +kernel, .of_check (by decide +kernel), .of_check (by decide +kernel),
    (readerPair_dark _ _).1, (readerPair_dark _ _).2, ?_, ?_⟩
  · exact Graph.shows_of_evaluate _ _ 3 (by decide +kernel)
  · exact Coupling.shows_of_iterate _ _ 3 (by decide +kernel)

end CppHdl
