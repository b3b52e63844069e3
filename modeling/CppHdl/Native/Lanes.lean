import CppHdl.Graph.Rewrite
import CppHdl.Native.Evaluate

/-!
# A lane computes what the schedule computes

The planned graph keeps the old nodes that are no operations, and holds the
copies of each lane. A copied bit reads on its lane what the bit reads in the
sequential schedule: a constant, an input or a state is the same bit, and the
copy of an operation computes what the operation does.
-/

namespace CppHdl.Native

variable {g : Graph} {order : List Nat}

/-- All lanes of a plan were copied. -/
structure Planned (g : Graph) (order : List Nat) (r : Roots) (lanes : Nat) (p : Placement)
    (copies : Nat → Nat → Option Nat) (s : Cloning) : Prop where
  closed : g.Closed
  schedules : Schedules g order
  rooted : Rooted g order r
  placed : Placed g order r lanes p
  done : LanesDone g order r p lanes copies s

abbrev Cloning.graph (s : Cloning) (g : Graph) : Graph := withFields g s.clones.nodes s.fields

namespace Planned

variable {r : Roots} {lanes : Nat} {p : Placement} {copies : Nat → Nat → Option Nat} {s : Cloning}

theorem getElem?_graph (i : Nat) :
    (s.graph g).nodes[i]? = (s.clones.nodes[i]?).map (withNode s.fields i) :=
  Array.getElem?_mapIdx ..

theorem own_value {lane i : Nat} (hi : i ∈ own g order p lane) : i ∈ values g order :=
  (List.mem_filter.mp hi).1

theorem own_owned {lane i : Nat} (hi : i ∈ own g order p lane) : i ∈ p.owned lane := by
  simpa using (List.mem_filter.mp hi).2

theorem node (h : Planned g order r lanes p copies s) {lane i : Nat} (hlane : lane < lanes)
    (hi : i ∈ own g order p lane) {n : Node} (hn : g.nodes[i]? = some n) :
    (s.graph g).nodes[copyOf (copies lane) i]? = some (copiedNode g order (copies lane) n) := by
  obtain ⟨m, hm, -, -, hvalidation⟩ := isValue_iff.mp (mem_values.mp (own_value hi)).2
  rw [hn] at hm
  obtain rfl := Option.some.inj hm
  rw [getElem?_graph, h.done.node lane hlane i hi n hn, Option.map_some]
  have : (copiedNode g order (copies lane) n).validation = false := hvalidation
  rw [withNode, this]
  rfl

theorem mem_tasks (h : Planned g order r lanes p copies s) {lane i : Nat} (hlane : lane < lanes)
    (hi : i ∈ own g order p lane) : copyOf (copies lane) i ∈ s.tasks.flatten :=
  List.mem_flatten.mpr ⟨_, List.mem_of_getElem? (h.done.tasks lane hlane), List.mem_map_of_mem hi⟩

theorem of_mem_tasks (h : Planned g order r lanes p copies s) {j : Nat}
    (hj : j ∈ s.tasks.flatten) :
    ∃ lane i, lane < lanes ∧ i ∈ own g order p lane ∧ copyOf (copies lane) i = j := by
  obtain ⟨tasks, htasks, hj⟩ := List.mem_flatten.mp hj
  obtain ⟨lane, hlane, rfl⟩ := List.getElem_of_mem htasks
  have hlt : lane < lanes := h.done.length ▸ hlane
  have hsome := h.done.tasks lane hlt
  rw [List.getElem?_eq_getElem hlane] at hsome
  rw [Option.some.inj hsome] at hj
  obtain ⟨i, hi, rfl⟩ := List.mem_map.mp hj
  exact ⟨lane, i, hlt, hi, rfl⟩

/-- Old nodes that are not overwritten by a copy keep their operation; those
that are were operations. -/
theorem isSource_graph (h : Planned g order r lanes p copies s) {j : Nat}
    (hj : j < g.nodes.size) : isSource (s.graph g) j = isSource g j := by
  by_cases hmem : j ∈ s.tasks.flatten
  · obtain ⟨lane, i, hlane, hi, rfl⟩ := h.of_mem_tasks hmem
    have heq : copyOf (copies lane) i = i :=
      (h.done.number lane hlane i hi).resolve_right (by omega)
    obtain ⟨n, hn, hinput, hstate, -⟩ := isValue_iff.mp (mem_values.mp (own_value hi)).2
    have hnode := h.node hlane hi hn
    rw [heq] at hnode ⊢
    unfold isSource
    rw [hnode, hn]
    rfl
  · unfold isSource
    rw [getElem?_graph, h.done.inUse.original j hj hmem]
    cases g.nodes[j]? with
    | none => rfl
    | some n =>
        rw [Option.map_some]
        unfold withNode
        split_ifs <;> rfl

/-! ### Copied bits -/

theorem copiedBit_value {copy : Nat → Option Nat} {b : Nat} (hroot : 2 ≤ g.root b)
    (hvalue : owner (g.root b) ∈ values g order) : copiedBit g order copy b =
      nodeBase (copyOf copy (owner (g.root b))) + lane (g.root b) := by
  unfold copiedBit
  rw [if_neg]
  simp only [Bool.or_eq_true, decide_eq_true_eq, not_or]
  exact ⟨by omega, weight_ne_zero.mpr hvalue⟩

theorem copiedBit_other {copy : Nat → Option Nat} {b : Nat}
    (h : g.root b < 2 ∨ owner (g.root b) ∉ values g order) :
    copiedBit g order copy b = g.root b := by
  unfold copiedBit
  rw [if_pos]
  simp only [Bool.or_eq_true, decide_eq_true_eq]
  exact h.imp id fun hvalue => not_not.mp (mt weight_ne_zero.mp hvalue)

theorem root_copiedBit (h : Planned g order r lanes p copies s) {lane : Nat} (hlane : lane < lanes)
    {b : Nat} (hb : g.root b < 2 ∨ 66 ≤ g.root b)
    (hown : 2 ≤ g.root b → owner (g.root b) ∈ values g order →
      owner (g.root b) ∈ own g order p lane) :
    g.root (copiedBit g order (copies lane) b) = copiedBit g order (copies lane) b := by
  by_cases hvalue : 2 ≤ g.root b ∧ owner (g.root b) ∈ values g order
  · rw [copiedBit_value hvalue.1 hvalue.2]
    refine Graph.root_of_unaliased ?_
    rcases h.done.number lane hlane _ (hown hvalue.1 hvalue.2) with heq | hge
    · rw [heq, nodeBase_owner_add_lane (by omega)]
      exact h.closed.root_unaliased b
    · cases halias : g.aliases[nodeBase (copyOf (copies lane) (owner (g.root b))) +
          CppHdl.lane (g.root b)]? with
      | none => rfl
      | some target =>
          have := (h.closed.wf _ _ halias).2
          unfold Graph.bound nodeBase at this
          omega
  · have hother : g.root b < 2 ∨ owner (g.root b) ∉ values g order :=
      (Nat.lt_or_ge (g.root b) 2).imp id fun hge hmem => hvalue ⟨hge, hmem⟩
    rw [copiedBit_other hother, h.closed.root_root]

theorem readable_copiedBit (h : Planned g order r lanes p copies s) {lane : Nat}
    (hlane : lane < lanes) {b : Nat} {done : List Nat} (hb : Readable g done (g.root b))
    (hdone : ∀ d ∈ done, d ∈ values g order)
    (hown : 2 ≤ g.root b → owner (g.root b) ∈ values g order →
      owner (g.root b) ∈ own g order p lane) :
    Readable (s.graph g) (done.map (copyOf (copies lane)))
      (g.root (copiedBit g order (copies lane) b)) := by
  rw [h.root_copiedBit hlane (hb.imp id And.left) hown]
  rcases hb with hlt | ⟨hge, hsource | hmem⟩
  · rw [copiedBit_other (.inl hlt)]
    exact .inl hlt
  · have hnot : owner (g.root b) ∉ values g order := fun hmem => by
      rw [isSource_of_isValue (mem_values.mp hmem).2] at hsource
      cases hsource
    rw [copiedBit_other (.inr hnot)]
    refine .inr ⟨hge, .inl ?_⟩
    rw [h.isSource_graph, hsource]
    by_contra hle
    unfold isSource at hsource
    rw [Array.getElem?_eq_none (by omega)] at hsource
    cases hsource
  · rw [copiedBit_value (by omega) (hdone _ hmem)]
    refine .inr ⟨by unfold nodeBase; omega, .inr ?_⟩
    rw [owner_nodeBase_add (lane_lt _)]
    exact List.mem_map_of_mem hmem

/-- A copied bit reads the same, if the stores agree on its producer. -/
theorem read_copiedBit (h : Planned g order r lanes p copies s) {lane : Nat} (hlane : lane < lanes)
    {b : Nat} (hb : g.root b < 2 ∨ 66 ≤ g.root b ∧ g.root b < g.bound)
    (hown : 2 ≤ g.root b → owner (g.root b) ∈ values g order →
      owner (g.root b) ∈ own g order p lane) (env : Env) {t t' : Nat → Nat → Option Bool}
    (hvalue : 2 ≤ g.root b → owner (g.root b) ∈ values g order →
      t (owner (g.root b)) = t' (copyOf (copies lane) (owner (g.root b))))
    (hother : 2 ≤ g.root b → isSource g (owner (g.root b)) = false →
      owner (g.root b) ∉ values g order →
      t (owner (g.root b)) = t' (owner (g.root b))) :
    read g env t (g.root b) =
      read (s.graph g) env t' (g.root (copiedBit g order (copies lane) b)) := by
  rw [h.root_copiedBit hlane (hb.imp id And.left) hown]
  rcases hb with hlt | ⟨hge, hbound⟩
  · rw [copiedBit_other (.inl hlt)]
    unfold read
    rw [if_pos hlt, if_pos hlt]
  have hlt : ¬ g.root b < 2 := by omega
  have hsize : owner (g.root b) < g.nodes.size := (owner_lt_iff hge).mpr hbound
  by_cases hmem : owner (g.root b) ∈ values g order
  · have hown := hown (by omega) hmem
    obtain ⟨n, hn, hinput, hstate, -⟩ := isValue_iff.mp (mem_values.mp hmem).2
    have hsource : isSource (s.graph g) (copyOf (copies lane) (owner (g.root b))) = false := by
      unfold isSource
      rw [h.node hlane hown hn]
      simp [copiedNode, hinput, hstate]
    rw [copiedBit_value (by omega) hmem]
    unfold read
    rw [if_neg hlt, if_neg (by rw [isSource_of_isValue (mem_values.mp hmem).2]; exact Bool.false_ne_true),
      if_neg (by unfold nodeBase; omega), owner_nodeBase_add (lane_lt _), hsource,
      lane_nodeBase_add (lane_lt _), hvalue (by omega) hmem]
    rfl
  · rw [copiedBit_other (.inr hmem)]
    unfold read
    rw [if_neg hlt, if_neg hlt, h.isSource_graph hsize]
    by_cases hsource : isSource g (owner (g.root b)) = true
    · rw [if_pos hsource, if_pos hsource]
    · rw [if_neg hsource, if_neg hsource, hother (by omega) (by simpa using hsource) hmem]

/-! ### Operations -/

/-- Only lane 0 has copies of host calls, and of what reads them. -/
theorem lane_zero (h : Planned g order r lanes p copies s) {lane i : Nat} (hlane : lane < lanes)
    (hi : i ∈ own g order p lane) (hhost : isHost g i = true) : lane = 0 := by
  by_contra hne
  rw [h.placed.hosts lane (by omega) hlane i (own_owned hi)] at hhost
  cases hhost

theorem copy_zero (h : Planned g order r lanes p copies s) {i : Nat} (hi : i ∈ own g order p 0) :
    copyOf (copies 0) i = i := by
  rw [copyOf, h.done.first h.placed.pos i hi, Option.getD_some]

theorem own_dependency (h : Planned g order r lanes p copies s) {lane i d : Nat}
    (hi : i ∈ own g order p lane) (hd : d ∈ dependencies g order i) : d ∈ own g order p lane := by
  obtain ⟨hvalue, hdeps⟩ := h.placed.closed lane i (own_owned hi)
  exact List.mem_filter.mpr
    ⟨h.schedules.dependencies_mem i hvalue d hd, by simpa using hdeps d hd⟩

theorem operand (h : Planned g order r lanes p copies s) {i : Nat} (hi : i ∈ values g order)
    {n : Node} (hn : g.nodes[i]? = some n) {b : Nat} (hb : b ∈ n.operands) :
    Readable g (values g order) (g.root b) := by
  obtain ⟨done, rest, hsplit⟩ := List.append_of_mem hi
  have := h.schedules.topological done i rest hsplit n hn b hb
  exact this.imp id fun ⟨hge, hr⟩ => ⟨hge, hr.imp id fun hmem => hsplit ▸ List.mem_append_left _ hmem⟩

theorem operand_own (h : Planned g order r lanes p copies s) {lane i : Nat}
    (hi : i ∈ own g order p lane) {n : Node} (hn : g.nodes[i]? = some n) {b : Nat}
    (hb : b ∈ n.operands) (hroot : 2 ≤ g.root b) (hvalue : owner (g.root b) ∈ values g order) :
    owner (g.root b) ∈ own g order p lane :=
  h.own_dependency hi (operand_dependency (own_value hi) hn hb hroot hvalue)

theorem Readable.exists {done : List Nat} {bit : Nat} (h : Readable g done bit)
    (hdone : ∀ d ∈ done, d < g.nodes.size) : bit < 2 ∨ 66 ≤ bit ∧ bit < g.bound := by
  refine h.imp id fun ⟨hge, hr⟩ => ⟨hge, (owner_lt_iff hge).mp ?_⟩
  rcases hr with hsource | hmem
  · by_contra hle
    unfold isSource at hsource
    rw [Array.getElem?_eq_none (by omega)] at hsource
    cases hsource
  · exact hdone _ hmem

theorem value_lt {i : Nat} (hi : i ∈ values g order) : i < g.nodes.size := by
  obtain ⟨n, hn, -⟩ := isValue_iff.mp (mem_values.mp hi).2
  exact (Array.getElem?_eq_some_iff.mp hn).1

/-- The operands of a copy read what those of the operation do. -/
theorem operand_read (h : Planned g order r lanes p copies s) {lane i : Nat} (hlane : lane < lanes)
    (hi : i ∈ own g order p lane) {n : Node} (hn : g.nodes[i]? = some n) (env : Env)
    {t t' : Nat → Nat → Option Bool} (ht : ∀ d, Reads g i d → t d = t' (copyOf (copies lane) d))
    {b : Nat} (hb : b ∈ n.operands) : read g env t (g.root b) =
      read (s.graph g) env t' (g.root (copiedBit g order (copies lane) b)) := by
  have hreadable := h.operand (own_value hi) hn hb
  refine h.read_copiedBit hlane (Readable.exists hreadable fun _ => value_lt)
    (h.operand_own hi hn hb) env (fun hroot hvalue => ?_) fun hroot hsource hvalue => ?_
  · exact ht _ ⟨n, hn, b, hb, hroot, isSource_of_isValue (mem_values.mp hvalue).2, rfl⟩
  · rcases hreadable with hlt | ⟨-, hsrc | hmem⟩
    · omega
    · rw [hsource] at hsrc
      cases hsrc
    · exact absurd hmem hvalue

/-- Copies on lane 0 have the operands of the operation. -/
theorem map_copiedBit_zero (h : Planned g order r lanes p copies s) {i : Nat}
    (hi : i ∈ own g order p 0) {n : Node} (hn : g.nodes[i]? = some n) {v : Value}
    (hv : ∀ b ∈ v, b ∈ n.operands) : v.map (copiedBit g order (copies 0)) = v.map g.root := by
  refine List.map_congr_left fun b hb => ?_
  have hreadable := h.operand (own_value hi) hn (hv b hb)
  by_cases hvalue : 2 ≤ g.root b ∧ owner (g.root b) ∈ values g order
  · have hge : 66 ≤ g.root b := hreadable.elim (fun hlt => by omega) And.left
    rw [copiedBit_value hvalue.1 hvalue.2,
      h.copy_zero (h.operand_own hi hn (hv b hb) hvalue.1 hvalue.2), nodeBase_owner_add_lane hge]
  · exact copiedBit_other ((Nat.lt_or_ge (g.root b) 2).imp id fun hge hmem => hvalue ⟨hge, hmem⟩)

theorem bitValue_eq {P : Primitives} {memories : List Memory} {env : Env} {n m : Node}
    {look look' : Nat → Option Bool} {bit bit' : Nat} (hop : m.op = n.op) (hwire : n.op ≠ .wire)
    (hvalidation : n.validation = false)
    (hprojection : n.op = .hostDebugOutput →
      m.left = n.left ∧ m.select = n.select ∧ CppHdl.lane bit' = CppHdl.lane bit)
    (hleaf : n.op.isLeaf = true → env.leaf bit' = env.leaf bit)
    (hlane : m.laneValue P memories env look' (CppHdl.lane bit') =
      n.laneValue P memories env look (CppHdl.lane bit)) :
    n.bitValue P memories env look bit = m.bitValue P memories env look' bit' := by
  by_cases hdebug : n.op = .hostDebugOutput
  · obtain ⟨hl, hs, hb⟩ := hprojection hdebug
    unfold Node.bitValue
    rw [hop, hdebug, hl, hs, hb]
  have hfailure : n.op ≠ .assertFailure := fun heq => by
    rw [Node.validation, heq] at hvalidation
    cases hvalidation
  by_cases hcomputes : n.op.computes = true
  · rw [n.bitValue_of_computes P memories env look hcomputes,
      m.bitValue_of_computes P memories env look' (hop ▸ hcomputes), hlane]
  · have hisLeaf : n.op.isLeaf = true := by
      simpa [Op.computes, hwire, hfailure, hdebug] using hcomputes
    rw [n.bitValue_of_leaf P memories env look hisLeaf,
      m.bitValue_of_leaf P memories env look' (hop ▸ hisLeaf), hleaf hisLeaf]

/-- The leaves among the operations are host calls. -/
theorem hostEffect_of_leaf {n : Node} (hleaf : n.op.isLeaf = true) (hinput : n.op ≠ .input)
    (hstate : n.op ≠ .state) : n.hostEffect = true := by
  unfold Node.hostEffect
  cases hop : n.op <;> rw [hop] at hleaf hinput hstate <;>
    first | rfl | exact absurd rfl hinput | exact absurd rfl hstate | cases hleaf

theorem lane_nodeBase (i l : Nat) : CppHdl.lane (nodeBase i + l) = l % 64 := by
  unfold CppHdl.lane nodeBase
  omega

/-- The copy of an operation computes what the operation does. -/
theorem compute_copied (h : Planned g order r lanes p copies s) (P : Primitives) (env : Env)
    {lane i : Nat} (hlane : lane < lanes) (hi : i ∈ own g order p lane)
    {t t' : Nat → Nat → Option Bool} (ht : ∀ d, Reads g i d → t d = t' (copyOf (copies lane) d)) :
    compute P g env t i = compute P (s.graph g) env t' (copyOf (copies lane) i) := by
  obtain ⟨n, hn, hinput, hstate, hvalidation⟩ := isValue_iff.mp (mem_values.mp (own_value hi)).2
  have horder := (mem_values.mp (own_value hi)).1
  have hoperands : ∀ v : Value, (∀ b ∈ v, b ∈ n.operands) →
      ((v.map (copiedBit g order (copies lane))).map g.root).map (read (s.graph g) env t') =
        (v.map g.root).map (read g env t) := by
    intro v hv
    rw [List.map_map, List.map_map, List.map_map]
    exact List.map_congr_left fun b hb => (h.operand_read hlane hi hn env ht (hv b hb)).symm
  have hl := hoperands n.left fun b hb => by simp [Node.operands, hb]
  have hr := hoperands n.right fun b hb => by simp [Node.operands, hb]
  have hs := hoperands n.select fun b hb => by simp [Node.operands, hb]
  have hlaneValue : ∀ l, (resolvedNode (s.graph g) (copiedNode g order (copies lane) n)).laneValue P
      g.memories env (read (s.graph g) env t') l =
        (resolvedNode g n).laneValue P g.memories env (read g env t) l :=
    laneValue_eq_of_map rfl rfl rfl hl hr hs
  unfold compute
  rw [h.node hlane hi hn, hn]
  funext l
  show (if l < n.width then _ else none) = if l < n.width then _ else none
  split_ifs with hwidth
  · -- Only lane 0 has host calls and their output arguments, with the old numbers.
    have hhost : n.hostEffect = true → lane = 0 := fun heffect =>
      h.lane_zero hlane hi (isHost_iff.mpr ⟨n, hn, heffect⟩)
    refine bitValue_eq rfl (h.schedules.driven i horder n hn) hvalidation (fun hop => ?_)
      (fun hleaf => ?_) ?_
    · obtain ⟨b, hb, hroot, hhost⟩ := h.schedules.projections i horder n hn hop
      have hmem : b ∈ n.operands := by simp [Node.operands, hb]
      have hown := h.operand_own hi hn hmem hroot (h.schedules.host_mem hhost)
      obtain rfl := h.lane_zero hlane hown hhost
      have hroots : ∀ v : Value, (∀ b ∈ v, b ∈ n.operands) →
          (v.map (copiedBit g order (copies 0))).map g.root = v.map g.root := fun v hv => by
        rw [h.map_copiedBit_zero hi hn hv, List.map_map]
        exact List.map_congr_left fun b _ => h.closed.root_root b
      refine ⟨hroots n.left fun b hb => ?_, hroots n.select fun b hb => ?_, ?_⟩
      · simp [Node.operands, hb]
      · simp [Node.operands, hb]
      · rw [h.copy_zero hi]
    · have heffect : n.hostEffect = true := by
        exact hostEffect_of_leaf hleaf hinput hstate
      obtain rfl := hhost heffect
      rw [h.copy_zero hi]
    · rw [lane_nodeBase, lane_nodeBase]
      exact hlaneValue _
  · rfl

end Planned

end CppHdl.Native
