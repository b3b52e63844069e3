import CppHdl.Graph.Rewrite

/-!
# Adding a node

The specification of `add`. Simplifying a node changes nothing but alias
targets; the node then either joins the graph, with its redirected lanes
aliased away, or is not needed at all. In both cases the lanes returned read
what the node computes, in every valuation of the graph that is left.
-/

namespace CppHdl

open Failing

/-! ## Programs that touch only the aliases -/

/-- States ordered by "only aliases changed"; there are no worlds to constrain,
so specifications in this logic are facts about results alone. -/
def aliasOnly : Constraints Graph Unit where
  Inv _ := True
  Le g h := h = { g with aliases := h.aliases }
  Fresh _ _ := True
  Sat _ _ := True
  le_refl _ := rfl
  le_trans hgh hhk := by rw [hhk, hgh]
  fresh_mono _ h := h
  sat_anti _ h := h

theorem resolve_aliasOnly (bit : Nat) : Builds aliasOnly (resolve bit) fun _ _ => True := by
  intro g _
  rw [resolve_run]
  cases chase g.aliases (g.aliases.size + 2) [] bit with
  | none => exact ⟨trivial, rfl⟩
  | some p => exact ⟨trivial, rfl, fun _ _ _ => trivial⟩

theorem resolved_aliasOnly (value : Value) :
    Builds aliasOnly (resolved value) fun _ roots => roots.length = value.length := by
  unfold resolved
  induction value with
  | nil => exact Builds.pure fun _ => rfl
  | cons b value ih =>
      rw [List.mapM_cons]
      refine (resolve_aliasOnly b).bind fun root => ih.bind fun roots => Builds.pure ?_
      intro _ hroots _
      simp [hroots]

/-! ## Simplifying a node -/

theorem Node.expandPower_width (n : Node) : n.expandPower.width = n.width := by
  unfold Node.expandPower
  split_ifs
  · cases n.powerOperand <;> rfl
  · rfl

theorem Node.expandPower_computes (n : Node) : n.expandPower.op.computes = n.op.computes := by
  unfold Node.expandPower
  split_ifs with hop
  · have : n.op.computes = true := by rcases hop with h | h | h <;> rw [h] <;> rfl
    cases n.powerOperand with
    | none => rfl
    | some p => rw [this]; rfl
  · rfl

/-- What `simplifyNode` leaves of a node, whatever the valuation. -/
structure Simplified (n m : Node) (redirects : List (Nat × Nat)) : Prop where
  width : m.width = n.width
  computes : m.op.computes = n.op.computes
  redirects : m.redirects = .ok redirects

theorem simplifyNode_aliasOnly (n : Node) :
    Builds aliasOnly (simplifyNode n) fun _ p => Simplified n p.1 p.2 := by
  unfold simplifyNode
  refine (resolved_aliasOnly _).bind fun left => (resolved_aliasOnly _).bind fun right =>
    (resolved_aliasOnly _).bind fun select => ?_
  simp only
  split
  · exact Builds.throw _
  · rename_i redirects hredirects
    refine Builds.pure fun _ _ _ _ => ⟨?_, ?_, hredirects⟩
    · rw [Node.expandPower_width]
    · rw [Node.expandPower_computes]

/-- The node that is left computes at least what the node did, and its
redirected lanes read that. -/
theorem simplifyNode_builds (n : Node) :
    GraphBuilds (simplifyNode n) fun w p => w.Consts → ∀ i < n.width, i < 64 → ∀ v,
      w.laneValue n i = some v →
        w.laneValue p.1 i = some v ∧ ∀ t, (i, t) ∈ p.2 → w.look t = some v := by
  unfold simplifyNode
  refine (resolved_builds _).bind fun left => (resolved_builds _).bind fun right =>
    (resolved_builds _).bind fun select => ?_
  simp only
  split
  · exact Builds.throw _
  · rename_i redirects hredirects
    refine Builds.pure fun w hselect hright hleft hw i hi h64 v hv => ?_
    rw [← w.laneValue_eq_of_map_eq (n := n) (m := { n with left, right, select }) rfl rfl (fun _ => rfl)
      hleft hright hselect] at hv
    have hv' := Node.expandPower_sound (n := { n with left, right, select }) hw hi h64 hv
    exact ⟨hv', fun t ht => Node.redirects_sound hw hredirects ht h64 hv'⟩

/-! ## Lanes of a new node -/

theorem length_redirectLanes (lanes : Value) (redirects : List (Nat × Nat)) :
    (redirectLanes lanes redirects).length = lanes.length := by
  unfold redirectLanes
  induction redirects generalizing lanes with
  | nil => rfl
  | cons r redirects ih => rw [List.foldl_cons, ih, List.length_set]

theorem getElem?_redirectLanes {lanes : Value} {redirects : List (Nat × Nat)} {i t : Nat}
    (h : (redirectLanes lanes redirects)[i]? = some t) :
    lanes[i]? = some t ∨ (i, t) ∈ redirects := by
  unfold redirectLanes at h
  induction redirects generalizing lanes with
  | nil => exact .inl h
  | cons r redirects ih =>
      rw [List.foldl_cons] at h
      rcases ih h with h | h
      · rw [List.getElem?_set] at h
        split_ifs at h with hr
        · obtain rfl := Option.some.inj h
          exact .inr (by simp [← hr])
        · exact .inl h
      · exact .inr (List.mem_cons_of_mem _ h)

theorem getElem?_foldl_lanes (result : Value) (base k : Nat) (m : Std.ExtTreeMap Nat Nat)
    (b : Nat) :
    (((result.zipIdx k).filter fun p => p.1 ≠ base + p.2).foldl
        (fun m p => m.insert (base + p.2) p.1) m)[b]? =
      match (if base + k ≤ b then result[b - base - k]? else none) with
      | some t => if t = b then m[b]? else some t
      | none => m[b]? := by
  induction result generalizing k m with
  | nil => simp
  | cons t result ih =>
      rw [List.zipIdx_cons, List.filter_cons]
      have htail : ∀ m : Std.ExtTreeMap Nat Nat, b ≠ base + k →
          (((result.zipIdx (k + 1)).filter fun p => p.1 ≠ base + p.2).foldl
            (fun m p => m.insert (base + p.2) p.1) m)[b]? =
          match (if base + k ≤ b then (t :: result)[b - base - k]? else none) with
          | some t => if t = b then m[b]? else some t
          | none => m[b]? := by
        intro m hb
        rw [ih]
        by_cases hle : base + k ≤ b
        · rw [if_pos (by omega), if_pos hle,
            show b - base - k = b - base - (k + 1) + 1 by omega, List.getElem?_cons_succ]
        · rw [if_neg (by omega), if_neg hle]
      have hhead : ∀ m : Std.ExtTreeMap Nat Nat, b = base + k →
          (((result.zipIdx (k + 1)).filter fun p => p.1 ≠ base + p.2).foldl
            (fun m p => m.insert (base + p.2) p.1) m)[b]? = m[b]? := by
        intro m hb
        rw [ih, if_neg (by omega)]
      by_cases hb : b = base + k
      · rw [if_pos (show base + k ≤ b by omega), show b - base - k = 0 by omega,
          List.getElem?_cons_zero]
        by_cases ht : t = base + k
        · rw [if_neg (by simpa using ht), hhead m hb]
          simp [ht, hb]
        · rw [if_pos (by simpa using ht), List.foldl_cons, hhead _ hb]
          simp [hb, ht]
      · by_cases ht : t = base + k
        · rw [if_neg (by simpa using ht), htail m hb]
        · rw [if_pos (by simpa using ht), List.foldl_cons, htail _ hb,
            Std.ExtTreeMap.getElem?_insert]
          have : compare (base + k) b ≠ .eq := by
            rw [ne_eq, Std.LawfulEqCmp.compare_eq_iff_eq]; omega
          simp only [this, if_false]

namespace Graph

/-- The alias of a bit after a node was pushed: its new lanes come first. -/
theorem getElem?_pushNode (g : Graph) (n : Node) (result : Value) (b : Nat) :
    (g.pushNode n result).aliases[b]? =
      match (if g.bound ≤ b then result[b - g.bound]? else none) with
      | some t => if t = b then g.aliases[b]? else some t
      | none => g.aliases[b]? := by
  have := getElem?_foldl_lanes result g.bound 0 g.aliases b
  rw [Nat.add_zero, Nat.sub_zero] at this
  exact this

theorem bound_pushNode (g : Graph) (n : Node) (result : Value) :
    (g.pushNode n result).bound = g.bound + 64 := by
  unfold bound pushNode nodeBase
  rw [Array.size_push]
  omega

theorem getElem?_nodes_pushNode {g : Graph} {n : Node} {result : Value} {i : Nat} :
    (g.pushNode n result).nodes[i]? = if i = g.nodes.size then some n else g.nodes[i]? := by
  unfold pushNode
  rw [Array.getElem?_push]

theorem getElem?_pushNode_old {g : Graph} {n : Node} {result : Value} {b : Nat}
    (hb : b < g.bound) : (g.pushNode n result).aliases[b]? = g.aliases[b]? := by
  rw [getElem?_pushNode, if_neg (by omega)]

variable {g : Graph}

theorem Wf.getElem?_aliases_of_ge (hg : g.Wf) {b : Nat} (hb : g.bound ≤ b) :
    g.aliases[b]? = none := by
  cases h : g.aliases[b]? with
  | none => rfl
  | some s =>
      have := (hg b s h).2
      omega

theorem Wf.pushNode (hg : g.Wf) {n : Node} {result : Value} (hlen : result.length ≤ 64) :
    (g.pushNode n result).Wf := by
  intro b s h
  rw [bound_pushNode]
  by_cases hb : g.bound ≤ b
  · rw [getElem?_pushNode, if_pos hb, hg.getElem?_aliases_of_ge hb] at h
    have hbound : 66 ≤ g.bound := by unfold bound nodeBase; omega
    cases ht : result[b - g.bound]? with
    | none => rw [ht] at h; cases h
    | some t =>
        obtain ⟨hlt, -⟩ := List.getElem?_eq_some_iff.mp ht
        omega
  · rw [getElem?_pushNode_old (by omega)] at h
    have := hg b s h
    omega

theorem Wf.grows_pushNode (hg : g.Wf) (n : Node) (result : Value) :
    Grows g (g.pushNode n result) where
  nodes i m hm := by
    rw [getElem?_nodes_pushNode, if_neg, hm]
    have := owner_lt_size hm
    omega
  aliased look hlook b s hs := by
    refine hlook b s ?_
    rw [getElem?_pushNode_old (hg b s hs).2, hs]
  free b hb hfree := by rw [getElem?_pushNode_old hb, hfree]
  rest := rfl

end Graph

/-! ## The specification of `add` -/

/-- What `add` does, by the node and redirections simplification leaves. -/
theorem add_run (op : Op) (width : Nat) (left right select : Value) (name : String) (g : Graph) :
    add op width left right select name g =
      if width = 0 ∨ 64 < width then .error (.runtime "invalid graph node width") g
      else
        match simplifyNode ⟨op, width, left, right, select, name, g.currentScope⟩ g with
        | .error e g' => .error e g'
        | .ok (n, redirects) g' =>
            let result := redirectLanes ((List.range width).map (g.bound + ·)) redirects
            if result.any fun bit => g.bound ≤ bit ∧ bit < g.bound + width then
              .ok result (g'.pushNode n result)
            else .ok result g' := by
  unfold add
  split_ifs with hwidth
  · rfl
  · beta_reduce
    rw [bind_apply, get_apply]
    simp only
    rw [bind_apply]
    cases simplifyNode ⟨op, width, left, right, select, name, g.currentScope⟩ g with
    | error e g' => rfl
    | ok p g' =>
        simp only
        split_ifs <;> rfl

/-- `add` only extends the graph, and the lanes it returns read what the node
computes, if it computes at all. -/
theorem add_constrains (op : Op) (width : Nat) (left right select : Value) (name : String) :
    GraphBuilds (add op width left right select name) fun w result =>
      result.length = width ∧ (op.computes = true → ∀ i < width, ∀ v,
        w.laneValue ⟨op, width, left, right, select, name, ""⟩ i = some v →
          w.look (result.getD i 0) = some v) := by
  intro g hg
  rw [add_run]
  split_ifs with hwidth
  · exact ⟨hg, Grows.refl g⟩
  have h₁ := simplifyNode_builds ⟨op, width, left, right, select, name, g.currentScope⟩ g hg
  have h₂ := simplifyNode_aliasOnly ⟨op, width, left, right, select, name, g.currentScope⟩ g
    trivial
  cases hrun : simplifyNode ⟨op, width, left, right, select, name, g.currentScope⟩ g with
  | error e g' => rw [hrun] at h₁; exact h₁
  | ok p g' =>
      obtain ⟨n, redirects⟩ := p
      rw [hrun] at h₁ h₂
      obtain ⟨hwf, hgrows, hsound⟩ := h₁
      obtain ⟨-, hsame, hsimplified⟩ := h₂
      replace hsimplified := hsimplified () trivial trivial
      have hbound : g'.bound = g.bound := by rw [hsame]; rfl
      simp only
      generalize hresult : redirectLanes ((List.range width).map (g.bound + ·)) redirects = result
      have hlen : result.length = width := by rw [← hresult, length_redirectLanes]; simp
      have hlane : ∀ i t, result[i]? = some t → t = g.bound + i ∨ (i, t) ∈ redirects := by
        intro i t ht
        rw [← hresult] at ht
        rcases getElem?_redirectLanes ht with h | h
        · rw [List.getElem?_map, Option.map_eq_some_iff] at h
          obtain ⟨j, hj, rfl⟩ := h
          obtain ⟨-, rfl⟩ := List.getElem?_eq_some_iff.mp hj
          exact .inl (by simp)
        · exact .inr h
      have hread : ∀ w, (∀ b, w.exempt b → b < g.bound) → ∀ h : Graph, Respects h w →
          Grows g' h → (∀ i v, result[i]? = some (g.bound + i) → w.laneValue n i = some v →
            w.look (g.bound + i) = some v) →
          ∀ i < width, ∀ v, w.laneValue ⟨op, width, left, right, select, name, ""⟩ i = some v →
            w.look (result.getD i 0) = some v := by
        intro w hfresh h hw hg'h hnode i hi v hv
        change w.laneValue ⟨op, width, left, right, select, name, g.currentScope⟩ i = some v at hv
        obtain ⟨hn, hredirect⟩ :=
          hsound w hfresh (hw.anti hg'h) hw.consts i hi (by omega) v hv
        have hget : result[i]? = some (result.getD i 0) := by
          rw [List.getD_eq_getElem?_getD, List.getElem?_eq_getElem (by omega)]
          rfl
        rcases hlane i _ hget with h | h
        · rw [h] at hget ⊢
          exact hnode i v hget hn
        · exact hredirect _ h
      split_ifs with hany
      · refine ⟨hwf.pushNode (by omega), hgrows.trans (hwf.grows_pushNode n result),
          fun w hfresh hw => ⟨hlen, fun hop => ?_⟩⟩
        refine hread w hfresh _ hw (hwf.grows_pushNode n result) fun i v hi hv => ?_
        have hi' : i < width := by
          obtain ⟨hlt, -⟩ := List.getElem?_eq_some_iff.mp hi
          omega
        have hnew : g.bound + i = nodeBase g'.nodes.size + i := by
          rw [← hbound]; rfl
        have halias : (g'.pushNode n result).aliases[g.bound + i]? = none := by
          rw [Graph.getElem?_pushNode, hbound, if_pos (by omega), Nat.add_sub_cancel_left, hi]
          simp only [if_true]
          exact hwf.getElem?_aliases_of_ge (by omega)
        have howner : (g'.pushNode n result).nodes[owner (g.bound + i)]? = some n := by
          rw [hnew, owner_nodeBase_add (by omega), Graph.getElem?_nodes_pushNode, if_pos rfl]
        have hlane' : lane (g.bound + i) = i := by rw [hnew, lane_nodeBase_add (by omega)]
        refine hw.node _ n v halias (fun he => ?_) ?_ howner ?_ ?_
        · have := hfresh _ he
          omega
        · unfold Graph.bound nodeBase; omega
        · rw [hlane', hsimplified.width]; exact hi'
        · rw [World.bitValue, n.bitValue_of_computes _ _ _ _ (by rw [hsimplified.computes]; exact hop),
            hlane']
          exact hv
      · refine ⟨hwf, hgrows, fun w hfresh hw => ⟨hlen, fun _ => ?_⟩⟩
        refine hread w hfresh g' hw (Grows.refl g') fun i v hi _ => ?_
        -- no lane is left to itself here
        refine absurd (List.any_eq_true.mpr ⟨_, List.mem_of_getElem? hi, ?_⟩) hany
        obtain ⟨hlt, -⟩ := List.getElem?_eq_some_iff.mp hi
        simp only [decide_eq_true_eq]
        omega

theorem add_builds (op : Op) (hop : op.computes = true) (width : Nat)
    (left right select : Value) (name : String) :
    GraphBuilds (add op width left right select name) fun w result =>
      result.length = width ∧ ∀ i < width, ∀ v,
        w.laneValue ⟨op, width, left, right, select, name, ""⟩ i = some v →
          w.look (result.getD i 0) = some v :=
  (add_constrains op width left right select name).mono fun _ _ h => ⟨h.1, h.2 hop⟩

end CppHdl
