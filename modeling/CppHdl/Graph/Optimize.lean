import CppHdl.Graph.Sharing
import CppHdl.Graph.Total

/-!
# Simplifying a whole graph

`optimize` rewrites nodes in place: operands are resolved, a power of two is
expanded, redirected lanes become aliases, and at last nodes with one key
share a producer. A graph rewritten from another one is justified valuation by
valuation: whatever respects the new graph respects the old one. As the
evaluation of the new graph is such a valuation, no value is lost or changed.

An alias replaces the definition a node gave its lane, so a graph must know
why its aliases are there. Sharing sends a lane to the lane of an earlier
node, whose own alias must therefore be justified without the later node: by
the other aliases and by the nodes up to its own.
-/

namespace CppHdl

open Failing

/-! ## Nodes that read alike -/

/-- `m` is the operation of `n` on operands that read alike. -/
structure World.Alike (w : World) (n m : Node) : Prop where
  op : m.op = n.op
  width : m.width = n.width
  name : n.op = .blackbox → m.name = n.name
  left : m.left.map w.look = n.left.map w.look
  right : m.right.map w.look = n.right.map w.look
  select : m.select.map w.look = n.select.map w.look
  /-- A projection names the host call itself, not a bit to read. -/
  projection : n.op = .hostDebugOutput → m.left = n.left ∧ m.select = n.select

namespace World.Alike

variable {w : World} {n m k : Node}

theorem refl (n : Node) : w.Alike n n :=
  ⟨rfl, rfl, fun _ => rfl, rfl, rfl, rfl, fun _ => ⟨rfl, rfl⟩⟩

theorem trans (hnm : w.Alike n m) (hmk : w.Alike m k) : w.Alike n k where
  op := hmk.op.trans hnm.op
  width := hmk.width.trans hnm.width
  name h := (hmk.name (hnm.op.trans h)).trans (hnm.name h)
  left := hmk.left.trans hnm.left
  right := hmk.right.trans hnm.right
  select := hmk.select.trans hnm.select
  projection h :=
    have hm := hmk.projection (hnm.op.trans h)
    have hn := hnm.projection h
    ⟨hm.1.trans hn.1, hm.2.trans hn.2⟩

theorem laneValue_eq (h : w.Alike n m) (i : Nat) : w.laneValue m i = w.laneValue n i :=
  w.laneValue_eq_of_map_eq h.op h.width h.name h.left h.right h.select i

theorem bitValue_eq (h : w.Alike n m) (b : Nat) : w.bitValue m b = w.bitValue n b := by
  have hlane := h.laneValue_eq (lane b)
  unfold World.laneValue at hlane
  unfold World.bitValue Node.bitValue
  rw [h.op, hlane]
  cases hn : n.op <;> try rfl
  case hostDebugOutput => rw [(h.projection hn).1, (h.projection hn).2]

/-- A lane of a node that may be shared is the same wherever the node is. -/
theorem bitValue_eq_of_lane (h : w.Alike n m) (hshare : n.shareable = true) {b c : Nat}
    (hlane : lane b = lane c) : w.bitValue m b = w.bitValue n c := by
  rw [h.bitValue_eq]
  unfold Node.shareable Node.hostEffect Node.validation at hshare
  unfold World.bitValue Node.bitValue
  rw [hlane]
  cases hn : n.op <;> rw [hn] at hshare <;>
    first | rfl | simp [Op.hostEffect, Op.validation] at hshare

end World.Alike

/-! ## Forms of a node -/

/-- Operations a power of two turns into wiring. -/
def Op.expands (op : Op) : Prop := op = .div ∨ op = .mod ∨ op = .mul

/-- A rewriting of nodes: expansion while nodes are simplified, nothing while
they are shared. -/
structure RewriteForm (form : Node → Node) : Prop where
  width : ∀ n, (form n).width = n.width
  cases : ∀ n, form n = n ∨ n.op.expands ∧ (form n).op = .and
  sound : ∀ (w : World) (n : Node) (b : Nat) (v : Bool), w.Consts → lane b < n.width →
    w.bitValue n b = some v → w.bitValue (form n) b = some v

theorem rewriteForm_id : RewriteForm id :=
  ⟨fun _ => rfl, fun _ => .inl rfl, fun _ _ _ _ _ _ h => h⟩

theorem Node.expandPower_cases (n : Node) :
    n.expandPower = n ∨ n.op.expands ∧ n.expandPower.op = .and := by
  unfold Node.expandPower
  split_ifs with hop
  · cases n.powerOperand with
    | none => exact .inl rfl
    | some p => exact .inr ⟨hop, rfl⟩
  · exact .inl rfl

theorem Op.computes_of_expands {op : Op} (h : op.expands) : op.computes = true := by
  rcases h with rfl | rfl | rfl <;> rfl

theorem rewriteForm_expandPower : RewriteForm Node.expandPower where
  width := Node.expandPower_width
  cases := Node.expandPower_cases
  sound w n b v hw hlane hv := by
    rcases n.expandPower_cases with h | ⟨hop, hand⟩
    · rw [h]
      exact hv
    · have hcomputes := Op.computes_of_expands hop
      rw [World.bitValue, n.bitValue_of_computes _ _ _ _ hcomputes] at hv
      rw [World.bitValue, n.expandPower.bitValue_of_computes _ _ _ _ (by rw [hand]; rfl)]
      exact Node.expandPower_sound hw hlane (lane_lt b) hv

namespace RewriteForm

variable {form : Node → Node}

theorem shareable (hform : RewriteForm form) (n : Node) : (form n).shareable = n.shareable := by
  rcases hform.cases n with h | ⟨hop, hand⟩
  · rw [h]
  · unfold Node.shareable Node.hostEffect Node.validation
    rw [hand]
    rcases hop with h | h | h <;> rw [h] <;> rfl

theorem plain (hform : RewriteForm form) {n : Node} (hn : n.Plain) : (form n).Plain := by
  rcases hform.cases n with h | ⟨-, hand⟩
  · rw [h]
    exact hn
  · refine ⟨?_, ?_, fun hbox => ?_⟩
    · rw [hand]; decide
    · rw [hand]; exact ⟨'a', by decide, by decide⟩
    · rw [hand] at hbox; cases hbox

/-- Whatever reads like a rewritten node is the rewriting of a node that reads
like the original. -/
theorem alike (hform : RewriteForm form) {w : World} {n m : Node} (h : w.Alike (form n) m) :
    ∃ k, w.Alike n k ∧ ∀ b, w.bitValue (form m) b = w.bitValue (form k) b := by
  rcases hform.cases n with hn | ⟨-, hand⟩
  · rw [hn] at h
    exact ⟨m, h, fun _ => rfl⟩
  · refine ⟨n, World.Alike.refl n, fun b => ?_⟩
    have hm : form m = m := by
      rcases hform.cases m with hm | ⟨hop, -⟩
      · exact hm
      · rw [Op.expands, h.op, hand] at hop
        simp at hop
    rw [hm, h.bitValue_eq]

end RewriteForm

/-! ## Justified aliases -/

/-- The world frees an end segment of the nodes from their definitions. -/
def World.Prefix (w : World) : Prop :=
  ∀ c d : Nat, w.exempt c → owner c ≤ owner d → w.exempt d

/-- An alias of an operator's lane reads what the operator computes, in its
form and on operands that read alike, and that without any later node. -/
def Graph.Justified (form : Node → Node) (g : Graph) : Prop :=
  ∀ (b t : Nat) (n : Node), g.aliases[b]? = some t → g.nodes[owner b]? = some n →
    lane b < n.width → n.shareable = true →
    ∀ w : World, w.Prefix → Respects g w → ¬ w.exempt b →
      ∀ m, w.Alike n m → ∀ v, w.bitValue (form m) b = some v → w.look b = some v

/-- The operands of a projection of a host call are constants and the lanes of
that call, which nothing else drives. -/
def Graph.Projects (g : Graph) : Prop :=
  ∀ (i : Nat) (n : Node), g.nodes[i]? = some n → n.op = .hostDebugOutput →
    ∀ b ∈ n.left ++ n.select, b < 2 ∨ 66 ≤ b ∧ g.aliases[b]? = none ∧
      ∃ m, g.nodes[owner b]? = some m ∧ m.op = .hostDebugTick

/-- The graphs whose nodes may be rewritten and shared. -/
structure Graph.Sharable (form : Node → Node) (g : Graph) : Prop where
  wf : g.Wf
  width : ∀ (i : Nat) (n : Node), g.nodes[i]? = some n → 0 < n.width ∧ n.width ≤ 64
  plain : ∀ (i : Nat) (n : Node), g.nodes[i]? = some n → n.shareable = true → n.Plain
  projects : g.Projects
  justified : g.Justified form

/-- Whatever respects the rewritten graph `h` respects `g`. -/
structure Rewrites (g h : Graph) : Prop where
  respects : ∀ w : World, w.Prefix → Respects h w → Respects g w
  size : h.nodes.size = g.nodes.size
  rest : h = { g with nodes := h.nodes, aliases := h.aliases }

namespace Rewrites

theorem refl (g : Graph) : Rewrites g g := ⟨fun _ _ h => h, rfl, rfl⟩

theorem trans {g h k : Graph} (hgh : Rewrites g h) (hhk : Rewrites h k) : Rewrites g k where
  respects w hw hk := hgh.respects w hw (hhk.respects w hw hk)
  size := hhk.size.trans hgh.size
  rest := by rw [hhk.rest, hgh.rest]

theorem value_below {g h : Graph} (hgh : Rewrites g h) (hh : h.Wf) (P : Primitives) (env : Env) :
    Below (g.value P env) (h.value P env) :=
  have hnone : ∀ b, ¬ (h.world P env).exempt b := fun _ hb => hb.elim
  (hgh.respects _ (fun c _ hc => absurd hc (hnone c)) (hh.respects_world P env)).value_below hnone

end Rewrites

/-- Simplification leaves a graph that can be shared. -/
theorem Graph.Sharable.of_form {form : Node → Node} (hform : RewriteForm form) {g : Graph}
    (hg : g.Sharable form) : g.Sharable id where
  wf := hg.wf
  width := hg.width
  plain := hg.plain
  projects := hg.projects
  justified b t n halias hn hlane hshare w hw hgw hexempt m hm v hv :=
    hg.justified b t n halias hn hlane hshare w hw hgw hexempt m hm v
      (hform.sound w m b v hgw.consts (by rw [hm.width]; exact hlane) hv)

namespace Graph

variable {form : Node → Node} {g : Graph}

/-! ## The three steps -/

/-- Resolution changes nothing but the way to the roots. -/
theorem Sharable.compress (hg : g.Sharable form) {h : Graph} (hh : h.Wf) (hgrows : Grows g h)
    (hsame : h = { g with aliases := h.aliases }) : h.Sharable form ∧ Rewrites g h := by
  have hnodes : h.nodes = g.nodes := by rw [hsame]
  refine ⟨⟨hh, ?_, ?_, ?_, ?_⟩, ⟨fun w _ hw => hw.anti hgrows, by rw [hnodes], by rw [hsame]⟩⟩
  · rw [hnodes]; exact hg.width
  · rw [hnodes]; exact hg.plain
  · intro i n hn hop b hb
    rw [hnodes] at hn ⊢
    refine (hg.projects i n hn hop b hb).imp id fun ⟨h66, hfree, m, hm, htick⟩ => ?_
    exact ⟨h66, hgrows.free b (lt_bound_of_owned h66 hm) hfree, m, hm, htick⟩
  · intro b t n halias hn hlane hshare w hinitial hw
    rw [hnodes] at hn
    cases hold : g.aliases[b]? with
    | some t' => exact hg.justified b t' n hold hn hlane hshare w hinitial (hw.anti hgrows)
    | none =>
        have := hgrows.free b (lt_bound_of_owned (hh b t halias).1 hn) hold
        rw [halias] at this
        cases this

/-- `k` is the node `n` on resolved operands. -/
structure ResolvedNode (g : Graph) (n k : Node) : Prop where
  op : k.op = n.op
  width : k.width = n.width
  name : k.name = n.name
  left : ∀ look, g.Equates look → k.left.map look = n.left.map look
  right : ∀ look, g.Equates look → k.right.map look = n.right.map look
  select : ∀ look, g.Equates look → k.select.map look = n.select.map look
  projection : n.op = .hostDebugOutput → k.left = n.left ∧ k.select = n.select

theorem ResolvedNode.alike {n k : Node} (hk : g.ResolvedNode n k) {w : World}
    (hw : g.Equates w.look) : w.Alike n k :=
  ⟨hk.op, hk.width, fun _ => hk.name, hk.left _ hw, hk.right _ hw, hk.select _ hw, hk.projection⟩

theorem getElem?_setNode {i j : Nat} {n m : Node} (hn : g.nodes[i]? = some n) :
    (g.nodes.setIfInBounds i m)[j]? = if j = i then some m else g.nodes[j]? := by
  have hi := owner_lt_size hn
  by_cases hj : j = i
  · subst hj
    simp [hi]
  · rw [if_neg hj, Array.getElem?_setIfInBounds_ne (Ne.symm hj)]

theorem Sharable.replace (hform : RewriteForm form) (hg : g.Sharable form) {i : Nat}
    {n k : Node} (hn : g.nodes[i]? = some n) (hk : g.ResolvedNode n k) :
    ({ g with nodes := g.nodes.setIfInBounds i (form k) } : Graph).Sharable form ∧
      Rewrites g { g with nodes := g.nodes.setIfInBounds i (form k) } := by
  generalize hh : ({ g with nodes := g.nodes.setIfInBounds i (form k) } : Graph) = h
  have hget : ∀ j, h.nodes[j]? = if j = i then some (form k) else g.nodes[j]? := by
    rw [← hh]
    exact fun j => getElem?_setNode hn
  have haliases : h.aliases = g.aliases := by rw [← hh]
  have hsize : h.nodes.size = g.nodes.size := by rw [← hh]; exact Array.size_setIfInBounds
  have hwidth : (form k).width = n.width := (hform.width k).trans hk.width
  have hshareable : (form k).shareable = n.shareable := by
    rw [hform.shareable]
    unfold Node.shareable Node.hostEffect Node.validation
    rw [hk.op]
  have hequates : ∀ w, Respects h w → g.Equates w.look := fun w hw b s hs =>
    hw.aliased b s (by rw [haliases, hs])
  -- what a node of the new graph was
  have hold : ∀ {j : Nat} {m : Node}, h.nodes[j]? = some m → j = i ∧ m = form k ∨ g.nodes[j]? = some m := by
    intro j m hm
    rw [hget] at hm
    split_ifs at hm with hj
    · exact .inl ⟨hj, (Option.some.inj hm).symm⟩
    · exact .inr hm
  have hrespects : ∀ w : World, w.Prefix → Respects h w → Respects g w := by
    intro w _ hw
    refine ⟨by rw [hw.memories, ← hh], hw.zero, hw.one, hequates w hw, ?_⟩
    intro b m v halias hexempt hb hm hlane hv
    rw [← haliases] at halias
    by_cases hi : owner b = i
    · rw [hi, hn] at hm
      obtain rfl := Option.some.inj hm
      refine hw.node b (form k) v halias hexempt hb (by rw [hget, if_pos hi])
        (by rw [hwidth]; exact hlane) ?_
      rw [← (hk.alike (hequates w hw)).bitValue_eq] at hv
      exact hform.sound w k b v hw.consts (by rw [hk.width]; exact hlane) hv
    · exact hw.node b m v halias hexempt hb (by rw [hget, if_neg hi, hm]) hlane hv
  refine ⟨⟨?_, ?_, ?_, ?_, ?_⟩, ⟨hrespects, hsize, by rw [← hh]⟩⟩
  · intro b s hs
    rw [haliases] at hs
    unfold bound
    rw [hsize]
    exact hg.wf b s hs
  · intro j m hm
    rcases hold hm with ⟨-, rfl⟩ | hm
    · rw [hwidth]
      exact hg.width i n hn
    · exact hg.width j m hm
  · intro j m hm hshare
    rcases hold hm with ⟨-, rfl⟩ | hm
    · rw [hshareable] at hshare
      have hplain := hg.plain i n hn hshare
      refine hform.plain ⟨?_, ?_, fun hbox => ?_⟩
      · rw [hk.op]; exact hplain.text
      · rw [hk.op]; exact hplain.letter
      · rw [hk.name]; exact hplain.name (hk.op ▸ hbox)
    · exact hg.plain j m hm hshare
  · -- host calls and their projections keep their operation
    have hsame : ∀ {j : Nat} {m : Node}, h.nodes[j]? = some m → m.op = .hostDebugOutput →
        ∃ m' : Node, g.nodes[j]? = some m' ∧ m'.op = .hostDebugOutput ∧
          m.left = m'.left ∧ m.select = m'.select := by
      intro j m hm hop
      rcases hold hm with ⟨rfl, rfl⟩ | hm
      · rcases hform.cases k with heq | ⟨-, hand⟩
        · rw [heq, hk.op] at hop
          rw [heq]
          exact ⟨n, hn, hop, hk.projection hop⟩
        · rw [hand] at hop
          cases hop
      · exact ⟨m, hm, hop, rfl, rfl⟩
    intro j m hm hop b hb
    obtain ⟨m', hm', hop', hleft, hselect⟩ := hsame hm hop
    rw [hleft, hselect] at hb
    refine (hg.projects j m' hm' hop' b hb).imp id fun ⟨h66, hfree, tick, htick, heq⟩ => ?_
    refine ⟨h66, by rw [haliases]; exact hfree, ?_⟩
    by_cases hi : owner b = i
    · rw [hi, hn] at htick
      obtain rfl := Option.some.inj htick
      refine ⟨form k, by rw [hget, if_pos hi], ?_⟩
      rcases hform.cases k with hsame | ⟨hop, -⟩
      · rw [hsame, hk.op, heq]
      · rw [Op.expands, hk.op, heq] at hop
        simp at hop
    · exact ⟨tick, by rw [hget, if_neg hi, htick], heq⟩
  · intro b t m halias hm hlane hshare w hinitial hw hexempt m' hm' v hv
    rw [haliases] at halias
    have hgw := hrespects w hinitial hw
    rcases hold hm with ⟨hi, rfl⟩ | hm
    · rw [← hi] at hn
      obtain ⟨k', hk', heq⟩ := hform.alike hm'
      rw [heq] at hv
      exact hg.justified b t n halias hn (by rw [← hwidth]; exact hlane)
        (by rw [← hshareable]; exact hshare) w hinitial hgw hexempt k'
        ((hk.alike (hequates w hw)).trans hk') v hv
    · exact hg.justified b t m halias hm hlane hshare w hinitial hgw hexempt m' hm' v hv

/-- Aliasing a free lane to a bit that reads what the node computes. -/
theorem Sharable.redirect (hform : RewriteForm form) (hg : g.Sharable form) {b t : Nat}
    {n : Node} (hb : 66 ≤ b) (hfree : g.aliases[b]? = none) (hn : g.nodes[owner b]? = some n)
    (hlane : lane b < n.width) (htick : n.op ≠ .hostDebugTick)
    (hreads : ∀ w : World, w.Prefix → Respects { g with aliases := g.aliases.insert b t } w →
      ¬ w.exempt b → ∀ m, w.Alike n m → ∀ v, w.bitValue (form m) b = some v → w.look t = some v) :
    ({ g with aliases := g.aliases.insert b t } : Graph).Sharable form ∧
      Rewrites g { g with aliases := g.aliases.insert b t } := by
  generalize hh : ({ g with aliases := g.aliases.insert b t } : Graph) = h at hreads ⊢
  have hnodes : h.nodes = g.nodes := by rw [← hh]
  have hget : ∀ c : Nat, h.aliases[c]? = if c = b then some t else g.aliases[c]? := by
    intro c
    rw [← hh, Std.ExtTreeMap.getElem?_insert]
    by_cases hc : c = b
    · simp [hc]
    · simp [hc, Ne.symm hc]
  have hrespects : ∀ w : World, w.Prefix → Respects h w → Respects g w := by
    intro w hinitial hw
    refine ⟨by rw [hw.memories, ← hh], hw.zero, hw.one, fun c s hs => ?_, ?_⟩
    · refine hw.aliased c s ?_
      rw [hget, if_neg, hs]
      rintro rfl
      rw [hfree] at hs
      cases hs
    · intro c m v halias hexempt h66 hm hlane' hv
      by_cases hc : c = b
      · subst hc
        rw [hn] at hm
        obtain rfl := Option.some.inj hm
        rw [hw.aliased c t (by rw [hget, if_pos rfl])]
        exact hreads w hinitial hw hexempt n (World.Alike.refl n) v
          (hform.sound w n c v hw.consts hlane hv)
      · exact hw.node c m v (by rw [hget, if_neg hc, halias]) hexempt h66
          (by rw [hnodes, hm]) hlane' hv
  refine ⟨⟨?_, ?_, ?_, ?_, ?_⟩, ⟨hrespects, by rw [hnodes], by rw [← hh]⟩⟩
  · intro c s hs
    unfold bound
    rw [hnodes]
    rw [hget] at hs
    split_ifs at hs with hc
    · rw [hc]
      exact ⟨hb, lt_bound_of_owned hb hn⟩
    · exact hg.wf c s hs
  · rw [hnodes]; exact hg.width
  · rw [hnodes]; exact hg.plain
  · intro i m hm hop c hc
    rw [hnodes] at hm ⊢
    refine (hg.projects i m hm hop c hc).imp id fun ⟨h66, hc, tick, htick', heq⟩ => ?_
    refine ⟨h66, ?_, tick, htick', heq⟩
    rw [hget, if_neg, hc]
    rintro rfl
    rw [hn] at htick'
    exact htick (Option.some.inj htick' ▸ heq)
  · intro c s m halias hm hlane' hshare w hinitial hw hexempt m' hm' v hv
    rw [hnodes] at hm
    rw [hget] at halias
    split_ifs at halias with hc
    · subst hc
      rw [hn] at hm
      obtain rfl := Option.some.inj hm
      rw [hw.aliased c t (by rw [hget, if_pos rfl])]
      exact hreads w hinitial hw hexempt m' hm' v hv
    · exact hg.justified c s m halias hm hlane' hshare w hinitial (hrespects w hinitial hw) hexempt
        m' hm' v hv

theorem Sharable.resolveNode (hg : g.Sharable form) {i : Nat} {n : Node}
    (hn : g.nodes[i]? = some n) {left right select : Value} {g₁ g₂ h : Graph}
    (hleft : Ok (resolved n.left) g left g₁) (hright : Ok (resolved n.right) g₁ right g₂)
    (hselect : Ok (resolved n.select) g₂ select h) :
    h.Sharable form ∧ Rewrites g h ∧ h.nodes = g.nodes ∧
      h.ResolvedNode n { n with left, right, select } := by
  obtain ⟨hwf₁, ⟨hgrows₁, hsame₁⟩, hl⟩ := (resolved_equates n.left).ok hg.wf hleft
  obtain ⟨hwf₂, ⟨hgrows₂, hsame₂⟩, hr⟩ := (resolved_equates n.right).ok hwf₁ hright
  obtain ⟨hwf, ⟨hgrows₃, hsame₃⟩, hs⟩ := (resolved_equates n.select).ok hwf₂ hselect
  have hgrows := (hgrows₁.trans hgrows₂).trans hgrows₃
  have hsame : h = { g with aliases := h.aliases } := by rw [hsame₃, hsame₂, hsame₁]
  obtain ⟨hh, hrewrites⟩ := hg.compress hwf hgrows hsame
  refine ⟨hh, hrewrites, by rw [hsame], ⟨rfl, rfl, rfl, fun look hlook => ?_, fun look hlook => ?_,
    fun look hlook => hs look trivial hlook, fun hop => ?_⟩⟩
  · exact hl look trivial (hgrows₂.aliased look (hgrows₃.aliased look hlook))
  · exact hr look trivial (hgrows₃.aliased look hlook)
  · have hfree : ∀ b ∈ n.left ++ n.select, ∀ k : Graph, k.Wf → Grows g k →
        k.aliases[b]? = none := by
      intro b hb k hk hgrows
      rcases hg.projects i n hn hop b hb with hconst | ⟨h66, hb, m, hm, -⟩
      · cases hs : k.aliases[b]? with
        | none => rfl
        | some t =>
            have := (hk b t hs).1
            omega
      · exact hgrows.free b (lt_bound_of_owned h66 hm) hb
    refine ⟨(resolved_unaliased (fun b hb => ?_) hleft).1,
      (resolved_unaliased (fun b hb => ?_) hselect).1⟩
    · exact hfree b (List.mem_append_left _ hb) g hg.wf (Grows.refl g)
    · exact hfree b (List.mem_append_right _ hb) g₂ hwf₂ (hgrows₁.trans hgrows₂)

end Graph

/-! ## Simplifying one node -/

theorem simplifyNode_ok {n m : Node} {redirects : List (Nat × Nat)} {g h : Graph}
    (hrun : Ok (simplifyNode n) g (m, redirects) h) :
    ∃ (left right select : Value) (g₁ g₂ : Graph), Ok (resolved n.left) g left g₁ ∧
      Ok (resolved n.right) g₁ right g₂ ∧ Ok (resolved n.select) g₂ select h ∧
      m = ({ n with left, right, select } : Node).expandPower ∧ m.redirects = .ok redirects := by
  unfold simplifyNode at hrun
  obtain ⟨left, g₁, hleft, hrun⟩ := ok_bind.mp hrun
  obtain ⟨right, g₂, hright, hrun⟩ := ok_bind.mp hrun
  obtain ⟨select, g₃, hselect, hrun⟩ := ok_bind.mp hrun
  refine ⟨left, right, select, g₁, g₂, hleft, hright, ?_⟩
  simp only at hrun
  split at hrun
  · simp at hrun
  · rename_i redirects' hredirects
    obtain ⟨heq, rfl⟩ := ok_pure.mp hrun
    obtain ⟨rfl, rfl⟩ := Prod.mk.inj heq
    exact ⟨hselect, rfl, hredirects⟩

theorem Node.redirect_lt {n : Node} (hwidth : 0 < n.width) {redirects : List (Nat × Nat)}
    (h : n.redirects = .ok redirects) {o t : Nat} (hm : (o, t) ∈ redirects) : o < n.width := by
  have hmap : ∀ {f : Nat → Nat}, (o, t) ∈ (List.range n.width).map (fun i => (i, f i)) →
      o < n.width := by
    intro f hmem
    obtain ⟨i, hi, heq⟩ := List.mem_map.mp hmem
    rw [← (Prod.mk.inj heq).1]
    exact List.mem_range.mp hi
  have hfold : ∀ {rs : List (Nat × Nat)}, n.foldRedirects = .ok rs → (o, t) ∈ rs →
      o < n.width := by
    intro rs hrs hmem
    unfold Node.foldRedirects at hrs
    split at hrs
    · split at hrs
      · cases hrs
      · obtain rfl := Except.ok.inj hrs
        exact hmap hmem
    · exact absurd hmem (not_mem_of_ok_nil hrs)
  unfold Node.redirects at h
  split at h
  case h_1 =>
    split at h
    · split_ifs at h <;> try exact absurd hm (not_mem_of_ok_nil h)
      all_goals
        obtain rfl := Except.ok.inj h
        exact hmap hm
    · exact absurd hm (not_mem_of_ok_nil h)
  case h_9 | h_10 | h_11 | h_12 =>
    obtain rfl := Except.ok.inj h
    obtain ⟨i, hi, hbit⟩ := List.mem_filterMap.mp hm
    obtain ⟨t', -, heq⟩ := Option.map_eq_some_iff.mp hbit
    rw [← (Prod.mk.inj heq).1]
    exact List.mem_range.mp hi
  case h_13 | h_14 | h_15 =>
    obtain rfl := Except.ok.inj h
    rw [Option.mem_toList, Option.map_eq_some_iff] at hm
    obtain ⟨t', -, heq⟩ := hm
    rw [← (Prod.mk.inj heq).1]
    exact hwidth
  case h_16 | h_17 | h_18 =>
    split at h
    · obtain rfl := Except.ok.inj h
      exact hmap hm
    · exact absurd hm (not_mem_of_ok_nil h)
  case h_19 =>
    by_cases hright : n.right.isEmpty
    · rw [if_pos hright] at h
      exact absurd hm (not_mem_of_ok_nil h)
    · rw [if_neg hright] at h
      split at h
      · cases h
      · rename_i folded hfolded
        obtain rfl := Except.ok.inj h
        rcases List.mem_append.mp hm with hm | hm
        · exact hfold hfolded hm
        · split_ifs at hm with heq
          · rw [(Prod.mk.inj (List.mem_singleton.mp hm)).1]
            exact hwidth
          · cases hm
  all_goals exact absurd hm (not_mem_of_ok_nil h)

/-- A node that is redirected though a power of two could expand it has two
numbers for operands. -/
theorem Node.numbers_of_redirect {n : Node} (hop : n.op.expands) {redirects : List (Nat × Nat)}
    (h : n.redirects = .ok redirects) {p : Nat × Nat} (hm : p ∈ redirects) :
    n.foldRedirects = .ok redirects ∧ ∃ l r word, number n.left = some l ∧
      number n.right = some r ∧ calculate n.op l r n.left.length = .ok word := by
  have hfold : n.foldRedirects = .ok redirects := by
    unfold Node.redirects at h
    have hne : ¬ (n.op = .eq ∧ n.left = n.right) := by
      rintro ⟨heq, -⟩
      rw [Op.expands, heq] at hop
      simp at hop
    have hcase : (if n.right.isEmpty then .ok [] else
        n.foldRedirects.map fun folded =>
          folded ++ if n.op = .eq ∧ n.left = n.right then [(0, 1)] else []) = .ok redirects := by
      cases hfolded : n.foldRedirects <;> rw [hfolded] at h <;>
        rcases hop with hop | hop | hop <;> rw [hop] at h ⊢ <;> exact h
    rw [if_neg hne] at hcase
    split_ifs at hcase with hright
    · rw [← Except.ok.inj hcase] at hm
      cases hm
    · cases hfolded : n.foldRedirects with
      | error e =>
          rw [hfolded] at hcase
          cases hcase
      | ok folded =>
          rw [hfolded] at hcase
          rw [← hcase]
          simp [Except.map]
  refine ⟨hfold, ?_⟩
  unfold Node.foldRedirects at hfold
  split at hfold
  · rename_i l r hl hr
    split at hfold
    · cases hfold
    · rename_i word hword
      exact ⟨l, r, word, hl, hr, hword⟩
  · rw [← Except.ok.inj hfold] at hm
    cases hm

/-- A redirection stands for its lane also where the node is read through
other operands and expanded there. -/
theorem World.Alike.redirect {w : World} (hw : w.Consts) {n m : Node} (hm : w.Alike n m)
    {redirects : List (Nat × Nat)} (h : n.redirects = .ok redirects) (hwidth : 0 < n.width)
    {o t : Nat} (hmem : (o, t) ∈ redirects) (h64 : o < 64) {v : Bool}
    (hv : w.laneValue m.expandPower o = some v) : w.look t = some v := by
  have hplain : w.laneValue m o = some v → w.look t = some v := fun hv =>
    Node.redirects_sound hw h hmem h64 (by rw [← hm.laneValue_eq]; exact hv)
  rcases m.expandPower_cases with hsame | ⟨hop, -⟩
  · rw [hsame] at hv
    exact hplain hv
  · -- both operands are numbers, so the lane has a value that expansion keeps
    rw [hm.op] at hop
    obtain ⟨hfold, l, r, word, hl, hr, hword⟩ := Node.numbers_of_redirect hop h hmem
    have hlt : o < m.width := by
      rw [hm.width]
      exact Node.redirect_lt hwidth h hmem
    have hexpand : m.expandPower = m ∨
        ({ m with select := [] } : Node).expandPower = m.expandPower := by
      have hsame : ({ m with select := [] } : Node).powerOperand = m.powerOperand := rfl
      unfold Node.expandPower
      rw [hsame]
      split_ifs
      · cases m.powerOperand with
        | none => exact .inl rfl
        | some p => exact .inr rfl
      · exact .inl rfl
    rcases hexpand with hexpand | hexpand
    · rw [hexpand] at hv
      exact hplain hv
    · have harith : n.op.arithmetic = true := by rcases hop with h | h | h <;> rw [h] <;> rfl
      obtain ⟨hllen, lbits, hlbits, rfl⟩ := hw.reads_number hl
      obtain ⟨hrlen, rbits, hrbits, rfl⟩ := hw.reads_number hr
      have hn : w.laneValue { n with select := [] } o = some (word.testBit o) :=
        (World.laneValue_arithmetic (n := { n with select := [] }) harith).mpr ⟨lbits, rbits, [], word, hlbits, hrbits,
          List.Forall₂.nil, hlbits.length_eq ▸ hllen, hrbits.length_eq ▸ hrlen,
          hlbits.length_eq ▸ hword, rfl⟩
      have hm₀ : w.laneValue { m with select := [] } o = some (word.testBit o) := by
        rw [← hn]
        exact w.laneValue_eq_of_map_eq (m := { m with select := [] })
          (n := { n with select := [] }) hm.op hm.width hm.name hm.left hm.right rfl o
      have hvalue := Node.expandPower_sound (n := { m with select := [] }) hw hlt h64 hm₀
      rw [hexpand, hv] at hvalue
      rw [Option.some.inj hvalue]
      exact hw.foldRedirects_sound (n := { n with select := [] }) hfold hmem h64 hn

/-- The loop that turns redirections into aliases. -/
def redirectStep (index : Nat) (changed : Bool) (r : Nat × Nat) : GraphM Bool := do
  let target := nodeBase index + r.1
  let g ← get
  if (g.aliases[target]?).isNone ∧ target ≠ r.2 then
    set { g with aliases := g.aliases.insert target r.2 }
    pure true
  else pure changed

theorem redirectStep_ok {index : Nat} {changed changed' : Bool} {r : Nat × Nat} {g h : Graph}
    (hrun : Ok (redirectStep index changed r) g changed' h) :
    h = g ∨ g.aliases[nodeBase index + r.1]? = none ∧
      h = { g with aliases := g.aliases.insert (nodeBase index + r.1) r.2 } := by
  replace hrun := ok_get_bind.mp hrun
  rcases ok_ite.mp hrun with ⟨hcond, hinsert⟩ | ⟨-, hpure⟩
  · obtain ⟨u, g₁, hset, hpure⟩ := ok_bind.mp hinsert
    obtain rfl := ok_set.mp hset
    obtain ⟨-, rfl⟩ := ok_pure.mp hpure
    exact .inr ⟨Option.isNone_iff_eq_none.mp hcond.1, rfl⟩
  · exact .inl (ok_pure.mp hpure).2.symm

theorem simplify_ok {index : Nat} {g h : Graph} {changed : Bool}
    (hg : g.Sharable Node.expandPower) (hrun : Ok (simplify index) g changed h) :
    h.Sharable Node.expandPower ∧ Rewrites g h := by
  have hform := rewriteForm_expandPower
  unfold simplify at hrun
  replace hrun := ok_get_bind.mp hrun
  cases hn : g.nodes[index]? with
  | none => rw [hn] at hrun; simp at hrun
  | some n =>
      rw [hn] at hrun
      simp only at hrun
      obtain ⟨⟨m, redirects⟩, g₁, hsimplify, hrun⟩ := ok_bind.mp hrun
      obtain ⟨u, g₂, hset, hrun⟩ := ok_bind.mp hrun
      obtain rfl := ok_modify.mp hset
      obtain ⟨left, right, select, k₁, k₂, hleft, hright, hselect, rfl, hredirects⟩ :=
        simplifyNode_ok hsimplify
      obtain ⟨hg₁, hrewrites₁, hnodes, hresolved⟩ := hg.resolveNode hn hleft hright hselect
      have hn₁ : g₁.nodes[index]? = some n := by rw [hnodes, hn]
      obtain ⟨hg₂, hrewrites₂⟩ := hg₁.replace hform hn₁ hresolved
      generalize hm : ({ n with left, right, select } : Node).expandPower = m at *
      have hm₂ : (g₁.nodes.setIfInBounds index m)[index]? = some m := by
        rw [Graph.getElem?_setNode hn₁, if_pos rfl]
      generalize hgraph : ({ g₁ with nodes := g₁.nodes.setIfInBounds index m } : Graph) = g₂ at *
      have hnode : g₂.nodes[index]? = some m := by rw [← hgraph]; exact hm₂
      obtain ⟨hpos, h64⟩ := hg₂.width index m hnode
      -- every alias keeps the graph sound and leaves its nodes alone
      have hloop := ok_foldlM (f := redirectStep index) hrun
        (fun _ _ h => h.Sharable Node.expandPower ∧ Rewrites g₂ h ∧ h.nodes = g₂.nodes)
        ⟨hg₂, Rewrites.refl g₂, rfl⟩ fun done r b s c t hinitial ⟨hs, hrewrites, hsame⟩ hstep => by
          rcases redirectStep_ok hstep with rfl | ⟨hfree, rfl⟩
          · exact ⟨hs, hrewrites, hsame⟩
          · have hmem : (r.1, r.2) ∈ redirects := hinitial.subset (by simp)
            have hlt := Node.redirect_lt hpos hredirects hmem
            have howner : owner (nodeBase index + r.1) = index := owner_nodeBase_add (by omega)
            have hlane : lane (nodeBase index + r.1) = r.1 := lane_nodeBase_add (by omega)
            have hcomputes := Node.computes_of_redirect hredirects hmem
            obtain ⟨ht, hrewrites'⟩ := hs.redirect hform (by unfold nodeBase; omega) hfree
              (by rw [howner, hsame, hnode]) (by rw [hlane]; exact hlt)
              (fun htick => by rw [htick] at hcomputes; cases hcomputes)
              (t := r.2) fun w _ hw _ m' hm' v hv => by
                have hcomputes' : m'.expandPower.op.computes = true := by
                  rw [Node.expandPower_computes, hm'.op, hcomputes]
                rw [World.bitValue, m'.expandPower.bitValue_of_computes _ _ _ _ hcomputes',
                  hlane] at hv
                exact hm'.redirect hw.consts hredirects hpos hmem (by omega) hv
            exact ⟨ht, hrewrites.trans hrewrites', hsame⟩
      exact ⟨hloop.1, (hrewrites₁.trans hrewrites₂).trans hloop.2.1⟩

theorem simplifyRound_ok {g h : Graph} {changed : Bool} (hg : g.Sharable Node.expandPower)
    (hrun : Ok simplifyRound g changed h) : h.Sharable Node.expandPower ∧ Rewrites g h := by
  replace hrun := ok_get_bind.mp hrun
  refine ok_foldlM hrun
    (fun _ _ h => h.Sharable Node.expandPower ∧ Rewrites g h) ⟨hg, Rewrites.refl g⟩ fun done index b s c t _ ⟨hs, hrewrites⟩ hstep => ?_
  obtain ⟨b', s', hsimplify, hpure⟩ := ok_bind.mp hstep
  obtain ⟨-, rfl⟩ := ok_pure.mp hpure
  obtain ⟨ht, hrewrites'⟩ := simplify_ok hs hsimplify
  exact ⟨ht, hrewrites.trans hrewrites'⟩

theorem simplifyRounds_ok {rounds : Nat} {g h : Graph} (hg : g.Sharable Node.expandPower)
    (hrun : Ok (simplifyRounds rounds) g () h) : h.Sharable Node.expandPower ∧ Rewrites g h := by
  induction rounds generalizing g with
  | zero =>
      obtain ⟨-, rfl⟩ := ok_pure.mp hrun
      exact ⟨hg, Rewrites.refl g⟩
  | succ rounds ih =>
      unfold simplifyRounds at hrun
      obtain ⟨changed, g', hround, hrun⟩ := ok_bind.mp hrun
      obtain ⟨hg', hrewrites⟩ := simplifyRound_ok hg hround
      rcases ok_ite.mp hrun with ⟨-, hrun⟩ | ⟨-, hrun⟩
      · obtain ⟨-, rfl⟩ := ok_pure.mp hrun
        exact ⟨hg', hrewrites⟩
      · rcases ok_ite.mp hrun with ⟨-, hrun⟩ | ⟨-, hrun⟩
        · simp at hrun
        · obtain ⟨hh, hrewrites'⟩ := ih hg' hrun
          exact ⟨hh, hrewrites.trans hrewrites'⟩

/-! ## Sharing -/

/-- Every entry of the sharing table is an earlier node with its key. -/
def SharedBelow (g : Graph) (shared : Std.ExtTreeMap String Nat) (bound : Nat) : Prop :=
  ∀ (key : String) (entry : Nat), shared[key]? = some entry → entry < bound ∧
    ∃ n, g.nodes[entry]? = some n ∧ n.shareable = true ∧ n.shareKey = key

/-- A lane of a node reads like the lane of an earlier node with its key. -/
theorem Graph.Sharable.share_reads {g : Graph} (hg : g.Sharable id) {index entry : Nat}
    {n e : Node} (hn : g.nodes[index]? = some n) (he : g.nodes[entry]? = some e)
    (hshare : n.shareable = true) (hshare' : e.shareable = true) (hkey : e.shareKey = n.shareKey)
    (hlt : entry < index) {offset : Nat} (hoffset : offset < n.width)
    (hfree : g.aliases[nodeBase index + offset]? = none) {w : World} (hinitial : w.Prefix)
    (hw : Respects
      { g with aliases := g.aliases.insert (nodeBase index + offset) (nodeBase entry + offset) } w)
    (hexempt : ¬ w.exempt (nodeBase index + offset)) {m : Node} (hm : w.Alike n m) {v : Bool}
    (hv : w.bitValue m (nodeBase index + offset) = some v) :
    w.look (nodeBase entry + offset) = some v := by
  obtain ⟨-, h64⟩ := hg.width index n hn
  obtain ⟨-, hop, hwidth, hname, hleft, hright, hselect⟩ :=
    Node.shareKey_inj (hg.plain entry e he hshare') (hg.plain index n hn hshare) hkey
  have howner : owner (nodeBase index + offset) = index := owner_nodeBase_add (by omega)
  have howner' : owner (nodeBase entry + offset) = entry := owner_nodeBase_add (by omega)
  have hlane : lane (nodeBase entry + offset) = offset := lane_nodeBase_add (by omega)
  have hne : nodeBase entry + offset ≠ nodeBase index + offset := by unfold nodeBase; omega
  have hem : w.Alike e m := by
    refine ⟨hm.op.trans hop.symm, hm.width.trans hwidth.symm, fun hbox => ?_, ?_, ?_, ?_,
      fun hproj => ?_⟩
    · rw [hm.name (hop ▸ hbox), hname hbox]
    · rw [hm.left, hleft]
    · rw [hm.right, hright]
    · rw [hm.select, hselect]
    · rw [hleft, hselect]
      exact hm.projection (hop ▸ hproj)
  have hve : w.bitValue m (nodeBase entry + offset) = some v := by
    rw [← hv, hm.bitValue_eq_of_lane hshare (c := nodeBase index + offset)
      (by rw [hlane, lane_nodeBase_add (by omega)]), hm.bitValue_eq]
  have halias : ∀ c : Nat, c ≠ nodeBase index + offset →
      (g.aliases.insert (nodeBase index + offset) (nodeBase entry + offset))[c]? =
        g.aliases[c]? := by
    intro c hc
    rw [Std.ExtTreeMap.getElem?_insert]
    simp [Ne.symm hc]
  -- the entry is held to its definition
  have hexempt' : ¬ w.exempt (nodeBase entry + offset) := fun h =>
    hexempt (hinitial _ _ h (by rw [howner, howner']; omega))
  cases ht : g.aliases[nodeBase entry + offset]? with
  | none =>
      rw [hem.bitValue_eq] at hve
      exact hw.node _ e v (by rw [halias _ hne, ht]) hexempt' (by unfold nodeBase; omega)
        (by rw [howner', he]) (by rw [hlane, hwidth]; exact hoffset) hve
  | some t =>
      -- its alias is justified without the node that is shared
      let free : World := { w with exempt := fun c => w.exempt c ∨ index ≤ owner c }
      have hfreed : Respects g free := by
        refine ⟨hw.memories, hw.zero, hw.one, fun c s hs => hw.aliased c s ?_, ?_⟩
        · rw [halias c, hs]
          rintro rfl
          rw [hfree] at hs
          cases hs
        · intro c m' v' hc hexempt'' h66 hm' hlane' hv'
          refine hw.node c m' v' ?_ (fun h => hexempt'' (.inl h)) h66 hm' hlane' hv'
          rw [halias c, hc]
          rintro rfl
          exact hexempt'' (.inr (by rw [howner]))
      refine hg.justified _ t e ht (by rw [howner', he]) (by rw [hlane, hwidth]; exact hoffset)
        hshare' free (fun c d hc hcd => ?_) hfreed ?_ m
        ⟨hem.op, hem.width, hem.name, hem.left, hem.right, hem.select, hem.projection⟩ v hve
      · exact hc.imp (hinitial c d · hcd) fun h => h.trans hcd
      · rintro (h | h)
        · exact hexempt' h
        · rw [howner'] at h
          omega

/-- Sending the free lanes of a node to an earlier node with its key. -/
theorem Graph.Sharable.shareLanes {g : Graph} (hg : g.Sharable id) {index entry : Nat}
    {n e : Node} (hn : g.nodes[index]? = some n) (he : g.nodes[entry]? = some e)
    (hshare : n.shareable = true) (hshare' : e.shareable = true) (hkey : e.shareKey = n.shareKey)
    (hlt : entry < index) :
    (g.shareLanes index entry n.width).Sharable id ∧
      Rewrites g (g.shareLanes index entry n.width) := by
  have main : ∀ (offsets : List Nat), (∀ o ∈ offsets, o < n.width) → ∀ h : Graph,
      h.Sharable id → h.nodes = g.nodes →
        ({ h with aliases := offsets.foldl (fun m offset =>
            if (m[nodeBase index + offset]?).isSome then m
            else m.insert (nodeBase index + offset) (nodeBase entry + offset)) h.aliases } :
          Graph).Sharable id ∧
        Rewrites h { h with aliases := offsets.foldl (fun m offset =>
            if (m[nodeBase index + offset]?).isSome then m
            else m.insert (nodeBase index + offset) (nodeBase entry + offset)) h.aliases } := by
    intro offsets
    induction offsets with
    | nil => exact fun _ h hh _ => ⟨hh, Rewrites.refl h⟩
    | cons offset offsets ih =>
        intro hoffsets h hh hnodes
        rw [List.foldl_cons]
        have htail := fun o ho => hoffsets o (List.mem_cons_of_mem _ ho)
        by_cases hsome : (h.aliases[nodeBase index + offset]?).isSome
        · rw [if_pos hsome]
          exact ih htail h hh hnodes
        · rw [if_neg hsome]
          have hfree := Option.not_isSome_iff_eq_none.mp hsome
          have hoffset := hoffsets offset List.mem_cons_self
          obtain ⟨-, h64⟩ := hg.width index n hn
          have hn' : h.nodes[index]? = some n := by rw [hnodes, hn]
          have howner : owner (nodeBase index + offset) = index := owner_nodeBase_add (by omega)
          obtain ⟨hh', hrewrites⟩ := hh.redirect rewriteForm_id
            (t := nodeBase entry + offset) (by unfold nodeBase; omega) hfree
            (by rw [howner, hn']) (by rw [lane_nodeBase_add (by omega)]; exact hoffset)
            (fun htick => by
              unfold Node.shareable Node.hostEffect at hshare
              rw [htick] at hshare
              simp [Op.hostEffect] at hshare)
            fun w hinitial hw hexempt m hm v hv =>
              hh.share_reads hn' (by rw [hnodes, he]) hshare hshare' hkey hlt hoffset hfree
                hinitial hw hexempt hm hv
          obtain ⟨hlast, hrewrites'⟩ := ih htail _ hh' hnodes
          exact ⟨hlast, hrewrites.trans hrewrites'⟩
  exact main (List.range n.width) (fun o ho => List.mem_range.mp ho) g hg rfl

theorem shareNode_ok {g h : Graph} {shared shared' : Std.ExtTreeMap String Nat} {index : Nat}
    (hg : g.Sharable id) (hshared : SharedBelow g shared index)
    (hrun : Ok (shareNode shared index) g shared' h) :
    h.Sharable id ∧ Rewrites g h ∧ SharedBelow h shared' (index + 1) := by
  replace hrun := ok_get_bind.mp hrun
  cases hn : g.nodes[index]? with
  | none => rw [hn] at hrun; simp at hrun
  | some n =>
      rw [hn] at hrun
      simp only at hrun
      rcases ok_ite.mp hrun with ⟨-, hrun⟩ | ⟨hshare, hrun⟩
      · obtain ⟨rfl, rfl⟩ := ok_pure.mp hrun
        exact ⟨hg, Rewrites.refl g, fun key entry hentry =>
          ⟨by have := (hshared key entry hentry).1; omega, (hshared key entry hentry).2⟩⟩
      · obtain ⟨left, g₁, hleft, hrun⟩ := ok_bind.mp hrun
        obtain ⟨right, g₂, hright, hrun⟩ := ok_bind.mp hrun
        obtain ⟨select, g₃, hselect, hrun⟩ := ok_bind.mp hrun
        obtain ⟨u, g₄, hset, hrun⟩ := ok_bind.mp hrun
        obtain rfl := ok_modify.mp hset
        obtain ⟨hg₃, hrewrites₃, hnodes, hresolved⟩ := hg.resolveNode hn hleft hright hselect
        have hn₃ : g₃.nodes[index]? = some n := by rw [hnodes, hn]
        obtain ⟨hg₄, hrewrites₄⟩ := hg₃.replace rewriteForm_id hn₃ hresolved
        simp only [id_eq] at hg₄ hrewrites₄
        generalize hm : ({ n with left, right, select } : Node) = m at *
        have hshare' : m.shareable = true := by
          rw [show m.shareable = n.shareable by rw [← hm]; rfl]
          simpa only [Bool.not_eq_true', Bool.not_eq_false] using hshare
        have hwidth : m.width = n.width := by rw [← hm]
        generalize hgraph : ({ g₃ with nodes := g₃.nodes.setIfInBounds index m } : Graph) = g₄ at *
        have hget : ∀ j, g₄.nodes[j]? = if j = index then some m else g₃.nodes[j]? := by
          rw [← hgraph]
          exact fun j => Graph.getElem?_setNode hn₃
        -- earlier nodes are still what the table says
        have hold : ∀ (key : String) (entry : Nat), shared[key]? = some entry →
            entry < index ∧ ∃ e, g₄.nodes[entry]? = some e ∧ e.shareable = true ∧
              e.shareKey = key := by
          intro key entry hentry
          obtain ⟨hlt, e, he, hes, hek⟩ := hshared key entry hentry
          exact ⟨hlt, e, by rw [hget, if_neg (by omega), hnodes, he], hes, hek⟩
        cases hentry : shared[m.shareKey]? with
        | none =>
            rw [hentry] at hrun
            obtain ⟨rfl, rfl⟩ := ok_pure.mp hrun
            refine ⟨hg₄, hrewrites₃.trans hrewrites₄, fun key entry hkey => ?_⟩
            rw [Std.ExtTreeMap.getElem?_insert] at hkey
            split_ifs at hkey with hcompare
            · obtain rfl := Option.some.inj hkey
              exact ⟨by omega, m, by rw [hget, if_pos rfl], hshare', by
                rwa [Std.LawfulEqCmp.compare_eq_iff_eq] at hcompare⟩
            · obtain ⟨hlt, hrest⟩ := hold key entry hkey
              exact ⟨by omega, hrest⟩
        | some entry =>
            rw [hentry] at hrun
            simp only at hrun
            obtain ⟨u', g₅, hset, hpure⟩ := ok_bind.mp hrun
            obtain rfl := ok_modify.mp hset
            obtain ⟨rfl, rfl⟩ := ok_pure.mp hpure
            obtain ⟨hlt, e, he, hes, hek⟩ := hold _ entry hentry
            rw [← hwidth]
            obtain ⟨hg₅, hrewrites₅⟩ := hg₄.shareLanes (n := m) (by rw [hget, if_pos rfl]) he
              hshare' hes hek hlt
            refine ⟨hg₅, (hrewrites₃.trans hrewrites₄).trans hrewrites₅, fun key entry hkey => ?_⟩
            obtain ⟨hlt, hrest⟩ := hold key entry hkey
            exact ⟨by omega, hrest⟩

/-- `optimize` loses and changes no value. -/
theorem optimize_rewrites {g h : Graph} (hg : g.Sharable Node.expandPower)
    (hrun : Ok optimize g () h) : h.Sharable id ∧ Rewrites g h := by
  obtain ⟨u, g₁, hrounds, hrun⟩ := ok_bind.mp hrun
  obtain ⟨hg₁, hrewrites⟩ := simplifyRounds_ok hg hrounds
  replace hrun := ok_get_bind.mp hrun
  obtain ⟨shared, g₂, hloop, hpure⟩ := ok_bind.mp hrun
  obtain ⟨-, rfl⟩ := ok_pure.mp hpure
  have hall := ok_foldlM hloop
    (fun done shared h => h.Sharable id ∧ Rewrites g₁ h ∧ SharedBelow h shared done.length)
    ⟨hg₁.of_form rewriteForm_expandPower, Rewrites.refl g₁, fun key entry h => by simp at h⟩
    fun done index shared s shared' t hinitial ⟨hs, hrewrites, hshared⟩ hstep => by
      obtain ⟨rfl, -⟩ := range_prefix hinitial
      obtain ⟨ht, hrewrites', hshared'⟩ := shareNode_ok hs hshared hstep
      rw [List.length_append, List.length_singleton]
      exact ⟨ht, hrewrites.trans hrewrites', hshared'⟩
  exact ⟨hall.1, hrewrites.trans hall.2.1⟩

/-! ## What rewriting preserves -/

namespace Graph

/-- The alias chain of a bit ends. -/
def Rooted (g : Graph) (b : Nat) : Prop :=
  ∃ root, g.aliases[root]? = none ∧ (root = b ∨ AliasPath g.aliases b root)

/-- Only a bit whose alias chain ends has a value. -/
theorem rooted_of_value {g : Graph} {P : Primitives} {env : Env} {b : Nat} {v : Bool}
    (h : g.value P env b = some v) : g.Rooted b := by
  obtain ⟨fuel, hfuel⟩ := (g.system P env).value_eq_some_iff.mp h
  clear h
  induction fuel generalizing b with
  | zero => cases hfuel
  | succ fuel ih =>
      change g.bitStep P env ((g.system P env).iterate fuel) b = some v at hfuel
      cases halias : g.aliases[b]? with
      | none => exact ⟨b, halias, .inl rfl⟩
      | some s =>
          simp only [bitStep, halias] at hfuel
          obtain ⟨root, hroot, rfl | hpath⟩ := ih hfuel
          · exact ⟨root, hroot, .inr (.single halias)⟩
          · exact ⟨root, hroot, .inr (.tail hpath halias)⟩

/-- Every bit that has a value keeps it in `h`, and no bit that has a value
under some assignment ends in a circle of aliases there. -/
structure PreservedBy (g h : Graph) : Prop where
  value : ∀ (P : Primitives) (env : Env), Below (g.value P env) (h.value P env)
  rooted : ∀ b : Nat, (∃ P env v, g.value P env b = some v) → h.Rooted b

theorem preservedBy_of_below {g h : Graph}
    (hbelow : ∀ P env, Below (g.value P env) (h.value P env)) : g.PreservedBy h :=
  ⟨hbelow, fun b ⟨P, env, v, hv⟩ => rooted_of_value (hbelow P env b v hv)⟩

end Graph

/-- Adding, simplifying and optimizing preserve meaning: bits keep the values
they have, and the bits that stand for a node read what the node computes. -/
theorem rewriting_preserves {g : Graph} (hg : g.Wf) :
    (∀ op width left right select name result h, op.computes = true →
      Ok (add op width left right select name) g result h →
        g.PreservedBy h ∧ result.length = width ∧
        ∀ P env, ∀ i < width, ∀ v,
          (h.world P env).laneValue ⟨op, width, left, right, select, name, ""⟩ i = some v →
            h.value P env (result.getD i 0) = some v ∧ h.Rooted (result.getD i 0)) ∧
    (∀ (n m : Node) redirects h, Ok (simplifyNode n) g (m, redirects) h →
        g.PreservedBy h ∧
        ∀ P env, ∀ i < n.width, i < 64 → ∀ v, (h.world P env).laneValue n i = some v →
          (h.world P env).laneValue m i = some v ∧
          ∀ t, (i, t) ∈ redirects → h.value P env t = some v) ∧
    (g.Sharable Node.expandPower → ∀ h, Ok optimize g () h → g.PreservedBy h) := by
  refine ⟨fun op width left right select name result h hop hrun => ?_,
    fun n m redirects h hrun => ?_, fun hsharable h hrun => ?_⟩
  · have hbuilds := add_builds op hop width left right select name
    obtain ⟨hwf, hgrows, -⟩ := hbuilds.ok hg hrun
    refine ⟨Graph.preservedBy_of_below (hgrows.value_below hwf), ?_, fun P env => ?_⟩
    · let P : Primitives := ⟨fun _ _ _ _ => 0, fun _ _ _ _ _ => 0⟩
      exact (hbuilds.value hg hrun P { leaf := fun _ => false, memory := fun _ _ _ => false }).1
    · intro i hi v hv
      have := (hbuilds.value hg hrun P env).2 i hi v hv
      exact ⟨this, Graph.rooted_of_value this⟩
  · have hbuilds := simplifyNode_builds n
    obtain ⟨hwf, hgrows, -⟩ := hbuilds.ok hg hrun
    refine ⟨Graph.preservedBy_of_below (hgrows.value_below hwf), fun P env => ?_⟩
    exact hbuilds.value hg hrun P env (hwf.respects_world P env).consts
  · obtain ⟨hh, hrewrites⟩ := optimize_rewrites hsharable hrun
    exact Graph.preservedBy_of_below (hrewrites.value_below hh.wf)

/-- A graph without aliases can be shared. -/
theorem Graph.sharable_of_no_aliases (form : Node → Node) {g : Graph} (haliases : g.aliases = ∅)
    (hnodes : ∀ n ∈ g.nodes, 0 < n.width ∧ n.width ≤ 64 ∧ n.op ≠ .hostDebugOutput ∧
      (n.shareable = true → n.Plain)) : g.Sharable form := by
  have hnone : ∀ b s : Nat, g.aliases[b]? ≠ some s := by
    intro b s
    rw [haliases]
    simp
  have hmem : ∀ (i : Nat) (n : Node), g.nodes[i]? = some n → n ∈ g.nodes := fun i n hn =>
    Array.mem_of_getElem? hn
  exact ⟨fun b s hs => absurd hs (hnone b s),
    fun i n hn => ⟨(hnodes n (hmem i n hn)).1, (hnodes n (hmem i n hn)).2.1⟩,
    fun i n hn => (hnodes n (hmem i n hn)).2.2.2,
    fun i n hn hop => absurd hop (hnodes n (hmem i n hn)).2.2.1,
    fun b t _ hs => absurd hs (hnone b t)⟩

/-- Two conjunctions of the same inputs. -/
def twinGraph : Graph :=
  { nodes := #[⟨.input, 2, [], [], [], "a", ""⟩, ⟨.and, 1, [66], [67], [], "", ""⟩,
      ⟨.and, 1, [66], [67], [], "", ""⟩] }

theorem twinGraph_sharable : twinGraph.Sharable Node.expandPower := by
  refine Graph.sharable_of_no_aliases _ rfl fun n hn => ?_
  have hand : ∀ l r s name scope, (⟨.and, 1, l, r, s, name, scope⟩ : Node).Plain :=
    fun l r s name scope => ⟨(by decide : ':' ∉ Op.and.text.toList),
      ⟨'a', (by decide : 'a' ∈ Op.and.text.toList), by decide⟩, nofun⟩
  simp only [twinGraph, List.mem_toArray, List.mem_cons, List.not_mem_nil, or_false] at hn
  rcases hn with rfl | rfl | rfl
  · exact ⟨by decide, by decide, nofun, nofun⟩
  · exact ⟨by decide, by decide, nofun, fun _ => hand _ _ _ _ _⟩
  · exact ⟨by decide, by decide, nofun, fun _ => hand _ _ _ _ _⟩

/-- Optimizing shares the two conjunctions. -/
theorem rewriting_preserves_twins : Ok optimize twinGraph () (after optimize twinGraph) ∧
    (after optimize twinGraph).aliases[(194 : Nat)]? = some 130 ∧
    twinGraph.PreservedBy (after optimize twinGraph) := by
  have hrun : Ok optimize twinGraph () (after optimize twinGraph) :=
    ok_after (by decide +kernel)
  exact ⟨hrun, by decide +kernel,
    (rewriting_preserves twinGraph_sharable.wf).2.2 twinGraph_sharable _ hrun⟩

/-! ## Graphs it does not preserve -/

/-- Two disjunctions that read each other. -/
def loopGraph : Graph := { nodes := #[⟨.or, 2, [67, 66], [0, 0], [], "", ""⟩] }

/-- Two black boxes whose scope and name run together into one key. -/
def colonGraph : Graph :=
  { nodes := #[⟨.input, 1, [], [], [], "a", ""⟩,
      ⟨.blackbox, 1, [66], [], [], "y", "s:blackbox:1:x"⟩,
      ⟨.blackbox, 1, [66], [], [], "x:blackbox:1:y", "s"⟩] }

/-- Two conjunctions, the first one driven by its left input instead. -/
def drivenGraph : Graph :=
  { twinGraph with aliases := (∅ : Std.ExtTreeMap Nat Nat).insert 130 66 }

/-- A black box computes 1 when it has one name, and only bit 66 is set. -/
def namedBox (expected : String) : Primitives :=
  ⟨fun _ _ _ _ => 0, fun name _ _ _ _ => (name == expected).toNat⟩

def oneInput : Env := { leaf := fun b => b == 66, memory := fun _ _ _ => false }

/-- Optimizing closes a circle of aliases on a combinational loop, and changes
values where keys collide or a merged node is driven from elsewhere. -/
theorem optimize_counterexamples :
    (AcyclicAliases loopGraph.aliases ∧ ¬ AcyclicAliases (after optimize loopGraph).aliases) ∧
    (returns optimize colonGraph = true ∧
      colonGraph.value (namedBox "y") oneInput 194 = some false ∧
      (after optimize colonGraph).value (namedBox "y") oneInput 194 = some true) ∧
    (returns optimize drivenGraph = true ∧
      drivenGraph.value (namedBox "y") oneInput 194 = some false ∧
      (after optimize drivenGraph).value (namedBox "y") oneInput 194 = some true) := by
  refine ⟨⟨(Graph.closed_of_no_aliases rfl).acyclic, fun hacyclic => ?_⟩, ⟨by decide +kernel, ?_, ?_⟩,
    ⟨by decide +kernel, ?_, ?_⟩⟩
  · have h₆₆ : (after optimize loopGraph).aliases[(66 : Nat)]? = some 67 := by decide +kernel
    have h₆₇ : (after optimize loopGraph).aliases[(67 : Nat)]? = some 66 := by decide +kernel
    exact hacyclic.irrefl 66 (.tail (.single h₆₇) h₆₆)
  · exact Graph.value_of_evaluate _ _ _ 3 (by decide +kernel)
  · exact Graph.value_of_evaluate _ _ _ 3 (by decide +kernel)
  · exact Graph.value_of_evaluate _ _ _ 3 (by decide +kernel)
  · exact Graph.value_of_evaluate _ _ _ 3 (by decide +kernel)

end CppHdl
