import CppHdl.Graph.GuardedState

/-!
# Evaluation under a choice

`evaluate` keeps the tables right. Each operation is evaluated from what its
operands evaluate to: a decided multiplexer or gate is its branch, an operation
on other operands is copied, and one on the same operands stays and is settled.
-/

namespace CppHdl

open Failing

section

variable {g₀ : Graph} {t : Nat} {selector : Value} {choice : Nat}

/-! ## Results of one node -/

/-- A node stays and reads settled bits, or something stands for it. -/
def Progress.Results (g₀ : Graph) (t : Nat) (selector : Value) (choice : Nat) (d : Progress)
    (bit r : Nat) : Prop :=
  (r = bit ∧ ∀ e, g₀.Feeds e bit → e < 2 ∨ d.settled e) ∨
    d.Plain g₀ r ∧ d.Means g₀ t selector choice bit r

theorem getD_of_bind {f : Nat → Option Bool} {l : Value} {i : Nat} {v : Bool}
    (h : l[i]?.bind f = some v) : f (l.getD i 0) = some v := by
  rw [List.getD_eq_getElem?_getD]
  cases hl : l[i]? with
  | none => rw [hl] at h; cases h
  | some b => rwa [hl] at h

theorem headD_of_bind {f : Nat → Option Bool} {l : Value} {v : Bool}
    (h : l.head?.bind f = some v) : f (l.headD 0) = some v := by
  cases l with
  | nil => cases h
  | cons b l => exact h

section Node

variable {c d : Progress} {bit : Nat} {n : Node} (hn : g₀.nodes[owner bit]? = some n)
  (hlow : 2 ≤ bit) (halias : g₀.aliases[bit]? = none)

include hn hlow halias

/-- A lane of an operation has a value that its operands had in the round before. -/
theorem Progress.means_of_lane {r : Nat} (hop : n.op.computes = true)
    (h : ∀ w, Models t d w → w.Chooses selector choice → ∀ m,
      (∀ i ≤ m, Below (g₀.evaluate w.prims w.env i) w.look) → ∀ v, lane bit < n.width →
      n.laneValue w.prims g₀.memories w.env (g₀.evaluate w.prims w.env m) (lane bit) = some v →
        w.look r = some v) : d.Means g₀ t selector choice bit r := by
  intro w hw hchosen
  refine .of_node halias (fun h => absurd h (by omega)) fun n' m _ hn' hlane hbelow v hv => ?_
  rw [hn] at hn'
  obtain rfl := Option.some.inj hn'
  rw [n.bitValue_of_computes _ _ _ _ hop] at hv
  exact h w hw hchosen m hbelow v hlane hv

/-- The branch a multiplexer selects stands for it. -/
theorem Progress.means_of_mux {r : Nat} (hop : n.op = .mux)
    (h : ∀ w, Models t d w → w.Chooses selector choice → ∀ m,
      (∀ i ≤ m, Below (g₀.evaluate w.prims w.env i) w.look) → ∀ yes v,
      g₀.evaluate w.prims w.env m (n.select.headD 0) = some yes →
      g₀.evaluate w.prims w.env m
        (if yes then n.left.getD (lane bit) 0 else n.right.getD (lane bit) 0) = some v →
      w.look r = some v) : d.Means g₀ t selector choice bit r := by
  refine d.means_of_lane hn hlow halias (by rw [hop]; rfl) fun w hw hchosen m hbelow v _ hv => ?_
  unfold Node.laneValue at hv
  rw [hop] at hv
  simp only [Option.bind_eq_bind] at hv
  obtain ⟨yes, hyes, hv⟩ := Option.bind_eq_some_iff.mp hv
  refine h w hw hchosen m hbelow yes v (headD_of_bind hyes) ?_
  cases yes with
  | false => exact getD_of_bind hv
  | true => exact getD_of_bind hv

end Node

/-! ## One operation -/

/-- A condition that is caught leaves the tables as they are. -/
theorem Held.caught {c : Progress} {s : Guarded} {m : GuardedM Nat} {Q : Progress → Nat → Prop}
    (hs : Held g₀ t selector choice True c s)
    (hm : Keeps (evaluating g₀ t selector choice True) c s m Q) :
    Keeps (evaluating g₀ t selector choice True) c s (caught m) fun d o =>
      ∀ r, o = some r → Q d r := by
  unfold CppHdl.caught
  refine Keeps.get_bind (Keeps.tryCatch ?_ fun e d u _ hu => ?_)
  · refine hm.bind fun r d u _ hu hr => Keeps.pure hu fun r' hr' => ?_
    exact Option.some.inj hr' ▸ hr
  · cases e with
    | unresolvedCycle reason bit =>
        refine Keeps.modify_bind (Keeps.pure ?_ fun r hr => by cases hr)
        exact ⟨hu.graph, hu.kept, hs.active, hs.inside, hu.cache, hu.controls⟩
    | runtime message => exact Keeps.throw hu
    | outOfRange => exact Keeps.throw hu

section Operation

variable (hg₀ : g₀.Intact) (ht : t < g₀.bound) {ev : Nat → GuardedM Nat}
  (hev : ∀ {c s raw}, Held g₀ t selector choice True c s → g₀.Exists raw →
    Keeps (evaluating g₀ t selector choice True) c s (ev raw) (Evaluated g₀ t selector choice raw))
  {c : Progress} {s : Guarded} {bit : Nat} {n : Node} (hn : g₀.nodes[owner bit]? = some n)
  (hlow : 2 ≤ bit) (halias : g₀.aliases[bit]? = none)

omit ht hev in
theorem Graph.Intact.lane_exists (hg₀ : g₀.Intact) {i : Nat} (hn : g₀.nodes[i]? = some n) (j : Nat) :
    g₀.Exists (n.left.getD j 0) ∧ g₀.Exists (n.right.getD j 0) ∧ g₀.Exists (n.select.headD 0) := by
  have h₀ : g₀.Exists 0 := .inl (by omega)
  have hall := hg₀.operands i n hn
  exact ⟨getD_of_forall h₀ (fun b hb => hall b (by simp [Node.operands, hb])) j,
    getD_of_forall h₀ (fun b hb => hall b (by simp [Node.operands, hb])) j,
    headD_of_forall h₀ fun b hb => hall b (by simp [Node.operands, hb])⟩

/-- A node is settled when its operands all evaluated to the ends of their chains. -/
theorem settled_of_feeds (hg₀ : g₀.Intact) (hn : g₀.nodes[owner bit]? = some n) {d : Progress}
    (hoperands : ∀ raw ∈ n.laneOperands (lane bit), ∃ r, d.Plain g₀ r ∧ EndsAt g₀.aliases raw r)
    {e : Nat} (he : g₀.Feeds e bit) : e < 2 ∨ d.settled e := by
  obtain ⟨-, -, n', hn', raw, hraw, hend⟩ := he
  rw [hn] at hn'
  obtain rfl := Option.some.inj hn'
  obtain ⟨r, hr, hrend⟩ := hoperands raw hraw
  obtain rfl := hrend.unique hend
  have hlt := (hg₀.exists_of_endsAt (hg₀.laneOperands hn hraw) hend).lt_bound
  rcases hr with hr | hr | hr
  · exact .inl hr
  · omega
  · exact .inr hr

theorem endsAt_of_singleton {aliases : Std.ExtTreeMap Nat Nat} {a b : Nat}
    (h : List.Forall₂ (EndsAt aliases) [a] [b]) : EndsAt aliases a b := by
  cases h with
  | cons h _ => exact h

theorem add_lane (op : Op) (hop : op.computes = true) (left right select : Value) :
    GraphBuilds (add op 1 left right select) fun w result =>
      ∀ v, w.laneValue ⟨op, 1, left, right, select, "", ""⟩ 0 = some v →
        w.look (result.headD 0) = some v := by
  refine (add_builds op hop 1 left right select "").mono fun w result h v hv => ?_
  have := h.2 0 (by omega) v hv
  rwa [show result.getD 0 0 = result.headD 0 by cases result <;> rfl] at this

theorem Held.add_plain (hs : Held g₀ t selector choice True c s) (op : Op) (width : Nat)
    {left right select : Value} (hl : ∀ b ∈ left, c.Plain g₀ b) (hr : ∀ b ∈ right, c.Plain g₀ b)
    (hsel : ∀ b ∈ select, c.Plain g₀ b) (name : String) :
    Keeps (sealing g₀.bound (c.Plain g₀)) c.graph c.graph (add op width left right select name)
      fun _ result => ∀ b ∈ result, c.Plain g₀ b :=
  hs.kept.sealed.add hl hr hsel (fun _ hb => .inr (.inl hb)) name

include hg₀ ht hev hn hlow halias

theorem branches_keep (hop : n.op = .mux) {condition : Option Nat}
    (hs : Held g₀ t selector choice True c s)
    (hcondition : ∀ r, condition = some r →
      Evaluated g₀ t selector choice (n.select.headD 0) c r) :
    Keeps (evaluating g₀ t selector choice True) c s (evaluateBranches ev n bit condition)
      fun d r => d.Results g₀ t selector choice bit r := by
  obtain ⟨hyes, hno, hselect⟩ := hg₀.lane_exists hn (lane bit)
  unfold evaluateBranches
  refine (hev hs hyes).bind fun left d u hcd hu hleft => ?_
  refine (hev hu hno).bind fun right e v hde hv hright => ?_
  refine Keeps.ite (fun _ => Keeps.throw hv) fun hopen => ?_
  refine (hv.setScope n.scope).bind fun _ f x hef hx _ => ?_
  replace hleft := (hleft.mono hde).mono hef
  replace hright := hright.mono hef
  refine Keeps.ite (fun heq => Keeps.pure hx (.inr ⟨hleft.plain, ?_⟩)) fun hne => ?_
  · -- both branches are one bit
    refine f.means_of_mux hn hlow halias hop fun w hw hchosen m hbelow yes value _ hvalue => ?_
    cases yes with
    | true => exact (hleft.means w hw hchosen).round hbelow hvalue
    | false => exact heq ▸ (hright.means w hw hchosen).round hbelow hvalue
  obtain ⟨guard, rfl⟩ : ∃ guard, condition = some guard := by
    cases condition with
    | none => exact absurd ⟨rfl, hne⟩ hopen
    | some guard => exact ⟨guard, rfl⟩
  have hguard := (((hcondition guard rfl).mono hcd).mono hde).mono hef
  refine (hx.changed ht ?_).bind fun differs k y hfk hy hdiffers => ?_
  · intro p hp b hb
    simp only [List.mem_cons, List.not_mem_nil, or_false] at hp
    rcases hp with rfl | rfl | rfl <;> rw [List.mem_singleton.mp hb]
    exacts [hyes.lt_bound, hno.lt_bound, hselect.lt_bound]
  replace hleft := hleft.mono hfk
  replace hright := hright.mono hfk
  replace hguard := hguard.mono hfk
  refine Keeps.ite (fun _ => ?_) fun hsame => Keeps.pure hy
    (.inl ⟨rfl, fun e => settled_of_feeds hg₀ hn fun raw hraw => ?_⟩)
  · refine (hy.onGraph ht (add_lane .mux rfl [left] [right] [guard])
      (hy.add_plain .mux 1 (by simpa using hleft.plain) (by simpa using hright.plain)
        (by simpa using hguard.plain) "")).bind fun result k' z hkk' hz hresult => ?_
    obtain ⟨-, -, hplain, hlane⟩ := hresult
    refine Keeps.pure hz (.inr ⟨headD_of_forall (.inl (by omega)) fun b hb =>
      (hplain b hb).mono hkk'.2, ?_⟩)
    refine k'.means_of_mux hn hlow halias hop fun w hw hchosen m hbelow yes value hyes' hvalue => ?_
    refine hlane w hw value ?_
    have hg := ((hguard.mono hkk').means w hw hchosen).round hbelow hyes'
    unfold World.laneValue Node.laneValue
    simp only [Option.bind_eq_bind, List.head?_cons, Option.bind_some, List.getElem?_cons_zero]
    change (w.look guard).bind _ = some value
    rw [hg]
    cases yes with
    | true => exact ((hleft.mono hkk').means w hw hchosen).round hbelow hvalue
    | false => exact ((hright.mono hkk').means w hw hchosen).round hbelow hvalue
  · have hall := not_not.mp (mt hdiffers.mpr hsame)
    simp only [List.forall_mem_cons] at hall
    obtain ⟨hl, hr, hsel, -⟩ := hall
    unfold Node.laneOperands at hraw
    rw [hop] at hraw
    simp only [List.mem_cons, List.not_mem_nil, or_false] at hraw
    rcases hraw with rfl | rfl | rfl
    exacts [⟨left, hleft.plain, endsAt_of_singleton hl⟩,
      ⟨right, hright.plain, endsAt_of_singleton hr⟩,
      ⟨guard, hguard.plain, endsAt_of_singleton hsel⟩]

theorem mux_keeps (hop : n.op = .mux) (hs : Held g₀ t selector choice True c s) :
    Keeps (evaluating g₀ t selector choice True) c s (evaluateMux ev n bit)
      fun d r => d.Results g₀ t selector choice bit r := by
  obtain ⟨hyes, hno, hselect⟩ := hg₀.lane_exists hn (lane bit)
  unfold evaluateMux
  refine (hs.caught (hev hs hselect)).bind fun condition d u hcd hu hcondition => ?_
  cases condition with
  | none => exact branches_keep hg₀ ht hev hn hlow halias hop hu fun r hr => by cases hr
  | some guard =>
      have hguard := hcondition guard rfl
      refine Keeps.ite (fun hconst => ?_) fun _ =>
        branches_keep hg₀ ht hev hn hlow halias hop hu hcondition
      -- the choice decides
      have hbranch : g₀.Exists (if guard ≠ 0 then n.left.getD (lane bit) 0
          else n.right.getD (lane bit) 0) := by split_ifs <;> assumption
      refine (hev hu hbranch).mono fun e r hde hr => .inr ⟨hr.plain, ?_⟩
      refine e.means_of_mux hn hlow halias hop fun w hw hchosen m hbelow yes value hyes' hvalue => ?_
      have hlook := ((hguard.mono hde).means w hw hchosen).round hbelow hyes'
      rw [hw.respects.consts.look_of_lt_two hconst] at hlook
      refine (hr.means w hw hchosen).round hbelow ?_
      obtain rfl := Option.some.inj hlook
      have hcases : guard = 0 ∨ guard = 1 := by omega
      rcases hcases with rfl | rfl <;> simpa using hvalue

omit hg₀ ht hev hlow halias hn in
/-- A gate of better known operands is better known. -/
theorem Node.gate_mono (hop : n.op = .and ∨ n.op = .or ∨ n.op = .xor) {P : Primitives}
    {memories : List Memory} {env : Env} {f look : Nat → Option Bool} {i a b : Nat} {v : Bool}
    (hl : ∀ x, f (n.left.getD i 0) = some x → look a = some x)
    (hr : ∀ x, f (n.right.getD i 0) = some x → look b = some x)
    (hv : n.laneValue P memories env f i = some v) :
    (⟨n.op, 1, [a], [b], [], "", ""⟩ : Node).laneValue P memories env look 0 = some v := by
  unfold Node.laneValue at hv ⊢
  rcases hop with hop | hop | hop <;> rw [hop] at hv ⊢
  · exact kleeneAnd_mono (fun x hx => hl x (getD_of_bind hx)) (fun x hx => hr x (getD_of_bind hx)) hv
  · exact kleeneOr_mono (fun x hx => hl x (getD_of_bind hx)) (fun x hx => hr x (getD_of_bind hx)) hv
  · exact kleeneXor_mono (fun x hx => hl x (getD_of_bind hx)) (fun x hx => hr x (getD_of_bind hx)) hv

omit hg₀ ht hev hlow halias hn in
theorem Node.gate_decided {P : Primitives} {memories : List Memory} {env : Env}
    {f look : Nat → Option Bool} (h₀ : look 0 = some false) (h₁ : look 1 = some true) {i a : Nat}
    {v : Bool} (hdecides : (n.op = .and ∧ a = 0) ∨ (n.op = .or ∧ a = 1))
    (hl : ∀ x, f (n.left.getD i 0) = some x → look a = some x)
    (hv : n.laneValue P memories env f i = some v) : look a = some v := by
  unfold Node.laneValue at hv
  rcases hdecides with ⟨hop, rfl⟩ | ⟨hop, rfl⟩ <;> rw [hop] at hv
  · cases v with
    | false => exact h₀
    | true => exact hl _ (getD_of_bind (kleeneAnd_eq_true.mp hv).1)
  · cases v with
    | true => exact h₁
    | false => exact hl _ (getD_of_bind (kleeneOr_eq_false.mp hv).1)

theorem bitwise_keeps (hop : n.op = .and ∨ n.op = .or ∨ n.op = .xor)
    (hs : Held g₀ t selector choice True c s) :
    Keeps (evaluating g₀ t selector choice True) c s (evaluateBitwise ev n bit)
      fun d r => d.Results g₀ t selector choice bit r := by
  obtain ⟨hyes, hno, -⟩ := hg₀.lane_exists hn (lane bit)
  have hcomputes : n.op.computes = true := by rcases hop with hop | hop | hop <;> rw [hop] <;> rfl
  unfold evaluateBitwise
  refine (hev hs hyes).bind fun left d u hcd hu hleft => ?_
  refine Keeps.ite (fun hdecides => Keeps.pure hu (.inr ⟨hleft.plain, ?_⟩)) fun _ => ?_
  · refine d.means_of_lane hn hlow halias hcomputes fun w hw hchosen m hbelow v _ hv => ?_
    exact Node.gate_decided hw.respects.zero hw.respects.one hdecides
      (fun x hx => (hleft.means w hw hchosen).round hbelow hx) hv
  refine (hev hu hno).bind fun right e v hde hv hright => ?_
  refine (hv.setScope n.scope).bind fun _ f x hef hx _ => ?_
  replace hleft := (hleft.mono hde).mono hef
  replace hright := hright.mono hef
  refine (hx.changed ht ?_).bind fun differs k y hfk hy hdiffers => ?_
  · intro p hp b hb
    simp only [List.mem_cons, List.not_mem_nil, or_false] at hp
    rcases hp with rfl | rfl <;> rw [List.mem_singleton.mp hb]
    exacts [hyes.lt_bound, hno.lt_bound]
  replace hleft := hleft.mono hfk
  replace hright := hright.mono hfk
  refine Keeps.ite (fun _ => ?_) fun hsame => Keeps.pure hy
    (.inl ⟨rfl, fun e => settled_of_feeds hg₀ hn fun raw hraw => ?_⟩)
  · refine (hy.onGraph ht (add_lane n.op hcomputes [left] [right] [])
      (hy.add_plain n.op 1 (by simpa using hleft.plain) (by simpa using hright.plain)
        (by simp) "")).bind fun result k' z hkk' hz hresult => ?_
    obtain ⟨-, -, hplain, hlane⟩ := hresult
    refine Keeps.pure hz (.inr ⟨headD_of_forall (.inl (by omega)) fun b hb =>
      (hplain b hb).mono hkk'.2, ?_⟩)
    refine k'.means_of_lane hn hlow halias hcomputes fun w hw hchosen m hbelow v _ hv => ?_
    refine hlane w hw v ?_
    rw [← hz.kept.memories hw] at hv
    exact Node.gate_mono hop
      (fun x hx => ((hleft.mono hkk').means w hw hchosen).round hbelow hx)
      (fun x hx => ((hright.mono hkk').means w hw hchosen).round hbelow hx) hv
  · have hall := not_not.mp (mt hdiffers.mpr hsame)
    simp only [List.forall_mem_cons] at hall
    obtain ⟨hl, hr, -⟩ := hall
    have hlanes : n.laneOperands (lane bit) =
        [n.left.getD (lane bit) 0, n.right.getD (lane bit) 0] := by
      unfold Node.laneOperands
      rcases hop with hop | hop | hop <;> rw [hop]
    rw [hlanes] at hraw
    simp only [List.mem_cons, List.not_mem_nil, or_false] at hraw
    rcases hraw with rfl | rfl
    exacts [⟨left, hleft.plain, endsAt_of_singleton hl⟩,
      ⟨right, hright.plain, endsAt_of_singleton hr⟩]

/-! ### Whole operands -/

omit hg₀ ht hev hn hlow halias in
/-- An entry of a table that was filled is old or was put there. -/
theorem of_foldl_insert {α : Type} {key value : α → Nat} {l : List α}
    {m : Std.ExtTreeMap Nat Nat} {b r : Nat}
    (h : (l.foldl (fun m a => m.insert (key a) (value a)) m)[b]? = some r) :
    m[b]? = some r ∨ ∃ a ∈ l, key a = b ∧ value a = r := by
  induction l generalizing m with
  | nil => exact .inl h
  | cons a l ih =>
      rcases ih h with h | ⟨a', ha', h⟩
      · rw [Std.ExtTreeMap.getElem?_insert] at h
        split_ifs at h with hkey
        · rw [Std.LawfulEqCmp.compare_eq_iff_eq] at hkey
          exact .inr ⟨a, List.mem_cons_self, hkey, Option.some.inj h⟩
        · exact .inl h
      · exact .inr ⟨a', List.mem_cons_of_mem _ ha', h⟩

omit hg₀ ht hev hn hlow halias in
theorem of_cacheLanes {cache : Std.ExtTreeMap Nat Nat} {base : Nat} {output : Value} {b r : Nat}
    (h : (cacheLanes cache base output)[b]? = some r) :
    cache[b]? = some r ∨ ∃ o < output.length, b = base + o ∧ r = output.getD o 0 := by
  refine (of_foldl_insert h).imp_right fun ⟨p, hp, hkey, hvalue⟩ => ?_
  obtain ⟨x, o⟩ := p
  have hget := List.mem_zipIdx' hp
  refine ⟨o, hget.1, hkey.symm, ?_⟩
  rw [List.getD_eq_getElem _ _ hget.1, ← hget.2]
  exact hvalue.symm

omit hg₀ ht hev hn hlow halias in
theorem reads_of_evaluated {d : Progress} {w : World} (hw : Models t d w)
    (hchosen : w.Chooses selector choice) {m : Nat}
    (hbelow : ∀ i ≤ m, Below (g₀.evaluate w.prims w.env i) w.look) {raw values : Value}
    {bits : List Bool} (h : List.Forall₂ (fun b r => Evaluated g₀ t selector choice b d r) raw values)
    (hraw : List.Forall₂ (fun b x => g₀.evaluate w.prims w.env m b = some x) raw bits) :
    w.Reads values bits := by
  induction h generalizing bits with
  | nil => cases hraw; exact .nil
  | cons h _ ih =>
      cases hraw with
      | cons hx htail => exact .cons ((h.means w hw hchosen).round hbelow hx) (ih htail)

omit hg₀ ht hev hn hlow halias in
/-- An operation on operands that are known as well is known as well. -/
theorem Node.word_mono (hop : n.op.bitwise = false) {d : Progress} {w : World}
    (hw : Models t d w) (hmemories : w.memories = g₀.memories)
    (hchosen : w.Chooses selector choice) {m : Nat}
    (hbelow : ∀ i ≤ m, Below (g₀.evaluate w.prims w.env i) w.look) {left right select : Value}
    (hl : List.Forall₂ (fun b r => Evaluated g₀ t selector choice b d r) n.left left)
    (hr : List.Forall₂ (fun b r => Evaluated g₀ t selector choice b d r) n.right right)
    (hs : List.Forall₂ (fun b r => Evaluated g₀ t selector choice b d r) n.select select)
    {i : Nat} {v : Bool}
    (hv : n.laneValue w.prims g₀.memories w.env (g₀.evaluate w.prims w.env m) i = some v) :
    w.laneValue ⟨n.op, n.width, left, right, select, n.name, ""⟩ i = some v := by
  have hround : World.laneValue { w with look := g₀.evaluate w.prims w.env m } n i = some v := by
    rw [← hmemories] at hv
    exact hv
  obtain ⟨l, r, s, word, hleft, hright, hselect, hword, hbit⟩ := (World.laneValue_word hop).mp hround
  have hcopy : (⟨n.op, n.width, left, right, select, n.name, ""⟩ : Node).op.bitwise = false := hop
  exact (World.laneValue_word hcopy).mpr ⟨l, r, s, word,
    reads_of_evaluated hw hchosen hbelow hl hleft, reads_of_evaluated hw hchosen hbelow hr hright,
    reads_of_evaluated hw hchosen hbelow hs hselect, hword, hbit⟩

omit hg₀ ht hev hn hlow halias in
/-- Constants and calls evaluate to themselves. -/
theorem endsAt_of_projection (hwf : g₀.Wf) {d : Progress} {raw values : Value}
    (hraw : ∀ b ∈ raw, b < 2 ∨ g₀.aliases[b]? = none ∧ ∃ m, g₀.nodes[owner b]? = some m ∧
      m.hostEffect = true)
    (h : List.Forall₂ (fun b r => Evaluated g₀ t selector choice b d r) raw values) :
    List.Forall₂ (EndsAt g₀.aliases) raw values := by
  induction h with
  | nil => exact .nil
  | @cons b r _ _ hb _ ih =>
      refine .cons ?_ (ih fun b hb => hraw b (List.mem_cons_of_mem _ hb))
      by_cases hlow : b < 2
      · rw [hb.const hlow]
        refine .root ?_
        cases halias : g₀.aliases[b]? with
        | none => rfl
        | some s => have := (hwf b s halias).1; omega
      · obtain ⟨halias, m, hm, heffect⟩ := (hraw b List.mem_cons_self).resolve_left hlow
        rw [hb.quiet b (.root halias) (by omega) m hm] at heffect
        cases heffect

omit hg₀ ht hev hn hlow halias in
theorem plain_of_evaluated {d : Progress} {raw values : Value}
    (h : List.Forall₂ (fun b r => Evaluated g₀ t selector choice b d r) raw values) :
    ∀ b ∈ values, d.Plain g₀ b := by
  induction h with
  | nil => exact fun _ hb => absurd hb List.not_mem_nil
  | cons h _ ih => exact List.forall_mem_cons.mpr ⟨h.plain, ih⟩

omit hg₀ ht hev hn hlow halias in
theorem root_of_forall₂ {d : Progress} {raw values : Value}
    (h : List.Forall₂ (fun b r => Evaluated g₀ t selector choice b d r) raw values)
    (hends : List.Forall₂ (EndsAt g₀.aliases) raw values) {b : Nat} (hb : b ∈ raw) :
    ∃ r, d.Plain g₀ r ∧ EndsAt g₀.aliases b r := by
  induction h with
  | nil => cases hb
  | cons h _ ih =>
      cases hends with
      | cons hend htail =>
          rcases List.mem_cons.mp hb with rfl | hb
          · exact ⟨_, h.plain, hend⟩
          · exact ih htail hb

omit hg₀ ht hev hn hlow halias in
theorem Op.hostEffect_of_computes {op : Op} (h : op.computes = true) : op.hostEffect = false := by
  cases op <;> first | rfl | cases h

omit hg₀ ht hev hn hlow halias in
/-- `add` allocates lanes of one word. -/
theorem width_of_add {op : Op} {width : Nat} {left right select : Value} {name : String}
    {g h : Graph} {output : Value}
    (hrun : Ok (add op width left right select name) g output h) :
    output.length = width ∧ width ≤ 64 := by
  unfold Ok at hrun
  rw [add_run] at hrun
  split_ifs at hrun with hwidth
  cases hsimplify : simplifyNode ⟨op, width, left, right, select, name, g.currentScope⟩ g with
  | error e g' => rw [hsimplify] at hrun; cases hrun
  | ok p g' =>
      rw [hsimplify] at hrun
      simp only at hrun
      refine ⟨?_, by omega⟩
      split_ifs at hrun <;>
      · injection hrun with hrun
        rw [← hrun, length_redirectLanes, List.length_map, List.length_range]

theorem word_keeps (hop : n.op.bitwise = false)
    (hcomputes : n.op.computes = true ∨ n.op = .hostDebugOutput)
    (hs : Held g₀ t selector choice True c s) :
    Keeps (evaluating g₀ t selector choice True) c s (evaluateWord ev n bit)
      fun d r => d.Results g₀ t selector choice bit r := by
  have hall := hg₀.operands _ n hn
  have hl : ∀ b ∈ n.left, g₀.Exists b := fun b hb => hall b (by simp [Node.operands, hb])
  have hr : ∀ b ∈ n.right, g₀.Exists b := fun b hb => hall b (by simp [Node.operands, hb])
  have hsel : ∀ b ∈ n.select, g₀.Exists b := fun b hb => hall b (by simp [Node.operands, hb])
  have hvalues : ∀ {c s} {raw : Value}, Held g₀ t selector choice True c s →
      (∀ b ∈ raw, g₀.Exists b) →
      Keeps (evaluating g₀ t selector choice True) c s (raw.mapM ev) fun d values =>
        List.Forall₂ (fun b r => Evaluated g₀ t selector choice b d r) raw values :=
    fun hs hraw => Keeps.mapM (Q := fun d b r => Evaluated g₀ t selector choice b d r)
      (fun hde h => h.mono hde) (fun b hb _ _ _ hu => hev hu (hraw b hb)) hs
  have hmono : ∀ {d e : Progress} {raw values : Value}, d.Le e →
      List.Forall₂ (fun b r => Evaluated g₀ t selector choice b d r) raw values →
      List.Forall₂ (fun b r => Evaluated g₀ t selector choice b e r) raw values :=
    fun hde h => h.imp fun _ _ h => h.mono hde
  unfold evaluateWord
  refine (hvalues hs hl).bind fun left d u _ hu hleft => ?_
  refine (hvalues hu hr).bind fun right e v hde hv hright => ?_
  refine (hvalues hv hsel).bind fun select f x hef hx hselect => ?_
  replace hleft := hmono hef (hmono hde hleft)
  replace hright := hmono hef hright
  refine (hx.changed ht ?_).bind fun differs k y hfk hy hdiffers => ?_
  · intro p hp b hb
    simp only [List.mem_cons, List.not_mem_nil, or_false] at hp
    rcases hp with rfl | rfl | rfl
    exacts [(hl b hb).lt_bound, (hr b hb).lt_bound, (hsel b hb).lt_bound]
  replace hleft := hmono hfk hleft
  replace hright := hmono hfk hright
  replace hselect := hmono hfk hselect
  simp only [List.forall_mem_cons, List.not_mem_nil, false_implies, implies_true, and_true]
    at hdiffers
  refine Keeps.ite (fun hchanged => ?_) fun hsame => Keeps.pure hy
    (.inl ⟨rfl, fun e => settled_of_feeds hg₀ hn fun raw hraw => ?_⟩)
  · have hcomputes : n.op.computes = true := by
      refine hcomputes.resolve_right fun hproject => hdiffers.mp hchanged ?_
      have hcalls := hg₀.projections _ n hn hproject
      have hwf := hg₀.closed.wf
      exact ⟨endsAt_of_projection hwf (fun b hb => hcalls b (by simp [Node.operands, hb])) hleft,
        endsAt_of_projection hwf (fun b hb => hcalls b (by simp [Node.operands, hb])) hright,
        endsAt_of_projection hwf (fun b hb => hcalls b (by simp [Node.operands, hb])) hselect⟩
    refine (hy.setScope n.scope).bind fun _ k' z hkk' hz _ => ?_
    replace hleft := hmono hkk' hleft
    replace hright := hmono hkk' hright
    replace hselect := hmono hkk' hselect
    refine (hz.onGraph ht (add_builds n.op hcomputes n.width left right select n.name)
      (hz.add_plain n.op n.width (plain_of_evaluated hleft) (plain_of_evaluated hright)
        (plain_of_evaluated hselect) n.name)).bind fun output q z' hkq hz' hresult => ?_
    obtain ⟨-, hrun, hplain, hlane⟩ := hresult
    replace hplain : ∀ b ∈ output, q.Plain g₀ b := fun b hb => (hplain b hb).mono hkq.2
    have hlen : output.length = n.width ∧ n.width ≤ 64 := width_of_add hrun
    -- every lane of the copy stands for the lane of the node
    have hmeans : ∀ b, owner b = owner bit → 2 ≤ b → g₀.aliases[b]? = none →
        q.Means g₀ t selector choice b (output.getD (lane b) 0) := by
      intro b howner hb halias
      refine q.means_of_lane (howner ▸ hn) hb halias hcomputes
        fun w hw hchosen m hbelow v hwidth hv => (hlane w hw).2 _ hwidth v ?_
      exact Node.word_mono hop hw (hz'.kept.memories hw) hchosen hbelow (hmono hkq hleft)
        (hmono hkq hright) (hmono hkq hselect) hv
    refine Keeps.modify_bind (Keeps.pure ?_ (.inr ⟨getD_of_forall (.inl (by omega)) hplain _,
      hmeans bit rfl hlow halias⟩))
    refine ⟨hz'.graph, hz'.kept, hz'.active, hz'.inside, fun b r hr => ?_, hz'.controls⟩
    rcases of_cacheLanes hr with hr | ⟨o, ho, rfl, rfl⟩
    · exact hz'.cache b r hr
    · have h64 : o < 64 := by omega
      have howner : owner (nodeBase (owner bit) + o) = owner bit := owner_nodeBase_add h64
      refine ⟨getD_of_forall (.inl (by omega)) hplain o, fun m hm => ?_, fun halias => ?_⟩
      · rw [howner, hn] at hm
        obtain rfl := Option.some.inj hm
        exact Op.hostEffect_of_computes hcomputes
      · have := hmeans _ howner (by unfold nodeBase; omega) halias
        rwa [lane_nodeBase_add h64] at this
  · obtain ⟨hleft', hright', hselect'⟩ := not_not.mp (mt hdiffers.mpr hsame)
    have hlanes : n.laneOperands (lane bit) = n.operands := by
      unfold Node.laneOperands
      rcases hcomputes with hcomputes | hproject
      · cases hop' : n.op <;> rw [hop'] at hop hcomputes <;>
          first | rfl | exact absurd hop (by decide) | exact absurd hcomputes (by decide)
      · rw [hproject]
    rw [hlanes] at hraw
    simp only [Node.operands, List.mem_append] at hraw
    rcases hraw with (hraw | hraw) | hraw
    exacts [root_of_forall₂ hleft hleft' hraw, root_of_forall₂ hright hright' hraw,
      root_of_forall₂ hselect hselect' hraw]

theorem node_keeps (hs : Held g₀ t selector choice True c s) :
    Keeps (evaluating g₀ t selector choice True) c s (evaluateNode ev bit)
      fun d r => d.Results g₀ t selector choice bit r ∧ g₀.Quiet bit := by
  have hquiet : n.op.hostEffect = false → g₀.Quiet bit := by
    intro h m hm
    rw [hn] at hm
    exact Option.some.inj hm ▸ h
  have hleaf : n.laneOperands (lane bit) = [] →
      Keeps (evaluating g₀ t selector choice True) c s (pure bit : GuardedM Nat)
        fun d r => d.Results g₀ t selector choice bit r := by
    intro hnone
    refine Keeps.pure hs (.inl ⟨rfl, fun e => settled_of_feeds hg₀ hn fun raw hraw => ?_⟩)
    rw [hnone] at hraw
    cases hraw
  unfold evaluateNode
  refine Keeps.get_bind ?_
  rw [hs.graph, hs.kept.grows.nodes _ n hn]
  dsimp only
  cases hop : n.op
  case input | state | wire =>
    refine (hleaf (by unfold Node.laneOperands; rw [hop])).mono fun d r _ hr => ⟨hr, hquiet ?_⟩
    rw [hop]; rfl
  case hostRandom | hostJtagTick | hostDebugTick | assertFailure | blackbox | memoryRead | fp =>
    exact Keeps.throw hs
  case mux =>
    refine (mux_keeps hg₀ ht hev hn hlow halias hop hs).mono fun d r _ hr => ⟨hr, hquiet ?_⟩
    rw [hop]; rfl
  case and | or | xor =>
    refine (bitwise_keeps hg₀ ht hev hn hlow halias (by rw [hop]; simp) hs).mono
      fun d r _ hr => ⟨hr, hquiet ?_⟩
    rw [hop]; rfl
  all_goals
    refine (word_keeps hg₀ ht hev hn hlow halias (by rw [hop]; rfl)
      (by rw [hop]; first | exact .inl rfl | exact .inr rfl) hs).mono fun d r _ hr => ⟨hr, hquiet ?_⟩
    rw [hop]; rfl

end Operation

/-! ## Evaluation -/

/-- The logic inside the evaluation of `t` is used outside of it as well. -/
theorem Held.outside {inside : Prop} {c : Progress} {s : Guarded} {m : GuardedM Nat}
    {Q : Progress → Nat → Prop} (hm : Keeps (evaluating g₀ t selector choice True) c s m Q)
    (hinside : ¬ inside) : Keeps (evaluating g₀ t selector choice inside) c s m Q :=
  hm.weaken (fun _ h => h) fun _ _ _ h =>
    ⟨h.graph, h.kept, h.active, fun hi => absurd hi hinside, h.cache, h.controls⟩

section Evaluation

variable (hg₀ : g₀.Intact) (ht : g₀.OnCycle t)

include ht in
theorem Graph.OnCycle.lane : g₀.aliases[t]? = none ∧ 66 ≤ t ∧ owner t < g₀.nodes.size := by
  obtain ⟨d, -, halias, h66, n, hn, -⟩ := Relation.TransGen.tail'_iff.mp ht
  exact ⟨halias, h66, owner_lt_size hn⟩

theorem Graph.Exists.owner_lt {b : Nat} (h : g₀.Exists b) (hlow : 2 ≤ b) :
    owner b < g₀.nodes.size := by
  obtain ⟨-, n, hn, -⟩ := h.resolve_left (by omega)
  exact owner_lt_size hn

include hg₀

/-- What is known of the end of a chain is known of the bit. -/
theorem Evaluated.of_root {c : Progress} {raw bit r : Nat} (hend : EndsAt g₀.aliases raw bit)
    (hlow : 2 ≤ bit) (hplain : c.Plain g₀ r) (hquiet : g₀.Quiet bit)
    (hmeans : c.Means g₀ t selector choice bit r) : Evaluated g₀ t selector choice raw c r where
  plain := hplain
  means w hw hchosen := (hmeans w hw hchosen).of_endsAt hend
  quiet e he _ := he.unique hend ▸ hquiet
  const hraw := by
    have halias : g₀.aliases[raw]? = none := by
      cases h : g₀.aliases[raw]? with
      | none => rfl
      | some s => have := (hg₀.closed.wf raw s h).1; omega
    have := hend.eq_of_unaliased halias
    omega

include ht in
/-- The result is kept. A bit that stays is settled, and `t` does not stay. -/
theorem Held.finish {inside : Prop} {c : Progress} {s : Guarded} {raw bit r : Nat}
    (hs : Held g₀ t selector choice inside c s) (hraw : g₀.Exists raw)
    (hend : EndsAt g₀.aliases raw bit) (hlow : 2 ≤ bit) (hinside : inside → bit ≠ t)
    (hresult : c.Results g₀ t selector choice bit r) (hquiet : g₀.Quiet bit) :
    Keeps (evaluating g₀ t selector choice inside) c s (do
      modify fun s => { s with active := s.active.erase bit, cache := s.cache.insert bit r }
      pure r : GuardedM Nat) (Evaluated g₀ t selector choice raw) := by
  have halias := hend.unaliased
  obtain ⟨d, hcd, hgraph, hkept, hplain, hmeans⟩ : ∃ d : Progress, c.Le d ∧ d.graph = c.graph ∧
      Kept g₀ t d ∧ d.Plain g₀ r ∧ d.Means g₀ t selector choice bit r := by
    rcases hresult with ⟨rfl, hfeeds⟩ | ⟨hplain, hmeans⟩
    · by_cases hne : r = t
      · subst hne
        have hunsettled : ¬ c.settled r := fun h => (hs.kept.settled r h).1 rfl
        refine absurd ht (Graph.not_onCycle hunsettled fun b hb d hd => ?_)
        rcases hb with hb | rfl
        · exact (hs.kept.settled b hb).2.2.2 d hd
        · exact hfeeds d hd
      · have hlt := (hg₀.exists_of_endsAt hraw hend).lt_bound
        have hset : ∀ b, c.settled b → c.settled b ∨ b = r := fun b hb => .inl hb
        refine ⟨⟨c.graph, fun b => c.settled b ∨ b = r⟩, ⟨Grows.refl _, hset⟩, rfl,
          hs.kept.settle hset ?_, .inr (.inr (.inr rfl)),
          fun w hw => hs.kept.means_self hlt halias hne w ⟨hw.respects, hw.exempt⟩⟩
        rintro b (hb | rfl)
        · obtain ⟨hne, hlt, halias, hfeeds⟩ := hs.kept.settled b hb
          exact ⟨hne, hlt, halias, fun d hd => (hfeeds d hd).imp_right (hset d)⟩
        · exact ⟨hne, hlt, halias, fun d hd => (hfeeds d hd).imp_right (hset d)⟩
    · exact ⟨c, ⟨Grows.refl _, fun _ h => h⟩, rfl, hs.kept, hplain, hmeans⟩
  refine Keeps.above hcd (Keeps.modify_bind (Keeps.pure ?_
    (.of_root hg₀ hend hlow hplain hquiet hmeans)))
  refine ⟨hs.graph.trans hgraph.symm, hkept, fun b hb => hs.active b (List.mem_of_mem_erase hb),
    fun hin => ?_, fun b v hv => ?_, hs.controls⟩
  · exact (List.mem_erase_of_ne (hinside hin).symm).mpr (hs.inside hin)
  · rw [Std.ExtTreeMap.getElem?_insert] at hv
    split_ifs at hv with hkey
    · rw [Std.LawfulEqCmp.compare_eq_iff_eq] at hkey
      subst hkey
      obtain rfl := Option.some.inj hv
      exact ⟨hplain, hquiet, fun _ => hmeans⟩
    · obtain ⟨h₁, h₂, h₃⟩ := hs.cache b v hv
      exact ⟨h₁.mono hcd.2, h₂, fun ha => (h₃ ha).mono hcd.1⟩

include ht in
/-- One call, given what the calls for the operands do. -/
theorem evaluate_step {inside : Prop} {start fuel raw : Nat} {c : Progress} {s : Guarded}
    (hev : ∀ {c s raw}, Held g₀ t selector choice True c s → g₀.Exists raw →
      Keeps (evaluating g₀ t selector choice True) c s (evaluate start fuel raw)
        (Evaluated g₀ t selector choice raw))
    (hs : Held g₀ t selector choice inside c s) (hraw : g₀.Exists raw)
    (hin : inside = True ∨ inside = False ∧ raw = t) :
    Keeps (evaluating g₀ t selector choice inside) c s (evaluate start (fuel + 1) raw)
      (Evaluated g₀ t selector choice raw) := by
  obtain ⟨htalias, ht66, htowner⟩ := ht.lane
  have htlt : t < g₀.bound := (owner_lt_iff ht66).mp htowner
  unfold evaluate
  refine (hs.resolve htlt hraw.lt_bound).bind fun bit d u _ hu hend => ?_
  have hexists := hg₀.exists_of_endsAt hraw hend
  have halias := hend.unaliased
  refine Keeps.ite (fun hconst => Keeps.pure hu ⟨.inl hconst, ?_, fun e he h2 => ?_, fun h => ?_⟩)
    fun hlow => Keeps.get_bind ?_
  · intro w hw hchosen
    exact (hu.kept.means_self hexists.lt_bound halias (by omega) w hw hchosen).of_endsAt hend
  · have := he.unique hend
    omega
  · refine hend.eq_of_unaliased ?_
    cases ha : g₀.aliases[raw]? with
    | none => rfl
    | some s => have := (hg₀.closed.wf raw s ha).1; omega
  cases hfound : u.cache[bit]? with
  | some found =>
      obtain ⟨hplain, hquiet, hmeans⟩ := hu.cache bit found hfound
      exact Keeps.pure hu (.of_root hg₀ hend (by omega) hplain hquiet (hmeans halias))
  | none =>
      dsimp only
      refine Keeps.modify_bind (Keeps.get_bind ?_)
      replace hu : Held g₀ t selector choice inside d { u with visits := u.visits + 1 } :=
        ⟨hu.graph, hu.kept, hu.active, hu.inside, hu.cache, hu.controls⟩
      generalize ({ u with visits := u.visits + 1 } : Guarded) = x at hu
      refine Keeps.ite (fun _ => Keeps.throw hu) fun _ => Keeps.ite (fun _ => ?_) fun hactive => ?_
      · have hconsider : ∀ b ∈ x.active.insertionSort (· ≤ ·), ∀ e y, d.Le e →
            Held g₀ t selector choice inside e y →
            Keeps (evaluating g₀ t selector choice inside) e y (consider (owner b)) fun _ _ => True :=
          fun b hb e y _ hy => hy.consider hg₀ htlt (hu.active b ((List.mem_insertionSort _).mp hb))
        exact (Keeps.forM hconsider hu).bind fun _ _ _ _ hz _ => Keeps.throw hz
      -- inside its own evaluation `t` is not entered again
      have hne : inside → bit ≠ t := fun hi he => hactive (he ▸ hu.inside hi)
      have hmem : t ∈ bit :: x.active := by
        rcases hin with rfl | ⟨-, rfl⟩
        · exact List.mem_cons_of_mem _ (hu.inside trivial)
        · rw [hend.eq_of_unaliased htalias]
          exact List.mem_cons_self
      obtain ⟨-, n, hn, -⟩ := hexists.resolve_left hlow
      have hentered : Held g₀ t selector choice True d { x with active := bit :: x.active } :=
        ⟨hu.graph, hu.kept, List.forall_mem_cons.mpr ⟨hexists.owner_lt (by omega), hu.active⟩,
          fun _ => hmem, hu.cache, hu.controls⟩
      have hnode := node_keeps hg₀ htlt hev hn (by omega) halias hentered
      refine Keeps.set_bind (Keeps.bind (Q := fun d r => d.Results g₀ t selector choice bit r ∧
        g₀.Quiet bit) ?_ fun r e y hde hy hr => ?_)
      · rcases hin with rfl | ⟨rfl, -⟩
        · exact hnode
        · exact Held.outside hnode not_false
      · exact hy.finish hg₀ ht hraw hend (by omega) hne hr.1 hr.2

include ht in
theorem evaluate_keeps (start fuel : Nat) {c : Progress} {s : Guarded} {raw : Nat}
    (hs : Held g₀ t selector choice True c s) (hraw : g₀.Exists raw) :
    Keeps (evaluating g₀ t selector choice True) c s (evaluate start fuel raw)
      (Evaluated g₀ t selector choice raw) := by
  induction fuel generalizing c s raw with
  | zero => exact Keeps.throw hs
  | succ fuel ih => exact evaluate_step hg₀ ht ih hs hraw (.inl rfl)

include ht in
/-- What the bit on the cycle evaluates to stands for it. -/
theorem evaluate_target (start fuel : Nat) {c : Progress} {s : Guarded}
    (hs : Held g₀ t selector choice False c s) (hexists : g₀.Exists t) :
    Keeps (evaluating g₀ t selector choice False) c s (evaluate start fuel t)
      (Evaluated g₀ t selector choice t) := by
  cases fuel with
  | zero => exact Keeps.throw hs
  | succ fuel =>
      exact evaluate_step hg₀ ht (fun hs hraw => evaluate_keeps hg₀ ht start fuel hs hraw) hs
        hexists (.inr ⟨rfl, rfl⟩)

end Evaluation

end

end CppHdl
