import CppHdl.Graph.Total
import CppHdl.Graph.SelectLogic

/-!
# The gates of the mapper

`Mapper` rebuilds a graph from one-bit gates. `gate` folds what it can, finds
a gate that exists already in its scope, or adds one. A gate found again may
have been made for another node, so the table of common gates carries an
invariant: every entry reads what its gate computes, in every valuation of the
graph made so far.
-/

namespace CppHdl

open Failing

/-- What makes two gates the same: the scope, the operation and the operands. -/
structure GateKey where
  scope : String
  op : Op
  a : Nat
  b : Nat
  s : Nat
  deriving DecidableEq

/-- The part of the mapper the gate networks work on: the graph under
construction and the gates that exist. -/
structure Mapper where
  out : Graph
  common : GateKey → Option Nat

abbrev MapperM (α : Type) := Failing GraphError Mapper α

namespace Mapper

/-- A construction step on the new graph. -/
def onOut {α : Type} (program : GraphM α) : MapperM α := fun m =>
  match program m.out with
  | .ok a g => .ok a { m with out := g }
  | .error e g => .error e { m with out := g }

/-- The gates that need no node. -/
def folded (op : Op) (a b s : Nat) : Option Nat :=
  match op with
  | .and =>
      if a = 0 ∨ b = 0 then some 0
      else if a = 1 then some b
      else if b = 1 ∨ a = b then some a
      else none
  | .or =>
      if a = 1 ∨ b = 1 then some 1
      else if a = 0 then some b
      else if b = 0 ∨ a = b then some a
      else none
  | .xor =>
      if a = b then some 0
      else if a = 0 then some b
      else if b = 0 then some a
      else none
  | .mux =>
      if a = b then some a
      else if s < 2 then some (if s ≠ 0 then a else b)
      else if a = 1 ∧ b = 0 then some s
      else none
  | _ => none

def gate (op : Op) (a b : Nat) (s : Nat := 0) : MapperM Nat := do
  -- the operands of a symmetric gate are kept in order
  let p := if op ≠ .mux ∧ b < a then (b, a) else (a, b)
  match folded op p.1 p.2 s with
  | some bit => pure bit
  | none =>
      let m ← get
      let key : GateKey := ⟨m.out.currentScope, op, p.1, p.2, s⟩
      match m.common key with
      | some bit => pure bit
      | none =>
          let value ← onOut (CppHdl.add op 1 [p.1] [p.2] (if op = .mux then [s] else []))
          let bit := value.headD 0
          modify fun m => { m with common := fun k => if k = key then some bit else m.common k }
          pure bit

def invert (b : Nat) : MapperM Nat := gate .xor b 1

end Mapper

/-! ## What a gate computes -/

def gateNode (op : Op) (a b s : Nat) : Node :=
  ⟨op, 1, [a], [b], if op = .mux then [s] else [], "", ""⟩

def GateKey.node (k : GateKey) : Node := gateNode k.op k.a k.b k.s

namespace Mapper

/-- A valuation of the new graph in which every bit has its definition. -/
structure Sees (m : Mapper) (w : World) : Prop where
  respects : Respects m.out w
  exempt : ∀ b, ¬ w.exempt b

theorem Sees.anti {m n : Mapper} {w : World} (hmn : Grows m.out n.out) (h : n.Sees w) :
    m.Sees w := ⟨h.respects.anti hmn, h.exempt⟩

theorem Sees.consts {m : Mapper} {w : World} (h : m.Sees w) : w.Consts := h.respects.consts

/-- The graph is in order and every gate of the table reads what it computes. -/
structure Sound (m : Mapper) : Prop where
  closed : m.out.Closed
  exists_common : ∀ key bit, m.common key = some bit → bit < m.out.bound
  reads_common : ∀ key bit, m.common key = some bit → ∀ w, m.Sees w → ∀ v,
    w.laneValue key.node 0 = some v → w.look bit = some v

/-! ## Programs that build -/

/-- From a sound mapper the program returns, the mapper stays sound and its
graph grows; the result satisfies `Q` and reads as `R` says in every valuation
of the graph that is left. -/
def Maps {α : Type} (m : Mapper) (program : MapperM α) (Q : Mapper → α → Prop)
    (R : World → α → Prop) : Prop :=
  ∃ a n, Ok program m a n ∧ n.Sound ∧ Grows m.out n.out ∧ Q n a ∧ ∀ w, n.Sees w → R w a

namespace Maps

variable {α β : Type} {m : Mapper}

theorem pure {Q : Mapper → α → Prop} {R : World → α → Prop} {a : α} (hm : m.Sound) (hQ : Q m a)
    (hR : ∀ w, m.Sees w → R w a) : Maps m (Pure.pure a) Q R :=
  ⟨a, m, rfl, hm, Grows.refl _, hQ, hR⟩

/-- What the first part built still reads the same in the end. -/
theorem bind {program : MapperM α} {next : α → MapperM β} {Q : Mapper → α → Prop}
    {R : World → α → Prop} {Q' : Mapper → β → Prop} {R' : World → β → Prop}
    (h : Maps m program Q R)
    (hnext : ∀ a n, n.Sound → m.out.bound ≤ n.out.bound → Q n a →
      Maps n (next a) Q' fun w b => R w a → R' w b) :
    Maps m (program >>= next) Q' R' := by
  obtain ⟨a, n, hrun, hn, hgrows, hQ, hR⟩ := h
  obtain ⟨b, k, hrun', hk, hgrows', hQ', hR'⟩ := hnext a n hn hgrows.bound_le hQ
  refine ⟨b, k, ok_bind.mpr ⟨a, n, hrun, hrun'⟩, hk, hgrows.trans hgrows', hQ', fun w hw => ?_⟩
  exact hR' w hw (hR w (hw.anti hgrows'))

theorem mono {program : MapperM α} {Q Q' : Mapper → α → Prop} {R R' : World → α → Prop}
    (h : Maps m program Q R) (hQ : ∀ n a, m.out.bound ≤ n.out.bound → Q n a → Q' n a)
    (hR : ∀ w a, w.Consts → R w a → R' w a) : Maps m program Q' R' := by
  obtain ⟨a, n, hrun, hn, hgrows, hQa, hRa⟩ := h
  exact ⟨a, n, hrun, hn, hgrows, hQ n a hgrows.bound_le hQa,
    fun w hw => hR w a hw.consts (hRa w hw)⟩

end Maps

/-- A program that returns one bit of the new graph. -/
abbrev MapsBit (m : Mapper) (program : MapperM Nat) (R : World → Nat → Prop) : Prop :=
  Maps m program (fun n bit => bit < n.out.bound) R

/-- A program that returns `width` bits of the new graph. -/
abbrev MapsValue (m : Mapper) (program : MapperM Value) (width : Nat)
    (R : World → Value → Prop) : Prop :=
  Maps m program (fun n value => n.out.Has value ∧ value.length = width) R

end Mapper

/-! ## Folding -/

theorem laneValue_gateNode (w : World) (op : Op) (a b s : Nat) :
    w.laneValue (gateNode op a b s) 0 =
      match op with
      | .mux => (w.look s).bind fun c => if c then w.look a else w.look b
      | .and => kleeneAnd (w.look a) (w.look b)
      | .or => kleeneOr (w.look a) (w.look b)
      | .xor => kleeneXor (w.look a) (w.look b)
      | _ => w.laneValue (gateNode op a b s) 0 := by
  unfold World.laneValue Node.laneValue gateNode
  cases op <;> rfl

theorem kleeneAnd_comm (x y : Option Bool) : kleeneAnd x y = kleeneAnd y x := by
  rcases x with _ | (_ | _) <;> rcases y with _ | (_ | _) <;> rfl

theorem kleeneOr_comm (x y : Option Bool) : kleeneOr x y = kleeneOr y x := by
  rcases x with _ | (_ | _) <;> rcases y with _ | (_ | _) <;> rfl

theorem kleeneXor_comm (x y : Option Bool) : kleeneXor x y = kleeneXor y x := by
  rcases x with _ | (_ | _) <;> rcases y with _ | (_ | _) <;> rfl

/-- Only the multiplexer tells its operands apart. -/
theorem laneValue_gateNode_comm (w : World) {op : Op} (hop : op.bitwise = true) (hmux : op ≠ .mux)
    (a b s : Nat) :
    w.laneValue (gateNode op a b s) 0 = w.laneValue (gateNode op b a s) 0 := by
  rw [laneValue_gateNode, laneValue_gateNode]
  cases op <;> cases hop
  · exact kleeneAnd_comm _ _
  · exact kleeneOr_comm _ _
  · exact kleeneXor_comm _ _
  · exact absurd rfl hmux

/-- Folding is the redirection of a lane, its cases in another order. -/
theorem Mapper.folded_eq (op : Op) (a b s : Nat) :
    folded op a b s = Node.laneRedirect op a b s := by
  unfold folded Node.laneRedirect
  cases op with
  | and | or | mux =>
      simp only
      split_ifs <;> first | rfl | omega | (rw [Option.some.injEq]; omega)
  | _ => rfl

/-- A folded gate reads what the gate computes. -/
theorem Mapper.folded_sound {w : World} (hw : w.Consts) {op : Op} (hop : op.bitwise = true)
    {a b s t : Nat} {v : Bool} (h : folded op a b s = some t)
    (hv : w.laneValue (gateNode op a b s) 0 = some v) : w.look t = some v := by
  rw [folded_eq] at h
  refine hw.laneRedirect_sound (n := gateNode op a b s) hop hv ?_
  by_cases hmux : op = .mux
  · subst hmux
    exact h
  · -- without a select operand the redirection does not look at it
    have hselect : ∀ s', Node.laneRedirect op a b s' = Node.laneRedirect op a b s := by
      intro s'
      cases op <;> first | rfl | exact absurd rfl hmux
    rw [← h]
    exact hselect _

theorem Mapper.folded_lt {g : Graph} {op : Op} {a b s t : Nat} (ha : a < g.bound)
    (hb : b < g.bound) (hs : s < g.bound) (h : folded op a b s = some t) : t < g.bound := by
  have hbound := g.two_lt_bound
  unfold folded at h
  cases op with
  | and | or | xor | mux =>
      simp only at h
      split_ifs at h <;> obtain rfl := Option.some.inj h <;> omega
  | _ => cases h

/-! ## The specification of `gate` -/

namespace Mapper

variable {m : Mapper}

theorem headD_eq_getD (v : Value) : v.headD 0 = v.getD 0 0 := by
  cases v <;> rfl

/-- A gate that is not in the table is added and entered. -/
theorem newGate_maps (hm : m.Sound) {op : Op} (hop : op.bitwise = true) {a b s : Nat}
    (ha : a < m.out.bound) (hb : b < m.out.bound) (hs : s < m.out.bound) (key : GateKey)
    (hkey : key.node = gateNode op a b s) :
    MapsBit m (do
      let value ← onOut (CppHdl.add op 1 [a] [b] (if op = .mux then [s] else []))
      let bit := value.headD 0
      modify fun m => { m with common := fun k => if k = key then some bit else m.common k }
      Pure.pure bit)
      fun w bit => ∀ v, w.laneValue (gateNode op a b s) 0 = some v → w.look bit = some v := by
  have hknown : op.known = true := by cases op <;> cases hop <;> rfl
  have hcomputes : op.computes = true := by cases op <;> cases hop <;> rfl
  have hselect : m.out.Has (if op = .mux then [s] else []) := by
    split_ifs
    · exact Graph.Has.singleton hs
    · exact Graph.Has.nil
  obtain ⟨value, g, hrun, hg, -, hhas, hlen⟩ := add_returns hm.closed hknown (by omega)
    (by omega : 1 ≤ 64) (Graph.Has.singleton ha) (Graph.Has.singleton hb) hselect ""
  obtain ⟨-, hgrows, hreads⟩ := (add_builds op hcomputes 1 [a] [b] (if op = .mux then [s] else [])
    "").ok hm.closed.wf hrun
  have hbit : value.headD 0 < g.bound := by
    rw [headD_eq_getD]
    exact hhas.getD 0
  have hlane : ∀ w, Respects g w → (∀ b, ¬ w.exempt b) → ∀ v,
      w.laneValue (gateNode op a b s) 0 = some v → w.look (value.headD 0) = some v := by
    intro w hw hexempt v hv
    rw [headD_eq_getD]
    exact (hreads w (fun b hb => absurd hb (hexempt b)) hw).2 0 (by omega) v hv
  refine ⟨value.headD 0, ⟨g, fun k => if k = key then some (value.headD 0) else m.common k⟩, ?_,
    ⟨hg, ?_, ?_⟩, hgrows, hbit, fun w hw => hlane w hw.respects hw.exempt⟩
  · refine ok_bind.mpr ⟨value, { m with out := g }, ?_, rfl⟩
    change onOut _ m = _
    unfold onOut
    rw [hrun]
  · intro k bit h
    change (if k = key then some (value.headD 0) else m.common k) = some bit at h
    split_ifs at h
    · rw [← Option.some.inj h]
      exact hbit
    · exact Nat.lt_of_lt_of_le (hm.exists_common k bit h) hgrows.bound_le
  · intro k bit h w hw v hv
    change (if k = key then some (value.headD 0) else m.common k) = some bit at h
    split_ifs at h with hk
    · rw [← Option.some.inj h]
      rw [hk, hkey] at hv
      exact hlane w hw.respects hw.exempt v hv
    · exact hm.reads_common k bit h w ⟨hw.respects.anti hgrows, hw.exempt⟩ v hv

theorem gate_maps (hm : m.Sound) {op : Op} (hop : op.bitwise = true) {a b s : Nat}
    (ha : a < m.out.bound) (hb : b < m.out.bound) (hs : s < m.out.bound) :
    MapsBit m (gate op a b s) fun w bit =>
      ∀ v, w.laneValue (gateNode op a b s) 0 = some v → w.look bit = some v := by
  have hordered : ∃ p : Nat × Nat, (if op ≠ .mux ∧ b < a then (b, a) else (a, b)) = p ∧
      p.1 < m.out.bound ∧ p.2 < m.out.bound ∧
      ∀ w : World, w.laneValue (gateNode op a b s) 0 = w.laneValue (gateNode op p.1 p.2 s) 0 := by
    by_cases h : op ≠ .mux ∧ b < a
    · exact ⟨(b, a), if_pos h, hb, ha, fun w => laneValue_gateNode_comm w hop h.1 a b s⟩
    · exact ⟨(a, b), if_neg h, ha, hb, fun _ => rfl⟩
  obtain ⟨p, hp, hfirst, hsecond, hlane⟩ := hordered
  unfold gate
  simp only [hp, hlane]
  cases hfold : folded op p.1 p.2 s with
  | some bit =>
      exact Maps.pure hm (folded_lt hfirst hsecond hs hfold)
        fun w hw v hv => folded_sound hw.consts hop hfold hv
  | none =>
      cases hfound : m.common ⟨m.out.currentScope, op, p.1, p.2, s⟩ with
      | some bit =>
          refine ⟨bit, m, ok_get_bind.mpr ?_, hm, Grows.refl _, hm.exists_common _ _ hfound,
            fun w hw => hm.reads_common _ _ hfound w hw⟩
          rw [hfound]
          rfl
      | none =>
          obtain ⟨bit, n, hrun, hn⟩ := newGate_maps hm hop hfirst hsecond hs
            ⟨m.out.currentScope, op, p.1, p.2, s⟩ rfl
          refine ⟨bit, n, ok_get_bind.mpr ?_, hn⟩
          rw [hfound]
          exact hrun

/-! ## The states of the mapper -/

/-- What mapping does to the new graph and its table, in any order: it starts
the gates on a graph that holds the inputs and the registers, changes the
scope, makes gates and adds the nodes that stay as they are. -/
inductive Reachable : Mapper → Prop
  | start {g : Graph} : g.Closed → Reachable ⟨g, fun _ => none⟩
  | scope {m : Mapper} (scope : String) : Reachable m →
      Reachable { m with out := { m.out with currentScope := scope } }
  | gate {m n : Mapper} {op : Op} {a b s bit : Nat} : Reachable m → op.bitwise = true →
      a < m.out.bound → b < m.out.bound → s < m.out.bound → Ok (gate op a b s) m bit n →
      Reachable n
  | add {m n : Mapper} {op : Op} {width : Nat} {left right select : Value} {name : String}
      {result : Value} : Reachable m → m.out.Has left → m.out.Has right → m.out.Has select →
      Ok (onOut (CppHdl.add op width left right select name)) m result n → Reachable n

theorem Sound.scope (hm : m.Sound) (scope : String) :
    ({ m with out := { m.out with currentScope := scope } } : Mapper).Sound where
  closed := ⟨hm.closed.wf, hm.closed.targets, hm.closed.acyclic⟩
  exists_common := hm.exists_common
  reads_common key bit h w hw :=
    hm.reads_common key bit h w ⟨⟨hw.respects.memories, hw.respects.zero, hw.respects.one,
      hw.respects.aliased, hw.respects.node⟩, hw.exempt⟩

theorem Sound.add (hm : m.Sound) {n : Mapper} {op : Op} {width : Nat}
    {left right select : Value} {name : String} {result : Value} (hl : m.out.Has left)
    (hr : m.out.Has right) (hs : m.out.Has select)
    (hrun : Ok (onOut (CppHdl.add op width left right select name)) m result n) : n.Sound := by
  unfold Ok onOut at hrun
  split at hrun
  · rename_i a g hadd
    obtain ⟨rfl, rfl⟩ := EStateM.Result.ok.inj hrun
    obtain ⟨-, hgrows, -⟩ := (add_constrains op width left right select name).ok hm.closed.wf hadd
    obtain ⟨hg, -, -, -⟩ := add_closed hm.closed hl hr hs hadd
    refine ⟨hg, fun key bit h => ?_, fun key bit h w hw => ?_⟩
    · exact Nat.lt_of_lt_of_le (hm.exists_common key bit h) hgrows.bound_le
    · exact hm.reads_common key bit h w ⟨hw.respects.anti hgrows, hw.exempt⟩
  · cases hrun

theorem Reachable.sound (h : m.Reachable) : m.Sound := by
  induction h with
  | start hg => exact ⟨hg, fun _ _ h => (by cases h), fun _ _ h => (by cases h)⟩
  | scope scope _ ih => exact ih.scope scope
  | gate _ hop ha hb hs hrun ih =>
      obtain ⟨bit, n, hrun', hn, -⟩ := gate_maps ih hop ha hb hs
      obtain ⟨-, rfl⟩ := EStateM.Result.ok.inj (hrun.symm.trans hrun')
      exact hn
  | add _ hl hr hs hrun ih => exact ih.add hl hr hs hrun

/-! ## Gates on bits that are known -/

section Known

variable (hm : m.Sound) {a b s : Nat} (ha : a < m.out.bound) (hb : b < m.out.bound)
include hm ha hb

theorem and_maps : MapsBit m (gate .and a b) fun w bit => ∀ x y,
    w.look a = some x → w.look b = some y → w.look bit = some (x && y) := by
  refine (gate_maps hm rfl ha hb (Graph.Has.zero_lt _)).mono (fun _ _ _ h => h) ?_
  intro w bit _ h x y hx hy
  refine h _ ?_
  rw [laneValue_gateNode]
  simp only [hx, hy]
  exact kleeneAnd_some x y

theorem or_maps : MapsBit m (gate .or a b) fun w bit => ∀ x y,
    w.look a = some x → w.look b = some y → w.look bit = some (x || y) := by
  refine (gate_maps hm rfl ha hb (Graph.Has.zero_lt _)).mono (fun _ _ _ h => h) ?_
  intro w bit _ h x y hx hy
  refine h _ ?_
  rw [laneValue_gateNode]
  simp only [hx, hy]
  exact kleeneOr_some x y

theorem xor_maps : MapsBit m (gate .xor a b) fun w bit => ∀ x y,
    w.look a = some x → w.look b = some y → w.look bit = some (x ^^ y) := by
  refine (gate_maps hm rfl ha hb (Graph.Has.zero_lt _)).mono (fun _ _ _ h => h) ?_
  intro w bit _ h x y hx hy
  refine h _ ?_
  rw [laneValue_gateNode]
  simp only [hx, hy]
  rfl

theorem mux_maps (hs : s < m.out.bound) : MapsBit m (gate .mux a b s) fun w bit => ∀ x y c,
    w.look a = some x → w.look b = some y → w.look s = some c →
      w.look bit = some (if c then x else y) := by
  refine (gate_maps hm rfl ha hb hs).mono (fun _ _ _ h => h) ?_
  intro w bit _ h x y c hx hy hc
  refine h _ ?_
  rw [laneValue_gateNode]
  simp only [hx, hy, hc, Option.bind_some]
  cases c <;> rfl

end Known

theorem invert_maps (hm : m.Sound) {b : Nat} (hb : b < m.out.bound) :
    MapsBit m (invert b) fun w bit => ∀ x, w.look b = some x → w.look bit = some (!x) := by
  refine (xor_maps hm hb (Graph.one_lt_bound _)).mono (fun _ _ _ h => h) ?_
  intro w bit hw h x hx
  rw [h x true hx hw.one, Bool.xor_true]

end Mapper

end CppHdl
