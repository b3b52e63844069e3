import CppHdl.Graph.Number
import CppHdl.Graph.Rename
import CppHdl.Graph.Valid

/-!
# Clocks as event equations

`explicitClockEvents` turns the clock contract of a graph into logic. For each
clock it adds a history register that samples the level of the clock, and two
edge conditions; every clocked state, write and checked access is then enabled
by its edge as well. Afterwards the graph has no clocks and commits at every
sample of the clock levels. `explicitClockEvents_ok` says what the conversion
leaves of every record; what that means for a run is in `Waveform`.
-/

namespace CppHdl

open Failing

/-! ## The program -/

/-- The bits of the input port that carries the level of a clock; the last port
of that name counts. -/
def Graph.levelPort (g : Graph) (name : String) : Value :=
  ((g.ports.filter fun p => p.input && p.name == name).getLast?.map Port.bits).getD []

/-- An implicit clock becomes the only named one, which everything follows. -/
def Graph.withDefaultClock (g : Graph) (defaultClock : String) : Graph :=
  match g.clockContract with
  | .risingEdgeStep =>
      { g with
        clocks := g.clocks ++ [⟨defaultClock, 0⟩]
        states := g.states.map fun s => { s with clock := 0 }
        memoryAccesses := g.memoryAccesses.map fun a => { a with clock := 0 }
        memoryWrites := g.memoryWrites.map fun w => { w with clock := 0 } }
  | _ => g

def clockLevel (clock : Clock) : GraphM Value := do
  let g ← get
  if (g.levelPort clock.name).isEmpty then do
    let level ← wire 1 clock.name .input
    modify fun g => { g with ports := g.ports ++ [⟨clock.name, level, true⟩] }
    pure level
  else pure (g.levelPort clock.name)

/-- The rising and the falling edge of a clock against its history. -/
def clockEdge (clock : Clock) : GraphM (Value × Value) := do
  let level ← clockLevel clock
  if level.length ≠ 1 then throw (.runtime "clock linking requires scalar clocks")
  else do
    let previous ← add .state 1 (constant 0 1) [] [] "event history"
    let wasLow ← binary .xor previous [1] 1
    let rising ← binary .and level wasLow 1
    let isLow ← binary .xor level [1] 1
    let falling ← binary .and previous isLow 1
    modify fun g => { g with
      states := g.states ++ [{ bits := previous, next := level, trigger := [1] }] }
    pure (rising, falling)

/-- A condition that also waits for its edge. A missing condition is true. -/
def qualify (edges : List (Value × Value)) (enable : Value) (clock : Int) (falling : Bool) :
    GraphM Value :=
  if clock < 0 ∨ edges.length ≤ clock.toNat then throw (.runtime "invalid linked clock index")
  else
    let edge := edges.getD clock.toNat ([], [])
    binary .and (if enable.isEmpty then [1] else enable) (if falling then edge.2 else edge.1) 1

def qualifyState (edges : List (Value × Value)) (s : State) : GraphM State :=
  if s.clock < 0 then pure s
  else do
    let trigger ← qualify edges s.trigger s.clock s.falling
    pure { s with trigger, clock := -1, falling := false }

def qualifyAccess (edges : List (Value × Value)) (a : MemoryAccess) : GraphM MemoryAccess :=
  if a.transaction then do
    let enabled ← qualify edges a.enabled a.clock a.falling
    pure { a with enabled, clock := -1, falling := false }
  else pure { a with clock := -1, falling := false }

def qualifyWrite (edges : List (Value × Value)) (w : MemoryWrite) : GraphM MemoryWrite := do
  let enabled ← qualify edges w.enabled w.clock w.falling
  pure { w with enabled, clock := -1, falling := false }

def explicitClockEvents (defaultClock : String) : GraphM Unit := do
  let g ← get
  if g.clockContract = .explicitEvents then pure ()
  else if g.clockContract = .risingEdgeStep ∧ g.clocks ≠ [] then
    throw (.runtime "implicit graph has named clocks")
  else do
    set (g.withDefaultClock defaultClock)
    let g ← get
    if g.states.any fun s => !s.reset.isEmpty then
      throw (.runtime "clock linking requires synchronous-reset modules")
    else do
      let edges ← g.clocks.mapM clockEdge
      let g ← get
      let states ← g.states.mapM (qualifyState edges)
      let memoryAccesses ← g.memoryAccesses.mapM (qualifyAccess edges)
      let memoryWrites ← g.memoryWrites.mapM (qualifyWrite edges)
      modify fun g => { g with
        states, memoryAccesses, memoryWrites
        clocks := []
        clockContract := .explicitEvents }

/-! ## Growing a graph and its records -/

/-- A node that only computes: it calls nothing and asserts nothing. -/
def Node.Quiet (n : Node) : Prop := n.hostEffect = false ∧ n.validation = false

theorem Node.quiet_of_computes {n : Node} (h : n.op.computes = true) : n.Quiet := by
  unfold Node.Quiet Node.hostEffect Node.validation
  cases hop : n.op <;> rw [hop] at h <;>
    first | exact ⟨rfl, rfl⟩ | simp [Op.computes, Op.isLeaf] at h

/-- Only quiet nodes were added. -/
def QuietlyGrown (g h : Graph) : Prop :=
  ∃ new, h.nodes.toList = g.nodes.toList ++ new ∧ ∀ n ∈ new, n.Quiet

theorem QuietlyGrown.refl (g : Graph) : QuietlyGrown g g := ⟨[], by simp, by simp⟩

theorem QuietlyGrown.trans {g h k : Graph} (hgh : QuietlyGrown g h) (hhk : QuietlyGrown h k) :
    QuietlyGrown g k := by
  obtain ⟨new, hnew, hquiet⟩ := hgh
  obtain ⟨new', hnew', hquiet'⟩ := hhk
  refine ⟨new ++ new', by rw [hnew', hnew, List.append_assoc], fun n hn => ?_⟩
  rcases List.mem_append.mp hn with hn | hn
  · exact hquiet n hn
  · exact hquiet' n hn

/-- The logic of `g` survives in `h`, whatever records were added, and what was
added only computes. -/
structure Extends (g h : Graph) : Prop where
  nodes : ∀ (i : Nat) (n : Node), g.nodes[i]? = some n → h.nodes[i]? = some n
  quiet : QuietlyGrown g h
  aliased : ∀ look : Nat → Option Bool, (∀ b s : Nat, h.aliases[b]? = some s → look b = look s) →
    ∀ b s : Nat, g.aliases[b]? = some s → look b = look s
  free : ∀ b : Nat, b < g.bound → g.aliases[b]? = none → h.aliases[b]? = none
  bound_le : g.bound ≤ h.bound
  memories : h.memories = g.memories

theorem Grows.extends {g h : Graph} (hgh : Grows g h) (hquiet : QuietlyGrown g h) : Extends g h :=
  ⟨hgh.nodes, hquiet, hgh.aliased, hgh.free, hgh.bound_le, hgh.memories⟩

namespace Extends

theorem refl (g : Graph) : Extends g g := (Grows.refl g).extends (.refl g)

theorem trans {g h k : Graph} (hgh : Extends g h) (hhk : Extends h k) : Extends g k where
  nodes i n hn := hhk.nodes i n (hgh.nodes i n hn)
  quiet := hgh.quiet.trans hhk.quiet
  aliased look hk := hgh.aliased look (hhk.aliased look hk)
  free b hb hfree := hhk.free b (Nat.lt_of_lt_of_le hb hgh.bound_le) (hgh.free b hb hfree)
  bound_le := Nat.le_trans hgh.bound_le hhk.bound_le
  memories := by rw [hhk.memories, hgh.memories]

theorem of_logic {g h k : Graph} (hgh : Extends g h) (hnodes : k.nodes = h.nodes)
    (haliases : k.aliases = h.aliases) (hmemories : k.memories = h.memories) : Extends g k where
  nodes := by rw [hnodes]; exact hgh.nodes
  quiet := by
    unfold QuietlyGrown
    rw [hnodes]
    exact hgh.quiet
  aliased := by rw [haliases]; exact hgh.aliased
  free := by rw [haliases]; exact hgh.free
  bound_le := by
    have := hgh.bound_le
    unfold Graph.bound at this ⊢
    rw [hnodes]
    exact this
  memories := by rw [hmemories, hgh.memories]

theorem respects {g h : Graph} {w : World} (hgh : Extends g h) (hw : Respects h w) :
    Respects g w where
  memories := by rw [hw.memories, hgh.memories]
  zero := hw.zero
  one := hw.one
  aliased := hgh.aliased w.look hw.aliased
  node b n v halias hexempt hb hn hlane hv :=
    hw.node b n v (hgh.free b (lt_bound_of_owned hb hn) halias) hexempt hb
      (hgh.nodes _ n hn) hlane hv

theorem value_below {g h : Graph} (hgh : Extends g h) (hh : h.Wf) (P : Primitives) (env : Env) :
    Below (g.value P env) (h.value P env) :=
  (hgh.respects (hh.respects_world P env)).value_below fun _ hb => hb.elim

end Extends

/-- Only logic was added: the records are those of `g`. -/
structure SameRecords (g h : Graph) : Prop where
  clocks : h.clocks = g.clocks
  ports : h.ports = g.ports
  states : h.states = g.states
  memoryAccesses : h.memoryAccesses = g.memoryAccesses
  memoryWrites : h.memoryWrites = g.memoryWrites

theorem SameRecords.refl (g : Graph) : SameRecords g g := ⟨rfl, rfl, rfl, rfl, rfl⟩

theorem SameRecords.trans {g h k : Graph} (hgh : SameRecords g h) (hhk : SameRecords h k) :
    SameRecords g k where
  clocks := by rw [hhk.clocks, hgh.clocks]
  ports := by rw [hhk.ports, hgh.ports]
  states := by rw [hhk.states, hgh.states]
  memoryAccesses := by rw [hhk.memoryAccesses, hgh.memoryAccesses]
  memoryWrites := by rw [hhk.memoryWrites, hgh.memoryWrites]

theorem Grows.sameRecords {g h : Graph} (hgh : Grows g h) : SameRecords g h := by
  rw [hgh.rest]
  exact ⟨rfl, rfl, rfl, rfl, rfl⟩

/-! ## New leaves -/

/-- A leaf is stored as it is given, and its lanes are new. -/
theorem add_leaf_ok {op : Op} (hop : op = .state ∨ op = .input) {left : Value}
    (hleft : ∀ b ∈ left, b < 2) {name : String} {g h : Graph} {v : Value} (hg : g.Wf)
    (hrun : Ok (add op 1 left [] [] name) g v h) :
    v = [g.bound] ∧
      h = { g with nodes := g.nodes.push ⟨op, 1, left, [], [], name, g.currentScope⟩ } := by
  have hfree : ∀ b ∈ left, g.aliases[b]? = none := by
    intro b hb
    cases halias : g.aliases[b]? with
    | none => rfl
    | some s =>
        have := hleft b hb
        have := (hg b s halias).1
        omega
  rw [Ok, add_run, if_neg (by omega)] at hrun
  cases hsimplify : simplifyNode ⟨op, 1, left, [], [], name, g.currentScope⟩ g with
  | error e g' =>
      rw [hsimplify] at hrun
      cases hrun
  | ok p g' =>
      obtain ⟨n, redirects⟩ := p
      rw [hsimplify] at hrun
      obtain ⟨roots, g₁, h₁, hrest⟩ := ok_bind.mp hsimplify
      obtain ⟨rfl, rfl⟩ := resolved_unaliased hfree h₁
      obtain ⟨_, g₂, h₂, hrest⟩ := ok_bind.mp hrest
      obtain ⟨rfl, rfl⟩ := resolved_unaliased (by simp) h₂
      obtain ⟨_, g₃, h₃, hrest⟩ := ok_bind.mp hrest
      obtain ⟨rfl, rfl⟩ := resolved_unaliased (by simp) h₃
      have hnode : n = ⟨op, 1, roots, [], [], name, g₃.currentScope⟩ ∧ redirects = [] ∧ g' = g₃ := by
        rcases hop with rfl | rfl
        · obtain ⟨h, rfl⟩ := ok_pure.mp hrest
          exact ⟨(congrArg Prod.fst h).symm, (congrArg Prod.snd h).symm, rfl⟩
        · obtain ⟨h, rfl⟩ := ok_pure.mp hrest
          exact ⟨(congrArg Prod.fst h).symm, (congrArg Prod.snd h).symm, rfl⟩
      obtain ⟨rfl, rfl, rfl⟩ := hnode
      have hlanes : redirectLanes ((List.range 1).map (g'.bound + ·)) [] = [g'.bound] := by
        simp [redirectLanes]
      simp only [hlanes] at hrun
      rw [if_pos (by simp)] at hrun
      injection hrun with hv hh
      refine ⟨hv.symm, hh.symm.trans ?_⟩
      unfold Graph.pushNode
      simp

/-! ## One-bit conditions -/

theorem eq_singleton_of_length {v : Value} (h : v.length = 1) : ∃ b, v = [b] := by
  match v, h with
  | [b], _ => exact ⟨b, rfl⟩

theorem and_bit_builds (a b : Nat) : GraphBuilds (binary .and [a] [b] 1) fun w r =>
    ∃ t, r = [t] ∧ ∀ x y, w.look a = some x → w.look b = some y → w.look t = some (x && y) := by
  change GraphBuilds (bitwise .and [a] [b] 1) _
  refine (bitwise_builds rfl [a] [b] 1).mono fun w r hr => ?_
  obtain ⟨t, rfl⟩ := eq_singleton_of_length hr.1
  refine ⟨t, rfl, fun x y hx hy => hr.2 0 (by omega) _ ?_⟩
  change kleeneAnd (w.look a) (w.look b) = _
  rw [hx, hy]
  exact kleeneAnd_some x y

theorem not_bit_builds (a : Nat) : GraphBuilds (binary .xor [a] [1] 1) fun w r =>
    ∃ t, r = [t] ∧ ∀ x, w.Consts → w.look a = some x → w.look t = some (!x) := by
  change GraphBuilds (bitwise .xor [a] [1] 1) _
  refine (bitwise_builds rfl [a] [1] 1).mono fun w r hr => ?_
  obtain ⟨t, rfl⟩ := eq_singleton_of_length hr.1
  refine ⟨t, rfl, fun x hw hx => hr.2 0 (by omega) _ ?_⟩
  change kleeneXor (w.look a) (w.look 1) = _
  rw [hx, hw.one]
  cases x <;> rfl

/-- An operation that computes adds at most its own node. -/
theorem add_quiet {op : Op} (hop : op.computes = true) {width : Nat} {left right select : Value}
    {name : String} {g h : Graph} {v : Value}
    (hrun : Ok (add op width left right select name) g v h) : QuietlyGrown g h := by
  rw [Ok, add_run] at hrun
  split_ifs at hrun with hwidth
  have hsimplify :=
    simplifyNode_aliasOnly ⟨op, width, left, right, select, name, g.currentScope⟩ g trivial
  cases hm : simplifyNode ⟨op, width, left, right, select, name, g.currentScope⟩ g with
  | error e g' =>
      rw [hm] at hrun
      cases hrun
  | ok p g' =>
      obtain ⟨n, redirects⟩ := p
      rw [hm] at hrun hsimplify
      obtain ⟨-, hsame, hsimplified⟩ := hsimplify
      have hcomputes : n.op.computes = true :=
        (hsimplified () trivial trivial).computes.trans hop
      have hnodes : g'.nodes = g.nodes := by rw [hsame]
      simp only at hrun
      split_ifs at hrun with hnew
      · injection hrun with _ hh
        refine ⟨[n], ?_, fun m hm => ?_⟩
        · rw [← hh, Graph.pushNode, Array.toList_push, hnodes]
        · rw [List.mem_singleton.mp hm]
          exact Node.quiet_of_computes hcomputes
      · injection hrun with _ hh
        refine ⟨[], ?_, by simp⟩
        rw [← hh, hnodes, List.append_nil]

theorem bitwise_quiet {op : Op} (hop : op.computes = true) {left right : Value} {width : Nat}
    {g h : Graph} {v : Value} (hrun : Ok (bitwise op left right width) g v h) :
    QuietlyGrown g h := by
  refine ok_foldlM hrun (fun _ _ k => QuietlyGrown g k) (.refl g) ?_
  intro done offset result k r k' _ hk hstep
  obtain ⟨part, k₁, hadd, hpure⟩ := ok_bind.mp hstep
  obtain ⟨-, rfl⟩ := ok_pure.mp hpure
  exact hk.trans (add_quiet hop hadd)

/-- What a run of a bitwise builder adds to a graph. -/
theorem bitwise_extends {op : Op} (hop : op.computes = true) {left right : Value} {width : Nat}
    {Q : World → Value → Prop} (hbuilds : GraphBuilds (bitwise op left right width) Q)
    {g h : Graph} {v : Value} (hg : g.Wf) (hrun : Ok (bitwise op left right width) g v h) :
    h.Wf ∧ Extends g h ∧ SameRecords g h ∧
      ∀ w : World, (∀ b, ¬ w.exempt b) → Respects h w → Q w v := by
  obtain ⟨hwf, hgrows, hQ⟩ := hbuilds.ok hg hrun
  exact ⟨hwf, hgrows.extends (bitwise_quiet hop hrun), hgrows.sameRecords,
    fun w hexempt hw => hQ w (fun b hb => absurd hb (hexempt b)) hw⟩

/-- What one-bit logic adds to a graph: a bit with a meaning in every valuation
of the graph that is left. -/
def AddsBit (m : GraphM Value) (Q : World → Nat → Prop) : Prop :=
  ∀ ⦃g h : Graph⦄ ⦃v : Value⦄, g.Wf → Ok m g v h → ∃ t, v = [t] ∧ h.Wf ∧ Extends g h ∧
    SameRecords g h ∧ ∀ w : World, (∀ b, ¬ w.exempt b) → Respects h w → Q w t

theorem AddsBit.of_bitwise {op : Op} (hop : op.computes = true) {left right : Value}
    {Q : World → Nat → Prop}
    (hbuilds : GraphBuilds (bitwise op left right 1) fun w r => ∃ t, r = [t] ∧ Q w t) :
    AddsBit (bitwise op left right 1) Q := by
  intro g h v hg hrun
  obtain ⟨hwf, hext, hsame, hQ⟩ := bitwise_extends hop hbuilds hg hrun
  obtain ⟨t, rfl, -⟩ := hQ (h.world ⟨fun _ _ _ _ => 0, fun _ _ _ _ _ => 0⟩ ⟨fun _ => false,
    fun _ _ _ => false, fun _ _ _ => none, fun _ => none⟩) (fun _ hb => hb)
    (hwf.respects_world _ _)
  refine ⟨t, rfl, hwf, hext, hsame, fun w hexempt hw => ?_⟩
  obtain ⟨t', ht, hQt⟩ := hQ w hexempt hw
  obtain rfl : t = t' := by simpa using ht
  exact hQt

theorem and_bit (a b : Nat) : AddsBit (binary .and [a] [b] 1) fun w t =>
    ∀ x y, w.look a = some x → w.look b = some y → w.look t = some (x && y) :=
  AddsBit.of_bitwise rfl (and_bit_builds a b)

theorem not_bit (a : Nat) : AddsBit (binary .xor [a] [1] 1) fun w t =>
    ∀ x, w.Consts → w.look a = some x → w.look t = some (!x) :=
  AddsBit.of_bitwise rfl (not_bit_builds a)

/-! ## What the conversion adds for a clock -/

structure ClockBits where
  level : Nat
  previous : Nat
  rising : Nat
  falling : Nat

namespace ClockBits

def edge (c : ClockBits) (falling : Bool) : Nat := if falling then c.falling else c.rising

def history (c : ClockBits) : State := { bits := [c.previous], next := [c.level], trigger := [1] }

end ClockBits

/-- In `h` the bits of a clock do their work: the history is a free register
that starts at 0, and the edges compare it with the level. -/
structure Watches (h : Graph) (c : ClockBits) : Prop where
  previous : 66 ≤ c.previous ∧ c.previous < h.bound ∧ lane c.previous = 0
  free : h.aliases[c.previous]? = none
  node : ∃ n, h.nodes[owner c.previous]? = some n ∧ n.op = .state ∧ n.width = 1 ∧ n.left = [0]
  edges : ∀ w : World, (∀ b, ¬ w.exempt b) → Respects h w → ∀ l p,
    w.look c.level = some l → w.look c.previous = some p →
      ∀ falling, w.look (c.edge falling) = some (if falling then !l && p else l && !p)

theorem Watches.mono {g h : Graph} {c : ClockBits} (hc : Watches g c) (hgh : Extends g h) :
    Watches h c where
  previous := ⟨hc.previous.1, Nat.lt_of_lt_of_le hc.previous.2.1 hgh.bound_le, hc.previous.2.2⟩
  free := hgh.free _ hc.previous.2.1 hc.free
  node := by
    obtain ⟨n, hn, hrest⟩ := hc.node
    exact ⟨n, hgh.nodes _ _ hn, hrest⟩
  edges w hexempt hw := hc.edges w hexempt (hgh.respects hw)

structure FreshInput (h : Graph) (l : Nat) : Prop where
  bound : 66 ≤ l ∧ l < h.bound ∧ lane l = 0
  free : h.aliases[l]? = none
  node : ∃ n, h.nodes[owner l]? = some n ∧ n.op = .input ∧ n.width = 1

theorem FreshInput.mono {g h : Graph} {l : Nat} (hl : FreshInput g l) (hgh : Extends g h) :
    FreshInput h l where
  bound := ⟨hl.bound.1, Nat.lt_of_lt_of_le hl.bound.2.1 hgh.bound_le, hl.bound.2.2⟩
  free := hgh.free _ hl.bound.2.1 hl.free
  node := by
    obtain ⟨n, hn, hrest⟩ := hl.node
    exact ⟨n, hgh.nodes _ _ hn, hrest⟩

/-- The level of a clock is its port, or a new input where it has none. -/
def LevelOf (g h : Graph) (clock : Clock) (l : Nat) : Prop :=
  g.levelPort clock.name = [l] ∨
    g.levelPort clock.name = [] ∧ g.bound ≤ l ∧ FreshInput h l

/-- What converting clocks changes of the records: it adds input ports with
the names of clocks, and history registers. -/
structure AddsClocks (g h : Graph) (names : List String) (added : List State) : Prop where
  clocks : h.clocks = g.clocks
  ports : ∃ new, h.ports = g.ports ++ new ∧ ∀ p ∈ new, p.input = true ∧ p.name ∈ names
  states : h.states = g.states ++ added
  memoryAccesses : h.memoryAccesses = g.memoryAccesses
  memoryWrites : h.memoryWrites = g.memoryWrites

theorem SameRecords.addsClocks {g h : Graph} (hgh : SameRecords g h) (names : List String) :
    AddsClocks g h names [] where
  clocks := hgh.clocks
  ports := ⟨[], by rw [hgh.ports, List.append_nil], by simp⟩
  states := by rw [hgh.states, List.append_nil]
  memoryAccesses := hgh.memoryAccesses
  memoryWrites := hgh.memoryWrites

namespace AddsClocks

variable {g h k : Graph} {names names' : List String} {added added' : List State}

theorem trans (hgh : AddsClocks g h names added) (hhk : AddsClocks h k names' added')
    (hnames : names ⊆ names') : AddsClocks g k names' (added ++ added') where
  clocks := by rw [hhk.clocks, hgh.clocks]
  ports := by
    obtain ⟨new, hnew, hinput⟩ := hgh.ports
    obtain ⟨new', hnew', hinput'⟩ := hhk.ports
    refine ⟨new ++ new', by rw [hnew', hnew, List.append_assoc], fun p hp => ?_⟩
    rcases List.mem_append.mp hp with hp | hp
    · exact ⟨(hinput p hp).1, hnames (hinput p hp).2⟩
    · exact hinput' p hp
  states := by rw [hhk.states, hgh.states, List.append_assoc]
  memoryAccesses := by rw [hhk.memoryAccesses, hgh.memoryAccesses]
  memoryWrites := by rw [hhk.memoryWrites, hgh.memoryWrites]

/-- Clocks of other names find the port they would have found before. -/
theorem levelPort (hgh : AddsClocks g h names added) {name : String} (hname : name ∉ names) :
    h.levelPort name = g.levelPort name := by
  obtain ⟨new, hnew, hinput⟩ := hgh.ports
  have hnone : (new.filter fun p => p.input && p.name == name) = [] := by
    rw [List.filter_eq_nil_iff]
    intro p hp hboth
    simp only [Bool.and_eq_true, beq_iff_eq] at hboth
    exact hname (hboth.2 ▸ (hinput p hp).2)
  unfold Graph.levelPort
  rw [hnew, List.filter_append, hnone, List.append_nil]

end AddsClocks

theorem pushLeaf_spec {g : Graph} (hg : g.Wf) {n : Node} (hn : n.Quiet) :
    let h : Graph := { g with nodes := g.nodes.push n }
    h.Wf ∧ Extends g h ∧ h.nodes[owner g.bound]? = some n ∧ h.aliases[g.bound]? = none ∧
      66 ≤ g.bound ∧ g.bound < h.bound ∧ lane g.bound = 0 := by
  intro h
  have hbound : h.bound = g.bound + 64 := by
    unfold Graph.bound nodeBase
    simp only [h, Array.size_push]
    omega
  have howner : owner g.bound = g.nodes.size := by
    unfold Graph.bound owner nodeBase
    omega
  refine ⟨fun b s hs => ⟨(hg b s hs).1, ?_⟩,
    ⟨fun i m hm => ?_, ⟨[n], ?_, ?_⟩, fun _ hlook => hlook, fun _ _ h => h, by omega, rfl⟩, ?_,
    hg.getElem?_aliases_of_ge (Nat.le_refl _), ?_, by omega, ?_⟩
  · have := (hg b s hs).2
    omega
  · have hlt := owner_lt_size hm
    simp only [h, Array.getElem?_push]
    rw [if_neg (by omega)]
    exact hm
  · exact Array.toList_push
  · intro m hm
    rw [List.mem_singleton.mp hm]
    exact hn
  · rw [howner]
    simp [h]
  · unfold Graph.bound nodeBase
    omega
  · unfold Graph.bound lane nodeBase
    omega

theorem clockLevel_ok {clock : Clock} {g h : Graph} {v : Value} (hg : g.Wf)
    (hlen : v.length = 1) (hrun : Ok (clockLevel clock) g v h) :
    ∃ l, v = [l] ∧ h.Wf ∧ Extends g h ∧ LevelOf g h clock l ∧
      AddsClocks g h [clock.name] [] := by
  obtain ⟨l, rfl⟩ := eq_singleton_of_length hlen
  refine ⟨l, rfl, ?_⟩
  replace hrun := ok_get_bind.mp hrun
  rcases ok_ite.mp hrun with ⟨hempty, hrun⟩ | ⟨-, hrun⟩
  · obtain ⟨level, g₁, hwire, hrun⟩ := ok_bind.mp hrun
    obtain ⟨_, g₂, hmodify, hpure⟩ := ok_bind.mp hrun
    obtain rfl := ok_modify.mp hmodify
    obtain ⟨rfl, rfl⟩ := ok_pure.mp hpure
    have hchunks : chunks 64 1 = [0] := rfl
    unfold wire at hwire
    rw [hchunks, ok_foldlM_cons] at hwire
    obtain ⟨parts, g₂, hstep, hdone⟩ := hwire
    obtain ⟨rfl, rfl⟩ := ok_foldlM_nil.mp hdone
    obtain ⟨part, g₃, hadd, hpure⟩ := ok_bind.mp hstep
    obtain ⟨hparts, rfl⟩ := ok_pure.mp hpure
    obtain ⟨hpart, rfl⟩ := add_leaf_ok (.inr rfl) (by simp) hg hadd
    obtain rfl : l = g.bound := by simpa [hpart] using hparts.symm
    obtain ⟨hwf, hext, hnode, hfree, hbounds⟩ :=
      pushLeaf_spec hg (n := ⟨.input, 1, [], [], [], clock.name ++ ":" ++ toString 0,
        g.currentScope⟩) ⟨rfl, rfl⟩
    refine ⟨hwf, hext.of_logic rfl rfl rfl, .inr ⟨List.isEmpty_iff.mp hempty, Nat.le_refl _,
      hbounds, hfree, _, hnode, rfl, rfl⟩, rfl, ⟨_, rfl, ?_⟩, (List.append_nil _).symm, rfl, rfl⟩
    intro p hp
    rw [List.mem_singleton.mp hp]
    exact ⟨rfl, List.mem_singleton.mpr rfl⟩
  · obtain ⟨hv, rfl⟩ := ok_pure.mp hrun
    exact ⟨hg, Extends.refl g, .inl hv, (SameRecords.refl g).addsClocks _⟩

structure AddsClock (g h : Graph) (clock : Clock) (c : ClockBits) : Prop where
  wf : h.Wf
  logic : Extends g h
  records : AddsClocks g h [clock.name] [c.history]
  watches : Watches h c
  level : LevelOf g h clock c.level
  previous : g.bound ≤ c.previous

theorem clockEdge_ok {clock : Clock} {g h : Graph} {e : Value × Value} (hg : g.Wf)
    (hrun : Ok (clockEdge clock) g e h) :
    ∃ c : ClockBits, e = ([c.rising], [c.falling]) ∧ AddsClock g h clock c := by
  obtain ⟨level, g₁, hlevel, hrun⟩ := ok_bind.mp hrun
  rcases ok_ite.mp hrun with ⟨-, hthrow⟩ | ⟨hlen, hrun⟩
  · exact absurd hthrow (by simp)
  obtain ⟨l, rfl, hwf₁, hext₁, hlevelOf, hrecords₁⟩ := clockLevel_ok hg (not_not.mp hlen) hlevel
  obtain ⟨previous, g₂, hprevious, hrun⟩ := ok_bind.mp hrun
  obtain ⟨rfl, hg₂⟩ := add_leaf_ok (.inl rfl) (by simp [constant]) hwf₁ hprevious
  obtain ⟨hwf₂, hext₂, hnode, hfree, hbounds⟩ := pushLeaf_spec hwf₁
    (n := ⟨.state, 1, constant 0 1, [], [], "event history", g₁.currentScope⟩) ⟨rfl, rfl⟩
  rw [← hg₂] at hwf₂ hext₂ hnode hfree hbounds
  have hrecords₂ : SameRecords g₁ g₂ := by
    rw [hg₂]
    exact ⟨rfl, rfl, rfl, rfl, rfl⟩
  obtain ⟨wasLow, g₃, hrun₃, hrun⟩ := ok_bind.mp hrun
  obtain ⟨wasLow, rfl, hwf₃, hext₃, hrecords₃, hwasLow⟩ := not_bit _ hwf₂ hrun₃
  obtain ⟨rising, g₄, hrun₄, hrun⟩ := ok_bind.mp hrun
  obtain ⟨rising, rfl, hwf₄, hext₄, hrecords₄, hrising⟩ := and_bit _ _ hwf₃ hrun₄
  obtain ⟨isLow, g₅, hrun₅, hrun⟩ := ok_bind.mp hrun
  obtain ⟨isLow, rfl, hwf₅, hext₅, hrecords₅, hisLow⟩ := not_bit _ hwf₄ hrun₅
  obtain ⟨falling, g₆, hrun₆, hrun⟩ := ok_bind.mp hrun
  obtain ⟨falling, rfl, hwf₆, hext₆, hrecords₆, hfalling⟩ := and_bit _ _ hwf₅ hrun₆
  obtain ⟨_, g₇, hmodify, hpure⟩ := ok_bind.mp hrun
  obtain ⟨rfl, rfl⟩ := ok_pure.mp hpure
  obtain rfl := ok_modify.mp hmodify
  have hext₆' : Extends g₂ g₆ := ((hext₃.trans hext₄).trans hext₅).trans hext₆
  have hrecords : SameRecords g₁ g₆ :=
    (((hrecords₂.trans hrecords₃).trans hrecords₄).trans hrecords₅).trans hrecords₆
  let c : ClockBits := ⟨l, g₁.bound, rising, falling⟩
  have hlast : Extends g₂ { g₆ with states := g₆.states ++ [c.history] } :=
    hext₆'.of_logic rfl rfl rfl
  refine ⟨c, rfl, hwf₆, (hext₁.trans hext₂).trans hlast, ?_, ?_, ?_, hext₁.bound_le⟩
  · have hadded : AddsClocks g₁ { g₆ with states := g₆.states ++ [c.history] } [clock.name]
        [c.history] := by
      have := hrecords.addsClocks [clock.name]
      exact ⟨this.clocks, this.ports, by rw [hrecords.states], this.memoryAccesses,
        this.memoryWrites⟩
    exact hrecords₁.trans hadded (List.Subset.refl _)
  · refine ⟨⟨hbounds.1, ?_, hbounds.2.2⟩, ?_, ?_, ?_⟩
    · exact Nat.lt_of_lt_of_le hbounds.2.1 hlast.bound_le
    · exact hlast.free _ hbounds.2.1 hfree
    · exact ⟨_, hlast.nodes _ _ hnode, rfl, rfl, rfl⟩
    · intro w hexempt hw x p hx hp fell
      have hw₆ : Respects g₆ w := ⟨hw.memories, hw.zero, hw.one, hw.aliased, hw.node⟩
      have hw₅ := hext₆.respects hw₆
      have hw₄ := hext₅.respects hw₅
      have hw₃ := hext₄.respects hw₄
      cases fell with
      | false =>
          exact hrising w hexempt hw₄ _ _ hx (hwasLow w hexempt hw₃ _ hw.consts hp)
      | true =>
          rw [show (if true then !x && p else x && !p) = (p && !x) by simp [Bool.and_comm]]
          exact hfalling w hexempt hw₆ _ _ hp (hisLow w hexempt hw₅ _ hw.consts hx)
  · rcases hlevelOf with hport | ⟨hnone, hge, hfresh⟩
    · exact .inl hport
    · exact .inr ⟨hnone, hge, hfresh.mono (hext₂.trans hlast)⟩

theorem LevelOf.mono {g h k : Graph} {clock : Clock} {l : Nat} (hl : LevelOf g h clock l)
    (hhk : Extends h k) : LevelOf g k clock l :=
  hl.imp id fun ⟨hnone, hge, hfresh⟩ => ⟨hnone, hge, hfresh.mono hhk⟩

/-- What the loop over the clocks adds: the bits `cs` for the clocks `done`. -/
structure AddsAll (g h : Graph) (done : List Clock) (cs : List ClockBits) : Prop where
  wf : h.Wf
  logic : Extends g h
  records : AddsClocks g h (done.map Clock.name) (cs.map ClockBits.history)
  watches : ∀ c ∈ cs, Watches h c
  levels : List.Forall₂ (fun clock c => LevelOf g h clock c.level) done cs
  level_lt : ∀ c ∈ cs, c.level < h.bound
  previous_ge : ∀ c ∈ cs, g.bound ≤ c.previous
  apart : cs.Pairwise fun c d => c.previous < d.previous ∧ (g.bound ≤ d.level → c.level < d.level)

namespace AddsAll

variable {g h : Graph}

theorem nil (hg : g.Wf) : AddsAll g g [] [] where
  wf := hg
  logic := .refl g
  records := (SameRecords.refl g).addsClocks _
  watches := by simp
  levels := .nil
  level_lt := by simp
  previous_ge := by simp
  apart := .nil

theorem snoc {k : Graph} {done : List Clock} {cs : List ClockBits} {clock : Clock} {c : ClockBits}
    (hgh : AddsAll g h done cs) (hports : ∀ p ∈ g.ports, ∀ b ∈ p.bits, b < g.bound)
    (hname : clock.name ∉ done.map Clock.name) (hhk : AddsClock h k clock c) :
    AddsAll g k (done ++ [clock]) (cs ++ [c]) := by
  have hport : h.levelPort clock.name = g.levelPort clock.name := hgh.records.levelPort hname
  have hlevel : LevelOf g k clock c.level ∧ (g.bound ≤ c.level → h.bound ≤ c.level) ∧
      c.level < k.bound := by
    rcases hhk.level with hold | ⟨hnone, hge, hfresh⟩
    · rw [hport] at hold
      have hlt : c.level < g.bound := by
        unfold Graph.levelPort at hold
        cases hlast : (g.ports.filter fun p => p.input && p.name == clock.name).getLast? with
        | none => simp [hlast] at hold
        | some p =>
            have hp := (List.mem_filter.mp (List.mem_of_getLast? hlast)).1
            refine hports p hp _ ?_
            rw [hlast] at hold
            have hbits : p.bits = [c.level] := hold
            rw [hbits]
            exact List.mem_singleton_self _
      have := hgh.logic.bound_le
      have := hhk.logic.bound_le
      exact ⟨.inl hold, fun hge => absurd hge (by omega), by omega⟩
    · rw [hport] at hnone
      exact ⟨.inr ⟨hnone, Nat.le_trans hgh.logic.bound_le hge, hfresh⟩, fun _ => hge,
        hfresh.bound.2.1⟩
  refine ⟨hhk.wf, hgh.logic.trans hhk.logic, ?_, fun d hd => ?_, ?_, fun d hd => ?_,
    fun d hd => ?_, ?_⟩
  · rw [List.map_append, List.map_append]
    refine hgh.records.trans ?_ (List.subset_append_left _ _)
    exact {
      hhk.records with
      ports := by
        obtain ⟨new, hnew, hinput⟩ := hhk.records.ports
        exact ⟨new, hnew, fun p hp => ⟨(hinput p hp).1, List.mem_append_right _ (hinput p hp).2⟩⟩ }
  · rcases List.mem_append.mp hd with hd | hd
    · exact (hgh.watches d hd).mono hhk.logic
    · rw [List.mem_singleton.mp hd]
      exact hhk.watches
  · refine List.rel_append ?_ (.cons hlevel.1 .nil)
    exact hgh.levels.imp fun _ _ hl => hl.mono hhk.logic
  · rcases List.mem_append.mp hd with hd | hd
    · exact Nat.lt_of_lt_of_le (hgh.level_lt d hd) hhk.logic.bound_le
    · rw [List.mem_singleton.mp hd]
      exact hlevel.2.2
  · rcases List.mem_append.mp hd with hd | hd
    · exact hgh.previous_ge d hd
    · rw [List.mem_singleton.mp hd]
      exact Nat.le_trans hgh.logic.bound_le hhk.previous
  · rw [List.pairwise_append]
    refine ⟨hgh.apart, List.pairwise_singleton _ _, fun d hd e he => ?_⟩
    rw [List.mem_singleton.mp he]
    have := (hgh.watches d hd).previous.2.1
    have := hhk.previous
    have := hgh.level_lt d hd
    exact ⟨by omega, fun hge => Nat.lt_of_lt_of_le this (hlevel.2.1 hge)⟩

end AddsAll

theorem clockEdges_ok {g h : Graph} {edges : List (Value × Value)} (hg : g.Wf)
    (hports : ∀ p ∈ g.ports, ∀ b ∈ p.bits, b < g.bound) (hnames : (g.clocks.map Clock.name).Nodup)
    (hrun : Ok (g.clocks.mapM clockEdge) g edges h) :
    ∃ cs : List ClockBits, edges = cs.map (fun c => ([c.rising], [c.falling])) ∧
      AddsAll g h g.clocks cs := by
  refine ok_mapM hrun (fun done edges h => ∃ cs : List ClockBits,
    edges = cs.map (fun c => ([c.rising], [c.falling])) ∧ AddsAll g h done cs)
    ⟨[], rfl, .nil hg⟩ ?_
  rintro done clock edges e h k hbefore ⟨cs, rfl, hadds⟩ hstep
  obtain ⟨c, rfl, hclock⟩ := clockEdge_ok hadds.wf hstep
  refine ⟨cs ++ [c], by rw [List.map_append]; rfl, hadds.snoc hports ?_ hclock⟩
  -- a name that was converted before does not come again
  have := hnames.sublist ((hbefore.map Clock.name).sublist)
  rw [List.map_append, List.nodup_append] at this
  exact fun hmem => this.2.2 _ hmem _ (by simp) rfl

/-! ## What the conversion does to a record -/

/-- The condition of a record also waits for its edge now. -/
def Gated (h : Graph) (cs : List ClockBits) (clock : Int) (falling : Bool)
    (enable enable' : Value) : Prop :=
  ∃ b t c, enable = [b] ∧ enable' = [t] ∧ 0 ≤ clock ∧ cs[clock.toNat]? = some c ∧
    ∀ w : World, (∀ b, ¬ w.exempt b) → Respects h w → ∀ v e, w.look b = some v →
      w.look (c.edge falling) = some e → w.look t = some (v && e)

theorem Gated.mono {g h : Graph} {cs : List ClockBits} {clock : Int} {falling : Bool}
    {enable enable' : Value} (hgh : Extends g h) (hgate : Gated g cs clock falling enable enable') :
    Gated h cs clock falling enable enable' := by
  obtain ⟨b, t, c, henable, henable', hclock, hc, hreads⟩ := hgate
  exact ⟨b, t, c, henable, henable', hclock, hc,
    fun w hexempt hw => hreads w hexempt (hgh.respects hw)⟩

structure AddsLogic (g h : Graph) : Prop where
  wf : h.Wf
  logic : Extends g h
  records : SameRecords g h

theorem AddsLogic.refl {g : Graph} (hg : g.Wf) : AddsLogic g g := ⟨hg, .refl g, .refl g⟩

theorem AddsLogic.trans {g h k : Graph} (hgh : AddsLogic g h) (hhk : AddsLogic h k) :
    AddsLogic g k :=
  ⟨hhk.wf, hgh.logic.trans hhk.logic, hgh.records.trans hhk.records⟩

theorem qualify_ok {cs : List ClockBits} {enable v : Value} {clock : Int} {falling : Bool}
    {g h : Graph} (hg : g.Wf) (henable : enable.length = 1)
    (hrun : Ok (qualify (cs.map fun c => ([c.rising], [c.falling])) enable clock falling) g v h) :
    AddsLogic g h ∧ Gated h cs clock falling enable v := by
  obtain ⟨b, rfl⟩ := eq_singleton_of_length henable
  rcases ok_ite.mp hrun with ⟨-, hthrow⟩ | ⟨hclock, hrun⟩
  · exact absurd hthrow (by simp)
  rw [List.length_map] at hclock
  push Not at hclock
  have hget := List.getElem?_eq_getElem hclock.2
  have hedge : (if falling then (((cs.map fun c => (([c.rising], [c.falling]) : Value × Value)).getD
      clock.toNat ([], [])).2) else ((cs.map fun c => ([c.rising], [c.falling])).getD
      clock.toNat ([], [])).1) = [cs[clock.toNat].edge falling] := by
    rw [List.getD_eq_getElem?_getD, List.getElem?_map, hget]
    cases falling <;> rfl
  change Ok (binary .and [b] (if falling then _ else _) 1) g v h at hrun
  rw [hedge] at hrun
  obtain ⟨t, rfl, hwf, hext, hrecords, hreads⟩ := and_bit _ _ hg hrun
  exact ⟨⟨hwf, hext, hrecords⟩, b, t, _, rfl, rfl, hclock.1, hget, hreads⟩

/-- A register without a clock is left alone. -/
def StateGated (cs : List ClockBits) (h : Graph) (s s' : State) : Prop :=
  s.clock < 0 ∧ s' = s ∨
    s' = { s with trigger := s'.trigger, clock := -1, falling := false } ∧
      Gated h cs s.clock s.falling s.trigger s'.trigger

/-- A combinational read is not clocked. -/
def AccessGated (cs : List ClockBits) (h : Graph) (a a' : MemoryAccess) : Prop :=
  a' = { a with enabled := a'.enabled, clock := -1, falling := false } ∧
    if a.transaction then Gated h cs a.clock a.falling a.enabled a'.enabled
    else a'.enabled = a.enabled

def WriteGated (cs : List ClockBits) (h : Graph) (w w' : MemoryWrite) : Prop :=
  w' = { w with enabled := w'.enabled, clock := -1, falling := false } ∧
    Gated h cs w.clock w.falling w.enabled w'.enabled

section

variable {cs : List ClockBits} {g h : Graph}

theorem qualifyState_ok {s s' : State} (hg : g.Wf) (htrigger : 0 ≤ s.clock → s.trigger.length = 1)
    (hrun : Ok (qualifyState (cs.map fun c => ([c.rising], [c.falling])) s) g s' h) :
    AddsLogic g h ∧ StateGated cs h s s' := by
  rcases ok_ite.mp hrun with ⟨hclock, hrun⟩ | ⟨hclock, hrun⟩
  · obtain ⟨rfl, rfl⟩ := ok_pure.mp hrun
    exact ⟨.refl hg, .inl ⟨hclock, rfl⟩⟩
  · obtain ⟨trigger, h', hqualify, hpure⟩ := ok_bind.mp hrun
    obtain ⟨rfl, rfl⟩ := ok_pure.mp hpure
    obtain ⟨hadds, hgate⟩ := qualify_ok hg (htrigger (by omega)) hqualify
    exact ⟨hadds, .inr ⟨rfl, hgate⟩⟩

theorem qualifyAccess_ok {a a' : MemoryAccess} (hg : g.Wf) (henabled : a.enabled.length = 1)
    (hrun : Ok (qualifyAccess (cs.map fun c => ([c.rising], [c.falling])) a) g a' h) :
    AddsLogic g h ∧ AccessGated cs h a a' := by
  unfold AccessGated
  rcases ok_ite.mp hrun with ⟨htransaction, hrun⟩ | ⟨htransaction, hrun⟩
  · obtain ⟨enabled, h', hqualify, hpure⟩ := ok_bind.mp hrun
    obtain ⟨rfl, rfl⟩ := ok_pure.mp hpure
    obtain ⟨hadds, hgate⟩ := qualify_ok hg henabled hqualify
    rw [if_pos htransaction]
    exact ⟨hadds, rfl, hgate⟩
  · obtain ⟨rfl, rfl⟩ := ok_pure.mp hrun
    rw [if_neg htransaction]
    exact ⟨.refl hg, rfl, rfl⟩

theorem qualifyWrite_ok {w w' : MemoryWrite} (hg : g.Wf) (henabled : w.enabled.length = 1)
    (hrun : Ok (qualifyWrite (cs.map fun c => ([c.rising], [c.falling])) w) g w' h) :
    AddsLogic g h ∧ WriteGated cs h w w' := by
  obtain ⟨enabled, h', hqualify, hpure⟩ := ok_bind.mp hrun
  obtain ⟨rfl, rfl⟩ := ok_pure.mp hpure
  obtain ⟨hadds, hgate⟩ := qualify_ok hg henabled hqualify
  exact ⟨hadds, rfl, hgate⟩

theorem StateGated.mono {k : Graph} {s s' : State} (hhk : Extends h k)
    (hgate : StateGated cs h s s') : StateGated cs k s s' :=
  hgate.imp id fun ⟨heq, hgate⟩ => ⟨heq, hgate.mono hhk⟩

theorem AccessGated.mono {k : Graph} {a a' : MemoryAccess} (hhk : Extends h k)
    (hgate : AccessGated cs h a a') : AccessGated cs k a a' := by
  obtain ⟨heq, henabled⟩ := hgate
  refine ⟨heq, ?_⟩
  by_cases htransaction : a.transaction = true
  · rw [if_pos htransaction] at henabled ⊢
    exact henabled.mono hhk
  · rw [if_neg htransaction] at henabled ⊢
    exact henabled

theorem WriteGated.mono {k : Graph} {w w' : MemoryWrite} (hhk : Extends h k)
    (hgate : WriteGated cs h w w') : WriteGated cs k w w' := ⟨hgate.1, hgate.2.mono hhk⟩

theorem convertAll_ok {α : Type} {f : α → GraphM α} {R : Graph → α → α → Prop} {l l' : List α}
    (hmono : ∀ {h k : Graph} {a a' : α}, Extends h k → R h a a' → R k a a')
    (hf : ∀ a ∈ l, ∀ {g h : Graph} {a' : α}, g.Wf → Ok (f a) g a' h →
      AddsLogic g h ∧ R h a a')
    (hg : g.Wf) (hrun : Ok (l.mapM f) g l' h) : AddsLogic g h ∧ List.Forall₂ (R h) l l' := by
  refine ok_mapM hrun (fun done outs h => AddsLogic g h ∧ List.Forall₂ (R h) done outs)
    ⟨.refl hg, .nil⟩ ?_
  rintro done a outs a' h k hbefore ⟨hadds, hdone⟩ hstep
  have ha : a ∈ l := hbefore.subset (by simp)
  obtain ⟨hnew, hR⟩ := hf a ha hadds.wf hstep
  refine ⟨hadds.trans hnew, List.rel_append ?_ (.cons hR .nil)⟩
  exact hdone.imp fun _ _ hR => hmono hnew.logic hR

end

/-! ## The whole conversion -/

/-- What `h` is to a graph `k` with clocks that it was converted from. -/
structure Converts (k h : Graph) (cs : List ClockBits) : Prop where
  wf : h.Wf
  logic : Extends k h
  clocks : h.clocks = []
  contract : h.clockContract = .explicitEvents
  ports : ∃ new, h.ports = k.ports ++ new ∧ ∀ p ∈ new, p.input = true
  states : ∃ states, h.states = states ++ cs.map ClockBits.history ∧
    List.Forall₂ (StateGated cs h) k.states states
  memoryAccesses : List.Forall₂ (AccessGated cs h) k.memoryAccesses h.memoryAccesses
  memoryWrites : List.Forall₂ (WriteGated cs h) k.memoryWrites h.memoryWrites
  resets : ∀ s ∈ k.states, s.reset = []
  watches : ∀ c ∈ cs, Watches h c
  levels : List.Forall₂ (fun clock c => LevelOf k h clock c.level) k.clocks cs
  level_lt : ∀ c ∈ cs, c.level < h.bound
  previous_ge : ∀ c ∈ cs, k.bound ≤ c.previous
  apart : cs.Pairwise fun c d => c.previous < d.previous ∧ (k.bound ≤ d.level → c.level < d.level)

/-- Histories have no clock, so they pass the loop over the states. -/
theorem stateGated_histories {cs ds : List ClockBits} {h : Graph} {states : List State}
    (hgate : List.Forall₂ (StateGated cs h) (ds.map ClockBits.history) states) :
    states = ds.map ClockBits.history := by
  induction ds generalizing states with
  | nil =>
      cases hgate
      rfl
  | cons d ds ih =>
      obtain ⟨s', rest, hd, hrest, rfl⟩ := List.forall₂_cons_left_iff.mp hgate
      rcases hd with ⟨-, rfl⟩ | ⟨-, b, t, c, -, -, hclock, -⟩
      · rw [ih hrest, List.map_cons]
      · exact absurd hclock (by simp [ClockBits.history])

theorem explicitClockEvents_ok {name : String} {g h : Graph} (hg : g.Wf)
    (hcontract : g.clockContract ≠ .explicitEvents)
    (hports : ∀ p ∈ g.ports, ∀ b ∈ p.bits, b < g.bound)
    (hnames : ((g.withDefaultClock name).clocks.map Clock.name).Nodup)
    (htriggers : ∀ s ∈ (g.withDefaultClock name).states, 0 ≤ s.clock → s.trigger.length = 1)
    (haccesses : ∀ a ∈ g.memoryAccesses, a.enabled.length = 1)
    (hwrites : ∀ w ∈ g.memoryWrites, w.enabled.length = 1)
    (hrun : Ok (explicitClockEvents name) g () h) :
    ∃ cs, Converts (g.withDefaultClock name) h cs := by
  replace hrun := ok_get_bind.mp hrun
  rw [if_neg hcontract] at hrun
  rcases ok_ite.mp hrun with ⟨-, hthrow⟩ | ⟨-, hrun⟩
  · exact absurd hthrow (by simp)
  obtain ⟨_, k, hset, hrun⟩ := ok_bind.mp hrun
  obtain rfl := ok_set.mp hset
  generalize hk : g.withDefaultClock name = k at hrun hnames htriggers ⊢
  -- the default clock changes neither the logic nor the shape of a record
  have hwf : k.Wf := by
    rw [← hk]
    unfold Graph.withDefaultClock
    split <;> exact hg
  have hkports : ∀ p ∈ k.ports, ∀ b ∈ p.bits, b < k.bound := by
    rw [← hk]
    unfold Graph.withDefaultClock
    split <;> exact hports
  have hkaccesses : ∀ a ∈ k.memoryAccesses, a.enabled.length = 1 := by
    rw [← hk]
    unfold Graph.withDefaultClock
    split
    · intro a ha
      obtain ⟨b, hb, rfl⟩ := List.mem_map.mp ha
      exact haccesses b hb
    · exact haccesses
  have hkwrites : ∀ w ∈ k.memoryWrites, w.enabled.length = 1 := by
    rw [← hk]
    unfold Graph.withDefaultClock
    split
    · intro w hw
      obtain ⟨v, hv, rfl⟩ := List.mem_map.mp hw
      exact hwrites v hv
    · exact hwrites
  replace hrun := ok_get_bind.mp hrun
  rcases ok_ite.mp hrun with ⟨-, hthrow⟩ | ⟨hreset, hrun⟩
  · exact absurd hthrow (by simp)
  have hresets : ∀ s ∈ k.states, s.reset = [] := by
    intro s hs
    by_contra hne
    exact hreset (List.any_eq_true.mpr ⟨s, hs, by simpa using hne⟩)
  obtain ⟨edges, g₁, hedges, hrun⟩ := ok_bind.mp hrun
  obtain ⟨cs, rfl, hadds⟩ := clockEdges_ok hwf hkports hnames hedges
  replace hrun := ok_get_bind.mp hrun
  obtain ⟨states, g₂, hstates, hrun⟩ := ok_bind.mp hrun
  have htriggers₁ : ∀ s ∈ g₁.states, 0 ≤ s.clock → s.trigger.length = 1 := by
    rw [hadds.records.states]
    intro s hs hclock
    rcases List.mem_append.mp hs with hs | hs
    · exact htriggers s hs hclock
    · obtain ⟨c, -, rfl⟩ := List.mem_map.mp hs
      rfl
  obtain ⟨hadds₂, hstates⟩ := convertAll_ok (R := StateGated cs) StateGated.mono
    (fun s hs _ _ _ hwf hstep => qualifyState_ok hwf (htriggers₁ s hs) hstep) hadds.wf hstates
  obtain ⟨memoryAccesses, g₃, haccess, hrun⟩ := ok_bind.mp hrun
  rw [hadds.records.memoryAccesses] at haccess
  obtain ⟨hadds₃, haccess⟩ := convertAll_ok (R := AccessGated cs) AccessGated.mono
    (fun a ha _ _ _ hwf hstep => qualifyAccess_ok hwf (hkaccesses a ha) hstep) hadds₂.wf haccess
  obtain ⟨memoryWrites, g₄, hwrite, hmodify⟩ := ok_bind.mp hrun
  rw [hadds.records.memoryWrites] at hwrite
  obtain ⟨hadds₄, hwrite⟩ := convertAll_ok (R := WriteGated cs) WriteGated.mono
    (fun w hw _ _ _ hwf hstep => qualifyWrite_ok hwf (hkwrites w hw) hstep) hadds₃.wf hwrite
  obtain rfl := ok_modify.mp hmodify
  have hadds₁₄ := (hadds₂.trans hadds₃).trans hadds₄
  have hlast : Extends g₄ { g₄ with
      states, memoryAccesses, memoryWrites, clocks := [], clockContract := .explicitEvents } :=
    (Extends.refl g₄).of_logic rfl rfl rfl
  have hlast₁ := hadds₁₄.logic.trans hlast
  refine ⟨cs, hadds₄.wf, hadds.logic.trans hlast₁, rfl, rfl, ?_, ?_, ?_, ?_, hresets,
    fun c hc => (hadds.watches c hc).mono hlast₁,
    hadds.levels.imp fun _ _ hl => hl.mono hlast₁,
    fun c hc => Nat.lt_of_lt_of_le (hadds.level_lt c hc) hlast₁.bound_le,
    hadds.previous_ge, hadds.apart⟩
  · obtain ⟨new, hnew, hinput⟩ := hadds.records.ports
    exact ⟨new, hadds₁₄.records.ports.trans hnew, fun p hp => (hinput p hp).1⟩
  · rw [hadds.records.states] at hstates
    obtain ⟨ss, hs, rfl, hss, hhs⟩ : ∃ ss hs, states = ss ++ hs ∧
        List.Forall₂ (StateGated cs g₂) k.states ss ∧
        List.Forall₂ (StateGated cs g₂) (cs.map ClockBits.history) hs := by
      refine ⟨states.take k.states.length, states.drop k.states.length,
        (List.take_append_drop _ _).symm, ?_, ?_⟩
      · simpa using List.forall₂_take k.states.length hstates
      · simpa using List.forall₂_drop k.states.length hstates
    refine ⟨ss, ?_, hss.imp fun _ _ hgate =>
      hgate.mono ((hadds₃.trans hadds₄).logic.trans hlast)⟩
    rw [stateGated_histories hhs]
  · exact haccess.imp fun _ _ hgate => hgate.mono (hadds₄.logic.trans hlast)
  · exact hwrite.imp fun _ _ hgate => hgate.mono hlast

end CppHdl
