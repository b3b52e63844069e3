import CppHdl.Graph.Events

/-!
# Converted clocks on every waveform

What a graph with clocks does on a waveform of clock levels: a named clock
compares its level with the level at the last commit (`Graph.edge`), and a
graph that takes one step a rising edge takes it at the samples where its clock
rises. `explicitClockEvents_faithful` says that the converted graph, stepped at
every sample, shows the same outputs and has the same registers and memories
after every sample; its history registers hold the last levels.
-/

namespace CppHdl

open Failing

/-! ## The reference -/

/-- The level of the clock of a graph that steps on rising edges: the input
port of that name, if there is one. -/
def Graph.sampledLevel (g : Graph) (defaultClock : String) (look : Nat → Option Bool)
    (x : Stimulus) : Option Bool :=
  match g.levelPort defaultClock with
  | [] => some (x.clock 0)
  | bits => flag look bits

/-- One sample of the levels and inputs, for given values of the bits. A graph
that steps on rising edges takes its step where its clock rises; at the other
samples nothing is committed. -/
def Graph.sample (g : Graph) (defaultClock : String) (look : Nat → Option Bool) (x : Stimulus)
    (s : Store) : Option (List (String × List Bool) × Store) := do
  let (shown, next) ← g.cycle look x s
  match g.clockContract with
  | .risingEdgeStep =>
      let level ← g.sampledLevel defaultClock look x
      pure (shown.outputs, if level && !s.clock 0 then { next with clock := fun _ => level }
        else { s with clock := fun _ => level })
  | _ => pure (shown.outputs, next)

noncomputable def Graph.onWaveform (P : Primitives) (g : Graph) (defaultClock : String) :
    Machine Stimulus (List (String × List Bool)) Store where
  step x s := g.sample defaultClock (g.value P (g.env x s)) x s

theorem Graph.sample_mono (g : Graph) (defaultClock : String) {f h : Nat → Option Bool}
    (hfh : Below f h) (x : Stimulus) (s : Store) :
    Refines (g.sample defaultClock f x s) (g.sample defaultClock h x s) := by
  have hlevel : Refines (g.sampledLevel defaultClock f x) (g.sampledLevel defaultClock h x) := by
    unfold Graph.sampledLevel
    split
    · exact Refines.refl _
    · exact flag_mono hfh _
  unfold Graph.sample
  refine (g.cycle_mono hfh x s).bind fun r => ?_
  obtain ⟨shown, next⟩ := r
  cases g.clockContract with
  | risingEdgeStep => exact hlevel.bind fun _ => Refines.refl _
  | explicitEvents => exact Refines.refl _
  | namedEdges => exact Refines.refl _

/-- The waveform with the bits evaluated in finitely many rounds, to run. -/
def Graph.sampledWaveform (P : Primitives) (g : Graph) (defaultClock : String) (fuel : Nat) :
    Machine Stimulus (List (String × List Bool)) Store where
  step x s := g.sample defaultClock (g.evaluate P (g.env x s) fuel) x s

theorem Graph.onWaveform_of_sampled (P : Primitives) (g : Graph) (defaultClock : String)
    (fuel : Nat) (x : Stimulus) (s : Store) (p : List (String × List Bool) × Store)
    (h : (g.sampledWaveform P defaultClock fuel).step x s = some p) :
    (g.onWaveform P defaultClock).step x s = some p :=
  g.sample_mono defaultClock (fun _ _ h => g.value_of_evaluate P _ fuel h) x s p h

/-! ## Corresponding samples and stores -/

/-- The converted graph sees the inputs of the graph, and a clock without a
port of its own as a new input. -/
structure Sampled (g : Graph) (cs : List ClockBits) (x y : Stimulus) : Prop where
  leaf : ∀ b, b < g.bound → y.leaf b = x.leaf b
  projection : y.projection = x.projection
  level : ∀ (i : Nat) (c : ClockBits), cs[i]? = some c → g.bound ≤ c.level →
    y.leaf c.level = x.clock i

/-- The converted graph has the registers and memories of the graph, and the
last levels in its histories. -/
structure Recorded (g : Graph) (cs : List ClockBits) (s t : Store) : Prop where
  register : ∀ b, b < g.bound → t.register b = s.register b
  memory : t.memory = s.memory
  history : ∀ (i : Nat) (c : ClockBits), cs[i]? = some c → t.register c.previous = s.clock i

/-! ## The values of old bits -/

/-- The parts of an environment that a graph looks at. -/
structure Env.Agrees (g : Graph) (env env' : Env) : Prop where
  leaf : ∀ b n, 66 ≤ b → g.nodes[owner b]? = some n → env.leaf b = env'.leaf b
  memory : env.memory = env'.memory
  projection : env.projection = env'.projection
  undriven : env.undriven = env'.undriven

theorem Node.laneValue_env (P : Primitives) (memories : List Memory) {env env' : Env}
    (hmemory : env.memory = env'.memory) (n : Node) (look : Nat → Option Bool) (i : Nat) :
    n.laneValue P memories env look i = n.laneValue P memories env' look i := by
  obtain ⟨leaf, memory, projection, undriven⟩ := env
  obtain ⟨leaf', memory', projection', undriven'⟩ := env'
  obtain rfl : memory = memory' := hmemory
  rfl

theorem Env.Agrees.value_eq (P : Primitives) {g : Graph} {env env' : Env}
    (h : Env.Agrees g env env') : g.value P env = g.value P env' := by
  have hstep : ∀ look b, g.bitStep P env look b = g.bitStep P env' look b := by
    intro look b
    unfold Graph.bitStep
    split
    · rfl
    · split_ifs with h2 h66
      · rfl
      · rfl
      · cases hn : g.nodes[owner b]? with
        | none => rfl
        | some n =>
            have hlane := n.laneValue_env P g.memories h.memory look (lane b)
            simp only [Node.bitValue, h.leaf b n (by omega) hn, h.projection, h.undriven, hlane]
  funext b
  refine (PartialSystem.value_along (g.system P env') (g.system P env) (fun f f' => f' = f) rfl ?_
    fun f f' hff' => by rw [hff']).trans rfl
  intro f f' hff'
  funext b
  rw [hff']
  exact hstep f b

/-! ## One sample of the converted graph -/

theorem flag_singleton (look : Nat → Option Bool) (b : Nat) : flag look [b] = look b := by
  unfold flag
  rw [List.mapM_cons, List.mapM_nil]
  cases look b with
  | none => rfl
  | some v => cases v <;> rfl

/-- What a sample of the converted graph `h` knows of a sample of `k`: the old
bits have their values and the edge bits of `cs` are the edges of `k`. -/
structure Senses (h : Graph) (cs : List ClockBits) (old : Nat → Option Bool) (edge : Edges)
    (look : Nat → Option Bool) : Prop where
  below : Below old look
  unclocked : ∀ clock falling, clock < 0 → edge clock falling = some true
  respects : ∃ w : World, (∀ b, ¬ w.exempt b) ∧ Respects h w ∧ w.look = look
  edges : ∀ clock falling c e, 0 ≤ clock → cs[clock.toNat]? = some c →
    edge clock falling = some e → look (c.edge falling) = some e

section

variable {h : Graph} {cs : List ClockBits} {old look : Nat → Option Bool} {edge edge' : Edges}

theorem Gated.flag {clock : Int} {falling : Bool} {enable enable' : Value}
    (hgate : Gated h cs clock falling enable enable') (hsenses : Senses h cs old edge look)
    {v e : Bool} (hv : CppHdl.flag old enable = some v) (he : edge clock falling = some e) :
    CppHdl.flag look enable' = some (v && e) := by
  obtain ⟨b, t, c, rfl, rfl, hclock, hc, hreads⟩ := hgate
  obtain ⟨w, hexempt, hw, rfl⟩ := hsenses.respects
  rw [flag_singleton] at hv ⊢
  exact hreads w hexempt hw v e (hsenses.below _ _ hv)
    (hsenses.edges clock falling c e hclock hc he)

/-- A converted state takes over what the state did. -/
theorem StateGated.update {s s' : State} (hgate : StateGated cs h s s')
    (hsenses : Senses h cs old edge look)
    (hedge' : ∀ clock falling, clock < 0 → edge' clock falling = some true)
    {u : Option (List Bool)} (hu : s.update old edge = some u) : s'.update look edge' = some u := by
  simp only [State.update, Option.bind_eq_bind, Option.bind_eq_some_iff, Option.pure_def,
    Option.some.injEq] at hu ⊢
  obtain ⟨next, hnext, trigger, htrigger, clocked, hclocked, reset, hreset, value, hvalue, hu⟩ := hu
  rcases hgate with ⟨hclock, rfl⟩ | ⟨heq, hgate⟩
  · obtain rfl : true = clocked := by
      rw [hsenses.unclocked _ _ hclock] at hclocked
      exact Option.some.inj hclocked
    exact ⟨next, hsenses.below.mapM hnext, trigger, flag_mono hsenses.below _ _ htrigger, true,
      hedge' _ _ hclock, reset, flag_mono hsenses.below _ _ hreset, value,
      hsenses.below.mapM hvalue, hu⟩
  · have htrigger' := hgate.flag hsenses htrigger hclocked
    rw [heq]
    refine ⟨next, hsenses.below.mapM hnext, _, htrigger', true, hedge' (-1) false (by omega), reset,
      flag_mono hsenses.below _ _ hreset, value, hsenses.below.mapM hvalue, ?_⟩
    rw [Bool.and_true]
    exact hu

theorem WriteGated.update {w w' : MemoryWrite} (hgate : WriteGated cs h w w')
    (hsenses : Senses h cs old edge look)
    (hedge' : ∀ clock falling, clock < 0 → edge' clock falling = some true)
    {u : Option (Nat × List Bool)} (hu : w.update old edge = some u) :
    w'.update look edge' = some u := by
  simp only [MemoryWrite.update, Option.bind_eq_bind, Option.bind_eq_some_iff, Option.pure_def,
    Option.some.injEq] at hu ⊢
  obtain ⟨address, haddress, data, hdata, enabled, henabled, clocked, hclocked, hu⟩ := hu
  obtain ⟨heq, hgate⟩ := hgate
  have henabled' := hgate.flag hsenses henabled hclocked
  rw [heq]
  refine ⟨address, hsenses.below.mapM haddress, data, hsenses.below.mapM hdata, _, henabled', true,
    hedge' (-1) false (by omega), ?_⟩
  rw [Bool.true_and, Bool.and_comm]
  exact hu

theorem WriteGated.exceeds {w w' : MemoryWrite} (hgate : WriteGated cs h w w')
    (hsenses : Senses h cs old edge look)
    (hedge' : ∀ clock falling, clock < 0 → edge' clock falling = some true)
    {memories : List Memory} {e : Bool} (he : w.exceeds old edge memories = some e) :
    w'.exceeds look edge' memories = some e := by
  simp only [MemoryWrite.exceeds, Option.bind_eq_bind, Option.bind_eq_some_iff] at he ⊢
  obtain ⟨u, hu, he⟩ := he
  refine ⟨u, hgate.update hsenses hedge' hu, ?_⟩
  rw [hgate.1]
  exact he

theorem AccessGated.exceeds {a a' : MemoryAccess} (hgate : AccessGated cs h a a')
    (hsenses : Senses h cs old edge look)
    (hedge' : ∀ clock falling, clock < 0 → edge' clock falling = some true)
    {memories : List Memory} {e : Bool} (he : a.exceeds old edge memories = some e) :
    a'.exceeds look edge' memories = some e := by
  obtain ⟨heq, hgate⟩ := hgate
  rw [heq]
  unfold MemoryAccess.exceeds at he ⊢
  by_cases htransaction : a.transaction = true
  · simp only [htransaction, if_true, Option.bind_eq_bind, Option.bind_eq_some_iff,
      Option.pure_def, Option.some.injEq] at hgate he ⊢
    obtain ⟨address, haddress, enabled, henabled, clocked, hclocked, past, hpast, he⟩ := he
    refine ⟨address, hsenses.below.mapM haddress, _, hgate.flag hsenses henabled hclocked, true,
      hedge' (-1) false (by omega), past, hpast, ?_⟩
    rw [Bool.true_and, ← he, Bool.and_comm enabled]
  · simp only [htransaction, if_false, Bool.false_eq_true, Option.bind_eq_bind,
      Option.bind_eq_some_iff, Option.pure_def, Option.some.injEq] at hgate he ⊢
    obtain ⟨address, haddress, enabled, henabled, clocked, hclocked, past, hpast, he⟩ := he
    refine ⟨address, hsenses.below.mapM haddress, enabled, ?_, clocked, hclocked, past, hpast, he⟩
    rw [hgate]
    exact flag_mono hsenses.below _ _ henabled

end

/-! ## Lists of records -/

theorem events_along {α α' β : Type} {e : α → Option (Option β)} {e' : α' → Option (Option β)}
    {l : List α} {l' : List α'}
    (h : List.Forall₂ (fun a a' => ∀ o, e a = some o → e' a' = some o) l l') :
    Refines (events e l) (events e' l') := by
  have key : Refines (l.mapM e) (l'.mapM e') := by
    induction h with
    | nil => exact Refines.refl _
    | cons ha _ ih =>
        rw [List.mapM_cons, List.mapM_cons]
        exact Refines.bind ha fun _ => ih.bind fun _ => Refines.refl _
  exact key.map _

/-- What only adds silent records shows the same. -/
theorem events_silent {α β : Type} {e : α → Option (Option β)} {l new : List α}
    (h : ∀ a ∈ new, e a = some none) : events e (l ++ new) = events e l := by
  have key : events e new = some [] := by
    unfold events
    induction new with
    | nil => rfl
    | cons a new ih =>
        have hrest := ih fun b hb => h b (List.mem_cons_of_mem _ hb)
        rw [Option.map_eq_some_iff] at hrest ⊢
        obtain ⟨os, hos, hnone⟩ := hrest
        exact ⟨none :: os, by rw [List.mapM_cons, h a List.mem_cons_self, hos]; rfl, hnone⟩
  rw [events_append, key]
  cases events e l <;> simp

namespace Converts

variable {k h : Graph} {cs : List ClockBits} {old look : Nat → Option Bool} {edge edge' : Edges}

theorem observe (hc : Converts k h cs) (hsenses : Senses h cs old edge look)
    (hedge' : ∀ clock falling, clock < 0 → edge' clock falling = some true) :
    Refines (k.observe old edge) (h.observe look edge') := by
  obtain ⟨ports, hports, hinput⟩ := hc.ports
  obtain ⟨nodes, hnodes, hquiet⟩ := hc.logic.quiet
  have houtputs : outputsOf look h.ports = outputsOf look k.ports := by
    unfold outputsOf
    rw [hports]
    exact events_silent fun p hp => by rw [if_pos (hinput p hp)]
  have hcalls : events (·.call look) h.nodes.toList = events (·.call look) k.nodes.toList := by
    rw [hnodes]
    refine events_silent fun n hn => ?_
    rw [Node.call, (hquiet n hn).1]
    rfl
  have hfailures : events (·.failure look) h.nodes.toList =
      events (·.failure look) k.nodes.toList := by
    rw [hnodes]
    refine events_silent fun n hn => ?_
    rw [Node.failure, (hquiet n hn).2]
    rfl
  unfold Graph.observe
  rw [houtputs, hcalls, hfailures, hc.logic.memories]
  refine (outputsOf_mono hsenses.below k.ports).bind fun _ =>
    (events_mono (fun n => n.call_mono hsenses.below) _).bind fun _ =>
      (events_mono (fun n => n.failure_mono hsenses.below) _).bind fun _ =>
        (events_along ?_).bind fun _ => (events_along ?_).bind fun _ => Refines.refl _
  · refine hc.memoryAccesses.imp fun a a' hgate o ho => ?_
    obtain ⟨e, he, rfl⟩ := Option.map_eq_some_iff.mp ho
    rw [hgate.exceeds hsenses hedge' he, hgate.1]
    rfl
  · refine hc.memoryWrites.imp fun w w' hgate o ho => ?_
    obtain ⟨e, he, rfl⟩ := Option.map_eq_some_iff.mp ho
    rw [hgate.exceeds hsenses hedge' he, hgate.1]
    rfl

theorem commitRows (hc : Converts k h cs) (hsenses : Senses h cs old edge look)
    (hedge' : ∀ clock falling, clock < 0 → edge' clock falling = some true) {rows rows' : Rows}
    (hrun : k.commitRows old edge rows = some rows') : h.commitRows look edge' rows = some rows' := by
  unfold Graph.commitRows at hrun ⊢
  rw [hc.logic.memories]
  have hwrites : List.Forall₂ (fun w w' => ∀ rows r q, rows = r →
      commitWrite old edge k.memories rows w = some q →
        ∃ q', commitWrite look edge' k.memories r w' = some q' ∧ q = q') k.memoryWrites
      h.memoryWrites := by
    refine hc.memoryWrites.imp fun w w' hgate rows r q hr hstep => ?_
    subst hr
    obtain ⟨u, hu, rfl⟩ := Option.map_eq_some_iff.mp hstep
    refine ⟨_, ?_, rfl⟩
    rw [commitWrite, hgate.update hsenses hedge' hu, hgate.1]
    rfl
  obtain ⟨_, hrows, rfl⟩ := foldlM_along hwrites rfl hrun
  exact hrows

end Converts

/-! ## Registers -/

def AgreeBelow (bound : Nat) (register register' : Nat → Bool) : Prop :=
  ∀ b, b < bound → register' b = register b

theorem storeBits_agree {bound : Nat} (bits : Value) (value : List Bool) {r r' : Nat → Bool}
    (h : AgreeBelow bound r r') :
    AgreeBelow bound (storeBits bits value r) (storeBits bits value r') := by
  unfold storeBits
  generalize bits.zipIdx = pairs
  induction pairs generalizing r r' with
  | nil => exact h
  | cons p pairs ih =>
      rw [List.foldl_cons, List.foldl_cons]
      refine ih fun b hb => ?_
      unfold Function.update
      split_ifs
      · rfl
      · exact h b hb

/-- Where an update of a state is the same, so is what it leaves. -/
theorem commitState_agree {bound : Nat} {old look : Nat → Option Bool} {edge edge' : Edges}
    {s s' : State} (hbits : s'.bits = s.bits)
    (hupdate : ∀ u, s.update old edge = some u → s'.update look edge' = some u) {r r' q : Nat → Bool}
    (h : AgreeBelow bound r r') (hstep : commitState old edge r s = some q) :
    ∃ q', commitState look edge' r' s' = some q' ∧ AgreeBelow bound q q' := by
  obtain ⟨u, hu, rfl⟩ := Option.map_eq_some_iff.mp hstep
  refine ⟨_, by rw [commitState, hupdate u hu]; rfl, ?_⟩
  rw [hbits]
  cases u with
  | none => exact h
  | some value => exact storeBits_agree s.bits value h

/-- The histories take over the levels and leave everything else alone. -/
theorem commitHistories {cs : List ClockBits} {look : Nat → Option Bool} {edge : Edges}
    (level : ClockBits → Bool) (hone : look 1 = some true)
    (hedge : ∀ clock falling, clock < 0 → edge clock falling = some true)
    (hlevel : ∀ c ∈ cs, look c.level = some (level c))
    (hapart : cs.Pairwise fun c d => c.previous < d.previous) (r : Nat → Bool) :
    ∃ q, (cs.map ClockBits.history).foldlM (commitState look edge) r = some q ∧
      (∀ c ∈ cs, q c.previous = level c) ∧ ∀ b, (∀ c ∈ cs, b ≠ c.previous) → q b = r b := by
  induction cs generalizing r with
  | nil => exact ⟨r, rfl, by simp, fun _ _ => rfl⟩
  | cons c cs ih =>
      rw [List.pairwise_cons] at hapart
      have hstep : commitState look edge r c.history =
          some (Function.update r c.previous (level c)) := by
        simp [commitState, State.update, ClockBits.history, flag, hone,
          hlevel c List.mem_cons_self, hedge (-1) false (by omega), storeBits]
      obtain ⟨q, hq, hlevels, hkeep⟩ := ih (fun d hd => hlevel d (List.mem_cons_of_mem _ hd))
        hapart.2 (Function.update r c.previous (level c))
      refine ⟨q, by rw [List.map_cons, List.foldlM_cons, hstep]; exact hq, fun d hd => ?_,
        fun b hb => ?_⟩
      · rcases List.mem_cons.mp hd with rfl | hd
        · rw [hkeep _ fun e he => (Nat.ne_of_lt (hapart.1 e he)), Function.update_self]
        · exact hlevels d hd
      · rw [hkeep b fun d hd => hb d (List.mem_cons_of_mem _ hd),
          Function.update_of_ne (hb c List.mem_cons_self)]

/-! ## One sample -/

theorem Watches.value_previous (P : Primitives) {h : Graph} {c : ClockBits} (hc : Watches h c)
    (y : Stimulus) (t : Store) :
    h.value P (h.env y t) c.previous = some (t.register c.previous) := by
  obtain ⟨n, hn, hop, hwidth, -⟩ := hc.node
  rw [h.value_eq_node P _ hc.free hc.previous.1 hn (by rw [hc.previous.2.2, hwidth]; omega)]
  have hregister : h.isRegister c.previous = true := by
    rw [Graph.isRegister, hn]
    simp [hop]
  simp [Node.bitValue, hop, Op.isLeaf, Graph.env, hregister]

theorem FreshInput.value (P : Primitives) {h : Graph} {l : Nat} (hl : FreshInput h l)
    (y : Stimulus) (t : Store) : h.value P (h.env y t) l = some (y.leaf l) := by
  obtain ⟨n, hn, hop, hwidth⟩ := hl.node
  rw [h.value_eq_node P _ hl.free hl.bound.1 hn (by rw [hl.bound.2.2, hwidth]; omega)]
  have hregister : h.isRegister l = false := by
    rw [Graph.isRegister, hn]
    simp [hop]
  simp [Node.bitValue, hop, Op.isLeaf, Graph.env, hregister]

theorem Extends.agrees {k h : Graph} {cs : List ClockBits} {x y : Stimulus} {s t : Store}
    (hkh : Extends k h) (hxy : Sampled k cs x y) (hst : Recorded k cs s t) :
    Env.Agrees k (k.env x s) (h.env y t) where
  leaf b n hb hn := by
    have hlt := lt_bound_of_owned hb hn
    have hregister : h.isRegister b = k.isRegister b := by
      rw [Graph.isRegister, Graph.isRegister, hn, hkh.nodes _ n hn]
    simp only [Graph.env, hregister, hxy.leaf b hlt, hst.register b hlt]
  memory := hst.memory.symm
  projection := hxy.projection.symm
  undriven := rfl

namespace Converts

variable {k h : Graph} {cs : List ClockBits} {x y : Stimulus} {s t : Store}

theorem senses (P : Primitives) (hc : Converts k h cs) (hxy : Sampled k cs x y)
    (hst : Recorded k cs s t)
    (hlevels : ∀ i c, cs[i]? = some c → h.value P (h.env y t) c.level = some (x.clock i)) :
    Senses h cs (k.value P (k.env x s)) (k.edge x s) (h.value P (h.env y t)) where
  below := by
    rw [(hc.logic.agrees hxy hst).value_eq P]
    exact hc.logic.value_below hc.wf P _
  unclocked clock falling hclock := by
    rw [Graph.edge, if_pos hclock]
  respects := ⟨h.world P (h.env y t), fun _ hb => hb, hc.wf.respects_world P _, rfl⟩
  edges clock falling c e hclock hcget he := by
    have hwatches := hc.watches c (List.mem_of_getElem? hcget)
    rw [Graph.edge, if_neg (by omega)] at he
    by_cases hlt : clock.toNat < k.clocks.length
    · rw [if_pos hlt] at he
      have hread := hwatches.edges (h.world P (h.env y t)) (fun _ hb => hb)
        (hc.wf.respects_world P _) _ _ (hlevels _ c hcget) (hwatches.value_previous P y t) falling
      rw [hst.history _ c hcget] at hread
      rw [← Option.some.inj he]
      exact hread
    · rw [if_neg hlt] at he
      cases he

/-- One sample of the converted graph follows one sample of the graph. -/
theorem cycle (P : Primitives) (hc : Converts k h cs) (hxy : Sampled k cs x y)
    (hst : Recorded k cs s t)
    (hlevels : ∀ i c, cs[i]? = some c → h.value P (h.env y t) c.level = some (x.clock i))
    {o : Observed} {s' : Store} (hstep : k.cycle (k.value P (k.env x s)) x s = some (o, s')) :
    ∃ t', h.cycle (h.value P (h.env y t)) y t = some (o, t') ∧ Recorded k cs s' t' := by
  have hsenses := hc.senses P hxy hst hlevels
  have hedge' : ∀ clock falling, clock < 0 → h.edge y t clock falling = some true :=
    fun clock falling hclock => by rw [Graph.edge, if_pos hclock]
  have hone : h.value P (h.env y t) 1 = some true := hc.wf.value_const P _ (by omega)
  simp only [Graph.cycle, Option.bind_eq_bind, Option.bind_eq_some_iff, Option.pure_def,
    Option.some.injEq, Prod.mk.injEq] at hstep
  obtain ⟨o, hobserve, register, hregisters, rows, hrows, rfl, rfl⟩ := hstep
  -- the states of the graph commit as before, then the histories
  obtain ⟨states, hstates, hgated⟩ := hc.states
  have halong : List.Forall₂ (fun a a' => ∀ r r' q, AgreeBelow k.bound r r' →
      commitState (k.value P (k.env x s)) (k.edge x s) r a = some q →
        ∃ q', commitState (h.value P (h.env y t)) (h.edge y t) r' a' = some q' ∧
          AgreeBelow k.bound q q') k.states states := by
    refine hgated.imp fun a a' hgate r r' q hr => commitState_agree ?_
      (fun u hu => hgate.update hsenses hedge' hu) hr
    rcases hgate with ⟨-, rfl⟩ | ⟨heq, -⟩
    · rfl
    · rw [heq]
  obtain ⟨register₁, hregister₁, hagree⟩ := foldlM_along halong hst.register hregisters
  obtain ⟨register₂, hregister₂, hhistory, hkeep⟩ := commitHistories
    (fun c => (h.value P (h.env y t) c.level).getD false) hone hedge'
    (fun c hmem => by
      obtain ⟨i, hi⟩ := List.getElem?_of_mem hmem
      rw [hlevels i c hi]
      rfl) (hc.apart.imp And.left) register₁
  refine ⟨⟨register₂, rows, y.clock⟩, ?_, fun b hb => ?_, rfl, fun i c hi => ?_⟩
  · simp only [Graph.cycle, hc.observe hsenses hedge' _ hobserve, Graph.commitRegisters, hstates,
      List.foldlM_append, hregister₁, hregister₂, hst.memory,
      hc.commitRows hsenses hedge' hrows, Option.bind_eq_bind, Option.bind_some, Option.pure_def]
  · refine (hkeep b fun c hmem => ?_).trans (hagree b hb)
    have := hc.previous_ge c hmem
    omega
  · change register₂ c.previous = x.clock i
    rw [hhistory c (List.mem_of_getElem? hi), hlevels i c hi]
    rfl

end Converts

/-! ## A graph that steps on rising edges -/

theorem events_defined {α α' β : Type} {e : α → Option (Option β)} {e' : α' → Option (Option β)}
    {l : List α} {l' : List α'}
    (h : List.Forall₂ (fun a a' => ∀ o, e a = some o → ∃ o', e' a' = some o') l l') {os : List β}
    (hos : events e l = some os) : ∃ os', events e' l' = some os' := by
  have key : ∀ os, l.mapM e = some os → ∃ os', l'.mapM e' = some os' := by
    clear hos
    induction h with
    | nil => exact fun _ _ => ⟨[], rfl⟩
    | cons ha _ ih =>
        intro os hos
        simp only [List.mapM_cons, Option.bind_eq_bind, Option.bind_eq_some_iff] at hos
        obtain ⟨o, ho, os, hrest, -⟩ := hos
        obtain ⟨o', ho'⟩ := ha o ho
        obtain ⟨os', hos'⟩ := ih os hrest
        exact ⟨o' :: os', by rw [List.mapM_cons, ho', hos']; rfl⟩
  obtain ⟨os, hos, -⟩ := Option.map_eq_some_iff.mp hos
  obtain ⟨os', hos'⟩ := key os hos
  exact ⟨_, by rw [events, hos']; rfl⟩

section

variable {look : Nat → Option Bool} {edge edge' : Edges} {e : Bool}

/-- A state without a clock, put on clock 0, waits for its rising edge. -/
theorem State.update_clocked (hedge : edge (-1) false = some true) (hedge' : edge' 0 false = some e)
    {s : State} (hclock : s.clock = -1 ∧ s.falling = false) (hreset : s.reset = [])
    {u : Option (List Bool)} (hu : s.update look edge = some u) :
    State.update look edge' { s with clock := 0 } = some (if e then u else none) := by
  have hnone : flag look [] = some false := rfl
  simp only [State.update, hclock.1, hclock.2, hedge, hedge', hreset, hnone, Option.bind_eq_bind,
    Option.bind_some, Option.bind_eq_some_iff, Option.pure_def, Option.some.injEq,
    Bool.false_eq_true, if_false] at hu ⊢
  obtain ⟨next, hnext, trigger, htrigger, value, hvalue, rfl⟩ := hu
  refine ⟨next, hnext, trigger, htrigger, value, hvalue, ?_⟩
  cases e <;> simp

theorem MemoryWrite.update_clocked (hedge : edge (-1) false = some true)
    (hedge' : edge' 0 false = some e) {w : MemoryWrite} (hclock : w.clock = -1 ∧ w.falling = false)
    {u : Option (Nat × List Bool)} (hu : w.update look edge = some u) :
    MemoryWrite.update look edge' { w with clock := 0 } = some (if e then u else none) := by
  simp only [MemoryWrite.update, hclock.1, hclock.2, hedge, hedge', Option.bind_eq_bind,
    Option.bind_some, Option.bind_eq_some_iff, Option.pure_def, Option.some.injEq] at hu ⊢
  obtain ⟨address, haddress, data, hdata, enabled, henabled, rfl⟩ := hu
  refine ⟨address, haddress, data, hdata, enabled, henabled, ?_⟩
  cases e <;> simp

theorem MemoryWrite.exceeds_clocked (hedge : edge (-1) false = some true)
    (hedge' : edge' 0 false = some e) {w : MemoryWrite} (hclock : w.clock = -1 ∧ w.falling = false)
    {memories : List Memory} {b : Bool} (hb : w.exceeds look edge memories = some b) :
    ∃ b', MemoryWrite.exceeds look edge' memories { w with clock := 0 } = some b' := by
  simp only [MemoryWrite.exceeds, Option.bind_eq_bind, Option.bind_eq_some_iff] at hb ⊢
  obtain ⟨u, hu, past, hpast, -⟩ := hb
  -- whether the memory exists does not depend on the row
  obtain ⟨m, hm, -⟩ := Option.map_eq_some_iff.mp hpast
  have hexists : ∀ row, pastDepth memories w.memory row = some (decide (m.depth ≤ row)) := by
    intro row
    rw [pastDepth, hm]
    rfl
  exact ⟨_, _, w.update_clocked hedge hedge' hclock hu, _, hexists _, rfl⟩

theorem MemoryAccess.exceeds_clocked (hedge' : edge' 0 false = some e) {a : MemoryAccess}
    (hclock : a.transaction = true → a.clock = -1 ∧ a.falling = false) {memories : List Memory}
    {b : Bool} (hb : a.exceeds look edge memories = some b) :
    ∃ b', MemoryAccess.exceeds look edge' memories { a with clock := 0 } = some b' := by
  unfold MemoryAccess.exceeds at hb ⊢
  by_cases htransaction : a.transaction = true
  · simp only [htransaction, if_true, Option.bind_eq_bind, Option.bind_eq_some_iff,
      Option.pure_def, Option.some.injEq, (hclock htransaction).2, hedge'] at hb ⊢
    obtain ⟨address, haddress, enabled, henabled, clocked, -, past, hpast, -⟩ := hb
    exact ⟨_, address, haddress, enabled, henabled, e, rfl, past, hpast, rfl⟩
  · simp only [htransaction, if_false, Bool.false_eq_true, Option.bind_eq_bind,
      Option.bind_eq_some_iff, Option.pure_def, Option.some.injEq] at hb ⊢
    exact ⟨b, hb⟩

end

/-- At a sample of its clock a graph that steps on rising edges does with the
default clock what it does in a step, and nothing at the other samples. -/
theorem withDefaultClock_cycle {g : Graph} (name : String) (hvalid : g.validateClocks = .ok ())
    (hcontract : g.clockContract = .risingEdgeStep) (hresets : ∀ s ∈ g.states, s.reset = [])
    {look : Nat → Option Bool} {x : Stimulus} {s next : Store} {o : Observed}
    (hstep : g.cycle look x s = some (o, next)) (level : Bool) :
    ∃ o' : Observed, o'.outputs = o.outputs ∧
      (g.withDefaultClock name).cycle look { x with clock := fun _ => level } s =
        some (o', if level && !s.clock 0 then { next with clock := fun _ => level }
          else { s with clock := fun _ => level }) := by
  have hnamed : g.clockContract ≠ .namedEdges := by simp [hcontract]
  obtain ⟨hclocks, hstates⟩ := Graph.unclocked_of_valid hvalid hnamed
  have haccesses : ∀ a ∈ g.memoryAccesses, a.transaction = true → a.clock = -1 ∧ a.falling = false := by
    intro a ha htransaction
    have := (Graph.access_of_valid hvalid ha).2
    rw [if_pos htransaction, Graph.OnEdge, if_neg hnamed] at this
    exact this
  have hwrites : ∀ w ∈ g.memoryWrites, w.clock = -1 ∧ w.falling = false := by
    intro w hw
    have := (Graph.write_of_valid hvalid hw).2
    rw [Graph.OnEdge, if_neg hnamed] at this
    exact this
  have hedge : g.edge x s (-1) false = some true := rfl
  generalize he : (level && !s.clock 0) = e
  have hk : g.withDefaultClock name =
      { g with
        clocks := g.clocks ++ [⟨name, 0⟩]
        states := g.states.map fun s => { s with clock := 0 }
        memoryAccesses := g.memoryAccesses.map fun a => { a with clock := 0 }
        memoryWrites := g.memoryWrites.map fun w => { w with clock := 0 } } := by
    rw [Graph.withDefaultClock, hcontract]
  have hedge' : (g.withDefaultClock name).edge { x with clock := fun _ => level } s 0 false =
      some e := by
    rw [hk, ← he]
    simp [Graph.edge, hclocks]
  simp only [Graph.cycle, Option.bind_eq_bind, Option.bind_eq_some_iff, Option.pure_def,
    Option.some.injEq, Prod.mk.injEq] at hstep ⊢
  obtain ⟨o, hobserve, register, hregisters, rows, hrows, rfl, rfl⟩ := hstep
  generalize (g.withDefaultClock name).edge { x with clock := fun _ => level } s = edge' at hedge' ⊢
  have hobserve' : ∃ o' : Observed, o'.outputs = o.outputs ∧
      (g.withDefaultClock name).observe look edge' = some o' := by
    simp only [Graph.observe, Option.bind_eq_bind, Option.bind_eq_some_iff, Option.pure_def,
      Option.some.injEq] at hobserve
    obtain ⟨outputs, houtputs, calls, hcalls, failures, hfailures, accessFaults, haccess,
      writeFaults, hwrite, rfl⟩ := hobserve
    have haccess' : ∃ faults, events (fun a => (a.exceeds look edge' g.memories).map fun e =>
        if e then some a.memory else none)
        (g.memoryAccesses.map fun a => { a with clock := 0 }) = some faults := by
      refine events_defined ?_ haccess
      rw [List.forall₂_map_right_iff, List.forall₂_same]
      intro a ha fault hfault
      obtain ⟨b, hb, -⟩ := Option.map_eq_some_iff.mp hfault
      obtain ⟨b', hb'⟩ := a.exceeds_clocked hedge' (haccesses a ha) hb
      exact ⟨_, by rw [hb']; rfl⟩
    have hwrite' : ∃ faults, events (fun w => (w.exceeds look edge' g.memories).map fun e =>
        if e then some w.memory else none)
        (g.memoryWrites.map fun w => { w with clock := 0 }) = some faults := by
      refine events_defined ?_ hwrite
      rw [List.forall₂_map_right_iff, List.forall₂_same]
      intro w hw fault hfault
      obtain ⟨b, hb, -⟩ := Option.map_eq_some_iff.mp hfault
      obtain ⟨b', hb'⟩ := w.exceeds_clocked hedge hedge' (hwrites w hw) hb
      exact ⟨_, by rw [hb']; rfl⟩
    obtain ⟨accessFaults', haccess'⟩ := haccess'
    obtain ⟨writeFaults', hwrite'⟩ := hwrite'
    refine ⟨⟨outputs, calls, failures, accessFaults', writeFaults'⟩, rfl, ?_⟩
    rw [hk]
    simp only [Graph.observe, houtputs, hcalls, hfailures, haccess', hwrite', Option.bind_eq_bind,
      Option.bind_some, Option.pure_def]
  have hregisters' : (g.withDefaultClock name).commitRegisters look edge' s.register =
      some (if e then register else s.register) := by
    have halong : List.Forall₂ (fun a a' => ∀ r r' q,
        (r' = if e then r else s.register) → commitState look (g.edge x s) r a = some q →
          ∃ q', commitState look edge' r' a' = some q' ∧ q' = if e then q else s.register)
        g.states (g.states.map fun s => { s with clock := 0 }) := by
      rw [List.forall₂_map_right_iff, List.forall₂_same]
      rintro a ha r r' q rfl hq
      obtain ⟨u, hu, rfl⟩ := Option.map_eq_some_iff.mp hq
      have hu' := a.update_clocked hedge hedge' (hstates a ha) (hresets a ha) hu
      refine ⟨_, by rw [commitState, hu']; rfl, ?_⟩
      cases e <;> rfl
    obtain ⟨q, hq, rfl⟩ := foldlM_along halong (y := s.register) (by cases e <;> rfl) hregisters
    rw [hk]
    exact hq
  have hrows' : (g.withDefaultClock name).commitRows look edge' s.memory =
      some (if e then rows else s.memory) := by
    have halong : List.Forall₂ (fun w w' => ∀ r r' q,
        (r' = if e then r else s.memory) → commitWrite look (g.edge x s) g.memories r w = some q →
          ∃ q', commitWrite look edge' g.memories r' w' = some q' ∧ q' = if e then q else s.memory)
        g.memoryWrites (g.memoryWrites.map fun w => { w with clock := 0 }) := by
      rw [List.forall₂_map_right_iff, List.forall₂_same]
      rintro w hw r r' q rfl hq
      obtain ⟨u, hu, rfl⟩ := Option.map_eq_some_iff.mp hq
      have hu' := w.update_clocked hedge hedge' (hwrites w hw) hu
      refine ⟨_, by rw [commitWrite, hu']; rfl, ?_⟩
      cases e <;> rfl
    obtain ⟨q, hq, rfl⟩ := foldlM_along halong (y := s.memory) (by cases e <;> rfl) hrows
    rw [hk]
    exact hq
  obtain ⟨o', ho', hobserve'⟩ := hobserve'
  refine ⟨o', ho', o', hobserve', _, hregisters', _, hrows', rfl, ?_⟩
  cases e <;> rfl

/-! ## Whole runs -/

theorem value_withDefaultClock (P : Primitives) (g : Graph) (name : String) (x : Stimulus)
    (s : Store) (level : Nat → Bool) :
    (g.withDefaultClock name).value P
        ((g.withDefaultClock name).env { x with clock := level } s) = g.value P (g.env x s) := by
  unfold Graph.withDefaultClock
  split <;> rfl

/-- New lanes can be given any values. -/
theorem exists_placed {bound : Nat} (key : ClockBits → Nat) {cs : List ClockBits}
    (hapart : cs.Pairwise fun c d => bound ≤ key d → key c < key d) (base f : Nat → Bool) :
    ∃ r : Nat → Bool, (∀ b, b < bound → r b = base b) ∧
      ∀ i c, cs[i]? = some c → bound ≤ key c → r (key c) = f i := by
  induction cs generalizing f with
  | nil => exact ⟨base, fun _ _ => rfl, by simp⟩
  | cons c cs ih =>
      rw [List.pairwise_cons] at hapart
      obtain ⟨r, hbase, hkeys⟩ := ih hapart.2 fun i => f (i + 1)
      refine ⟨if bound ≤ key c then Function.update r (key c) (f 0) else r, fun b hb => ?_, ?_⟩
      · split_ifs with hc
        · rw [Function.update_of_ne (by omega), hbase b hb]
        · exact hbase b hb
      · intro i d hi hd
        cases i with
        | zero =>
            obtain rfl : c = d := by simpa using hi
            rw [if_pos hd, Function.update_self]
        | succ i =>
            rw [List.getElem?_cons_succ] at hi
            have hlt := hapart.1 d (List.mem_of_getElem? hi) hd
            split_ifs
            · rw [Function.update_of_ne (by omega), hkeys i d hi hd]
            · exact hkeys i d hi hd

theorem Watches.initial {h : Graph} {c : ClockBits} (hc : Watches h c) :
    h.initialBit c.previous = false := by
  obtain ⟨n, hn, -, -, hleft⟩ := hc.node
  rw [Graph.initialBit, hn]
  simp [hleft, hc.previous.2.2]

/-- An explicit graph has no clocks, so the levels do not matter. -/
theorem explicit_sample {P : Primitives} {g : Graph} {name : String}
    (hvalid : g.validateClocks = .ok ()) (hcontract : g.clockContract = .explicitEvents)
    {x y : Stimulus} {s t s' : Store} {o : List (String × List Bool)} (hxy : Sampled g [] x y)
    (hst : Recorded g [] s t) (hstep : (g.onWaveform P name).step x s = some (o, s')) :
    ∃ p t', (g.machine P).step y t = some (p, t') ∧ p.outputs = o ∧ Recorded g [] s' t' := by
  have hclocks := (Graph.unclocked_of_valid hvalid (by simp [hcontract])).1
  have hedge : g.edge y t = g.edge x s := by
    funext clock falling
    simp [Graph.edge, hclocks]
  have hvalue := ((Extends.refl g).agrees hxy hst).value_eq P
  simp only [Graph.onWaveform, Graph.sample, hcontract, Graph.cycle, Option.bind_eq_bind,
    Option.bind_eq_some_iff, Option.pure_def, Option.some.injEq, Prod.mk.injEq] at hstep
  obtain ⟨⟨shown, next⟩, ⟨_, hobserve, register, hregisters, rows, hrows, rfl, rfl⟩, rfl, rfl⟩ :=
    hstep
  have halong : List.Forall₂ (fun a a' => ∀ r r' q, AgreeBelow g.bound r r' →
      commitState (g.value P (g.env x s)) (g.edge x s) r a = some q →
        ∃ q', commitState (g.value P (g.env x s)) (g.edge x s) r' a' = some q' ∧
          AgreeBelow g.bound q q') g.states g.states :=
    List.forall₂_same.mpr fun a _ r r' q hr => commitState_agree rfl (fun u hu => hu) hr
  obtain ⟨register', hregister', hagree⟩ := foldlM_along halong hst.register hregisters
  refine ⟨shown, ⟨register', rows, y.clock⟩, ?_, rfl, hagree, rfl, by simp⟩
  simp only [Graph.machine, Graph.cycle, ← hvalue, hedge, hobserve, Graph.commitRegisters,
    hregister', hst.memory, hrows, Option.bind_eq_bind, Option.bind_some, Option.pure_def]

theorem forall₂_getElem? {α β : Type} {R : α → β → Prop} {l : List α} {l' : List β}
    (h : List.Forall₂ R l l') {i : Nat} {b : β} (hi : l'[i]? = some b) :
    ∃ a, l[i]? = some a ∧ R a b := by
  induction h generalizing i with
  | nil => simp at hi
  | @cons a _ _ _ hab _ ih =>
      cases i with
      | zero => exact ⟨a, rfl, by simpa using Option.some.inj hi ▸ hab⟩
      | succ i => exact ih hi

theorem Graph.mem_levelPort {g : Graph} {name : String} {b : Nat} (hb : b ∈ g.levelPort name) :
    ∃ p ∈ g.ports, p.name = name ∧ b ∈ p.bits := by
  unfold Graph.levelPort at hb
  cases hlast : (g.ports.filter fun p => p.input && p.name == name).getLast? with
  | none => simp [hlast] at hb
  | some p =>
      rw [hlast] at hb
      obtain ⟨hp, hname⟩ := List.mem_filter.mp (List.mem_of_getLast? hlast)
      simp only [Bool.and_eq_true, beq_iff_eq] at hname
      exact ⟨p, hp, hname.2, hb⟩

theorem converted_sample {P : Primitives} {g h : Graph} {name : String} {cs : List ClockBits}
    (hports : ∀ p ∈ g.ports, ∀ b ∈ p.bits, b < g.bound) (hvalid : g.validateClocks = .ok ())
    (hcontract : g.clockContract ≠ .explicitEvents)
    (hc : Converts (g.withDefaultClock name) h cs) {x y : Stimulus} {s t s' : Store}
    {o : List (String × List Bool)} (hxy : Sampled g cs x y) (hst : Recorded g cs s t)
    (hstep : (g.onWaveform P name).step x s = some (o, s')) :
    ∃ p t', (h.machine P).step y t = some (p, t') ∧ p.outputs = o ∧ Recorded g cs s' t' := by
  have hbound : (g.withDefaultClock name).bound = g.bound := by
    unfold Graph.withDefaultClock
    split <;> rfl
  have hlevelPort : ∀ clock, (g.withDefaultClock name).levelPort clock = g.levelPort clock := by
    intro clock
    unfold Graph.withDefaultClock
    split <;> rfl
  cases hkind : g.clockContract with
  | explicitEvents => exact absurd hkind hcontract
  | namedEdges =>
      have hk : g.withDefaultClock name = g := by rw [Graph.withDefaultClock, hkind]
      rw [hk] at hc
      simp only [Graph.onWaveform, Graph.sample, hkind, Option.bind_eq_bind,
        Option.bind_eq_some_iff, Option.pure_def, Option.some.injEq, Prod.mk.injEq] at hstep
      obtain ⟨⟨shown, next⟩, hcycle, rfl, rfl⟩ := hstep
      -- no data port has the name of a clock, so every level is a new input
      have hlevels : ∀ i c, cs[i]? = some c → h.value P (h.env y t) c.level = some (x.clock i) := by
        intro i c hi
        obtain ⟨clock, hclock, hlevel⟩ := forall₂_getElem? hc.levels hi
        rcases hlevel with hport | ⟨-, hge, hfresh⟩
        · obtain ⟨p, hp, hname, -⟩ := Graph.mem_levelPort (hport ▸ List.mem_singleton_self c.level)
          exact absurd hname ((Graph.clocks_of_valid hvalid hkind).2 clock
            (List.mem_of_getElem? hclock) p hp)
        · rw [hfresh.value, hxy.level i c hi hge]
      obtain ⟨t', hcycle', hst'⟩ := hc.cycle P hxy hst hlevels hcycle
      exact ⟨shown, t', hcycle', rfl, hst'⟩
  | risingEdgeStep =>
      have hclocks := (Graph.unclocked_of_valid hvalid (by simp [hkind])).1
      have hresets : ∀ s ∈ g.states, s.reset = [] := by
        intro a ha
        refine hc.resets { a with clock := 0 } ?_
        rw [Graph.withDefaultClock, hkind]
        exact List.mem_map_of_mem ha
      simp only [Graph.onWaveform, Graph.sample, hkind, Option.bind_eq_bind,
        Option.bind_eq_some_iff, Option.pure_def, Option.some.injEq, Prod.mk.injEq] at hstep
      obtain ⟨⟨shown, next⟩, hcycle, level, hlevel, rfl, rfl⟩ := hstep
      obtain ⟨shown', hshown, hcycle'⟩ :=
        withDefaultClock_cycle name hvalid hkind hresets hcycle level
      rw [← value_withDefaultClock P g name x s fun _ => level] at hcycle' hlevel
      have hsame : ∀ i c, cs[i]? = some c → LevelOf g h ⟨name, 0⟩ c.level ∧ i = 0 := by
        intro i c hi
        obtain ⟨clock, hclock, hl⟩ := forall₂_getElem? hc.levels hi
        have hk : (g.withDefaultClock name).clocks = [⟨name, 0⟩] := by
          rw [Graph.withDefaultClock, hkind, hclocks]
          rfl
        rw [hk] at hclock
        obtain ⟨hi0, hclock⟩ := List.getElem?_eq_some_iff.mp hclock
        obtain rfl : i = 0 := by simpa using hi0
        obtain rfl : clock = ⟨name, 0⟩ := by simpa using hclock.symm
        rw [LevelOf, hlevelPort, hbound] at hl
        exact ⟨hl, rfl⟩
      have hxy' : Sampled (g.withDefaultClock name) cs { x with clock := fun _ => level } y := by
        refine ⟨by rw [hbound]; exact hxy.leaf, hxy.projection, fun i c hi hge => ?_⟩
        rw [hbound] at hge
        obtain ⟨hport | ⟨hnone, -, -⟩, rfl⟩ := hsame i c hi
        · obtain ⟨p, hp, -, hb⟩ := Graph.mem_levelPort (hport ▸ List.mem_singleton_self c.level)
          exact absurd (hports p hp _ hb) (by omega)
        · rw [hxy.level 0 c hi hge]
          rw [Graph.sampledLevel, hnone] at hlevel
          exact Option.some.inj hlevel
      have hst' : Recorded (g.withDefaultClock name) cs s t :=
        ⟨by rw [hbound]; exact hst.register, hst.memory, hst.history⟩
      have hlevels : ∀ (i : Nat) (c : ClockBits), cs[i]? = some c →
          h.value P (h.env y t) c.level = some level := by
        intro i c hi
        obtain ⟨hport | ⟨hnone, hge, hfresh⟩, rfl⟩ := hsame i c hi
        · change g.levelPort name = [c.level] at hport
          rw [Graph.sampledLevel, hport] at hlevel
          have hbelow := hc.logic.value_below hc.wf P (h.env y t)
          rw [← (hc.logic.agrees hxy' hst').value_eq P] at hbelow
          have hread : flag _ [c.level] = some level := hlevel
          rw [flag_singleton] at hread
          exact hbelow _ _ hread
        · rw [hfresh.value, hxy'.level 0 c hi (by rw [hbound]; exact hge)]
      obtain ⟨t', hcycle'', hst''⟩ := hc.cycle P hxy' hst' hlevels hcycle'
      refine ⟨shown', t', hcycle'', hshown, by rw [← hbound]; exact hst''.register, hst''.memory,
        hst''.history⟩

/-- `h` does on every waveform what `g` does. Its clock bits `cs` are one history
register for each clock and what that register is compared with; from
corresponding stores it follows every run of `g` on corresponding samples, with
the same outputs, and with the same registers and memories at the end. -/
structure FollowsClocks (P : Primitives) (defaultClock : String) (g h : Graph)
    (cs : List ClockBits) : Prop where
  contract : h.clockContract = .explicitEvents
  initial : ∀ c ∈ cs, h.initialBit c.previous = false
  stimulus : ∀ x, ∃ y, Sampled g cs x y
  store : ∀ s, ∃ t, Recorded g cs s t
  run : ∀ xs ys s t os s', List.Forall₂ (Sampled g cs) xs ys → Recorded g cs s t →
    (g.onWaveform P defaultClock).run xs s = some (os, s') →
      ∃ ps t', (h.machine P).run ys t = some (ps, t') ∧
        List.Forall₂ (fun o p => p.outputs = o) os ps ∧ Recorded g cs s' t'

theorem explicitClockEvents_faithful (P : Primitives) {g h : Graph} {name : String} (hg : g.Wf)
    (hports : ∀ p ∈ g.ports, ∀ b ∈ p.bits, b < g.bound) (hvalid : g.validateClocks = .ok ())
    (htriggers : ∀ s ∈ g.states, s.trigger.length = 1)
    (hrun : Ok (explicitClockEvents name) g () h) :
    ∃ cs : List ClockBits, FollowsClocks P name g h cs := by
  by_cases hcontract : g.clockContract = .explicitEvents
  · replace hrun := ok_get_bind.mp hrun
    rw [if_pos hcontract] at hrun
    obtain ⟨-, rfl⟩ := ok_pure.mp hrun
    refine ⟨[], hcontract, by simp, fun x => ⟨x, fun _ _ => rfl, rfl, by simp⟩,
      fun s => ⟨s, fun _ _ => rfl, rfl, by simp⟩, fun xs ys s t os s' hxs hst hstep => ?_⟩
    exact Machine.Simulates.run
      (fun x y s t o s' hxy hst hstep => explicit_sample hvalid hcontract hxy hst hstep)
      hxs hst hstep
  · have hshape : ((g.withDefaultClock name).clocks.map Clock.name).Nodup ∧
        ∀ s ∈ (g.withDefaultClock name).states, s.trigger.length = 1 := by
      unfold Graph.withDefaultClock
      split
      · rename_i hrising
        rw [(Graph.unclocked_of_valid hvalid (by simp [hrising])).1]
        refine ⟨by simp, fun s hs => ?_⟩
        obtain ⟨a, ha, rfl⟩ := List.mem_map.mp hs
        exact htriggers a ha
      · rename_i hrising
        have hnamed : g.clockContract = .namedEdges := by
          cases hg : g.clockContract <;> simp_all
        exact ⟨(Graph.clocks_of_valid hvalid hnamed).1, htriggers⟩
    obtain ⟨cs, hc⟩ := explicitClockEvents_ok hg hcontract hports hshape.1
      (fun s hs _ => hshape.2 s hs) (fun a ha => (Graph.access_of_valid hvalid ha).1)
      (fun w hw => (Graph.write_of_valid hvalid hw).1) hrun
    · have hbound : (g.withDefaultClock name).bound = g.bound := by
        unfold Graph.withDefaultClock
        split <;> rfl
      have hapart := hc.apart
      have hprevious := hc.previous_ge
      rw [hbound] at hapart hprevious
      refine ⟨cs, hc.contract, fun c hmem => (hc.watches c hmem).initial, fun x => ?_, fun s => ?_,
        fun xs ys s t os s' hxs hst hstep => ?_⟩
      · obtain ⟨leaf, hold, hnew⟩ := exists_placed ClockBits.level
          (hapart.imp And.right) x.leaf x.clock
        exact ⟨{ x with leaf }, hold, rfl, hnew⟩
      · have hpast : cs.Pairwise fun c d => g.bound ≤ d.previous → c.previous < d.previous :=
          hapart.imp fun h _ => h.1
        obtain ⟨register, hold, hnew⟩ := exists_placed ClockBits.previous hpast s.register s.clock
        exact ⟨{ s with register }, hold, rfl,
          fun i c hi => hnew i c hi (hprevious c (List.mem_of_getElem? hi))⟩
      · exact Machine.Simulates.run
          (fun x y s t o s' hxy hst hstep => converted_sample hports hvalid hcontract hc hxy hst hstep)
          hxs hst hstep

/-- A state on the rising edge of a clock, and a state and a memory write on its
falling edge. -/
def edgesGraph : Graph :=
  { clockContract := .namedEdges
    clocks := [⟨"clk", 100⟩]
    nodes := #[⟨.state, 1, [0], [], [], "r", ""⟩, ⟨.state, 1, [0], [], [], "f", ""⟩]
    ports := [⟨"q", [66, 130], false⟩]
    states := [{ bits := [66], next := [1], trigger := [1], clock := 0 },
      { bits := [130], next := [66], trigger := [1], clock := 0, falling := true }]
    memories := [⟨"m", 1, 2, []⟩]
    memoryWrites := [⟨0, [66], [66], [1], 0, true⟩] }

theorem explicitClockEvents_faithful_edges : ∃ cs : List ClockBits,
    FollowsClocks noPrimitives "clk" edgesGraph
      (after (explicitClockEvents "clk") edgesGraph) cs :=
  explicitClockEvents_faithful noPrimitives (fun b s h => by simp [edgesGraph] at h)
    (by decide) rfl (by decide) (ok_after (by decide +kernel))

/-- A graph that steps on rising edges, with a trigger of two bits. -/
def wideTriggerGraph : Graph :=
  { clockContract := .risingEdgeStep
    nodes := #[⟨.state, 1, [0], [], [], "r", ""⟩]
    ports := [⟨"q", [66], false⟩]
    states := [{ bits := [66], next := [1], trigger := [0, 1] }] }

/-- The clock is high, and so is the new input 130 of the converted graph. -/
def highClock : Stimulus := { leaf := fun b => b == 130, clock := fun _ => true }

/-- The graph commits on its trigger, which is not 0; the converted graph looks
at the lowest bit of the trigger only and never commits. -/
theorem explicitClockEvents_drops_upper_trigger :
    returns (explicitClockEvents "clk") wideTriggerGraph = true ∧
      wideTriggerGraph.SelfContained ∧ wideTriggerGraph.validateClocks = .ok () ∧
      Sampled wideTriggerGraph [⟨130, 194, 322, 450⟩] highClock highClock ∧
      Recorded wideTriggerGraph [⟨130, 194, 322, 450⟩] emptyStore emptyStore ∧
      ((wideTriggerGraph.onWaveform noPrimitives "clk").run [highClock, highClock]
        emptyStore).map (fun r => r.1) = some [[("q", [false])], [("q", [true])]] ∧
      (((after (explicitClockEvents "clk") wideTriggerGraph).machine noPrimitives).run
        [highClock, highClock] emptyStore).map (fun r => r.1.map Observed.outputs) =
          some [[("q", [false])], [("q", [false])]] := by
  refine ⟨by decide +kernel, .of_check (by decide +kernel), rfl,
    ⟨fun _ _ => rfl, rfl, fun i c hi _ => ?_⟩, ⟨fun _ _ => rfl, rfl, fun _ _ _ => rfl⟩, ?_, ?_⟩
  · cases i with
    | zero =>
        obtain rfl : ⟨130, 194, 322, 450⟩ = c := by simpa using hi
        rfl
    | succ i => simp at hi
  · exact Machine.shows_of_steps (f := fun os => os)
      (wideTriggerGraph.onWaveform_of_sampled noPrimitives "clk" 1) (by decide +kernel)
  · exact Machine.shows_of_steps (f := fun os => os.map Observed.outputs)
      (Graph.machine_of_evaluated noPrimitives _ 3) (by decide +kernel)

end CppHdl
