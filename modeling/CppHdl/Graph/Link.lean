import CppHdl.Graph.Models
import CppHdl.Graph.Rename

/-!
# Linking a module into its host

`linkGraphInstance` copies a child graph into a host: bits, memories and scopes
are rebased past those of the host, inputs become wires, and the pins become
aliases between the two. What the linked graph should be is stated without any
copying: the two graphs run *side by side*, each over its own bits, with the
pins crossing between them. The bits of both form one partial system, so
combinational feedback through host and child has its least solution there,
as it has in the linked graph.
-/

namespace CppHdl

open Failing

/-! ## The program -/

/-- `bit` of the source: the bits of the child follow those of the host. -/
def rebase (base bit : Nat) : Nat :=
  if bit < 2 then bit else nodeBase (owner bit + base) + lane bit

def linkScope (inst scope : String) : String := inst ++ "/" ++ scope

/-- A node of the child as the host holds it. -/
def linkNode (base memoryBase memories : Nat) (inst : String) (original : Node) : GraphM Node := do
  let n : Node :=
    { original with
      left := original.left.map (rebase base)
      right := original.right.map (rebase base)
      select := original.select.map (rebase base)
      scope := linkScope inst original.scope }
  match original.op with
  | .input => pure { n with op := .wire }
  | .memoryRead =>
      match number original.right with
      | some index =>
          if memories ≤ index then throw (.runtime "invalid linked memory index")
          else pure { n with right := constant (memoryBase + index) original.right.length }
      | none => throw (.runtime "invalid linked memory index")
  | _ => pure n

/-- Everything of the child but its nodes and ports, moved into the host. -/
def Graph.absorb (host child : Graph) (base memoryBase : Nat) (inst : String) : Graph :=
  { host with
    aliases := child.aliases.toList.foldl
      (fun m p => m.insertIfNew (rebase base p.1) (rebase base p.2)) host.aliases
    states := host.states ++ child.states.map (State.rename (rebase base))
    memories := host.memories ++ child.memories.map fun m =>
      { m with name := linkScope inst m.name }
    memoryAccesses := host.memoryAccesses ++
      child.memoryAccesses.map (MemoryAccess.rename (rebase base) (· + memoryBase))
    memoryWrites := host.memoryWrites ++
      child.memoryWrites.map (MemoryWrite.rename (rebase base) (· + memoryBase))
    attributes := host.attributes ++ child.attributes.map fun a =>
      { a with scope := linkScope inst a.scope } }

abbrev Pins := Std.ExtTreeMap String Value

/-- Every input is bound, and every bound port has the width of its pin. -/
def checkPin (pins : Pins) (p : Port) : GraphM Unit :=
  match pins[p.name]? with
  | none => if p.input then throw (.runtime ("missing linked input: " ++ p.name)) else pure ()
  | some bits =>
      if bits.length ≠ p.bits.length then
        throw (.runtime ("linked port width differs: " ++ p.name))
      else pure ()

def connectPin (base : Nat) (pins : Pins) (p : Port) : GraphM Unit :=
  match pins[p.name]? with
  | none => pure ()
  | some bits =>
      if p.input then connect (p.bits.map (rebase base)) bits
      else connect bits (p.bits.map (rebase base))

/-- Every pin names a port. -/
def checkName (child : Graph) (pin : String × Value) : GraphM Unit :=
  if child.ports.all fun p => p.name ≠ pin.1 then
    throw (.runtime ("unknown linked port: " ++ pin.1))
  else pure ()

def linkGraphInstance (child : Graph) (pins : Pins) (inst : String) : GraphM Unit := do
  let host ← get
  if host.clockContract ≠ .explicitEvents ∨ child.clockContract ≠ .explicitEvents ∨
      host.clocks ≠ [] ∨ child.clocks ≠ [] then
    throw (.runtime "graph linking requires explicit clock events")
  else if child.replacements ≠ [] then throw (.runtime "link resolved replacement graphs")
  else do
    child.ports.forM (checkPin pins)
    pins.toList.forM (checkName child)
    let base := host.nodes.size
    let memoryBase := host.memories.length
    child.nodes.toList.forM fun original => do
      let n ← linkNode base memoryBase child.memories.length inst original
      modify fun g => { g with nodes := g.nodes.push n }
    modify fun g => g.absorb child base memoryBase inst
    child.ports.forM (connectPin base pins)

/-! ## Side by side -/

/-- Two graphs and the pins between them. -/
structure Coupling where
  host : Graph
  child : Graph
  pins : Pins

namespace Coupling

variable (L : Coupling)

/-- The lanes of the child that pins drive, with the host bits driving them. -/
def inputPins : List (Nat × Nat) :=
  L.child.ports.flatMap fun p => if p.input then p.bits.zip (L.pins[p.name]?.getD []) else []

/-- The bits of the host that pins drive, with the bits of the child driving
them. -/
def outputPins : List (Nat × Nat) :=
  L.child.ports.flatMap fun p => if p.input then [] else (L.pins[p.name]?.getD []).zip p.bits

def toChild (bit : Nat) : Option Nat := L.inputPins.lookup bit

def toHost (bit : Nat) : Option Nat := L.outputPins.lookup bit

/-- An input lane of the child is driven by its pin and by nothing else. -/
def opensAt (bit : Nat) : Bool :=
  (L.child.aliases[bit]?).isNone && decide (66 ≤ bit) &&
    match L.child.nodes[owner bit]? with
    | some n => n.op = .input
    | none => false

variable (P : Primitives) (hostEnv childEnv : Env)

def step (look : Nat ⊕ Nat → Option Bool) : Nat ⊕ Nat → Option Bool
  | .inl bit =>
      match L.toHost bit with
      | some source => look (.inr source)
      | none => L.host.bitStep P hostEnv (fun b => look (.inl b)) bit
  | .inr bit =>
      match L.toChild bit with
      | some source => look (.inl source)
      | none =>
          if L.opensAt bit then none
          else L.child.bitStep P childEnv (fun b => look (.inr b)) bit

def deps : Nat ⊕ Nat → List (Nat ⊕ Nat)
  | .inl bit =>
      match L.toHost bit with
      | some source => [.inr source]
      | none => (L.host.bitDeps bit).map .inl
  | .inr bit =>
      match L.toChild bit with
      | some source => [.inl source]
      | none => (L.child.bitDeps bit).map .inr

/-- The bits of both graphs, each defined in its own graph or by its pin. -/
def system : PartialSystem (Nat ⊕ Nat) Bool where
  step := L.step P hostEnv childEnv
  deps := L.deps
  local_step := by
    intro f h bit hdeps
    cases bit with
    | inl bit =>
        cases hpin : L.toHost bit with
        | some source =>
            simp only [deps, step, hpin] at hdeps ⊢
            exact hdeps _ List.mem_cons_self
        | none =>
            simp only [deps, step, hpin] at hdeps ⊢
            exact (L.host.system P hostEnv).local_step _ _ bit fun b hb =>
              hdeps _ (List.mem_map_of_mem hb)
    | inr bit =>
        cases hpin : L.toChild bit with
        | some source =>
            simp only [deps, step, hpin] at hdeps ⊢
            exact hdeps _ List.mem_cons_self
        | none =>
            simp only [deps, step, hpin] at hdeps ⊢
            split
            · rfl
            · exact (L.child.system P childEnv).local_step _ _ bit fun b hb =>
                hdeps _ (List.mem_map_of_mem hb)
  mono_step := by
    intro f h hfh bit v hv
    cases bit with
    | inl bit =>
        cases hpin : L.toHost bit with
        | some source =>
            simp only [step, hpin] at hv ⊢
            exact hfh _ _ hv
        | none =>
            simp only [step, hpin] at hv ⊢
            exact (L.host.system P hostEnv).mono_step _ _ (fun b => hfh (.inl b)) bit v hv
    | inr bit =>
        cases hpin : L.toChild bit with
        | some source =>
            simp only [step, hpin] at hv ⊢
            exact hfh _ _ hv
        | none =>
            simp only [step, hpin] at hv ⊢
            split_ifs at hv ⊢
            exact (L.child.system P childEnv).mono_step _ _ (fun b => hfh (.inr b)) bit v hv

noncomputable def value (bit : Nat ⊕ Nat) : Option Bool := (L.system P hostEnv childEnv).value bit

/-- One clock of both graphs: the ports of the host are the ports of the pair,
and both commit. -/
def cycle (look : Nat ⊕ Nat → Option Bool) (x : Stimulus × Stimulus) (s : Store × Store) :
    Option (Observed × Store × Store) := do
  let (shown, hostStore) ← L.host.cycle (fun b => look (.inl b)) x.1 s.1
  let (within, childStore) ← { L.child with ports := [] }.cycle (fun b => look (.inr b)) x.2 s.2
  pure (⟨shown.outputs, shown.calls ++ within.calls, shown.failures ++ within.failures,
    shown.accessFaults ++ within.accessFaults.map (· + L.host.memories.length),
    shown.writeFaults ++ within.writeFaults.map (· + L.host.memories.length)⟩,
    hostStore, childStore)

/-- Host and child, run side by side. -/
noncomputable def machine : Machine (Stimulus × Stimulus) Observed (Store × Store) where
  step x s :=
    L.cycle (L.value P (L.host.env x.1 s.1) (L.child.env x.2 s.2)) x s

theorem cycle_mono {f h : Nat ⊕ Nat → Option Bool} (hfh : Below f h) (x : Stimulus × Stimulus)
    (s : Store × Store) : Refines (L.cycle f x s) (L.cycle h x s) := by
  have hhost := L.host.cycle_mono (f := fun b => f (.inl b)) (h := fun b => h (.inl b))
    (fun b => hfh (.inl b)) x.1 s.1
  have hchild := Graph.cycle_mono (f := fun b => f (.inr b)) (h := fun b => h (.inr b))
    (fun b => hfh (.inr b)) { L.child with ports := [] } x.2 s.2
  unfold cycle
  exact hhost.bind fun _ => hchild.bind fun _ => Refines.refl _

theorem shows_of_iterate (fuel : Nat) {x : Stimulus × Stimulus} {s : Store × Store} {o : Observed}
    (h : (L.cycle ((L.system P (L.host.env x.1 s.1) (L.child.env x.2 s.2)).iterate fuel) x s).map
      Prod.fst = some o) : ((L.machine P).run [x] s).map Prod.fst = some [o] := by
  have hbelow : Below ((L.system P (L.host.env x.1 s.1) (L.child.env x.2 s.2)).iterate fuel)
      (L.value P (L.host.env x.1 s.1) (L.child.env x.2 s.2)) :=
    fun _ _ h => PartialSystem.value_of_iterate _ h
  have hstep := (L.cycle_mono hbelow x s).map Prod.fst o h
  exact Machine.run_singleton_shows hstep

end Coupling

/-! ## What linking builds -/

theorem rebase_of_lt {b : Nat} (base : Nat) (h : b < 2) : rebase base b = b := if_pos h

theorem rebase_of_ge {b : Nat} (base : Nat) (h : 66 ≤ b) : rebase base b = b + 64 * base := by
  unfold rebase nodeBase owner lane
  rw [if_neg (by omega)]
  omega

theorem owner_rebase {b : Nat} (base : Nat) (h : 66 ≤ b) :
    owner (rebase base b) = owner b + base := by
  rw [rebase_of_ge base h]
  unfold owner
  omega

theorem lane_rebase {b : Nat} (base : Nat) (h : 66 ≤ b) : lane (rebase base b) = lane b := by
  rw [rebase_of_ge base h]
  unfold lane
  omega

/-- The host's copy of a node of the child. -/
structure LinkedNode (base memoryBase : Nat) (n m : Node) : Prop where
  op : m.op = if n.op = .input then .wire else n.op
  width : m.width = n.width
  name : m.name = n.name
  left : m.left = n.left.map (rebase base)
  select : m.select = n.select.map (rebase base)
  right : n.op ≠ .memoryRead → m.right = n.right.map (rebase base)
  read : n.op = .memoryRead → ∃ k, number n.right = some k ∧
    m.right = constant (memoryBase + k) n.right.length

theorem LinkedNode.effects {base memoryBase : Nat} {n m : Node}
    (h : LinkedNode base memoryBase n m) :
    m.hostEffect = n.hostEffect ∧ m.validation = n.validation := by
  unfold Node.hostEffect Node.validation
  rw [h.op]
  split
  · rename_i hop
    rw [hop]
    exact ⟨rfl, rfl⟩
  · exact ⟨rfl, rfl⟩

theorem linkNode_ok {base memoryBase memories : Nat} {inst : String} {n m : Node} {g h : Graph}
    (hrun : Ok (linkNode base memoryBase memories inst n) g m h) :
    h = g ∧ LinkedNode base memoryBase n m := by
  unfold linkNode at hrun
  split at hrun
  · rename_i hop
    obtain ⟨rfl, rfl⟩ := ok_pure.mp hrun
    exact ⟨rfl, by simp [hop], rfl, rfl, rfl, rfl, fun _ => rfl, fun h => by simp [hop] at h⟩
  · rename_i hop
    split at hrun
    · rename_i index hindex
      rcases ok_ite.mp hrun with ⟨-, hthrow⟩ | ⟨-, hpure⟩
      · simp at hthrow
      · obtain ⟨rfl, rfl⟩ := ok_pure.mp hpure
        exact ⟨rfl, by simp [hop], rfl, rfl, rfl, rfl, fun h => absurd hop h,
          fun _ => ⟨index, hindex, rfl⟩⟩
    · simp at hrun
  · rename_i hinput hread
    obtain ⟨rfl, rfl⟩ := ok_pure.mp hrun
    exact ⟨rfl, (if_neg hinput).symm, rfl, rfl, rfl, rfl, fun _ => rfl, fun h => absurd h hread⟩

theorem linkNodes_ok {base memoryBase memories : Nat} {inst : String} {ns : List Node}
    {g h : Graph} {u : Unit}
    (hrun : Ok (ns.forM fun original => do
      let n ← linkNode base memoryBase memories inst original
      modify fun g => { g with nodes := g.nodes.push n }) g u h) :
    ∃ ms, List.Forall₂ (LinkedNode base memoryBase) ns ms ∧
      h = { g with nodes := g.nodes ++ ms.toArray } := by
  induction ns generalizing g with
  | nil =>
      obtain rfl := ok_forM_nil.mp hrun
      exact ⟨[], .nil, by simp⟩
  | cons n ns ih =>
      obtain ⟨g', hfirst, hrest⟩ := ok_forM_cons.mp hrun
      obtain ⟨m, g'', hnode, hpush⟩ := ok_bind.mp hfirst
      obtain ⟨rfl, hm⟩ := linkNode_ok hnode
      obtain rfl := ok_modify.mp hpush
      obtain ⟨ms, hms, rfl⟩ := ih hrest
      exact ⟨m :: ms, .cons hm hms, by simp⟩

/-! ### Pins as aliases -/

/-- `h` is `g` with the targets of the pairs, which had no driver, aliased to
their sources. -/
structure Connects (pairs : List (Nat × Nat)) (g h : Graph) : Prop where
  rest : h = { g with aliases := h.aliases }
  lookup : ∀ b : Nat, h.aliases[b]? = (pairs.lookup b).or g.aliases[b]?
  fresh : ∀ {b s : Nat}, pairs.lookup b = some s → 2 ≤ b ∧ g.aliases[b]? = none

theorem Connects.refl (g : Graph) : Connects [] g g := ⟨rfl, fun _ => rfl, by simp⟩

theorem Connects.trans {ps qs : List (Nat × Nat)} {g h k : Graph} (hgh : Connects ps g h)
    (hhk : Connects qs h k) : Connects (ps ++ qs) g k where
  rest := by rw [hhk.rest, hgh.rest]
  lookup b := by
    rw [hhk.lookup, hgh.lookup, List.lookup_append]
    cases hq : qs.lookup b with
    | none => simp
    | some s =>
        have hfree := (hhk.fresh hq).2
        rw [hgh.lookup, Option.or_eq_none_iff] at hfree
        simp [hfree.1]
  fresh {b s} hs := by
    rw [List.lookup_append] at hs
    cases hp : ps.lookup b with
    | some t => exact hgh.fresh hp
    | none =>
        rw [hp, Option.none_or] at hs
        have hfree := hhk.fresh hs
        rw [hgh.lookup, Option.or_eq_none_iff] at hfree
        exact ⟨hfree.1, hfree.2.2⟩

theorem connectBit_ok {p : Nat × Nat} {g h : Graph} {u : Unit} (hne : 2 ≤ p.1 → p.1 ≠ p.2)
    (hrun : Ok (connectBit p) g u h) : Connects [p] g h := by
  replace hrun := ok_get_bind.mp hrun
  rcases ok_ite.mp hrun with ⟨-, hthrow⟩ | ⟨hdriven, hset⟩
  · simp at hthrow
  · have hfree : 2 ≤ p.1 ∧ g.aliases[p.1]? = none := by
      rw [not_or, Bool.not_eq_true, Option.isSome_eq_false_iff, Option.isNone_iff_eq_none] at hdriven
      exact ⟨by omega, hdriven.2⟩
    rcases ok_ite.mp hset with ⟨-, hset⟩ | ⟨heq, -⟩
    · obtain rfl := ok_set.mp hset
      refine ⟨rfl, fun b => ?_, fun {b s} hs => ?_⟩
      · rw [List.lookup_singleton, Std.ExtTreeMap.getElem?_insert]
        by_cases hb : b = p.1
        · simp [hb]
        · simp [hb, Ne.symm hb]
      · rw [List.lookup_singleton] at hs
        split_ifs at hs with hb
        rw [beq_iff_eq.mp hb]
        exact hfree
    · exact absurd (hne hfree.1) heq

theorem connectBits_ok {pairs : List (Nat × Nat)} {g h : Graph} {u : Unit}
    (hne : ∀ p ∈ pairs, 2 ≤ p.1 → p.1 ≠ p.2) (hrun : Ok (pairs.forM connectBit) g u h) :
    Connects pairs g h := by
  induction pairs generalizing g with
  | nil =>
      obtain rfl := ok_forM_nil.mp hrun
      exact Connects.refl h
  | cons p pairs ih =>
      obtain ⟨g', hfirst, hrest⟩ := ok_forM_cons.mp hrun
      have hp := connectBit_ok (hne p List.mem_cons_self) hfirst
      exact hp.trans (ih (fun q hq => hne q (List.mem_cons_of_mem _ hq)) hrest)

theorem connect_ok {target source : Value} {g h : Graph} {u : Unit}
    (hne : ∀ p ∈ target.zip source, 2 ≤ p.1 → p.1 ≠ p.2) (hrun : Ok (connect target source) g u h) :
    Connects (target.zip source) g h := by
  rcases ok_ite.mp hrun with ⟨-, hthrow⟩ | ⟨-, hrun⟩
  · simp at hthrow
  · exact connectBits_ok hne hrun

theorem lookup_map_of_injOn {α : Type} (κ : Nat → Nat) (m : α → α) {l : List (Nat × α)} {c : Nat}
    (hκ : ∀ p ∈ l, κ p.1 = κ c → p.1 = c) :
    (l.map fun p => (κ p.1, m p.2)).lookup (κ c) = (l.lookup c).map m := by
  induction l with
  | nil => rfl
  | cons p l ih =>
      rw [List.map_cons, List.lookup_cons, List.lookup_cons]
      by_cases hc : c = p.1
      · simp [hc]
      · have hne : ¬ κ c = κ p.1 := fun h => hc (hκ p List.mem_cons_self h.symm).symm
        simp only [beq_eq_false_iff_ne.mpr hne, beq_eq_false_iff_ne.mpr hc]
        exact ih fun q hq => hκ q (List.mem_cons_of_mem _ hq)

/-- Entries that were there stay; the others come from the list, the first
entry of a key first. -/
theorem getElem?_foldl_insertIfNew (l : List (Nat × Nat)) (m : Std.ExtTreeMap Nat Nat) (k : Nat) :
    (l.foldl (fun m p => m.insertIfNew p.1 p.2) m)[k]? = (m[k]?).or (l.lookup k) := by
  induction l generalizing m with
  | nil => simp
  | cons p l ih =>
      rw [List.foldl_cons, ih, Std.ExtTreeMap.getElem?_insertIfNew, List.lookup_cons]
      by_cases hk : k = p.1
      · subst hk
        cases hm : m[p.1]? with
        | none =>
            have hnot : p.1 ∉ m := by
              rw [← Std.ExtTreeMap.isSome_getElem?_iff_mem, hm]
              simp
            simp [hnot]
        | some v =>
            have hin : p.1 ∈ m := by
              rw [← Std.ExtTreeMap.isSome_getElem?_iff_mem, hm]
              rfl
            simp [hin]
      · simp [Ne.symm hk, beq_eq_false_iff_ne.mpr hk]

theorem lookup_toList (m : Std.ExtTreeMap Nat Nat) (k : Nat) : m.toList.lookup k = m[k]? := by
  ext v
  constructor
  · intro h
    obtain ⟨l₁, l₂, hl, -⟩ := List.lookup_eq_some_iff.mp h
    exact Std.ExtTreeMap.mem_toList_iff_getElem?_eq_some.mp (by rw [hl]; simp)
  · intro h
    have hmem := Std.ExtTreeMap.mem_toList_iff_getElem?_eq_some.mpr h
    cases hl : m.toList.lookup k with
    | none =>
        have := List.lookup_eq_none_iff.mp hl _ hmem
        simp at this
    | some w =>
        obtain ⟨l₁, l₂, hlist, -⟩ := List.lookup_eq_some_iff.mp hl
        have hw := Std.ExtTreeMap.mem_toList_iff_getElem?_eq_some.mp
          (show (k, w) ∈ m.toList by rw [hlist]; simp)
        rw [h] at hw
        rw [hw]

def pinPairs (base : Nat) (pins : Pins) (p : Port) : List (Nat × Nat) :=
  match pins[p.name]? with
  | none => []
  | some bits =>
      if p.input then (p.bits.map (rebase base)).zip bits else bits.zip (p.bits.map (rebase base))

theorem connectPins_ok {base : Nat} {pins : Pins} {ports : List Port} {g h : Graph} {u : Unit}
    (hne : ∀ p ∈ ports, ∀ q ∈ pinPairs base pins p, 2 ≤ q.1 → q.1 ≠ q.2)
    (hrun : Ok (ports.forM (connectPin base pins)) g u h) :
    Connects (ports.flatMap (pinPairs base pins)) g h := by
  induction ports generalizing g with
  | nil =>
      obtain rfl := ok_forM_nil.mp hrun
      exact Connects.refl h
  | cons p ports ih =>
      obtain ⟨g', hfirst, hrest⟩ := ok_forM_cons.mp hrun
      rw [List.flatMap_cons]
      refine Connects.trans ?_ (ih (fun q hq => hne q (List.mem_cons_of_mem _ hq)) hrest)
      have hp := hne p List.mem_cons_self
      unfold connectPin at hfirst
      unfold pinPairs at hp ⊢
      cases hpin : pins[p.name]? with
      | none =>
          rw [hpin] at hfirst
          obtain ⟨-, rfl⟩ := ok_pure.mp hfirst
          exact Connects.refl g
      | some bits =>
          rw [hpin] at hfirst hp
          simp only at hfirst hp ⊢
          split_ifs at hfirst hp ⊢
          · exact connect_ok hp hfirst
          · exact connect_ok hp hfirst

/-! ### The linked graph -/

/-- The pins bind bits of the host. -/
def Graph.OwnsPins (host : Graph) (pins : Pins) : Prop :=
  ∀ {name : String} {bits : Value}, pins[name]? = some bits → ∀ b ∈ bits, host.Owns b

namespace Coupling

variable (L : Coupling)

abbrev base : Nat := L.host.nodes.size

/-- What linking makes of host and child. -/
structure Linked (inst : String) (linked : Graph) : Prop where
  nodes : ∃ ms, List.Forall₂ (LinkedNode L.base L.host.memories.length) L.child.nodes.toList ms ∧
    linked.nodes = L.host.nodes ++ ms.toArray
  hostAlias : ∀ {b : Nat}, L.host.Owns b →
    linked.aliases[b]? = ((L.toHost b).map (rebase L.base)).or L.host.aliases[b]?
  childAlias : ∀ {c : Nat}, L.child.Owns c → linked.aliases[rebase L.base c]? =
    (L.toChild c).or ((L.child.aliases[c]?).map (rebase L.base))
  toHost : ∀ {b c : Nat}, L.toHost b = some c → 2 ≤ b ∧ L.child.Owns c
  toChild : ∀ {c b : Nat}, L.toChild c = some b → 2 ≤ c ∧ L.host.Owns b ∧
    L.child.aliases[c]? = none
  rest : linked = { L.host.absorb L.child L.base L.host.memories.length inst with
    nodes := linked.nodes, aliases := linked.aliases }
  clocks : L.host.clocks = [] ∧ L.child.clocks = []

/-! ### Lookups through the pins -/

/-- Bits of the child stay apart, and apart from those of the host. -/
theorem rebase_injOn {a b : Nat} (ha : L.child.Owns a) (hb : L.child.Owns b)
    (h : rebase L.base a = rebase L.base b) : a = b := by
  have hpos : ∀ {c : Nat}, L.child.Owns c → c < 2 ∧ rebase L.base c = c ∨
      66 ≤ c ∧ rebase L.base c = c + 64 * L.base := by
    intro c hc
    rcases hc with hc | hc
    · exact .inl ⟨hc, rebase_of_lt _ hc⟩
    · exact .inr ⟨hc.1, rebase_of_ge _ hc.1⟩
  rcases hpos ha with ha | ha <;> rcases hpos hb with hb | hb <;> omega

theorem bound_le_rebase {c : Nat} (hc : 66 ≤ c) : L.host.bound ≤ rebase L.base c := by
  rw [rebase_of_ge _ hc]
  change _ ≤ c + 64 * L.host.nodes.size
  unfold Graph.bound nodeBase
  omega

theorem rebase_ne_host {b c : Nat} (hb : 2 ≤ b) (hhost : L.host.Owns b) (hc : L.child.Owns c) :
    rebase L.base c ≠ b := by
  rcases hc with hc | hc
  · rw [rebase_of_lt _ hc]
    omega
  · have := L.bound_le_rebase hc.1
    rcases hhost with hhost | hhost <;> omega

variable {L} {ports : List Port} (hports : ∀ p ∈ ports, ∀ b ∈ p.bits, L.child.Owns b)
  (hpins : L.host.OwnsPins L.pins)

include hports

theorem lookup_pairs_host {b : Nat} (hb : 2 ≤ b) (hhost : L.host.Owns b) :
    (ports.flatMap (pinPairs L.base L.pins)).lookup b =
      ((ports.flatMap fun p =>
        if p.input then [] else (L.pins[p.name]?.getD []).zip p.bits).lookup b).map
          (rebase L.base) := by
  induction ports with
  | nil => rfl
  | cons p ports ih =>
      rw [List.flatMap_cons, List.flatMap_cons, List.lookup_append, List.lookup_append,
        ih fun q hq => hports q (List.mem_cons_of_mem _ hq), Option.map_or]
      congr 1
      unfold pinPairs
      cases L.pins[p.name]? with
      | none => cases p.input <;> rfl
      | some bits =>
          cases hp : p.input with
          | false =>
              simp only [Bool.false_eq_true, if_false, Option.getD_some, List.zip_map_right]
              exact lookup_map_of_injOn id (rebase L.base) fun q _ h => h
          | true =>
              simp only [if_true, List.lookup_nil, Option.map_none]
              refine List.lookup_eq_none_iff.mpr fun q hq => ?_
              obtain ⟨c, hc, hqc⟩ := List.mem_map.mp (List.of_mem_zip hq).1
              have := L.rebase_ne_host hb hhost (hports p List.mem_cons_self c hc)
              simp [← hqc, Ne.symm this]

include hpins

theorem lookup_pairs_child {c : Nat} (hc : 2 ≤ c) (hchild : L.child.Owns c) :
    (ports.flatMap (pinPairs L.base L.pins)).lookup (rebase L.base c) =
      (ports.flatMap fun p =>
        if p.input then p.bits.zip (L.pins[p.name]?.getD []) else []).lookup c := by
  induction ports with
  | nil => rfl
  | cons p ports ih =>
      rw [List.flatMap_cons, List.flatMap_cons, List.lookup_append, List.lookup_append,
        ih fun q hq => hports q (List.mem_cons_of_mem _ hq)]
      congr 1
      unfold pinPairs
      cases hpin : L.pins[p.name]? with
      | none => cases p.input <;> simp
      | some bits =>
          cases hp : p.input with
          | true =>
              simp only [if_true, Option.getD_some, List.zip_map_left]
              have := lookup_map_of_injOn (rebase L.base) (id : Nat → Nat) (c := c)
                (l := p.bits.zip bits) fun q hq h =>
                  L.rebase_injOn (hports p List.mem_cons_self _ (List.of_mem_zip hq).1) hchild h
              rw [Option.map_id] at this
              exact this
          | false =>
              simp only [Bool.false_eq_true, if_false, List.lookup_nil]
              refine List.lookup_eq_none_iff.mpr fun q hq => ?_
              have howned := hpins hpin q.1 (List.of_mem_zip hq).1
              have hne : rebase L.base c ≠ q.1 := by
                have hge : 66 ≤ c := by
                  rcases hchild with h | h <;> omega
                have := L.bound_le_rebase hge
                rcases howned with h | h <;> [skip; omega]
                unfold Graph.bound nodeBase at this
                omega
              simp [hne]

end Coupling

theorem checkPin_keep {pins : Pins} {p : Port} {g h : Graph} {u : Unit}
    (hrun : Ok (checkPin pins p) g u h) : h = g := by
  unfold checkPin at hrun
  split at hrun
  · rcases ok_ite.mp hrun with ⟨-, hthrow⟩ | ⟨-, hpure⟩
    · simp at hthrow
    · exact (ok_pure.mp hpure).2.symm
  · rcases ok_ite.mp hrun with ⟨-, hthrow⟩ | ⟨-, hpure⟩
    · simp at hthrow
    · exact (ok_pure.mp hpure).2.symm

theorem checkName_keep {child : Graph} {pin : String × Value} {g h : Graph} {u : Unit}
    (hrun : Ok (checkName child pin) g u h) : h = g := by
  rcases ok_ite.mp hrun with ⟨-, hthrow⟩ | ⟨-, hpure⟩
  · simp at hthrow
  · exact (ok_pure.mp hpure).2.symm

namespace Coupling

variable {L : Coupling}

theorem absorb_childAlias (hhost : L.host.SelfContained) (hchild : L.child.SelfContained) (inst : String) {c : Nat}
    (hc : L.child.Owns c) :
    (L.host.absorb L.child L.base L.host.memories.length inst).aliases[rebase L.base c]? =
      (L.child.aliases[c]?).map (rebase L.base) := by
  unfold Graph.absorb
  simp only
  have hfree : L.host.aliases[rebase L.base c]? = none := by
    cases h : L.host.aliases[rebase L.base c]? with
    | none => rfl
    | some s =>
        have hkey := hhost.aliases h
        rcases hc with hc | hc
        · rw [rebase_of_lt _ hc] at hkey
          omega
        · have := L.bound_le_rebase hc.1
          omega
  rw [← List.foldl_map (f := fun p : Nat × Nat => (rebase L.base p.1, rebase L.base p.2))
    (g := fun m p => Std.ExtTreeMap.insertIfNew m p.1 p.2), getElem?_foldl_insertIfNew, hfree,
    Option.none_or, lookup_map_of_injOn (rebase L.base) (rebase L.base), lookup_toList]
  intro p hp h
  have hkey := hchild.aliases (Std.ExtTreeMap.mem_toList_iff_getElem?_eq_some.mp hp)
  exact L.rebase_injOn (.inr ⟨hkey.1, hkey.2.1⟩) hc h

theorem absorb_hostAlias (hchild : L.child.SelfContained) (inst : String) {b : Nat}
    (hb : L.host.Owns b) :
    (L.host.absorb L.child L.base L.host.memories.length inst).aliases[b]? = L.host.aliases[b]? := by
  unfold Graph.absorb
  simp only
  rw [← List.foldl_map (f := fun p : Nat × Nat => (rebase L.base p.1, rebase L.base p.2))
    (g := fun m p => Std.ExtTreeMap.insertIfNew m p.1 p.2), getElem?_foldl_insertIfNew]
  have hnone : (L.child.aliases.toList.map fun p : Nat × Nat =>
      (rebase L.base p.1, rebase L.base p.2)).lookup b = none := by
    refine List.lookup_eq_none_iff.mpr fun q hq => ?_
    obtain ⟨p, hp, rfl⟩ := List.mem_map.mp hq
    have hkey := hchild.aliases (Std.ExtTreeMap.mem_toList_iff_getElem?_eq_some.mp hp)
    have hge := L.bound_le_rebase hkey.1
    have hne : b ≠ rebase L.base p.1 := by
      rcases hb with hb | hb <;> [skip; omega]
      unfold Graph.bound nodeBase at hge
      omega
    simp [hne]
  rw [hnone, Option.or_none]

theorem mem_of_lookup {l : List (Nat × Nat)} {k v : Nat} (h : l.lookup k = some v) :
    (k, v) ∈ l := by
  obtain ⟨l₁, l₂, rfl, -⟩ := List.lookup_eq_some_iff.mp h
  simp

theorem mem_outputPins {b c : Nat} (h : (b, c) ∈ L.outputPins) :
    ∃ p ∈ L.child.ports, ∃ bits, p.input = false ∧ L.pins[p.name]? = some bits ∧
      (b, c) ∈ bits.zip p.bits := by
  obtain ⟨p, hp, hmem⟩ := List.mem_flatMap.mp h
  cases hin : p.input with
  | true => simp [hin] at hmem
  | false =>
      cases hpin : L.pins[p.name]? with
      | none => simp [hin, hpin] at hmem
      | some bits =>
          rw [hin, hpin] at hmem
          exact ⟨p, hp, bits, hin, hpin, by simpa using hmem⟩

theorem mem_inputPins {c b : Nat} (h : (c, b) ∈ L.inputPins) :
    ∃ p ∈ L.child.ports, ∃ bits, p.input = true ∧ L.pins[p.name]? = some bits ∧
      (c, b) ∈ p.bits.zip bits := by
  obtain ⟨p, hp, hmem⟩ := List.mem_flatMap.mp h
  cases hin : p.input with
  | false => simp [hin] at hmem
  | true =>
      cases hpin : L.pins[p.name]? with
      | none => simp [hin, hpin] at hmem
      | some bits =>
          rw [hin, hpin] at hmem
          exact ⟨p, hp, bits, hin, hpin, by simpa using hmem⟩

end Coupling

namespace Coupling

variable {L : Coupling}

theorem linked_of_connects (hhost : L.host.SelfContained) (hchild : L.child.SelfContained)
    (hpins : L.host.OwnsPins L.pins) {inst : String} {nodes : Array Node} {linked : Graph}
    {ms : List Node}
    (hms : List.Forall₂ (LinkedNode L.base L.host.memories.length) L.child.nodes.toList ms)
    (hnodes : nodes = L.host.nodes ++ ms.toArray)
    (hclocks : L.host.clocks = [] ∧ L.child.clocks = [])
    (hconn : Connects (L.child.ports.flatMap (pinPairs L.base L.pins))
      ({ L.host with nodes }.absorb L.child L.base L.host.memories.length inst) linked) :
    L.Linked inst linked := by
  have hdriven : ∀ {q : Nat × Nat}, q ∈ L.child.ports.flatMap (pinPairs L.base L.pins) →
      2 ≤ q.1 ∧ (L.host.absorb L.child L.base L.host.memories.length inst).aliases[q.1]? = none := by
    intro q hq
    cases hlook : (L.child.ports.flatMap (pinPairs L.base L.pins)).lookup q.1 with
    | none =>
        have := List.lookup_eq_none_iff.mp hlook q hq
        simp at this
    | some s => exact hconn.fresh hlook
  have htoHost : ∀ {b c : Nat}, L.toHost b = some c → 2 ≤ b ∧ L.child.Owns c := by
    intro b c h
    obtain ⟨p, hp, bits, hin, hpin, hmem⟩ := mem_outputPins (mem_of_lookup h)
    refine ⟨(hdriven (q := (b, rebase L.base c)) ?_).1,
      hchild.ports p hp c (List.of_mem_zip hmem).2⟩
    refine List.mem_flatMap.mpr ⟨p, hp, ?_⟩
    simp only [pinPairs, hpin, hin, Bool.false_eq_true, if_false, List.zip_map_right]
    exact List.mem_map.mpr ⟨(b, c), hmem, rfl⟩
  have htoChild : ∀ {c b : Nat}, L.toChild c = some b →
      2 ≤ c ∧ L.host.Owns b ∧ L.child.aliases[c]? = none := by
    intro c b h
    obtain ⟨p, hp, bits, hin, hpin, hmem⟩ := mem_inputPins (mem_of_lookup h)
    have hc := hchild.ports p hp c (List.of_mem_zip hmem).1
    have hpair := hdriven (q := (rebase L.base c, b)) (List.mem_flatMap.mpr ⟨p, hp, by
      simp only [pinPairs, hpin, hin, if_true, List.zip_map_left]
      exact List.mem_map.mpr ⟨(c, b), hmem, rfl⟩⟩)
    refine ⟨?_, hpins hpin b (List.of_mem_zip hmem).2, ?_⟩
    · by_contra hlt
      rw [rebase_of_lt _ (by omega)] at hpair
      omega
    · have := hpair.2
      rw [absorb_childAlias hhost hchild inst hc, Option.map_eq_none_iff] at this
      exact this
  have hlinked : linked.nodes = nodes := congrArg Graph.nodes hconn.rest
  refine ⟨⟨ms, hms, hlinked.trans hnodes⟩, fun {b} hb => ?_, fun {c} hc => ?_, htoHost, htoChild, ?_, hclocks⟩
  · have habsorb := absorb_hostAlias hchild inst hb
    rw [hconn.lookup]
    change Option.or _ ((L.host.absorb L.child L.base L.host.memories.length inst).aliases[b]?) = _
    rw [habsorb]
    by_cases h2 : 2 ≤ b
    · rw [lookup_pairs_host hchild.ports h2 hb]
      rfl
    · have hpairs : (L.child.ports.flatMap (pinPairs L.base L.pins)).lookup b = none := by
        cases hlook : (L.child.ports.flatMap (pinPairs L.base L.pins)).lookup b with
        | none => rfl
        | some s => exact absurd (hconn.fresh hlook).1 h2
      have hto : L.toHost b = none := by
        cases hlook : L.toHost b with
        | none => rfl
        | some c => exact absurd (htoHost hlook).1 h2
      rw [hpairs, hto, Option.map_none]
  · have habsorb := absorb_childAlias hhost hchild inst hc
    rw [hconn.lookup]
    change Option.or _ ((L.host.absorb L.child L.base L.host.memories.length inst).aliases[rebase L.base c]?) = _
    rw [habsorb]
    by_cases h2 : 2 ≤ c
    · rw [lookup_pairs_child hchild.ports hpins h2 hc]
      rfl
    · have hpairs : (L.child.ports.flatMap (pinPairs L.base L.pins)).lookup
          (rebase L.base c) = none := by
        rw [rebase_of_lt _ (by omega)]
        cases hlook : (L.child.ports.flatMap (pinPairs L.base L.pins)).lookup c with
        | none => rfl
        | some s => exact absurd (hconn.fresh hlook).1 h2
      have hto : L.toChild c = none := by
        cases hlook : L.toChild c with
        | none => rfl
        | some b => exact absurd (htoChild hlook).1 h2
      rw [hpairs, hto]
  · rw [hlinked]
    exact hconn.rest

end Coupling

/-- A pair the program accepts: no implicit clocks, and everything moved as
`Linked` says. -/
theorem linkGraphInstance_ok {L : Coupling} {linked : Graph} {inst : String} {u : Unit}
    (hhost : L.host.SelfContained) (hchild : L.child.SelfContained) (hpins : L.host.OwnsPins L.pins)
    (hrun : Ok (linkGraphInstance L.child L.pins inst) L.host u linked) : L.Linked inst linked := by
  replace hrun := ok_get_bind.mp hrun
  rcases ok_ite.mp hrun with ⟨-, hthrow⟩ | ⟨hclocks, hrun⟩
  · simp at hthrow
  rcases ok_ite.mp hrun with ⟨-, hthrow⟩ | ⟨-, hrun⟩
  · simp at hthrow
  obtain ⟨_, g₁, hcheck, hrun⟩ := ok_bind.mp hrun
  obtain rfl := ok_forM_keep (fun _ _ _ _ h => checkPin_keep h) hcheck
  obtain ⟨_, g₂, hcheck, hrun⟩ := ok_bind.mp hrun
  obtain rfl := ok_forM_keep (fun _ _ _ _ h => checkName_keep h) hcheck
  obtain ⟨_, g₃, hnodes, hrun⟩ := ok_bind.mp hrun
  obtain ⟨_, g₄, habsorb, hconnect⟩ := ok_bind.mp hrun
  obtain ⟨ms, hms, rfl⟩ := linkNodes_ok hnodes
  obtain rfl := ok_modify.mp habsorb
  -- no pin connects a bit to itself: its two ends lie in different graphs
  have hne : ∀ p ∈ L.child.ports, ∀ q ∈ pinPairs L.base L.pins p, 2 ≤ q.1 → q.1 ≠ q.2 := by
    intro p hp q hq hdriven
    unfold pinPairs at hq
    cases hpin : L.pins[p.name]? with
    | none => simp [hpin] at hq
    | some bits =>
        rw [hpin] at hq
        simp only at hq
        split_ifs at hq
        · obtain ⟨hleft, hright⟩ := List.of_mem_zip hq
          obtain ⟨c, hc, hqc⟩ := List.mem_map.mp hleft
          have howned := hchild.ports p hp c hc
          intro heq
          exact L.rebase_ne_host (heq ▸ hdriven) (hpins hpin _ hright) howned (hqc.trans heq)
        · obtain ⟨hleft, hright⟩ := List.of_mem_zip hq
          obtain ⟨c, hc, hqc⟩ := List.mem_map.mp hright
          have howned := hchild.ports p hp c hc
          intro heq
          exact L.rebase_ne_host hdriven (hpins hpin _ hleft) howned (hqc.trans heq.symm)
  refine Coupling.linked_of_connects hhost hchild hpins hms rfl ?_ (connectPins_ok hne hconnect)
  simp only [not_or, not_not] at hclocks
  exact ⟨hclocks.2.2.1, hclocks.2.2.2⟩

end CppHdl
