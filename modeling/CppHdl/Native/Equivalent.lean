import CppHdl.Graph.Total
import CppHdl.Native.Runs

/-!
# A plan is equivalent to its schedule

For every graph and every schedule of it, a plan is made, and each lane of it
can be run on its own: what a lane reads was computed before on the lane, each
sink is assembled on its lane from the values of the sequential schedule, and
host calls are made once, on the lane of the caller, in their order.

States that write one word share a lane. Writes of one memory need not: a lane
prepares the address, the data and the enable of a write, and the commit of all
writes, in their order, follows when the lanes have joined.
-/

namespace CppHdl.Native

/-! ## Port words -/

theorem slice_eq_take_drop (v : Value) (offset width : Nat) :
    slice v offset (min width (v.length - offset)) = (v.drop offset).take width := by
  refine List.ext_getElem? fun i => ?_
  by_cases hi : i < min width (v.length - offset)
  · rw [getElem?_slice hi (by omega), List.getElem?_take_of_lt (by omega), List.getElem?_drop]
  · rw [List.getElem?_eq_none (by rw [length_slice]; omega),
      List.getElem?_eq_none (by rw [List.length_take, List.length_drop]; omega)]

/-- Words of a port, each changed in its way, put together again. -/
theorem flatten_slices {β : Type} (f : Nat → Nat → β) (v : Value) (n : Nat) :
    ((List.range n).map fun word => ((v.drop (word * 64)).take 64).map (f word)).flatten =
      (v.take (n * 64)).mapIdx fun o b => f (o / 64) b := by
  induction n with
  | zero => simp
  | succ n ih =>
      rw [List.range_succ, List.map_append, List.flatten_append, ih, List.map_singleton,
        List.flatten_singleton, Nat.succ_mul, List.take_add, List.mapIdx_append]
      refine congrArg _ (List.ext_getElem? fun i => ?_)
      rw [List.getElem?_map, List.getElem?_mapIdx]
      by_cases hi : i < ((v.drop (n * 64)).take 64).length
      · have hlen : (v.take (n * 64)).length = n * 64 ∧ i < 64 := by
          rw [List.length_take, List.length_drop] at hi
          rw [List.length_take]
          omega
        rw [hlen.1, show (i + n * 64) / 64 = n by omega]
      · rw [List.getElem?_eq_none (by omega)]
        rfl

theorem portWords_mul (width : Nat) : width ≤ portWords width * 64 := by
  unfold portWords
  omega

/-! ## What a plan promises -/

namespace NativeParallelPlan

def laneTasks (plan : NativeParallelPlan) (lane : Nat) : List Nat := plan.tasks.getD lane []

/-- The lane that assembles a bit of an output port. -/
def portLane (plan : NativeParallelPlan) (port offset : Nat) : Nat :=
  (plan.portWords.getD port []).getD (offset / 32) 0

/-- The lane that assembles another sink; checks are the caller's. -/
def sinkLane (plan : NativeParallelPlan) : Field → Nat
  | .next i | .trigger i | .reset i | .resetValue i => plan.states.getD i 0
  | .accessAddress i | .accessEnabled i => plan.accesses.getD i 0
  | .writeAddress i | .writeData i | .writeEnabled i => plan.writes.getD i 0
  | .portSlice .. | .hostValue _ | .validation _ => 0

end NativeParallelPlan

/-- The sinks that are no output ports and no host calls. -/
def isSink (g : Graph) : Field → Bool
  | .portSlice .. | .hostValue _ => false
  | .validation i => isValidation g i
  | _ => true

structure Equivalent (g : Graph) (order : List Nat) (plan : NativeParallelPlan) (g' : Graph) :
    Prop where
  /-- Sinks keep their places, and all of a record that is no operand. -/
  frame : ∃ nodes fields, g' = withFields g nodes fields
  /-- A lane reads constants, inputs, states and what it has computed. -/
  ordered : ∀ lane done i rest, plan.laneTasks lane = done ++ i :: rest →
    ∀ n, g'.nodes[i]? = some n → ∀ b ∈ n.operands, Readable g' done (g'.root b)
  once : plan.tasks.flatten.Nodup
  sinks : ∀ (P : Primitives) (env : Env) (f : Field), isSink g f = true →
    (field g' f).map (valueAfter P g' env (plan.laneTasks (plan.sinkLane f))) =
      (field g f).map (valueAfter P g env (values g order))
  outputs : ∀ (P : Primitives) (env : Env) (i : Nat) (port port' : Port), g.ports[i]? = some port →
    port.input = false → g'.ports[i]? = some port' →
    (port'.bits.mapIdx fun o => valueAfter P g' env (plan.laneTasks (plan.portLane i o))) =
      port.bits.map (valueAfter P g env (values g order))
  hosts : ∀ i, isHost g i = true → i ∈ plan.laneTasks 0 ∧ plan.tasks.flatten.count i = 1
  calls : (plan.laneTasks 0).filter (isHost g') = order.filter (isHost g)
  caller : ∀ lane, 0 < lane → ∀ i ∈ plan.laneTasks lane, isHost g' i = false
  arguments : ∀ (P : Primitives) (env : Env) (i : Nat) (n : Node), isHost g i = true →
    g.nodes[i]? = some n → ∃ n', g'.nodes[i]? = some n' ∧ n'.op = n.op ∧ n'.name = n.name ∧
      n'.right.map (valueAfter P g' env (plan.laneTasks 0)) =
        n.right.map (valueAfter P g env (values g order)) ∧
      n'.select.map (valueAfter P g' env (plan.laneTasks 0)) =
        n.select.map (valueAfter P g env (values g order))
  writers : ∀ (i j : Nat) (s t : State), g.states[i]? = some s → g.states[j]? = some t →
    ∀ b ∈ s.bits, ∀ c ∈ t.bits, owner b = owner c → plan.states.getD i 0 = plan.states.getD j 0

/-! ## Several lanes -/

namespace Planned

variable {g : Graph} {order : List Nat} {r : Roots} {lanes : Nat} {p : Placement}
  {copies : Nat → Nat → Option Nat} {s : Cloning}

abbrev plan (g : Graph) (r : Roots) (lanes : Nat) (p : Placement) (s : Cloning) :
    NativeParallelPlan := sinkLanes g r lanes p s.tasks

theorem getD_map_lane {table : List Nat} {i root : Nat} (h : table[i]? = some root) :
    (table.map p.lane).getD i 0 = p.lane root := by
  rw [List.getD_eq_getElem?_getD, List.getElem?_map, h]
  rfl

/-- A check is no operation, so no copy is put in its place. -/
theorem validation_graph (h : Planned g order r lanes p copies s) {i : Nat}
    (hi : isValidation g i = true) : field (s.graph g) (.validation i) = s.fields (.validation i) := by
  obtain ⟨n, hn, hvalidation⟩ : ∃ n, g.nodes[i]? = some n ∧ n.validation = true := by
    unfold isValidation at hi
    cases hn : g.nodes[i]? with
    | none => simp [hn] at hi
    | some n => exact ⟨n, rfl, by simpa [hn] using hi⟩
  have hfree : i ∉ s.tasks.flatten := fun hmem => by
    obtain ⟨lane, j, hlane, hj, heq⟩ := h.of_mem_tasks hmem
    rcases h.done.number lane hlane j hj with hsame | hge
    · obtain ⟨m, hm, -, -, hvalue⟩ := isValue_iff.mp (mem_values.mp (own_value hj)).2
      rw [← hsame, heq, hn] at hm
      rw [← Option.some.inj hm, hvalidation] at hvalue
      cases hvalue
    · have := isValidation_lt hi
      omega
  simp only [field, getElem?_graph, h.done.inUse.original i (isValidation_lt hi) hfree, hn,
    Option.map_some, Option.getD_some, withNode, hvalidation, if_true]

/-- A sink that exists is in a root on the lane the plan names. -/
theorem sink_root (h : Planned g order r lanes p copies s) {f : Field} (hf : isSink g f = true) :
    (∃ root, r.Has root f ∧ (plan g r lanes p s).sinkLane f = p.lane root ∧
        field (s.graph g) f = s.fields f) ∨
      field g f = [] ∧ field (s.graph g) f = [] := by
  have hstate : ∀ i, i < g.states.length ∨ (g.states[i]? = none ∧
      (s.graph g).states[i]? = none) := fun i => by
    refine (Nat.lt_or_ge i g.states.length).imp id fun hge => ⟨List.getElem?_eq_none hge, ?_⟩
    exact List.getElem?_eq_none (by simpa [withFields] using hge)
  have haccess : ∀ i, i < g.memoryAccesses.length ∨ (g.memoryAccesses[i]? = none ∧
      (s.graph g).memoryAccesses[i]? = none) := fun i => by
    refine (Nat.lt_or_ge i g.memoryAccesses.length).imp id
      fun hge => ⟨List.getElem?_eq_none hge, ?_⟩
    exact List.getElem?_eq_none (by simpa [withFields] using hge)
  have hwrite : ∀ i, i < g.memoryWrites.length ∨ (g.memoryWrites[i]? = none ∧
      (s.graph g).memoryWrites[i]? = none) := fun i => by
    refine (Nat.lt_or_ge i g.memoryWrites.length).imp id
      fun hge => ⟨List.getElem?_eq_none hge, ?_⟩
    exact List.getElem?_eq_none (by simpa [withFields] using hge)
  cases f with
  | portSlice i word => cases hf
  | hostValue i => cases hf
  | validation i =>
      obtain ⟨root, hroot, hhas⟩ := h.rooted.validations i hf
      exact .inl ⟨root, hhas, (h.placed.caller root (lt_of_mem_getD hhas) (.inr hroot)).symm,
        h.validation_graph hf⟩
  | next i | trigger i | reset i | resetValue i =>
      rcases hstate i with hlt | ⟨hnone, hnone'⟩
      · obtain ⟨root, hroot, hhas⟩ := h.rooted.states i hlt
        refine .inl ⟨root, hhas _ (by simp [stateFields]), getD_map_lane hroot, ?_⟩
        simp [field, withFields, withState, hlt]
      · exact .inr ⟨by rw [field, hnone]; rfl, by rw [field, hnone']; rfl⟩
  | accessAddress i | accessEnabled i =>
      rcases haccess i with hlt | ⟨hnone, hnone'⟩
      · obtain ⟨root, hroot, haddress, henabled⟩ := h.rooted.accesses i hlt
        refine .inl ⟨root, by assumption, getD_map_lane hroot, ?_⟩
        simp [field, withFields, withAccess, hlt]
      · exact .inr ⟨by rw [field, hnone]; rfl, by rw [field, hnone']; rfl⟩
  | writeAddress i | writeData i | writeEnabled i =>
      rcases hwrite i with hlt | ⟨hnone, hnone'⟩
      · obtain ⟨root, hroot, haddress, hdata, henabled⟩ := h.rooted.writes i hlt
        refine .inl ⟨root, by assumption, getD_map_lane hroot, ?_⟩
        simp [field, withFields, withWrite, hlt]
      · exact .inr ⟨by rw [field, hnone]; rfl, by rw [field, hnone']; rfl⟩

theorem sink_value (h : Planned g order r lanes p copies s) (P : Primitives) (env : Env)
    {f : Field} (hf : isSink g f = true) :
    (field (s.graph g) f).map (valueAfter P (s.graph g) env
        ((plan g r lanes p s).laneTasks ((plan g r lanes p s).sinkLane f))) =
      (field g f).map (valueAfter P g env (values g order)) := by
  rcases h.sink_root hf with ⟨root, hroot, hlane, hfield⟩ | ⟨hempty, hempty'⟩
  · rw [hlane, hfield]
    exact h.fields_value P env hroot fun i heq => by
      rw [heq] at hf
      cases hf
  · rw [hempty, hempty']
    rfl

/-- The words of an output port, each in a root of its own. -/
theorem port_words (h : Planned g order r lanes p copies s) {i : Nat} {port : Port}
    (hport : g.ports[i]? = some port) (houtput : port.input = false) : ∃ words,
    r.portRoots[i]? = some words ∧ words.length = portWords port.bits.length ∧
      ∀ word, word < words.length → r.Has (words.getD word 0) (.portSlice i word) := by
  obtain ⟨words, hwords, hlength, hroots⟩ := h.rooted.ports i port hport
  rw [houtput] at hlength
  refine ⟨words, hwords, hlength, fun word hlt => hroots word _ ?_⟩
  rw [List.getD_eq_getElem _ _ hlt, List.getElem?_eq_getElem hlt]

theorem port_bits (h : Planned g order r lanes p copies s) {i : Nat} {port : Port}
    {words : List Nat} (hport : g.ports[i]? = some port)
    (hlength : words.length = portWords port.bits.length)
    (hhas : ∀ word, word < words.length → r.Has (words.getD word 0) (.portSlice i word)) :
    ((List.range (portWords port.bits.length)).map fun word => s.fields (.portSlice i word)).flatten =
      port.bits.mapIdx fun o b =>
        copiedBit g order (copies (p.lane (words.getD (o / 64) 0))) b := by
  have hwords : ∀ word ∈ List.range (portWords port.bits.length), s.fields (.portSlice i word) =
      ((port.bits.drop (word * 64)).take 64).map
        (copiedBit g order (copies (p.lane (words.getD word 0)))) := by
    intro word hword
    rw [h.fields_eq (hhas word (hlength ▸ List.mem_range.mp hword))]
    rw [field, hport, Option.map_some, Option.getD_some, portSlice, slice_eq_take_drop]
  rw [List.map_congr_left hwords,
    flatten_slices fun word => copiedBit g order (copies (p.lane (words.getD word 0))),
    List.take_of_length_le (portWords_mul _)]

theorem portLane_eq {i o : Nat} {port : Port} {words : List Nat} (hport : g.ports[i]? = some port)
    (houtput : port.input = false) (hwords : r.portRoots[i]? = some words)
    (ho : o < port.bits.length) :
    (plan g r lanes p s).portLane i o = p.lane (words.getD (o / 64) 0) := by
  have hzip : (g.ports.zip r.portRoots)[i]? = some (port, words) :=
    List.getElem?_zip_eq_some.mpr ⟨hport, hwords⟩
  have hlanes : (plan g r lanes p s).portWords.getD i [] =
      (List.range ((port.bits.length + 31) / 32)).map fun word =>
        p.lane (words.getD (word / 2) 0) := by
    simp only [plan, sinkLanes, List.getD_eq_getElem?_getD, List.getElem?_map, hzip,
      Option.map_some, houtput, Bool.false_eq_true, if_false, Option.getD_some]
  have hword : o / 32 < (port.bits.length + 31) / 32 := by omega
  unfold NativeParallelPlan.portLane
  rw [hlanes, List.getD_eq_getElem?_getD, List.getElem?_map, List.getElem?_range hword, Option.map_some, Option.getD_some,
    Nat.div_div_eq_div_mul]

theorem output_value (h : Planned g order r lanes p copies s) (P : Primitives) (env : Env)
    {i : Nat} {port port' : Port} (hport : g.ports[i]? = some port)
    (houtput : port.input = false) (hport' : (s.graph g).ports[i]? = some port') :
    (port'.bits.mapIdx fun o => valueAfter P (s.graph g) env
        ((plan g r lanes p s).laneTasks ((plan g r lanes p s).portLane i o))) =
      port.bits.map (valueAfter P g env (values g order)) := by
  obtain ⟨words, hwords, hlength, hhas⟩ := h.port_words hport houtput
  have hbits : port'.bits = port.bits.mapIdx fun o b =>
      copiedBit g order (copies (p.lane (words.getD (o / 64) 0))) b := by
    have hport' : (g.ports.mapIdx (withPort s.fields))[i]? = some port' := hport'
    rw [List.getElem?_mapIdx, hport, Option.map_some] at hport'
    rw [← Option.some.inj hport', withPort, houtput, if_neg Bool.false_ne_true]
    exact h.port_bits hport hlength hhas
  rw [hbits]
  refine List.ext_getElem? fun o => ?_
  rw [List.getElem?_mapIdx, List.getElem?_mapIdx, List.getElem?_map]
  cases hb : port.bits[o]? with
  | none => rfl
  | some b =>
      have ho : o < port.bits.length := (List.getElem?_eq_some_iff.mp hb).1
      have hword : o / 64 < words.length := by
        rw [hlength]
        unfold portWords
        omega
      have hmem : b ∈ field g (.portSlice i (o / 64)) := by
        rw [field, hport, Option.map_some, Option.getD_some, portSlice, slice_eq_take_drop]
        refine List.mem_of_getElem? (i := o % 64) ?_
        rw [List.getElem?_take_of_lt (Nat.mod_lt _ (by decide)), List.getElem?_drop,
          Nat.mul_comm, Nat.div_add_mod, hb]
      simp only [Option.map_some]
      rw [portLane_eq hport houtput hwords ho]
      exact congrArg some (h.field_value P env (hhas _ hword) nofun hmem)

/-! ### Host calls -/

theorem host_own (h : Planned g order r lanes p copies s) {i : Nat} (hi : isHost g i = true) :
    i ∈ own g order p 0 := by
  obtain ⟨horder, halias⟩ := h.schedules.effects i hi
  obtain ⟨root, hroot, hhas⟩ := h.rooted.hosts i horder hi
  have hlane := h.placed.caller root (lt_of_mem_getD hhas) (.inl hroot)
  have hbit : g.root (nodeBase i) = nodeBase i := Graph.root_of_unaliased halias
  have howner : owner (g.root (nodeBase i)) = i := by
    rw [hbit]
    unfold owner nodeBase
    omega
  have := field_own h.schedules h.placed hhas (b := nodeBase i) (by simp [field])
    (by rw [hbit]; unfold nodeBase; omega) (howner.symm ▸ h.schedules.host_mem hi)
  rwa [howner, hlane] at this

theorem isHost_graph (h : Planned g order r lanes p copies s) {lane i : Nat} (hlane : lane < lanes)
    (hi : i ∈ own g order p lane) :
    isHost (s.graph g) (copyOf (copies lane) i) = isHost g i := by
  obtain ⟨n, hn, -⟩ := isValue_iff.mp (mem_values.mp (own_value hi)).2
  unfold isHost
  rw [h.node hlane hi hn, hn]
  rfl

/-- Copies on the caller's lane have their old numbers. -/
theorem tasks_zero (h : Planned g order r lanes p copies s) :
    s.tasks.getD 0 [] = own g order p 0 := by
  rw [h.tasks_eq h.placed.pos]
  exact (List.map_congr_left fun i hi => h.copy_zero hi).trans (List.map_id _)

theorem calls_zero (h : Planned g order r lanes p copies s) :
    (s.tasks.getD 0 []).filter (isHost (s.graph g)) = order.filter (isHost g) := by
  have hsame : ∀ i ∈ own g order p 0, isHost (s.graph g) i = isHost g i := fun i hi => by
    have := h.isHost_graph h.placed.pos hi
    rwa [h.copy_zero hi] at this
  rw [h.tasks_zero, List.filter_congr hsame, own, values, List.filter_filter, List.filter_filter]
  refine List.filter_congr fun i hi => ?_
  cases hhost : isHost g i with
  | false => rfl
  | true =>
      have hown := List.mem_filter.mp (h.host_own hhost)
      rw [hown.2, (mem_values.mp hown.1).2]
      rfl

theorem host_graph (h : Planned g order r lanes p copies s) {i : Nat} (hi : isHost g i = true)
    {n : Node} (hn : g.nodes[i]? = some n) :
    (s.graph g).nodes[i]? = some (copiedNode g order (copies 0) n) := by
  have hown := h.host_own hi
  have := h.node h.placed.pos hown hn
  rwa [h.copy_zero hown] at this

/-- The operands of a host call have on the caller's lane their values. -/
theorem argument_value (h : Planned g order r lanes p copies s) (P : Primitives) (env : Env)
    {i : Nat} (hi : isHost g i = true) {n : Node} (hn : g.nodes[i]? = some n) {v : Value}
    (hv : ∀ b ∈ v, b ∈ n.operands) :
    (v.map (copiedBit g order (copies 0))).map
        (valueAfter P (s.graph g) env (s.tasks.getD 0 [])) =
      v.map (valueAfter P g env (values g order)) := by
  rw [List.map_map]
  refine List.map_congr_left fun b hb => ?_
  have hown := h.host_own hi
  have hreadable := h.operand (own_value hown) hn (hv b hb)
  exact h.valueAfter_copied P env h.placed.pos (Readable.exists hreadable fun _ => value_lt)
    (h.operand_own hown hn (hv b hb))

theorem equivalent (h : Planned g order r lanes p copies s) :
    Equivalent g order (plan g r lanes p s) (s.graph g) where
  frame := ⟨_, _, rfl⟩
  ordered := h.tasks_readable
  once := h.done.inUse.nodup
  sinks P env _ hf := h.sink_value P env hf
  outputs P env _ _ _ hport houtput hport' := h.output_value P env hport houtput hport'
  hosts i hi := by
    have hmem : i ∈ s.tasks.getD 0 [] := h.tasks_zero ▸ h.host_own hi
    have hflat := h.mem_tasks h.placed.pos (h.host_own hi)
    rw [h.copy_zero (h.host_own hi)] at hflat
    exact ⟨hmem, List.count_eq_one_of_mem h.done.inUse.nodup hflat⟩
  calls := h.calls_zero
  caller lane hpos j hj := by
    rcases Nat.lt_or_ge lane lanes with hlane | hlane
    · have hj : j ∈ s.tasks.getD lane [] := hj
      rw [h.tasks_eq hlane] at hj
      obtain ⟨i, hi, rfl⟩ := List.mem_map.mp hj
      rw [h.isHost_graph hlane hi]
      exact h.placed.hosts lane hpos hlane i (own_owned hi)
    · have hj : j ∈ s.tasks.getD lane [] := hj
      rw [h.tasks_of_le hlane] at hj
      cases hj
  arguments P env i n hi hn :=
    ⟨_, h.host_graph hi hn, rfl, rfl,
      h.argument_value P env hi hn fun b hb => by simp [Node.operands, hb],
      h.argument_value P env hi hn fun b hb => by simp [Node.operands, hb]⟩
  writers i j a b ha hb bit hbit bit' hbit' howner := by
    have hroots := h.rooted.writers i j a b ha hb bit hbit bit' hbit' howner
    show (r.stateRoots.map p.lane).getD i 0 = (r.stateRoots.map p.lane).getD j 0
    rw [List.getD_eq_getElem?_getD, List.getD_eq_getElem?_getD, List.getElem?_map,
      List.getElem?_map, hroots]

end Planned

/-! ## One lane -/

section

variable {g : Graph} {order : List Nat}

theorem flatten_portSlice (port : Port) :
    ((List.range (portWords port.bits.length)).map (portSlice port)).flatten = port.bits := by
  have h := flatten_slices (fun _ b => b) port.bits (portWords port.bits.length)
  simp only [List.map_id'] at h
  have hslice : portSlice port = fun word => (port.bits.drop (word * 64)).take 64 :=
    funext fun word => slice_eq_take_drop _ _ _
  rw [hslice, h, List.take_of_length_le (portWords_mul _)]
  exact List.ext_getElem? fun o => by rw [List.getElem?_mapIdx, Option.map_id']

theorem mapIdx_eq_self {α : Type} {l : List α} {f : Nat → α → α}
    (h : ∀ i a, l[i]? = some a → f i a = a) : l.mapIdx f = l := by
  refine List.ext_getElem? fun i => ?_
  rw [List.getElem?_mapIdx]
  cases ha : l[i]? with
  | none => rfl
  | some a => rw [Option.map_some, h i a ha]

/-- Writing back what the fields hold changes nothing. -/
theorem withFields_self (g : Graph) : withFields g g.nodes (field g) = g := by
  have hnodes : g.nodes.mapIdx (withNode (field g)) = g.nodes := by
    refine Array.ext_getElem? fun i => ?_
    rw [Array.getElem?_mapIdx]
    cases hn : g.nodes[i]? with
    | none => rfl
    | some n =>
        simp only [Option.map_some, withNode, field, hn, Option.getD_some]
        split_ifs <;> rfl
  have hports : g.ports.mapIdx (withPort (field g)) = g.ports := mapIdx_eq_self fun i p hp => by
    unfold withPort
    split_ifs
    · rfl
    · simp only [field, hp, Option.map_some, Option.getD_some]
      rw [flatten_portSlice]
  have hstates : g.states.mapIdx (withState (field g)) = g.states := mapIdx_eq_self fun i s hs => by
    simp [withState, field, hs]
  have haccesses : g.memoryAccesses.mapIdx (withAccess (field g)) = g.memoryAccesses :=
    mapIdx_eq_self fun i a ha => by simp [withAccess, field, ha]
  have hwrites : g.memoryWrites.mapIdx (withWrite (field g)) = g.memoryWrites :=
    mapIdx_eq_self fun i w hw => by simp [withWrite, field, hw]
  rw [withFields, hnodes, hports, hstates, haccesses, hwrites]

theorem equivalent_sequential (hs : Schedules g order) {plan : NativeParallelPlan}
    (htasks : plan.tasks.flatten = values g order)
    (hzero : ∀ lane, plan.laneTasks lane = if lane = 0 then values g order else [])
    (hports : plan.portWords = []) (hstates : plan.states = []) (haccesses : plan.accesses = [])
    (hwrites : plan.writes = []) : Equivalent g order plan g where
  frame := ⟨g.nodes, field g, (withFields_self g).symm⟩
  ordered lane done i rest hsplit := by
    rw [hzero] at hsplit
    split_ifs at hsplit
    · exact hs.topological done i rest hsplit
    · simp at hsplit
  once := htasks ▸ hs.values_nodup
  sinks P env f _ := by
    have hlane : plan.sinkLane f = 0 := by
      cases f <;> simp [NativeParallelPlan.sinkLane, hstates, haccesses, hwrites]
    rw [hlane, hzero, if_pos rfl]
  outputs P env i port port' hport _ hport' := by
    obtain rfl : port = port' := Option.some.inj (hport.symm.trans hport')
    have hlane : ∀ o, plan.portLane i o = 0 := fun o => by
      simp [NativeParallelPlan.portLane, hports]
    refine List.ext_getElem? fun o => ?_
    rw [List.getElem?_mapIdx, List.getElem?_map, hlane, hzero, if_pos rfl]
  hosts i hi := by
    refine ⟨?_, htasks ▸ List.count_eq_one_of_mem hs.values_nodup (hs.host_mem hi)⟩
    rw [hzero, if_pos rfl]
    exact hs.host_mem hi
  calls := by
    rw [hzero, if_pos rfl, values, List.filter_filter]
    refine List.filter_congr fun i _ => ?_
    cases hhost : isHost g i with
    | false => rfl
    | true => rw [isValue_of_isHost hhost]; rfl
  caller lane hpos i hi := by
    rw [hzero, if_neg hpos.ne'] at hi
    cases hi
  arguments P env i n _ hn := by
    rw [hzero, if_pos rfl]
    exact ⟨n, hn, rfl, rfl, rfl, rfl⟩
  writers i j _ _ _ _ _ _ _ _ _ := by rw [hstates]; rfl

end

/-! ## All plans -/

theorem lanePlan_equivalent {g : Graph} {order : List Nat} (hg : g.Closed) (hs : Schedules g order)
    {r : Roots} (hr : Rooted g order r) (hostOverlap balanceLanes : Bool) {capacity : Nat}
    (hcapacity : 0 < capacity) :
    ∃ plan g', lanePlan g order hostOverlap balanceLanes r capacity = .ok (plan, g') ∧
      Equivalent g order plan g' := by
  obtain ⟨done, hdone, hplacing⟩ := place_placing hs hr hostOverlap balanceLanes hcapacity
  have hplaced := hplacing.compact hdone hcapacity
  obtain ⟨copies, s, hrun, hlanes⟩ := lanes_done hs hr hplaced _
  refine ⟨_, _, ?_, Planned.equivalent ⟨hg, hs, hr, hplaced, hlanes⟩⟩
  simp only [lanePlan, hrun, bind, Except.bind, pure, Except.pure]

/-- The plan is made, for every number of lanes, and is equivalent to the
schedule. -/
theorem nativeParallelPlan_equivalent {g : Graph} {order : List Nat} (hg : g.Closed)
    (hs : Schedules g order) (lanes : Nat) (hostOverlap balanceLanes scopeTasks : Bool) :
    ∃ plan g', nativeParallelPlan g order lanes hostOverlap balanceLanes scopeTasks =
        .ok (plan, g') ∧ Equivalent g order plan g' := by
  have hr : Rooted g order
      (if scopeTasks then scopedRoots g (sinkRoots g order) else sinkRoots g order) := by
    split_ifs
    · exact (sinkRoots_rooted hs.nodup).scoped
    · exact sinkRoots_rooted hs.nodup
  by_cases hempty : (values g order).isEmpty = true
  · have hvalues : values g order = [] := List.isEmpty_iff.mp hempty
    refine ⟨{}, g, by rw [nativeParallelPlan, if_pos hempty], equivalent_sequential hs ?_
      (fun lane => ?_) rfl rfl rfl rfl⟩
    · rw [hvalues]
      rfl
    · rw [hvalues]
      split_ifs <;> rfl
  by_cases hcapacity : min lanes (active g order (if scopeTasks then
      scopedRoots g (sinkRoots g order) else sinkRoots g order).roots) < 2
  · refine ⟨{ tasks := [values g order], waits := [[]] }, g,
      by rw [nativeParallelPlan, if_neg hempty, if_pos hcapacity], equivalent_sequential hs ?_
        (fun lane => ?_) rfl rfl rfl rfl⟩
    · exact List.append_nil _
    · cases lane <;> rfl
  · rw [nativeParallelPlan, if_neg hempty, if_neg hcapacity]
    exact lanePlan_equivalent hg hs hr hostOverlap balanceLanes (by omega)

/-! ## Writes of one memory -/

/-- Two writes of one memory, each enabled by an operation of its own. -/
def twoWrites : Graph where
  nodes := #[⟨.input, 1, [], [], [], "a", ""⟩, ⟨.input, 1, [], [], [], "b", ""⟩,
    ⟨.any, 1, [66], [], [], "", ""⟩, ⟨.any, 1, [130], [], [], "", ""⟩]
  memories := [⟨"m", 1, 2, []⟩]
  memoryWrites := [⟨0, [0], [194], [1], -1, false⟩, ⟨0, [1], [258], [1], -1, false⟩]

theorem twoWrites_closed : twoWrites.Closed := Graph.closed_of_no_aliases rfl

theorem twoWrites_schedules : Schedules twoWrites [0, 1, 2, 3] := by
  have hroot : ∀ b, twoWrites.root b = b := fun b =>
    Graph.root_of_unaliased Std.ExtTreeMap.getElem?_empty
  have hvalues : values twoWrites [0, 1, 2, 3] = [2, 3] := by decide
  refine ⟨by decide, fun done i rest hsplit n hn b hb => ?_, fun f hf b hb => ?_, by decide,
    fun i hi => ?_, by decide⟩
  · rw [hvalues] at hsplit
    rw [hroot]
    rcases done with _ | ⟨j, _ | ⟨k, done⟩⟩
    · obtain ⟨rfl, -⟩ := List.cons.inj hsplit
      obtain rfl : ⟨.any, 1, [66], [], [], "", ""⟩ = n := Option.some.inj hn
      obtain rfl : b = 66 := by simpa [Node.operands] using hb
      exact .inr ⟨by decide, .inl (by decide)⟩
    · obtain ⟨rfl, -⟩ := List.cons.inj (List.cons.inj hsplit).2
      obtain rfl : ⟨.any, 1, [130], [], [], "", ""⟩ = n := Option.some.inj hn
      obtain rfl : b = 130 := by simpa [Node.operands] using hb
      exact .inr ⟨by decide, .inl (by decide)⟩
    · simp at hsplit
  · have hbound : twoWrites.bound = 322 := by decide
    rw [hroot, hbound]
    cases f with
    | hostValue i => exact absurd rfl (hf i)
    | validation i => rcases i with _ | _ | _ | _ | i <;> simp [field, twoWrites] at hb <;> omega
    | writeAddress i | writeData i | writeEnabled i =>
        rcases i with _ | _ | i <;> simp [field, twoWrites] at hb <;> omega
    | portSlice | next | trigger | reset | resetValue | accessAddress | accessEnabled =>
        simp [field, twoWrites] at hb
  · rcases i with _ | _ | _ | _ | i <;> cases hi

theorem nativeParallelPlan_equivalent_twoWrites :
    ∃ plan g', nativeParallelPlan twoWrites [0, 1, 2, 3] 2 false false false = .ok (plan, g') ∧
      Equivalent twoWrites [0, 1, 2, 3] plan g' :=
  nativeParallelPlan_equivalent twoWrites_closed twoWrites_schedules 2 false false false

def MemoryWritersTogether (g : Graph) (plan : NativeParallelPlan) : Prop :=
  ∀ (i j : Nat) (w v : MemoryWrite), g.memoryWrites[i]? = some w → g.memoryWrites[j]? = some v →
    w.memory = v.memory → plan.writes.getD i 0 = plan.writes.getD j 0

/-- The writers of one memory can be on two lanes. -/
theorem nativeParallelPlan_splits_writers :
    ¬ ∀ (g : Graph) (order : List Nat) (lanes : Nat) (plan : NativeParallelPlan) (g' : Graph),
      g.Closed → Schedules g order → nativeParallelPlan g order lanes = .ok (plan, g') →
        MemoryWritersTogether g plan := by
  intro h
  obtain ⟨plan, g', hplan⟩ : ∃ plan g',
      nativeParallelPlan twoWrites [0, 1, 2, 3] 2 = .ok (plan, g') := ⟨_, _, rfl⟩
  have hlanes : (nativeParallelPlan twoWrites [0, 1, 2, 3] 2).map (·.1.writes) = .ok [0, 1] := rfl
  rw [hplan] at hlanes
  have htogether := h _ _ _ _ _ twoWrites_closed twoWrites_schedules hplan 0 1 _ _ rfl rfl rfl
  rw [show plan.writes = [0, 1] from Except.ok.inj hlanes] at htogether
  cases htogether

end CppHdl.Native
