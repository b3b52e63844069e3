import CppHdl.Native.Plan

/-!
# Schedules and cones

`Schedules` is what `dependencyOrder` promises of the order it returns: every
operation stands behind the operations it reads, nothing undriven is read, and
no host call is left out. A cone then lies in the schedule and holds all that
its operations read.
-/

namespace CppHdl.Native

/-- A bit that can be read once `done` was computed. -/
def Readable (g : Graph) (done : List Nat) (bit : Nat) : Prop :=
  bit < 2 ∨ 66 ≤ bit ∧ (isSource g (owner bit) = true ∨ owner bit ∈ done)

/-- `order` is a dependency order of the graph. -/
structure Schedules (g : Graph) (order : List Nat) : Prop where
  nodup : order.Nodup
  topological : ∀ done i rest, values g order = done ++ i :: rest → ∀ n, g.nodes[i]? = some n →
    ∀ b ∈ n.operands, Readable g done (g.root b)
  /-- Sinks are made of constants and of bits that nodes own. -/
  sinks : ∀ f, (∀ i, f ≠ .hostValue i) → ∀ b ∈ field g f, g.root b < 2 ∨ 66 ≤ g.root b ∧ g.root b < g.bound
  driven : ∀ i ∈ order, ∀ n, g.nodes[i]? = some n → n.op ≠ .wire
  /-- No host call is left out, and none was replaced by an alias. -/
  effects : ∀ i, isHost g i = true → i ∈ order ∧ g.aliases[nodeBase i]? = none
  /-- An output argument is that of a host call. -/
  projections : ∀ i ∈ order, ∀ n, g.nodes[i]? = some n → n.op = .hostDebugOutput →
    ∃ b ∈ n.left, 2 ≤ g.root b ∧ isHost g (owner (g.root b)) = true

variable {g : Graph} {order : List Nat}

theorem isValue_iff {i : Nat} : isValue g i = true ↔
    ∃ n, g.nodes[i]? = some n ∧ n.op ≠ .input ∧ n.op ≠ .state ∧ n.validation = false := by
  unfold isValue
  cases g.nodes[i]? with
  | none => simp
  | some n => simp [and_assoc]

theorem mem_values {i : Nat} : i ∈ values g order ↔ i ∈ order ∧ isValue g i = true :=
  List.mem_filter

theorem isHost_iff {i : Nat} : isHost g i = true ↔
    ∃ n, g.nodes[i]? = some n ∧ n.hostEffect = true := by
  unfold isHost
  cases g.nodes[i]? with
  | none => simp
  | some n => simp

theorem isValue_of_isHost {i : Nat} (h : isHost g i = true) : isValue g i = true := by
  obtain ⟨n, hn, heffect⟩ := isHost_iff.mp h
  refine isValue_iff.mpr ⟨n, hn, ?_, ?_, ?_⟩
  all_goals
    unfold Node.hostEffect Op.hostEffect at heffect
    try unfold Node.validation Op.validation
    cases hop : n.op <;> simp_all

theorem isSource_of_isValue {i : Nat} (h : isValue g i = true) : isSource g i = false := by
  obtain ⟨n, hn, hinput, hstate, -⟩ := isValue_iff.mp h
  simp [isSource, hn, hinput, hstate]

theorem weight_ne_zero {i : Nat} : weight g order i ≠ 0 ↔ i ∈ values g order := by
  unfold weight
  split_ifs with h
  · obtain ⟨n, hn, -⟩ := isValue_iff.mp (mem_values.mp h).2
    simp [hn, h, nodeWeight]
  · simp [h]

theorem mem_orderedSet {l : List Nat} {i : Nat} : i ∈ orderedSet l ↔ i ∈ l := by
  unfold orderedSet
  rw [List.mem_insertionSort, List.mem_dedup]

theorem mem_dependencies {i d : Nat} : d ∈ dependencies g order i ↔
    i ∈ values g order ∧ ∃ n, g.nodes[i]? = some n ∧
      ∃ b ∈ n.operands, 2 ≤ g.root b ∧ owner (g.root b) = d ∧ isSource g d = false := by
  unfold dependencies
  split_ifs with h
  · obtain ⟨n, hn, -⟩ := isValue_iff.mp (mem_values.mp h).2
    simp only [hn, Option.map_some, Option.getD_some, nodeDependencies, mem_orderedSet,
      List.mem_filter, List.mem_map, h, true_and, Option.some.injEq, exists_eq_left',
      Bool.not_eq_true', decide_eq_true_eq]
    constructor
    · rintro ⟨⟨bit, ⟨⟨b, hb, rfl⟩, hbit⟩, rfl⟩, hsource⟩
      exact ⟨b, hb, hbit, rfl, hsource⟩
    · rintro ⟨b, hb, hbit, rfl, hsource⟩
      exact ⟨⟨_, ⟨⟨b, hb, rfl⟩, hbit⟩, rfl⟩, hsource⟩
  · simp [h]

namespace Schedules

/-- In a schedule every operation stands behind its dependencies. -/
theorem behind (h : Schedules g order) :
    Topological (fun i d => d ∈ dependencies g order i) (values g order) := by
  intro done i rest hsplit d hd
  obtain ⟨-, n, hn, b, hb, hbit, rfl, hsource⟩ := mem_dependencies.mp hd
  rcases h.topological done i rest hsplit n hn b hb with hlt | ⟨-, hsrc | hmem⟩
  · omega
  · rw [hsource] at hsrc
    cases hsrc
  · exact hmem

theorem dependencies_mem (h : Schedules g order) :
    ∀ i ∈ values g order, ∀ d ∈ dependencies g order i, d ∈ values g order :=
  fun _ hi _ hd => h.behind.reads_mem hi hd

theorem values_nodup (h : Schedules g order) : (values g order).Nodup := h.nodup.filter _

theorem host_mem (h : Schedules g order) {i : Nat} (hi : isHost g i = true) :
    i ∈ values g order :=
  mem_values.mpr ⟨(h.effects i hi).1, isValue_of_isHost hi⟩

end Schedules

def producers (g : Graph) (order : List Nat) (root : List Field) : List Nat :=
  (((root.flatMap (field g)).map g.root).filter fun bit =>
    1 < bit && weight g order (owner bit) ≠ 0).map owner

theorem mem_producers {root : List Field} {i : Nat} : i ∈ producers g order root ↔
    i ∈ values g order ∧ ∃ f ∈ root, ∃ b ∈ field g f, 2 ≤ g.root b ∧ owner (g.root b) = i := by
  simp only [producers, List.mem_map, List.mem_filter, List.mem_flatMap, Bool.and_eq_true,
    decide_eq_true_eq, weight_ne_zero]
  constructor
  · rintro ⟨bit, ⟨⟨b, ⟨f, hf, hb⟩, rfl⟩, hbit, hvalue⟩, rfl⟩
    exact ⟨hvalue, f, hf, b, hb, hbit, rfl⟩
  · rintro ⟨hvalue, f, hf, b, hb, hbit, rfl⟩
    exact ⟨_, ⟨⟨b, ⟨f, hf, hb⟩, rfl⟩, hbit, hvalue⟩, rfl⟩

/-- A cone lies in the schedule, holds the producers of its root and what its
operations depend on. -/
theorem Schedules.cone (h : Schedules g order) (root : List Field) :
    (∀ i ∈ producers g order root, i ∈ visitCone g order root) ∧
      ∀ i ∈ visitCone g order root, i ∈ values g order ∧
        ∀ d ∈ dependencies g order i, d ∈ visitCone g order root := by
  have hfuel : (producers g order root).reverse.length + unseen (dependencies g order)
      (values g order) [] ≤ (producers g order root).length +
        ((values g order).map fun i => (dependencies g order i).length).sum := by
    simp [unseen]
  obtain ⟨hall, hclosed⟩ := visit_closed h.dependencies_mem
    (fun i hi => (mem_producers.mp (List.mem_reverse.mp hi)).1) (by simp) hfuel
  exact ⟨fun i hi => hall i (.inl (List.mem_reverse.mpr hi)), hclosed⟩

end CppHdl.Native
