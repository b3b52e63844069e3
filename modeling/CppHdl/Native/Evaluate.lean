import CppHdl.Native.Clone

/-!
# Running tasks

What the emitted code does with a list of operations: each computes its lanes
from constants, inputs, current state and the operations before it. Run on one
lane this is the sequential schedule; in the plan every lane has a run of its
own, and nothing is read across lanes.
-/

namespace CppHdl.Native

section

variable (P : Primitives) (g : Graph) (env : Env)

/-- A resolved bit, given what operations have computed. -/
def read (store : Nat → Nat → Option Bool) (bit : Nat) : Option Bool :=
  if bit < 2 then some (bit == 1)
  else if isSource g (owner bit) then some (env.leaf bit)
  else store (owner bit) (lane bit)

def resolvedNode (n : Node) : Node :=
  { n with
    left := n.left.map g.root
    right := n.right.map g.root
    select := n.select.map g.root }

def compute (store : Nat → Nat → Option Bool) (i : Nat) : Nat → Option Bool :=
  match g.nodes[i]? with
  | none => fun _ => none
  | some n => fun l =>
      if l < n.width then
        (resolvedNode g n).bitValue P g.memories env (read g env store) (nodeBase i + l)
      else none

def run (tasks : List Nat) : Nat → Nat → Option Bool :=
  execute (compute P g env) tasks fun _ _ => none

def valueAfter (tasks : List Nat) (bit : Nat) : Option Bool :=
  read g env (run P g env tasks) (g.root bit)

end

/-- The operations an operation reads. -/
def Reads (g : Graph) (i d : Nat) : Prop :=
  ∃ n, g.nodes[i]? = some n ∧ ∃ b ∈ n.operands, 2 ≤ g.root b ∧
    isSource g (owner (g.root b)) = false ∧ owner (g.root b) = d

theorem compute_local (P : Primitives) (g : Graph) (env : Env) (i : Nat) :
    Local (Reads g) (compute P g env) i := by
  intro s t h
  unfold compute
  cases hn : g.nodes[i]? with
  | none => rfl
  | some n =>
      have hread : ∀ b ∈ (resolvedNode g n).operands, read g env s b = read g env t b := by
        intro b hb
        unfold read
        split_ifs with hlt hsource
        · rfl
        · rfl
        · obtain ⟨raw, hraw, rfl⟩ : ∃ raw ∈ n.operands, g.root raw = b := by
            simpa [resolvedNode, Node.operands, ← List.map_append] using hb
          rw [h _ ⟨n, hn, raw, hraw, by omega, by simpa using hsource, rfl⟩]
      funext l
      simp only [(resolvedNode g n).bitValue_congr P g.memories env _ hread]

/-- Where every operation can read what it needs, each stands behind those it
reads. -/
theorem topological_of_readable {g : Graph} {tasks : List Nat}
    (h : ∀ done i rest, tasks = done ++ i :: rest → ∀ n, g.nodes[i]? = some n →
      ∀ b ∈ n.operands, Readable g done (g.root b)) : Topological (Reads g) tasks := by
  rintro done i rest hsplit d ⟨n, hn, b, hb, hroot, hsource, rfl⟩
  rcases h done i rest hsplit n hn b hb with hlt | ⟨-, hsrc | hmem⟩
  · omega
  · rw [hsource] at hsrc
    cases hsrc
  · exact hmem

/-! ## Operations that agree -/

theorem mapM_map {look : Nat → Option Bool} (v : Value) : v.mapM look = (v.map look).mapM id := by
  induction v with
  | nil => rfl
  | cons b v ih =>
      rw [List.mapM_cons, List.map_cons, List.mapM_cons, ih]
      rfl

theorem bind_getElem?_map {look : Nat → Option Bool} (v : Value) (i : Nat) :
    v[i]?.bind look = (v.map look)[i]?.join := by
  rw [List.getElem?_map]
  cases v[i]? <;> rfl

/-- A lane depends on the operation and on what the operands read. -/
theorem laneValue_eq_of_map {P : Primitives} {memories : List Memory} {env : Env} {n m : Node}
    {look look' : Nat → Option Bool} (hop : m.op = n.op) (hwidth : m.width = n.width)
    (hname : m.name = n.name) (hl : m.left.map look' = n.left.map look)
    (hr : m.right.map look' = n.right.map look) (hs : m.select.map look' = n.select.map look)
    (i : Nat) : m.laneValue P memories env look' i = n.laneValue P memories env look i := by
  have hword : ∀ l r s, m.wordValue P memories env l r s = n.wordValue P memories env l r s := by
    intro l r s
    unfold Node.wordValue
    rw [hop, hwidth, hname]
  have hhead : m.select.head?.bind look' = n.select.head?.bind look := by
    rw [List.head?_eq_getElem?, List.head?_eq_getElem?, bind_getElem?_map, bind_getElem?_map, hs]
  unfold Node.laneValue
  simp only [hword]
  rw [hop, hhead, mapM_map m.left, mapM_map m.right, mapM_map m.select, mapM_map n.left,
    mapM_map n.right, mapM_map n.select, bind_getElem?_map m.left, bind_getElem?_map m.right,
    bind_getElem?_map n.left, bind_getElem?_map n.right, hl, hr, hs]

end CppHdl.Native
