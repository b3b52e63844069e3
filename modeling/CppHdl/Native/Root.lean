import CppHdl.Graph.Acyclic

/-!
# Roots

What `resolve` returns, as a function of the graph alone. The paths it
compresses on the way change no root, so a pass that only resolves bits can be
written with `Graph.root`.
-/

namespace CppHdl

/-- What `resolve` returns. -/
def Graph.root (g : Graph) (bit : Nat) : Nat :=
  match chase g.aliases (g.aliases.size + 2) [] bit with
  | some (_, root) => root
  | none => bit

theorem Graph.root_of_unaliased {g : Graph} {bit : Nat} (h : g.aliases[bit]? = none) :
    g.root bit = bit := by
  unfold root chase
  rw [h]

namespace Graph.Closed

variable {g : Graph}

theorem chase_root (hg : g.Closed) (bit : Nat) :
    ∃ path, chase g.aliases (g.aliases.size + 2) [] bit = some (path, g.root bit) := by
  have hsome := hg.acyclic.chase_isSome (g.aliases.size + 2) [] bit List.nodup_nil
    (fun e he => by cases he) (by rw [List.length_nil]; omega)
  obtain ⟨⟨path, root⟩, hchase⟩ := Option.isSome_iff_exists.mp hsome
  refine ⟨path, ?_⟩
  unfold Graph.root
  rw [hchase]

theorem root_unaliased (hg : g.Closed) (bit : Nat) : g.aliases[g.root bit]? = none := by
  obtain ⟨path, hchase⟩ := hg.chase_root bit
  obtain ⟨-, -, hroot, -⟩ := chase_spec hchase
  exact hroot

@[simp] theorem root_root (hg : g.Closed) (bit : Nat) : g.root (g.root bit) = g.root bit :=
  root_of_unaliased (hg.root_unaliased bit)

end Graph.Closed

end CppHdl
