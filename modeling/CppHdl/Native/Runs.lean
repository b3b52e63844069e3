import CppHdl.Native.Lanes

/-!
# Lanes run on their own

A lane holds all that its operations read, in an order in which each stands
behind what it reads, and its run computes for every copy what the sequential
schedule computes for the operation. Sinks on the lane are assembled from the
same values.
-/

namespace CppHdl.Native

namespace Planned

variable {g : Graph} {order : List Nat} {r : Roots} {lanes : Nat} {p : Placement}
  {copies : Nat → Nat → Option Nat} {s : Cloning}

theorem tasks_eq (h : Planned g order r lanes p copies s) {lane : Nat} (hlane : lane < lanes) :
    s.tasks.getD lane [] = (own g order p lane).map (copyOf (copies lane)) := by
  rw [List.getD_eq_getElem?_getD, h.done.tasks lane hlane, Option.getD_some]

/-- Past the last lane nothing runs. -/
theorem tasks_of_le (h : Planned g order r lanes p copies s) {lane : Nat} (hlane : lanes ≤ lane) :
    s.tasks.getD lane [] = [] := by
  rw [List.getD_eq_getElem?_getD, List.getElem?_eq_none (h.done.length.trans_le hlane),
    Option.getD_none]

theorem tasks_nodup (h : Planned g order r lanes p copies s) {lane : Nat} (hlane : lane < lanes) :
    (s.tasks.getD lane []).Nodup := by
  rw [h.tasks_eq hlane]
  exact (List.nodup_flatten.mp h.done.inUse.nodup).1 _
    (List.mem_of_getElem? (h.done.tasks lane hlane))

/-- Every operand a lane reads was computed before on the lane, or is a
constant, an input or a state. -/
theorem tasks_readable (h : Planned g order r lanes p copies s) (lane : Nat) :
    ∀ done j rest, s.tasks.getD lane [] = done ++ j :: rest →
      ∀ n, (s.graph g).nodes[j]? = some n →
        ∀ b ∈ n.operands, Readable (s.graph g) done ((s.graph g).root b) := by
  intro done j rest hsplit n hn b hb
  rcases Nat.lt_or_ge lane lanes with hlane | hlane
  swap
  · rw [h.tasks_of_le hlane] at hsplit
    simp at hsplit
  rw [h.tasks_eq hlane] at hsplit
  obtain ⟨l, l', hown, rfl, hl'⟩ := List.map_eq_append_iff.mp hsplit
  obtain ⟨i, l'', rfl, rfl, -⟩ := List.map_eq_cons_iff.mp hl'
  have hi : i ∈ own g order p lane := by rw [hown]; simp
  obtain ⟨m, hm, -⟩ := isValue_iff.mp (mem_values.mp (own_value hi)).2
  rw [h.node hlane hi hm] at hn
  obtain rfl := Option.some.inj hn
  obtain ⟨c, hc, rfl⟩ : ∃ c ∈ m.operands, copiedBit g order (copies lane) c = b := by
    simpa [copiedNode, Node.operands, ← List.map_append] using hb
  -- The operations that stand before on the lane are all the operation reads.
  refine h.readable_copiedBit hlane ?_ (fun d hd => own_value (hown ▸ List.mem_append_left _ hd))
    (h.operand_own hi hm hc)
  refine (h.operand (own_value hi) hm hc).imp_right ?_
  rintro ⟨hge, hread⟩
  refine ⟨hge, hread.imp_right fun hmem => ?_⟩
  exact own_behind h.schedules h.placed lane l i l'' hown _
    (operand_dependency (own_value hi) hm hc (by omega) hmem)

theorem reads_own (h : Planned g order r lanes p copies s) {lane i d : Nat}
    (hi : i ∈ own g order p lane) (hd : Reads g i d) : d ∈ own g order p lane := by
  obtain ⟨n, hn, b, hb, hroot, hsource, rfl⟩ := hd
  rcases h.operand (own_value hi) hn hb with hlt | ⟨-, hsrc | hmem⟩
  · omega
  · rw [hsource] at hsrc
    cases hsrc
  · exact h.operand_own hi hn hb hroot hmem

/-- A copy computes on its lane what the operation computes in the schedule. -/
theorem run_copied (h : Planned g order r lanes p copies s) (P : Primitives) (env : Env)
    {lane : Nat} (hlane : lane < lanes) {i : Nat} (hi : i ∈ own g order p lane) :
    run P g env (values g order) i =
      run P (s.graph g) env (s.tasks.getD lane []) (copyOf (copies lane) i) := by
  set alone := run P (s.graph g) env (s.tasks.getD lane []) with halone
  have hsolved : ∀ j ∈ s.tasks.getD lane [], alone j = compute P (s.graph g) env alone j :=
    execute_eq_step (h.tasks_nodup hlane) (topological_of_readable (h.tasks_readable lane))
      (fun j _ => compute_local P (s.graph g) env j) fun _ _ => none
  have hcopied : ∀ j ∈ own g order p lane, copyOf (copies lane) j ∈ s.tasks.getD lane [] :=
    fun j hj => by
      rw [h.tasks_eq hlane]
      exact List.mem_map_of_mem hj
  exact execute_eq_execute h.schedules.values_nodup
    (topological_of_readable h.schedules.topological) (fun j _ => compute_local P g env j)
    (fun _ _ hj _ hd => h.reads_own hj hd) _ (fun j _ hj => hsolved _ (hcopied j hj))
    (fun j _ hj t ht => h.compute_copied P env hlane hj ht) i (own_value hi) hi

/-- A copied bit has on its lane the value the bit has in the schedule. -/
theorem valueAfter_copied (h : Planned g order r lanes p copies s) (P : Primitives) (env : Env)
    {lane : Nat} (hlane : lane < lanes) {b : Nat}
    (hb : g.root b < 2 ∨ 66 ≤ g.root b ∧ g.root b < g.bound)
    (hown : 2 ≤ g.root b → owner (g.root b) ∈ values g order →
      owner (g.root b) ∈ own g order p lane) :
    valueAfter P (s.graph g) env (s.tasks.getD lane []) (copiedBit g order (copies lane) b) =
      valueAfter P g env (values g order) b := by
  refine (h.read_copiedBit hlane hb hown env (fun hroot hvalue =>
    h.run_copied P env hlane (hown hroot hvalue)) fun hroot _ hvalue => ?_).symm
  -- What is no operation of the schedule is computed on neither side.
  have hsize : owner (g.root b) < g.nodes.size :=
    hb.elim (fun hlt => by omega) fun hge => (owner_lt_iff hge.1).mpr hge.2
  have hfree : owner (g.root b) ∉ s.tasks.getD lane [] := by
    rw [h.tasks_eq hlane]
    intro hmem
    obtain ⟨i, hi, heq⟩ := List.mem_map.mp hmem
    rcases h.done.number lane hlane i hi with hsame | hge
    · rw [hsame] at heq
      exact hvalue (heq ▸ own_value hi)
    · omega
  rw [run, run, execute_of_not_mem _ hvalue, execute_of_not_mem _ hfree]

/-! ### Sinks -/

theorem fields_eq (h : Planned g order r lanes p copies s) {root : Nat} {f : Field}
    (hf : r.Has root f) :
    s.fields f = (field g f).map (copiedBit g order (copies (p.lane root))) := by
  rw [h.done.fields root f hf, if_pos (h.placed.lane root)]

theorem field_value (h : Planned g order r lanes p copies s) (P : Primitives) (env : Env)
    {root : Nat} {f : Field} (hf : r.Has root f) (hsink : ∀ i, f ≠ .hostValue i) {b : Nat}
    (hb : b ∈ field g f) :
    valueAfter P (s.graph g) env (s.tasks.getD (p.lane root) [])
        (copiedBit g order (copies (p.lane root)) b) =
      valueAfter P g env (values g order) b :=
  h.valueAfter_copied P env (h.placed.lane root) (h.schedules.sinks f hsink b hb)
    (field_own h.schedules h.placed hf hb)

theorem fields_value (h : Planned g order r lanes p copies s) (P : Primitives) (env : Env)
    {root : Nat} {f : Field} (hf : r.Has root f) (hsink : ∀ i, f ≠ .hostValue i) :
    (s.fields f).map (valueAfter P (s.graph g) env (s.tasks.getD (p.lane root) [])) =
      (field g f).map (valueAfter P g env (values g order)) := by
  rw [h.fields_eq hf, List.map_map]
  exact List.map_congr_left fun b hb => h.field_value P env hf hsink hb

end Planned

end CppHdl.Native
