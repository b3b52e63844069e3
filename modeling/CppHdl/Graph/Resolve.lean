import CppHdl.Graph.Models

/-!
# Resolving aliases

`resolve` returns the root of an alias chain and points the whole chain at it.
Neither changes what any bit reads: the compressed aliases imply the old ones,
and a bit reads like its root.
-/

namespace CppHdl

open Failing

/-- A completed chase ends at an unaliased root, and every bit it passed is an
alias of another passed bit or of the root. -/
theorem chase_spec {aliases : Std.ExtTreeMap Nat Nat} {fuel : Nat} {path path' : List Nat}
    {cursor root : Nat} (h : chase aliases fuel path cursor = some (path', root)) :
    ∃ passed, path' = path ++ passed ∧ aliases[root]? = none ∧
      (cursor ∈ passed ∨ cursor = root) ∧
      ∀ e ∈ passed, ∃ s, aliases[e]? = some s ∧ (s ∈ passed ∨ s = root) := by
  induction fuel generalizing path cursor with
  | zero => simp [chase] at h
  | succ fuel ih =>
      unfold chase at h
      cases hc : aliases[cursor]? with
      | none =>
          rw [hc] at h
          simp only [Option.some.injEq, Prod.mk.injEq] at h
          obtain ⟨rfl, rfl⟩ := h
          exact ⟨[], by simp, hc, .inr rfl, by simp⟩
      | some source =>
          rw [hc] at h
          simp only at h
          split_ifs at h with hseen
          obtain ⟨passed, rfl, hroot, hsource, hpassed⟩ := ih h
          refine ⟨cursor :: passed, by simp, hroot, .inl List.mem_cons_self, ?_⟩
          intro e he
          rcases List.mem_cons.mp he with rfl | he
          · exact ⟨source, hc, hsource.imp (List.mem_cons_of_mem _) id⟩
          · obtain ⟨s, hs, hmem⟩ := hpassed e he
            exact ⟨s, hs, hmem.imp (List.mem_cons_of_mem _) id⟩

theorem getElem?_compressPath (aliases : Std.ExtTreeMap Nat Nat) (path : List Nat)
    (root b : Nat) :
    (compressPath aliases path root)[b]? = if b ∈ path then some root else aliases[b]? := by
  unfold compressPath
  induction path generalizing aliases with
  | nil => simp
  | cons e path ih =>
      rw [List.foldl_cons, ih]
      by_cases hmem : b ∈ path
      · simp [hmem]
      · simp only [hmem, if_false, List.mem_cons, or_false]
        rw [Std.ExtTreeMap.getElem?_insert]
        by_cases heq : b = e
        · simp [heq]
        · simp [heq, Ne.symm heq]

/-- The graph after its aliases were compressed along a completed chase. -/
theorem compress_grows {g : Graph} {fuel bit root : Nat} {path : List Nat}
    (h : chase g.aliases fuel [] bit = some (path, root)) (hg : g.Wf) :
    let g' := { g with aliases := compressPath g.aliases path root }
    g'.Wf ∧ Grows g g' ∧ g'.aliases[root]? = none ∧
      ∀ look : Nat → Option Bool,
        (∀ b s : Nat, g'.aliases[b]? = some s → look b = look s) → look root = look bit := by
  obtain ⟨passed, hpath, hroot, hbit, hpassed⟩ := chase_spec h
  rw [List.nil_append] at hpath
  subst hpath
  have hread : ∀ look : Nat → Option Bool,
      (∀ b s : Nat, (compressPath g.aliases path root)[b]? = some s → look b = look s) →
      ∀ e, e ∈ path ∨ e = root → look e = look root := by
    intro look hlook e he
    rcases he with he | rfl
    · exact hlook e root (by rw [getElem?_compressPath, if_pos he])
    · rfl
  refine ⟨?_, ⟨fun _ _ hn => hn, ?_, ?_, rfl⟩, ?_, ?_⟩
  · intro b s hb
    change (compressPath g.aliases path root)[b]? = some s at hb
    rw [getElem?_compressPath] at hb
    split_ifs at hb with hmem
    · obtain ⟨t, ht, -⟩ := hpassed b hmem
      exact hg b t ht
    · exact hg b s hb
  · intro look hlook b s hb
    by_cases hmem : b ∈ path
    · obtain ⟨t, ht, hnext⟩ := hpassed b hmem
      rw [hb] at ht
      obtain rfl := Option.some.inj ht
      rw [hread look hlook b (.inl hmem), hread look hlook s hnext]
    · refine hlook b s ?_
      change (compressPath g.aliases path root)[b]? = some s
      rw [getElem?_compressPath, if_neg hmem, hb]
  · intro b _ hfree
    change (compressPath g.aliases path root)[b]? = none
    rw [getElem?_compressPath, if_neg, hfree]
    intro hmem
    obtain ⟨t, ht, -⟩ := hpassed b hmem
    rw [hfree] at ht
    cases ht
  · change (compressPath g.aliases path root)[root]? = none
    rw [getElem?_compressPath, if_neg, hroot]
    intro hmem
    obtain ⟨t, ht, -⟩ := hpassed root hmem
    rw [hroot] at ht
    cases ht
  · intro look hlook
    exact (hread look hlook bit hbit).symm

theorem get_bind_run {α : Type} (f : Graph → GraphM α) (g : Graph) :
    (get >>= f) g = f g g := rfl

theorem resolve_run (bit : Nat) (g : Graph) :
    resolve bit g = match chase g.aliases (g.aliases.size + 2) [] bit with
      | none => .error (.runtime "cyclic wire alias") g
      | some (path, root) =>
          .ok root { g with aliases := compressPath g.aliases path root } := by
  unfold resolve
  rw [get_bind_run]
  cases chase g.aliases (g.aliases.size + 2) [] bit with
  | none => rfl
  | some p => rfl

/-! ### Aliases as equations

What resolution promises needs no more of a valuation than the aliases, so it
is proved for these alone and carried over to the graph. -/

/-- A valuation under which every alias reads like its target. -/
def Graph.Equates (g : Graph) (look : Nat → Option Bool) : Prop :=
  ∀ b s : Nat, g.aliases[b]? = some s → look b = look s

/-- Programs that only rewrite aliases into equations implying the old ones. -/
def aliasEquations : Constraints Graph (Nat → Option Bool) where
  Inv := Graph.Wf
  Le g h := Grows g h ∧ h = { g with aliases := h.aliases }
  Fresh _ _ := True
  Sat := Graph.Equates
  le_refl g := ⟨Grows.refl g, rfl⟩
  le_trans hgh hhk := ⟨hgh.1.trans hhk.1, by rw [hhk.2, hgh.2]⟩
  fresh_mono _ h := h
  sat_anti hgh h := hgh.1.aliased _ h

theorem resolve_equates (bit : Nat) :
    Builds aliasEquations (resolve bit) fun look root => look root = look bit := by
  intro g hg
  rw [resolve_run]
  cases hchase : chase g.aliases (g.aliases.size + 2) [] bit with
  | none => exact ⟨hg, Grows.refl g, rfl⟩
  | some p =>
      obtain ⟨path, root⟩ := p
      obtain ⟨hwf, hgrows, -, hroot⟩ := compress_grows hchase hg
      exact ⟨hwf, ⟨hgrows, rfl⟩, fun look _ hlook => hroot look hlook⟩

/-- Resolved values read bit for bit like the originals. -/
theorem resolved_equates (value : Value) :
    Builds aliasEquations (resolved value) fun look roots =>
      roots.map look = value.map look := by
  unfold resolved
  induction value with
  | nil => exact Builds.pure fun _ => rfl
  | cons b value ih =>
      rw [List.mapM_cons]
      refine (resolve_equates b).bind fun root => ih.bind fun roots => Builds.pure ?_
      intro look hroots hroot
      simp [hroots, hroot]

theorem resolved_builds (value : Value) :
    GraphBuilds (resolved value) fun w roots => roots.map w.look = value.map w.look :=
  (resolved_equates value).along World.look (fun _ => Iff.rfl) (fun _ _ h => h.1)
    (fun _ _ _ => trivial) fun _ _ h => h.aliased

theorem resolved_unaliased {value roots : Value} {g h : Graph}
    (hvalue : ∀ b : Nat, b ∈ value → g.aliases[b]? = none)
    (hrun : Ok (resolved value) g roots h) : roots = value ∧ h = g := by
  unfold resolved at hrun
  induction value generalizing roots h with
  | nil =>
      rw [List.mapM_nil, ok_pure] at hrun
      exact ⟨hrun.1.symm, hrun.2.symm⟩
  | cons b value ih =>
      rw [List.mapM_cons, ok_bind] at hrun
      obtain ⟨root, g', hroot, hrun⟩ := hrun
      have hchase : chase g.aliases (g.aliases.size + 2) [] b = some ([], b) := by
        unfold chase
        rw [hvalue b List.mem_cons_self]
      rw [Ok, resolve_run, hchase] at hroot
      simp only [EStateM.Result.ok.injEq, compressPath, List.foldl_nil] at hroot
      obtain ⟨rfl, rfl⟩ := hroot
      obtain ⟨roots', g'', hroots, hpure⟩ := ok_bind.mp hrun
      change Ok _ g roots' g'' at hroots
      obtain ⟨rfl, rfl⟩ := ih (fun c hc => hvalue c (List.mem_cons_of_mem _ hc)) hroots
      obtain ⟨rfl, rfl⟩ := ok_pure.mp hpure
      exact ⟨rfl, rfl⟩

/-! ### Operands that read alike -/

theorem mapM_eq_of_map_eq {look : Nat → Option Bool} {u v : Value}
    (h : u.map look = v.map look) : u.mapM look = v.mapM look := by
  have key : ∀ l : Value, l.mapM look = (l.map look).mapM id := by
    intro l
    induction l with
    | nil => rfl
    | cons b l ih => rw [List.mapM_cons, List.map_cons, List.mapM_cons, ih]; rfl
  rw [key, key, h]

theorem bind_getElem?_eq_of_map_eq {look : Nat → Option Bool} {u v : Value}
    (h : u.map look = v.map look) (i : Nat) : u[i]?.bind look = v[i]?.bind look := by
  have key : ∀ l : Value, l[i]?.bind look = (l.map look)[i]?.join := by
    intro l
    rw [List.getElem?_map]
    cases l[i]? <;> rfl
  rw [key, key, h]

theorem bind_head?_eq_of_map_eq {look : Nat → Option Bool} {u v : Value}
    (h : u.map look = v.map look) : u.head?.bind look = v.head?.bind look := by
  rw [List.head?_eq_getElem?, List.head?_eq_getElem?]
  exact bind_getElem?_eq_of_map_eq h 0

/-- Nodes of one operation whose operands read alike have equal lanes. -/
theorem World.laneValue_eq_of_map_eq (w : World) {n m : Node} (hop : m.op = n.op)
    (hwidth : m.width = n.width) (hname : n.op = .blackbox → m.name = n.name)
    (hl : m.left.map w.look = n.left.map w.look) (hr : m.right.map w.look = n.right.map w.look)
    (hs : m.select.map w.look = n.select.map w.look) (i : Nat) :
    w.laneValue m i = w.laneValue n i := by
  have hword : ∀ l r s, m.wordValue w.prims w.memories w.env l r s =
      n.wordValue w.prims w.memories w.env l r s := by
    intro l r s
    unfold Node.wordValue
    rw [hop, hwidth]
    cases hn : n.op
    case blackbox => rw [hname hn]
    all_goals rfl
  unfold World.laneValue Node.laneValue
  simp only [hword]
  rw [hop, mapM_eq_of_map_eq hl, mapM_eq_of_map_eq hr, mapM_eq_of_map_eq hs,
    bind_getElem?_eq_of_map_eq hl, bind_getElem?_eq_of_map_eq hr, bind_head?_eq_of_map_eq hs]

end CppHdl
