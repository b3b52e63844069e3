import CppHdl.Lib.Ghost
import CppHdl.Graph.Acyclic

/-!
# Old bits keep their roots

Whatever is built on top of a graph, the alias chains of the bits it had lead
where they led: resolution shortens them, and nodes that are added alias only
their own lanes. `Sealed` is what has to hold for that, and says of a predicate
of the operands what the new aliases may lead to.
-/

namespace CppHdl

open Failing

/-- The alias chain of `b` ends at `r`. -/
inductive EndsAt (aliases : Std.ExtTreeMap Nat Nat) : Nat → Nat → Prop
  | root {b : Nat} : aliases[b]? = none → EndsAt aliases b b
  | link {b s r : Nat} : aliases[b]? = some s → EndsAt aliases s r → EndsAt aliases b r

namespace EndsAt

variable {aliases : Std.ExtTreeMap Nat Nat} {b r : Nat}

theorem unaliased (h : EndsAt aliases b r) : aliases[r]? = none := by
  induction h with
  | root h => exact h
  | link _ _ ih => exact ih

theorem unique (h : EndsAt aliases b r) {t : Nat} (h' : EndsAt aliases b t) : r = t := by
  induction h with
  | root h =>
      cases h' with
      | root _ => rfl
      | link hs _ => rw [h] at hs; cases hs
  | link hs _ ih =>
      cases h' with
      | root h => rw [hs] at h; cases h
      | link hs' h' =>
          rw [hs] at hs'
          exact ih (Option.some.inj hs' ▸ h')

theorem self_iff : EndsAt aliases b b ↔ aliases[b]? = none := ⟨unaliased, root⟩

theorem eq_of_unaliased (h : EndsAt aliases b r) (hb : aliases[b]? = none) : r = b :=
  h.unique (root hb)

end EndsAt

/-- Every chain that does not run in a circle ends. -/
theorem AcyclicAliases.exists_endsAt {aliases : Std.ExtTreeMap Nat Nat} (h : AcyclicAliases aliases)
    (b : Nat) : ∃ r, EndsAt aliases b r := by
  induction b using h.induction with
  | _ b ih =>
      cases hb : aliases[b]? with
      | none => exact ⟨b, .root hb⟩
      | some s =>
          obtain ⟨r, hr⟩ := ih s hb
          exact ⟨r, .link hb hr⟩

theorem chase_endsAt {aliases : Std.ExtTreeMap Nat Nat} {fuel : Nat} {path path' : List Nat}
    {cursor root : Nat} (h : chase aliases fuel path cursor = some (path', root)) :
    EndsAt aliases cursor root ∧
      ∀ e ∈ path', e ∈ path ∨ (aliases[e]?).isSome ∧ EndsAt aliases e root := by
  induction fuel generalizing path cursor with
  | zero => cases h
  | succ fuel ih =>
      unfold chase at h
      cases hc : aliases[cursor]? with
      | none =>
          rw [hc] at h
          obtain ⟨rfl, rfl⟩ := Prod.mk.inj (Option.some.inj h)
          exact ⟨.root hc, fun e he => .inl he⟩
      | some source =>
          rw [hc] at h
          simp only at h
          split_ifs at h
          obtain ⟨hend, hpath⟩ := ih h
          refine ⟨.link hc hend, fun e he => ?_⟩
          rcases hpath e he with hmem | hmem
          · rcases List.mem_append.mp hmem with hmem | hmem
            · exact .inl hmem
            · obtain rfl := List.mem_singleton.mp hmem
              exact .inr ⟨by rw [hc]; rfl, .link hc hend⟩
          · exact .inr hmem

section Compress

variable {aliases : Std.ExtTreeMap Nat Nat} {fuel bit root : Nat} {path : List Nat}
  (h : chase aliases fuel [] bit = some (path, root))

include h

theorem chase_path {e : Nat} (he : e ∈ path) : (aliases[e]?).isSome ∧ EndsAt aliases e root :=
  ((chase_endsAt h).2 e he).resolve_left List.not_mem_nil

theorem getElem?_compressPath_root : (compressPath aliases path root)[root]? = none := by
  have hroot := (chase_endsAt h).1.unaliased
  rw [getElem?_compressPath, if_neg, hroot]
  intro hmem
  have := (chase_path h hmem).1
  rw [hroot] at this
  cases this

/-- Compression keeps the ends of all chains. -/
theorem endsAt_compressPath {b r : Nat} :
    EndsAt (compressPath aliases path root) b r ↔ EndsAt aliases b r := by
  constructor
  · intro hb
    induction hb with
    | root hb =>
        rw [getElem?_compressPath] at hb
        split_ifs at hb
        exact .root hb
    | @link b s r hb hs ih =>
        rw [getElem?_compressPath] at hb
        split_ifs at hb with hmem
        · obtain rfl := Option.some.inj hb
          rw [hs.eq_of_unaliased (getElem?_compressPath_root h)]
          exact (chase_path h hmem).2
        · exact .link hb ih
  · intro hb
    induction hb with
    | @root b hb =>
        refine .root ?_
        rw [getElem?_compressPath, if_neg, hb]
        intro hmem
        have := (chase_path h hmem).1
        rw [hb] at this
        cases this
    | @link b s r hb hs ih =>
        by_cases hmem : b ∈ path
        · rw [(EndsAt.link hb hs).unique (chase_path h hmem).2]
          refine .link (by rw [getElem?_compressPath, if_pos hmem]) ?_
          exact .root (getElem?_compressPath_root h)
        · exact .link (by rw [getElem?_compressPath, if_neg hmem, hb]) ih

end Compress

/-! ## Sealed graphs -/

/-- Bits below `n` are aliased among themselves, others to bits that satisfy `p`
and are roots where they are old. -/
structure Sealed (n : Nat) (p : Nat → Prop) (g : Graph) : Prop where
  wf : g.Wf
  size : n ≤ g.bound
  old : ∀ b s : Nat, b < n → g.aliases[b]? = some s → s < n
  new : ∀ b s : Nat, n ≤ b → g.aliases[b]? = some s → p s
  roots : ∀ s : Nat, p s → s < n → g.aliases[s]? = none
  const : ∀ b < 2, p b

namespace Sealed

variable {n : Nat} {p : Nat → Prop} {g : Graph}

theorem lt_of_endsAt (hg : Sealed n p g) {b r : Nat} (hb : b < n) (h : EndsAt g.aliases b r) :
    r < n := by
  induction h with
  | root _ => exact hb
  | link hs _ ih => exact ih (hg.old _ _ hb hs)

theorem of_endsAt (hg : Sealed n p g) {b r : Nat} (hb : p b) (h : EndsAt g.aliases b r) : p r := by
  induction h with
  | root _ => exact hb
  | @link b s r hs _ ih =>
      by_cases hlt : b < n
      · rw [hg.roots b hb hlt] at hs
        cases hs
      · exact ih (hg.new b s (by omega) hs)

end Sealed

/-- A path of aliases through bits below `n`. -/
abbrev OldPath (n : Nat) (aliases : Std.ExtTreeMap Nat Nat) (b s : Nat) : Prop :=
  Relation.TransGen (fun s b : Nat => b < n ∧ aliases[b]? = some s) s b

/-- Old aliases lead along their chains, which end where they ended. -/
structure KeepsRoots (n : Nat) (g h : Graph) : Prop where
  ends : ∀ b < n, ∀ r, EndsAt h.aliases b r ↔ EndsAt g.aliases b r
  along : ∀ b < n, ∀ s : Nat, h.aliases[b]? = some s → OldPath n g.aliases b s

theorem KeepsRoots.refl (n : Nat) (g : Graph) : KeepsRoots n g g :=
  ⟨fun _ _ _ => Iff.rfl, fun _ hb _ hs => .single ⟨hb, hs⟩⟩

theorem KeepsRoots.trans {n : Nat} {g h k : Graph} (hgh : KeepsRoots n g h)
    (hhk : KeepsRoots n h k) : KeepsRoots n g k where
  ends b hb r := (hhk.ends b hb r).trans (hgh.ends b hb r)
  along b hb s hs := by
    have hpath := hhk.along b hb s hs
    clear hb hs
    induction hpath with
    | single h => exact hgh.along _ h.1 _ h.2
    | tail _ h ih => exact ih.trans (hgh.along _ h.1 _ h.2)

theorem KeepsRoots.unaliased {n : Nat} {g h : Graph} (hgh : KeepsRoots n g h) {b : Nat}
    (hb : b < n) : h.aliases[b]? = none ↔ g.aliases[b]? = none := by
  rw [← EndsAt.self_iff, ← EndsAt.self_iff]
  exact hgh.ends b hb b

theorem Sealed.oldPath {n : Nat} {p : Nat → Prop} {g : Graph} (hg : Sealed n p g) {b r : Nat} (hb : b < n) (h : EndsAt g.aliases b r)
    (hsome : (g.aliases[b]?).isSome) : OldPath n g.aliases b r := by
  induction h with
  | root hnone => rw [hnone] at hsome; cases hsome
  | @link b s r hs htail ih =>
      have hlt := hg.old b s hb hs
      cases hnext : g.aliases[s]? with
      | none =>
          obtain rfl := htail.eq_of_unaliased hnext
          exact .single ⟨hb, hs⟩
      | some _ => exact .tail (ih hlt (by rw [hnext]; rfl)) ⟨hb, hs⟩

def sealing (n : Nat) (p : Nat → Prop) : Ghosts Graph Graph where
  Inv c g := g = c ∧ Sealed n p g
  Le := KeepsRoots n
  le_refl := KeepsRoots.refl n
  le_trans := KeepsRoots.trans

section Building

variable {n : Nat} {p : Nat → Prop} {g : Graph}

theorem Sealed.resolve (hg : Sealed n p g) (bit : Nat) :
    Keeps (sealing n p) g g (resolve bit) fun _ root =>
      EndsAt g.aliases bit root ∧ (p bit → p root) := by
  unfold Keeps
  rw [resolve_run]
  cases hchase : chase g.aliases (g.aliases.size + 2) [] bit with
  | none => exact ⟨g, KeepsRoots.refl n g, rfl, hg⟩
  | some q =>
      obtain ⟨path, root⟩ := q
      have hget := getElem?_compressPath g.aliases path root
      have hend := (chase_endsAt hchase).1
      have hkeeps : KeepsRoots n g { g with aliases := compressPath g.aliases path root } := by
        refine ⟨fun b _ r => endsAt_compressPath hchase, fun b hb s hs => ?_⟩
        change (compressPath g.aliases path root)[b]? = some s at hs
        rw [hget] at hs
        split_ifs at hs with hmem
        · obtain ⟨hsome, hroot⟩ := chase_path hchase hmem
          exact Option.some.inj hs ▸ hg.oldPath hb hroot hsome
        · exact .single ⟨hb, hs⟩
      refine ⟨_, hkeeps, ⟨rfl, ?_⟩, hend, fun hbit => hg.of_endsAt hbit hend⟩
      refine ⟨(compress_grows hchase hg.wf).1, hg.size, fun b s hb hs => ?_, fun b s hb hs => ?_,
        fun s hs hlt => ?_, hg.const⟩
      · change (compressPath g.aliases path root)[b]? = some s at hs
        rw [hget] at hs
        split_ifs at hs with hmem
        · exact Option.some.inj hs ▸ hg.lt_of_endsAt hb (chase_path hchase hmem).2
        · exact hg.old b s hb hs
      · change (compressPath g.aliases path root)[b]? = some s at hs
        rw [hget] at hs
        split_ifs at hs with hmem
        · obtain ⟨hsome, hroot⟩ := chase_path hchase hmem
          obtain ⟨t, ht⟩ := Option.isSome_iff_exists.mp hsome
          cases hroot with
          | root hnone => rw [hnone] at ht; cases ht
          | link hb' htail => exact Option.some.inj hs ▸ hg.of_endsAt (hg.new b _ hb hb') htail
        · exact hg.new b s hb hs
      · have hnone := hg.roots s hs hlt
        exact EndsAt.self_iff.mp ((endsAt_compressPath hchase).mpr (.root hnone))

theorem Sealed.resolved (hg : Sealed n p g) (value : Value) :
    Keeps (sealing n p) g g (resolved value) fun _ roots =>
      (∀ b ∈ value, p b) → ∀ b ∈ roots, p b := by
  have hloop : Keeps (sealing n p) g g (value.mapM CppHdl.resolve) fun _ roots =>
      List.Forall₂ (fun b r => p b → p r) value roots := by
    refine Keeps.mapM (Q := fun _ b r => p b → p r) (fun _ h => h) (fun b _ d t _ ht => ?_) ⟨rfl, hg⟩
    obtain ⟨rfl, ht⟩ := ht
    exact (ht.resolve b).mono fun _ _ _ h => h.2
  refine hloop.mono fun d roots _ hroots hvalue b hb => ?_
  obtain ⟨i, hi, rfl⟩ := List.mem_iff_getElem.mp hb
  have hlen := hroots.length_eq
  have hget := List.forall₂_iff_get.mp hroots
  exact hget.2 i (by omega) hi (hvalue _ (List.getElem_mem _))

/-- Old bits are resolved to the ends of their chains. -/
theorem Sealed.resolved_endsAt (hg : Sealed n p g) {value : Value} (hvalue : ∀ b ∈ value, b < n) :
    Keeps (sealing n p) g g (CppHdl.resolved value) fun _ roots =>
      List.Forall₂ (EndsAt g.aliases) value roots := by
  refine Keeps.mapM (Q := fun _ b r => EndsAt g.aliases b r) (fun _ h => h)
    (fun b hb d t hgd ht => ?_) ⟨rfl, hg⟩
  obtain ⟨rfl, ht⟩ := ht
  exact (ht.resolve b).mono fun _ _ _ h => (hgd.ends b (hvalue b hb) _).mp h.1

theorem Sealed.simplifyNode (hg : Sealed n p g) {m : Node} (hm : ∀ b ∈ m.operands, p b) :
    Keeps (sealing n p) g g (simplifyNode m) fun _ q =>
      q.1.width = m.width ∧ ∀ r ∈ q.2, p r.2 := by
  have hl : ∀ b ∈ m.left, p b := fun b hb => hm b (by simp [Node.operands, hb])
  have hr : ∀ b ∈ m.right, p b := fun b hb => hm b (by simp [Node.operands, hb])
  have hs : ∀ b ∈ m.select, p b := fun b hb => hm b (by simp [Node.operands, hb])
  unfold CppHdl.simplifyNode
  refine (hg.resolved m.left).bind ?_
  rintro left d _ - ⟨rfl, hd⟩ hleft
  refine (hd.resolved m.right).bind ?_
  rintro right d _ - ⟨rfl, hd⟩ hright
  refine (hd.resolved m.select).bind ?_
  rintro select d _ - ⟨rfl, hd⟩ hselect
  simp only
  split
  · exact Keeps.throw ⟨rfl, hd⟩
  · rename_i redirects hredirects
    refine Keeps.pure ⟨rfl, hd⟩ ⟨Node.expandPower_width _, fun r hmem => ?_⟩
    refine Node.redirects_target (hd.const 0 (by omega)) (hd.const 1 (by omega))
      (Node.expandPower_operands (hd.const 0 (by omega)) fun b hb => ?_) hredirects hmem
    simp only [Node.operands, List.mem_append] at hb
    rcases hb with (hb | hb) | hb
    · exact hleft hl b hb
    · exact hright hr b hb
    · exact hselect hs b hb

/-- A new node aliases its own lanes, to what its operands are. -/
theorem Sealed.pushNode (hg : Sealed n p g) (m : Node) {result : Value} (hlen : result.length ≤ 64)
    (hresult : ∀ (i t : Nat), result[i]? = some t → t ≠ g.bound + i → p t) :
    Sealed n p (g.pushNode m result) ∧ KeepsRoots n g (g.pushNode m result) := by
  have hsize := hg.size
  have hold : ∀ b, b < n → (g.pushNode m result).aliases[b]? = g.aliases[b]? := fun b hb =>
    Graph.getElem?_pushNode_old (by omega)
  refine ⟨⟨hg.wf.pushNode hlen, by rw [Graph.bound_pushNode]; omega, fun b s hb hs => ?_,
    fun b s hb hs => ?_, fun s hs hlt => (hold s hlt).trans (hg.roots s hs hlt), hg.const⟩, ?_⟩
  · exact hg.old b s hb (hold b hb ▸ hs)
  · rw [Graph.getElem?_pushNode] at hs
    split at hs
    · rename_i t ht
      split_ifs at ht with hge
      split_ifs at hs with heq
      · exact hg.new b s hb hs
      · obtain rfl := Option.some.inj hs
        exact hresult _ _ ht (by omega)
    · exact hg.new b s hb hs
  · refine ⟨fun b hb r => ?_, fun b hb s hs => .single ⟨hb, hold b hb ▸ hs⟩⟩
    constructor
    · intro h
      induction h with
      | root h => exact .root (hold _ hb ▸ h)
      | link hs _ ih =>
          rw [hold _ hb] at hs
          exact .link hs (ih (hg.old _ _ hb hs))
    · intro h
      induction h with
      | root h => exact .root ((hold _ hb).trans h)
      | link hs _ ih => exact .link ((hold _ hb).trans hs) (ih (hg.old _ _ hb hs))

theorem Sealed.add (hg : Sealed n p g) {op : Op} {width : Nat} {left right select : Value}
    (hl : ∀ b ∈ left, p b) (hr : ∀ b ∈ right, p b) (hs : ∀ b ∈ select, p b)
    (hnew : ∀ b, n ≤ b → p b) (name : String) :
    Keeps (sealing n p) g g (add op width left right select name) fun _ result =>
      ∀ b ∈ result, p b := by
  have hsimplify := hg.simplifyNode (m := ⟨op, width, left, right, select, name, g.currentScope⟩)
    (by
      intro b hb
      simp only [Node.operands, List.mem_append] at hb
      rcases hb with (hb | hb) | hb
      · exact hl b hb
      · exact hr b hb
      · exact hs b hb)
  unfold Keeps at hsimplify ⊢
  rw [add_run]
  split_ifs with hwidth
  · exact ⟨g, KeepsRoots.refl n g, rfl, hg⟩
  cases hrun : CppHdl.simplifyNode ⟨op, width, left, right, select, name, g.currentScope⟩ g with
  | error e t => rw [hrun] at hsimplify; exact hsimplify
  | ok q t =>
      obtain ⟨m, redirects⟩ := q
      rw [hrun] at hsimplify
      obtain ⟨_, hroots, ⟨rfl, ht⟩, hwidth', hredirects⟩ := hsimplify
      have halias := simplifyNode_aliasOnly ⟨op, width, left, right, select, name, g.currentScope⟩ g
        trivial
      rw [hrun] at halias
      have hbound : t.bound = g.bound := by rw [halias.2.1]; rfl
      simp only
      generalize hresult : redirectLanes ((List.range width).map (g.bound + ·)) redirects = result
      have hlen : result.length = width := by rw [← hresult, length_redirectLanes]; simp
      have hlane : ∀ i s, result[i]? = some s → s = g.bound + i ∨ p s := by
        intro i s h
        rw [← hresult] at h
        rcases getElem?_redirectLanes h with h | h
        · rw [List.getElem?_map, Option.map_eq_some_iff] at h
          obtain ⟨j, hj, rfl⟩ := h
          obtain ⟨-, rfl⟩ := List.getElem?_eq_some_iff.mp hj
          exact .inl (by simp)
        · exact .inr (hredirects _ h)
      have hall : ∀ b ∈ result, p b := by
        intro b hb
        obtain ⟨i, hi⟩ := List.getElem?_of_mem hb
        rcases hlane i b hi with rfl | h
        · exact hnew _ (by have := hg.size; omega)
        · exact h
      split_ifs with hany
      · obtain ⟨hpush, hkeep⟩ := ht.pushNode m (show result.length ≤ 64 by omega)
          fun i s h hne => (hlane i s h).resolve_left (by rw [← hbound]; exact hne)
        exact ⟨_, hroots.trans hkeep, ⟨rfl, hpush⟩, hall⟩
      · exact ⟨t, hroots, ⟨rfl, ht⟩, hall⟩

/-! ### Builders

A builder invents no operands: they are constants, operands and what it built. -/

theorem forall_slice (h₀ : p 0) {value : Value} (h : ∀ b ∈ value, p b) (offset : Int)
    (width : Nat) : ∀ b ∈ slice value offset width, p b := by
  intro b hb
  obtain ⟨i, -, rfl⟩ := List.mem_map.mp hb
  split_ifs
  · exact getD_of_forall h₀ h _
  · exact h₀

theorem forall_resize (h₀ : p 0) {value : Value} (h : ∀ b ∈ value, p b) (width : Nat) :
    ∀ b ∈ resize value width, p b := by
  intro b hb
  rcases List.mem_append.mp hb with hb | hb
  · exact h b (List.mem_of_mem_take hb)
  · rw [if_neg (by decide)] at hb
    exact List.eq_of_mem_replicate hb ▸ h₀

theorem Sealed.appending {f : Nat → GraphM Value} (hg : Sealed n p g) (offsets : List Nat)
    {value : Value} (hvalue : ∀ b ∈ value, p b)
    (hf : ∀ offset h, Sealed n p h → Keeps (sealing n p) h h (f offset) fun _ part =>
      ∀ b ∈ part, p b) :
    Keeps (sealing n p) g g
      (offsets.foldlM (fun result offset => do pure (result ++ (← f offset))) value)
      fun _ result => ∀ b ∈ result, p b := by
  refine Keeps.foldlM (fun _ _ (result : Value) => ∀ b ∈ result, p b) ⟨rfl, hg⟩ hvalue ?_
  intro _ offset result d t _ _ ⟨ht, hd⟩ hresult
  subst ht
  refine (hf offset t hd).bind fun part e u _ hu hpart => Keeps.pure hu fun b hb => ?_
  exact (List.mem_append.mp hb).elim (hresult b) (hpart b)

theorem Sealed.bitwise (hg : Sealed n p g) (hnew : ∀ b, n ≤ b → p b) (op : Op)
    {left right : Value} (hl : ∀ b ∈ left, p b) (hr : ∀ b ∈ right, p b) (width : Nat) :
    Keeps (sealing n p) g g (bitwise op left right width) fun _ result =>
      ∀ b ∈ result, p b := by
  have h₀ : p 0 := hg.const 0 (by omega)
  refine hg.appending _ (fun _ hb => absurd hb List.not_mem_nil) fun offset h hh => ?_
  exact hh.add (forall_slice h₀ (forall_resize h₀ hl width) _ _)
    (forall_slice h₀ (forall_resize h₀ hr width) _ _) (fun _ hb => absurd hb List.not_mem_nil)
    hnew _

theorem Sealed.reduceWord (hg : Sealed n p g) (hnew : ∀ b, n ≤ b → p b) (op : Op)
    {part : Value} (hpart : ∀ b ∈ part, p b) :
    Keeps (sealing n p) g g (reduceWord op part) fun _ result => ∀ b ∈ result, p b := by
  unfold CppHdl.reduceWord
  split
  · exact Keeps.pure ⟨rfl, hg⟩
      (constant_of_forall (hg.const 0 (by omega)) (hg.const 1 (by omega)) _ _)
  · exact hg.add hpart (fun _ hb => absurd hb List.not_mem_nil)
      (fun _ hb => absurd hb List.not_mem_nil) hnew _

theorem Sealed.unary (hg : Sealed n p g) (hnew : ∀ b, n ≤ b → p b) (op : Op) {value : Value}
    (hvalue : ∀ b ∈ value, p b) :
    Keeps (sealing n p) g g (unary op value) fun _ result => ∀ b ∈ result, p b := by
  have h₀ : p 0 := hg.const 0 (by omega)
  refine Keeps.foldlM (fun _ _ (result : Value) => ∀ b ∈ result, p b) ⟨rfl, hg⟩ ?_ ?_
  · intro b hb
    rw [List.mem_singleton.mp hb]
    split_ifs
    · exact hg.const 1 (by omega)
    · exact h₀
  · intro _ offset result d t _ _ ⟨ht, hd⟩ hresult
    subst ht
    refine (hd.reduceWord hnew op (forall_slice h₀ hvalue _ _)).bind
      fun reduced e u _ ⟨hu, he⟩ hreduced => ?_
    subst hu
    exact he.bitwise hnew _ hresult hreduced 1

theorem Sealed.mux (hg : Sealed n p g) (hnew : ∀ b, n ≤ b → p b) {condition yes no : Value}
    (hc : ∀ b ∈ condition, p b) (hyes : ∀ b ∈ yes, p b) (hno : ∀ b ∈ no, p b) :
    Keeps (sealing n p) g g (mux condition yes no) fun _ result => ∀ b ∈ result, p b := by
  have h₀ : p 0 := hg.const 0 (by omega)
  refine (hg.unary hnew .any hc).bind fun any d t _ ⟨ht, hd⟩ hany => ?_
  subst ht
  refine Keeps.ite (fun _ => Keeps.throw ⟨rfl, hd⟩) fun _ => ?_
  refine Keeps.ite (fun _ => Keeps.pure ⟨rfl, hd⟩ (by split_ifs <;> assumption)) fun _ => ?_
  refine Keeps.ite (fun _ => Keeps.pure ⟨rfl, hd⟩ hyes) fun _ => ?_
  refine hd.appending _ (fun _ hb => absurd hb List.not_mem_nil) fun offset h hh => ?_
  exact hh.add (forall_slice h₀ hyes _ _) (forall_slice h₀ hno _ _) hany hnew _

theorem Sealed.binaryEq (hg : Sealed n p g) (hnew : ∀ b, n ≤ b → p b) {left right : Value}
    (hl : ∀ b ∈ left, p b) (hr : ∀ b ∈ right, p b) (hwide : isWide left right 1 = false) :
    Keeps (sealing n p) g g (binary .eq left right 1) fun _ result => ∀ b ∈ result, p b := by
  have hcore : binary .eq left right 1 = wordBinary .eq left right 1 := by
    unfold binary binaryCore
    rw [if_neg (by decide)]
    simp only [hwide, Bool.false_eq_true, if_false]
  rw [hcore]
  unfold wordBinary
  split
  · split
    · exact Keeps.throw ⟨rfl, hg⟩
    · exact Keeps.pure ⟨rfl, hg⟩
        (constant_of_forall (hg.const 0 (by omega)) (hg.const 1 (by omega)) _ _)
  · exact hg.add hl hr (fun _ hb => absurd hb List.not_mem_nil) hnew _

end Building

end CppHdl
