import Mathlib.Data.Finset.Union
import Mathlib.Data.Finset.Option
import Mathlib.Data.List.GetD
import CppHdl.Lib.Dominance
import CppHdl.Lib.ParentTree
import CppHdl.Lib.Worklist

/-!
# Joins of a scheduled graph

The exporter finds for every block of an acyclic schedule the block whose activation it
takes over. Dominators are grown along the order of the blocks and postdominators
against it; the source of a block is the nearest of its dominators that it postdominates.

Suspended edges end in the exit, and what can be started independently has a virtual
entry, so that no block regains its activation across a clock.
-/

namespace CppHdl.Synth

/-- Where control goes after a block: to `yes` where its condition holds, else to `no`.
A suspended block goes to `yes` in a later clock. -/
structure Block where
  yes : Option Nat
  no : Option Nat
  suspend : Bool
  conditional : Bool

/-- Blocks are named by their index. -/
structure ScheduledDesign where
  blocks : List Block
  resetEntry : Nat
  commandEntry : Nat
  externalMemory : Bool
  size_lt : blocks.length < 2 ^ 31
  resetEntry_lt : resetEntry < blocks.length
  commandEntry_lt : commandEntry < blocks.length
  target_lt : ∀ b ∈ blocks, (∀ t ∈ b.yes, t < blocks.length) ∧ ∀ t ∈ b.no, t < blocks.length

/-- Which part is exported: a pipeline has no state, and starts with either entry. -/
structure Export where
  pipeline : Bool
  initializes : Bool

namespace ScheduledDesign

variable (d : ScheduledDesign) (x : Export)

def size : Nat := d.blocks.length

def block (n : Nat) : Block := d.blocks.getD n ⟨none, none, false, false⟩

/-- `initialize ? d.resetEntry : d.commandEntry`. -/
def first : Nat := if x.initializes then d.resetEntry else d.commandEntry

/-- `visit`; `fuel` bounds the depth. -/
def visit : Nat → Option Nat → Finset Nat → Finset Nat
  | 0, _, reachable => reachable
  | _, none, reachable => reachable
  | fuel + 1, some n, reachable =>
      if n ∈ reachable then reachable
      else visit fuel (d.block n).no (visit fuel (d.block n).yes (insert n reachable))

def reachable : Finset Nat :=
  d.visit d.size (some (d.first x))
    (if x.pipeline then ∅ else d.visit d.size (some d.resetEntry) ∅)

/-- Where the phase can resume. -/
def continuations : Finset Nat :=
  insert d.resetEntry ((if d.externalMemory then {d.commandEntry} else ∅) ∪
    ((d.reachable x).filter fun n => (d.block n).suspend).biUnion fun n => (d.block n).yes.toFinset)

/-- The edges of a block within a clock; both branches to one block are one edge. -/
def targets (n : Nat) : List Nat :=
  (if (d.block n).suspend then [] else (d.block n).yes.toList) ++
    if (d.block n).no = (d.block n).yes ∧ ¬ (d.block n).suspend then [] else (d.block n).no.toList

/-- The counts of incoming edges, and the blocks without any. -/
def incoming : Worklist := .start d.targets (d.reachable x)

/-- The blocks in the order in which they become ready. -/
def order : List Nat := Worklist.order d.targets (d.reachable x).card (d.incoming x)

/-! ## Dominators and postdominators -/

def entry : Nat := d.size

def exit : Nat := d.size + 1

def entries : Finset Nat := insert (d.first x) (if x.pipeline then ∅ else d.continuations x)

/-- Predecessors within a clock, and the entry. -/
def predecessors (n : Nat) : List Nat :=
  let found := (List.range d.size).filter fun p => p ∈ d.reachable x ∧ n ∈ d.targets p
  if n ∈ d.entries x ∨ found = [] then found ++ [d.entry] else found

def dominators : ParentTree Nat :=
  (ParentTree.single d.entry).grow
    (fun t n => (d.predecessors x n).foldl t.common ((d.predecessors x n).headD n)) (d.order x)

/-- The nearest common postdominator of what follows a block. -/
def postParent (t : ParentTree Nat) (n : Nat) : Nat :=
  let b := d.block n
  let parent := if b.suspend then d.exit else b.yes.getD d.exit
  match b.no with
  | some no => t.common parent no
  | none => if b.conditional then d.exit else parent

def postdominators : ParentTree Nat :=
  (ParentTree.single d.exit).grow d.postParent (d.order x).reverse

/-- Climbs the dominators of `n` to the first that `n` postdominates. -/
def searchSource (n : Nat) : Nat → Nat → Option Nat
  | 0, _ => none
  | fuel + 1, ancestor =>
      let t := d.postdominators x
      if ancestor = n ∨ ancestor = d.entry then none
      else if t.climb (t.level n) (t.level ancestor) ancestor = n then some ancestor
      else if (d.dominators x).parent ancestor = ancestor then none
      else searchSource n fuel ((d.dominators x).parent ancestor)

def joinSource (n : Nat) : Option Nat :=
  d.searchSource x n ((d.dominators x).level n) ((d.dominators x).parent n)

/-! ## Reachable blocks -/

variable {d x} {n m : Nat}

theorem block_mem (h : n < d.size) : d.block n ∈ d.blocks := by
  unfold block
  rw [List.getD_eq_getElem _ _ h]
  exact List.getElem_mem h

theorem yes_lt (hn : n < d.size) (hm : (d.block n).yes = some m) : m < d.size :=
  (d.target_lt _ (block_mem hn)).1 m hm

theorem no_lt (hn : n < d.size) (hm : (d.block n).no = some m) : m < d.size :=
  (d.target_lt _ (block_mem hn)).2 m hm

/-- A search reaches what its blocks lead to, but for those it had found before. -/
theorem visit_spec {fuel : Nat} {start : Option Nat} {found : Finset Nat}
    (hfound : ∀ n ∈ found, n < d.size) (hstart : ∀ n ∈ start, n < d.size)
    (hfuel : d.size ≤ fuel + found.card) :
    found ⊆ d.visit fuel start found ∧ (∀ n ∈ d.visit fuel start found, n < d.size) ∧
      (∀ n ∈ start, n ∈ d.visit fuel start found) ∧
      ∀ n ∈ d.visit fuel start found, n ∉ found →
        (∀ m ∈ (d.block n).yes, m ∈ d.visit fuel start found) ∧
          ∀ m ∈ (d.block n).no, m ∈ d.visit fuel start found := by
  induction fuel generalizing start found with
  | zero =>
      refine ⟨Finset.Subset.refl _, hfound, fun n hn => ?_, fun n hn hnot => absurd hn hnot⟩
      -- everything has been found
      have hfull : Finset.range d.size ⊆ found := by
        have hsub : found ⊆ Finset.range d.size := fun m hm => Finset.mem_range.mpr (hfound m hm)
        refine (Finset.eq_of_subset_of_card_le hsub ?_).symm.subset
        rw [Finset.card_range]
        omega
      exact hfull (Finset.mem_range.mpr (hstart n hn))
  | succ fuel ih =>
      cases start with
      | none =>
          exact ⟨Finset.Subset.refl _, hfound, fun n hn => (Option.not_mem_none n hn).elim,
            fun n hn hnot => absurd hn hnot⟩
      | some k =>
          have hk := hstart k rfl
          unfold visit
          split_ifs with hin
          · refine ⟨Finset.Subset.refl _, hfound, fun n hn => ?_, fun n hn hnot => absurd hn hnot⟩
            obtain rfl := Option.some_inj.mp hn
            exact hin
          · have hinsert : ∀ n ∈ insert k found, n < d.size := fun n hn => by
              rcases Finset.mem_insert.mp hn with rfl | hn
              · exact hk
              · exact hfound n hn
            have hcard := Finset.card_insert_of_notMem hin
            have hstartYes : ∀ n ∈ (d.block k).yes, n < d.size := fun n hn => yes_lt hk hn
            have hstartNo : ∀ n ∈ (d.block k).no, n < d.size := fun n hn => no_lt hk hn
            obtain ⟨hsub, hlt, hyes, hclosed⟩ := ih hinsert hstartYes (by omega)
            generalize d.visit fuel (d.block k).yes (insert k found) = mid at *
            have hmid := Finset.card_le_card hsub
            obtain ⟨hsub', hlt', hno, hclosed'⟩ := ih hlt hstartNo (by omega)
            refine ⟨fun n hn => hsub' (hsub (Finset.mem_insert_of_mem hn)), hlt', fun n hn => ?_,
              fun n hn hnot => ?_⟩
            · obtain rfl := Option.some_inj.mp hn
              exact hsub' (hsub (Finset.mem_insert_self ..))
            · by_cases hnk : n = k
              · subst hnk
                exact ⟨fun m hm => hsub' (hyes m hm), hno⟩
              · by_cases hnmid : n ∈ mid
                · have hnew : n ∉ insert k found := by simp [hnk, hnot]
                  obtain ⟨hy, hn'⟩ := hclosed n hnmid hnew
                  exact ⟨fun m hm => hsub' (hy m hm), fun m hm => hsub' (hn' m hm)⟩
                · exact hclosed' n hn hnmid

theorem reachable_spec : (∀ n ∈ d.reachable x, n < d.size) ∧ d.first x ∈ d.reachable x ∧
    (x.pipeline = false → d.resetEntry ∈ d.reachable x) ∧
      ∀ n ∈ d.reachable x, (∀ m ∈ (d.block n).yes, m ∈ d.reachable x) ∧
        ∀ m ∈ (d.block n).no, m ∈ d.reachable x := by
  have hfirst : ∀ n ∈ some (d.first x), n < d.size := fun n hn => by
    obtain rfl := Option.some_inj.mp hn
    unfold first
    split_ifs
    · exact d.resetEntry_lt
    · exact d.commandEntry_lt
  have hreset : ∀ n ∈ some d.resetEntry, n < d.size := fun n hn => by
    obtain rfl := Option.some_inj.mp hn
    exact d.resetEntry_lt
  have hnone : ∀ n ∈ (∅ : Finset Nat), n < d.size := fun n hn => absurd hn (Finset.notMem_empty n)
  have hall : ∀ found : Finset Nat, d.size ≤ d.size + found.card := fun found =>
    Nat.le_add_right _ _
  unfold reachable
  split_ifs with hpipeline
  · obtain ⟨-, hlt, hin, hclosed⟩ := visit_spec hnone hfirst (hall ∅)
    exact ⟨hlt, hin _ rfl, fun h => absurd (h.symm.trans hpipeline) Bool.false_ne_true,
      fun n hn => hclosed n hn (Finset.notMem_empty n)⟩
  · obtain ⟨-, hlt, hin, hclosed⟩ := visit_spec hnone hreset (hall ∅)
    obtain ⟨hsub, hlt', hin', hclosed'⟩ := visit_spec hlt hfirst (hall _)
    refine ⟨hlt', hin' _ rfl, fun _ => hsub (hin _ rfl), fun n hn => ?_⟩
    by_cases hold : n ∈ d.visit d.size (some d.resetEntry) ∅
    · obtain ⟨hyes, hno⟩ := hclosed n hold (Finset.notMem_empty n)
      exact ⟨fun m hm => hsub (hyes m hm), fun m hm => hsub (hno m hm)⟩
    · exact hclosed' n hn hold

theorem mem_targets : m ∈ d.targets n ↔
    ((d.block n).suspend = false ∧ (d.block n).yes = some m) ∨ (d.block n).no = some m := by
  unfold targets
  rw [List.mem_append]
  cases hsuspend : (d.block n).suspend
  · simp only [Bool.false_eq_true, if_false, Option.mem_toList, not_false_eq_true, and_true,
      true_and]
    split_ifs with heq
    · simp [heq]
    · simp
  · simp

theorem targets_nodup (n : Nat) : (d.targets n).Nodup := by
  unfold targets
  have hlist : ∀ o : Option Nat, o.toList.Nodup := fun o => by cases o <;> simp
  cases hsuspend : (d.block n).suspend
  · simp only [Bool.false_eq_true, if_false, not_false_eq_true, and_true]
    split_ifs with heq
    · simpa using hlist _
    · refine List.nodup_append.mpr ⟨hlist _, hlist _, fun a ha b hb hab => heq ?_⟩
      rw [Option.mem_toList] at ha hb
      rw [ha, hb, hab]
  · simpa using hlist _

theorem targets_mem (hn : n ∈ d.reachable x) : ∀ t ∈ d.targets n, t ∈ d.reachable x := by
  intro t ht
  obtain ⟨hyes, hno⟩ := reachable_spec.2.2.2 n hn
  rcases mem_targets.mp ht with ⟨-, h⟩ | h
  · exact hyes t h
  · exact hno t h

/-- No path within a clock comes back. -/
def Acyclic (d : ScheduledDesign) (x : Export) : Prop :=
  ∀ n, ¬ Relation.TransGen (Worklist.Edge d.targets (d.reachable x)) n n

theorem order_spec (h : d.Acyclic x) : (∀ n, n ∈ d.order x ↔ n ∈ d.reachable x) ∧
    (d.order x).Nodup ∧
      Topological (fun n p => Worklist.Edge d.targets (d.reachable x) p n) (d.order x) :=
  Worklist.order_complete targets_nodup (fun _ hn => targets_mem hn) h

/-! ## The flow of a design -/

/-- What follows a block within a clock. -/
def successors (d : ScheduledDesign) (n : Nat) : List Nat :=
  (if (d.block n).suspend then d.exit else (d.block n).yes.getD d.exit) ::
    match (d.block n).no with
    | some no => [no]
    | none => if (d.block n).conditional then [d.exit] else []

theorem mem_successors (hm : m ≠ d.exit) : m ∈ d.successors n ↔ m ∈ d.targets n := by
  unfold successors
  rw [mem_targets, List.mem_cons]
  refine or_congr ?_ ?_
  · cases hsuspend : (d.block n).suspend
    · cases hyes : (d.block n).yes
      · simp [hm]
      · simp [eq_comm]
    · simp [hm]
  · cases hno : (d.block n).no
    · cases (d.block n).conditional
      · simp
      · simp [hm]
    · simp [eq_comm]

theorem mem_predecessors : m ∈ d.predecessors x n ↔
    (m ∈ d.reachable x ∧ n ∈ d.targets m) ∨
      m = d.entry ∧ (n ∈ d.entries x ∨ ∀ p ∈ d.reachable x, n ∉ d.targets p) := by
  have hfound : ∀ p, p ∈ (List.range d.size).filter (fun p => p ∈ d.reachable x ∧ n ∈ d.targets p) ↔
      p ∈ d.reachable x ∧ n ∈ d.targets p := fun p => by
    rw [List.mem_filter, List.mem_range, decide_eq_true_iff]
    exact and_iff_right_of_imp fun hand => reachable_spec.1 p hand.1
  have hnil : (List.range d.size).filter (fun p => p ∈ d.reachable x ∧ n ∈ d.targets p) = [] ↔
      ∀ p ∈ d.reachable x, n ∉ d.targets p := by
    rw [List.eq_nil_iff_forall_not_mem]
    exact forall_congr' fun p => by rw [hfound, not_and]
  unfold predecessors
  dsimp only
  split_ifs with h
  · rw [List.mem_append, hfound, List.mem_singleton]
    rw [hnil] at h
    exact or_congr_right (iff_self_and.mpr fun _ => h)
  · rw [hfound]
    rw [hnil] at h
    exact (or_iff_left fun hor => h hor.2).symm

theorem predecessors_ne_nil (n : Nat) : d.predecessors x n ≠ [] := by
  unfold predecessors
  dsimp only
  split_ifs with h
  · exact List.append_ne_nil_of_right_ne_nil _ (List.cons_ne_nil _ _)
  · exact fun heq => h (.inr heq)

theorem idxOf_lt (h : d.Acyclic x) (hn : n ∈ d.order x) (hm : m ∈ d.targets n) :
    (d.order x).idxOf n < (d.order x).idxOf m := by
  obtain ⟨hmem, hnodup, htopological⟩ := order_spec h
  have hreach := (hmem n).mp hn
  exact htopological.idxOf_lt hnodup ((hmem m).mpr (targets_mem hreach m hm)) ⟨hreach, hm⟩

theorem order_lt (h : d.Acyclic x) (hn : n ∈ d.order x) : n < d.size :=
  reachable_spec.1 n (((order_spec h).1 n).mp hn)

theorem ne_entry (h : d.Acyclic x) (hn : n ∈ d.order x) : n ≠ d.entry :=
  Nat.ne_of_lt (order_lt h hn)

theorem ne_exit (h : d.Acyclic x) (hn : n ∈ d.order x) : n ≠ d.exit :=
  Nat.ne_of_lt (Nat.lt_succ_of_lt (order_lt h hn))

theorem dominators_spec (h : d.Acyclic x) : (d.dominators x).Rooted (d.order x).reverse ∧
    ∀ n ∈ d.order x, ∀ a, (d.dominators x).Above n a ↔
      a = n ∨ ∀ p ∈ d.predecessors x n, (d.dominators x).Above p a := by
  obtain ⟨hmem, hnodup, htopological⟩ := order_spec h
  refine ParentTree.grow_above (fun hin => ne_entry h hin rfl) hnodup
    (htopological.mono fun n p hp => ?_) fun t nodes n htop hrooted hnear => ?_
  · exact (mem_predecessors.mp hp.1).resolve_right fun hand => hp.2 hand.1
  · have hhead : (d.predecessors x n).headD n ∈ d.predecessors x n := by
      obtain ⟨p, l, heq⟩ := List.exists_cons_of_ne_nil (predecessors_ne_nil (d := d) (x := x) n)
      rw [heq]
      exact List.mem_cons_self
    obtain ⟨hin, habove⟩ := hrooted.above_foldl hnear (hnear _ hhead)
    exact ⟨hin, fun a => (habove a).trans (and_iff_right_of_imp fun hall => hall _ hhead)⟩

theorem postdominators_spec (h : d.Acyclic x) :
    (d.postdominators x).Rooted (d.order x).reverse.reverse ∧
      ∀ n ∈ (d.order x).reverse, ∀ a, (d.postdominators x).Above n a ↔
        a = n ∨ ∀ t ∈ d.successors n, (d.postdominators x).Above t a := by
  obtain ⟨hmem, hnodup, htopological⟩ := order_spec h
  refine ParentTree.grow_above (fun hin => ne_exit h (List.mem_reverse.mp hin) rfl)
    (List.nodup_reverse.mpr hnodup) (htopological.reverse hnodup fun n hn t ht => ?_)
    fun t nodes n htop hrooted hnear => ?_
  · have htarget := (mem_successors ht.2).mp ht.1
    have hreach := (hmem n).mp hn
    exact ⟨(hmem t).mpr (targets_mem hreach t htarget), hreach, htarget⟩
  · have hparent := hnear _ List.mem_cons_self
    unfold postParent successors at *
    dsimp only
    cases hno : (d.block n).no with
    | some no =>
        rw [hno] at hnear
        have hin : no ∈ t.root :: nodes := hnear no (by simp)
        refine ⟨hrooted.common_mem hparent hin, fun a => ?_⟩
        rw [hrooted.above_common hparent hin, List.forall_mem_cons, List.forall_mem_singleton]
    | none =>
        cases hconditional : (d.block n).conditional with
        | false =>
            refine ⟨hparent, fun a => ?_⟩
            simp
        | true =>
            -- the exit is above everything
            refine ⟨List.mem_cons.mpr (.inl htop.symm), fun a => ?_⟩
            rw [List.forall_mem_cons]
            change t.Above d.exit a ↔ _ ∧ ∀ p ∈ [d.exit], t.Above p a
            rw [List.forall_mem_singleton]
            refine (and_iff_right_of_imp fun ha => ?_).symm
            rw [← htop, ParentTree.above_root] at ha
            exact ha ▸ hrooted.above_top hparent

/-- Among the dominators from `a` up, what is found is the first that `n` postdominates. -/
theorem searchSource_spec {fuel a s : Nat} {nodes : List Nat}
    (hrooted : (d.dominators x).Rooted nodes) (ha : a ∈ (d.dominators x).root :: nodes)
    (hsearch : d.searchSource x n fuel a = some s) :
    let t := d.postdominators x
    (d.dominators x).Above a s ∧ s ≠ n ∧ s ≠ d.entry ∧ t.climb (t.level n) (t.level s) s = n ∧
      ∀ b, (d.dominators x).Above a b → (d.dominators x).Above b s → b ≠ s →
        t.climb (t.level n) (t.level b) b ≠ n := by
  have htop : (d.dominators x).root = d.entry := ParentTree.grow_root _
  intro t
  induction fuel generalizing a with
  | zero => cases hsearch
  | succ fuel ih =>
      unfold searchSource at hsearch
      dsimp only at hsearch
      split_ifs at hsearch with hend hclimb hself
      · obtain ⟨hn, hentry⟩ := not_or.mp hend
        obtain rfl := Option.some_inj.mp hsearch
        refine ⟨.refl _, hn, hentry, hclimb, fun b hab hba hne => ?_⟩
        exact absurd (hrooted.antisymm ha hab hba) hne
      · have hroot : a ≠ (d.dominators x).root := fun heq => hend (.inr (heq.trans htop))
        have hmem := (List.mem_cons.mp ha).resolve_left hroot
        obtain ⟨habove, hn, hentry, hfound, hnearest⟩ := ih (hrooted.parent_mem a hmem) hsearch
        refine ⟨.up hroot habove, hn, hentry, hfound, fun b hab hbs hne => ?_⟩
        rcases (ParentTree.above_iff hroot).mp hab with rfl | hab
        · exact hclimb
        · exact hnearest b hab hbs hne

/-- Acyclic designs have a flow, and what `joinSource` finds are its sources. -/
def joins (d : ScheduledDesign) (x : Export) (h : d.Acyclic x) : Joins Nat where
  nodes := d.order x
  rank := (d.order x).idxOf
  last := (d.order x).length
  entry := d.entry
  exit := d.exit
  pred := d.predecessors x
  succ := d.successors
  entry_not_mem hin := ne_entry h hin rfl
  exit_not_mem hin := ne_exit h hin rfl
  rank_le _ hn := Nat.le_of_lt (List.idxOf_lt_length_of_mem hn)
  pred_ne_nil n _ := predecessors_ne_nil n
  succ_ne_nil _ _ := List.cons_ne_nil _ _
  pred_before n hn p hp := by
    rcases mem_predecessors.mp hp with ⟨hreach, htarget⟩ | ⟨rfl, -⟩
    · have hin := ((order_spec h).1 p).mpr hreach
      exact .inr ⟨hin, idxOf_lt h hin htarget⟩
    · exact .inl rfl
  succ_after n hn t ht := by
    by_cases hexit : t = d.exit
    · exact .inl hexit
    · have htarget := (mem_successors hexit).mp ht
      have hreach := targets_mem (((order_spec h).1 n).mp hn) t htarget
      exact .inr ⟨((order_spec h).1 t).mpr hreach, idxOf_lt h hn htarget⟩
  pred_iff_succ p hp n hn := by
    rw [mem_successors (ne_exit h hn), mem_predecessors,
      or_iff_left fun hand => ne_entry h hp hand.1]
    exact and_iff_right (((order_spec h).1 p).mp hp)
  dom := (d.dominators x).Above
  pdom := (d.postdominators x).Above
  source := d.joinSource x
  dom_entry a ha := by
    have htop : (d.dominators x).root = d.entry := ParentTree.grow_root _
    rw [← htop] at ha ⊢
    exact ParentTree.above_root.mp ha
  dom_node := (dominators_spec h).2
  dom_total _ _ _ := ParentTree.Above.total
  pdom_exit a ha := by
    have htop : (d.postdominators x).root = d.exit := ParentTree.grow_root _
    rw [← htop] at ha ⊢
    exact ParentTree.above_root.mp ha
  pdom_node n hn := (postdominators_spec h).2 n (List.mem_reverse.mpr hn)
  source_spec n hn s hs := by
    obtain ⟨hdom, -⟩ := dominators_spec h
    obtain ⟨hpost, -⟩ := postdominators_spec h
    rw [List.reverse_reverse] at hpost
    have hin : n ∈ (d.order x).reverse := List.mem_reverse.mpr hn
    have hroot := hdom.ne_root hin
    have hup : ∀ a, (d.dominators x).Above n a → a ≠ n →
        (d.dominators x).Above ((d.dominators x).parent n) a := fun a ha hne =>
      ((ParentTree.above_iff hroot).mp ha).resolve_left hne
    obtain ⟨habove, hne, hentry, hfound, hnearest⟩ :=
      searchSource_spec hdom (hdom.parent_mem n hin) hs
    have hns := ParentTree.Above.up hroot habove
    -- a strict dominator of a node that is not the entry is a node
    have hclimb : ∀ a, (d.dominators x).Above n a → a ≠ d.entry →
        ((d.postdominators x).climb ((d.postdominators x).level n)
          ((d.postdominators x).level a) a = n ↔ (d.postdominators x).Above a n) := by
      intro a ha hea
      have htop : (d.dominators x).root = d.entry := ParentTree.grow_root _
      have hamem := hdom.above_mem (List.mem_cons_of_mem _ hin) ha
      rw [List.mem_cons, htop, List.mem_reverse] at hamem
      exact hpost.climb_eq (List.mem_cons_of_mem _ (hamem.resolve_left hea)) (Nat.le_refl _)
        (List.mem_cons_of_mem _ hn) rfl
    refine ⟨hns, hne, hentry, (hclimb s hns hentry).mp hfound, fun a ha han has hasne hback => ?_⟩
    have hea : a ≠ d.entry := by
      rintro rfl
      have htop : (d.dominators x).root = d.entry := ParentTree.grow_root _
      rw [← htop] at has hasne
      exact hasne (ParentTree.above_root.mp has).symm
    exact hnearest a (hup a ha han) has hasne ((hclimb a ha hea).mpr hback)

end ScheduledDesign

end CppHdl.Synth
