import Mathlib.Data.List.Basic
import Mathlib.Logic.Relation

/-!
# Joins of acyclic flows

In an acyclic flow a join may be activated by a node above it instead of by its incoming
edges: by one that every path to the join passes, and from which every path comes to it.
Dominators and postdominators are given by their equations here, however they are found.

Each node is either activated by the nearest such node, its source, or by the sum of
the edges that lead to it. Up to nodes that get stuck between a source and its join,
both are the same (`Activation.active_iff`).
-/

namespace CppHdl

/-- Nodes between an entry and an exit; edges raise the rank. -/
structure Flow (α : Type*) where
  nodes : List α
  rank : α → Nat
  last : Nat
  entry : α
  exit : α
  pred : α → List α
  succ : α → List α
  entry_not_mem : entry ∉ nodes
  exit_not_mem : exit ∉ nodes
  rank_le : ∀ n ∈ nodes, rank n ≤ last
  pred_ne_nil : ∀ n ∈ nodes, pred n ≠ []
  succ_ne_nil : ∀ n ∈ nodes, succ n ≠ []
  pred_before : ∀ n ∈ nodes, ∀ p ∈ pred n, p = entry ∨ p ∈ nodes ∧ rank p < rank n
  succ_after : ∀ n ∈ nodes, ∀ t ∈ succ n, t = exit ∨ t ∈ nodes ∧ rank n < rank t
  pred_iff_succ : ∀ p ∈ nodes, ∀ n ∈ nodes, p ∈ pred n ↔ n ∈ succ p

namespace Flow

variable {α : Type*} (F : Flow α)

/-- An edge between nodes. -/
def Leads (p n : α) : Prop := p ∈ F.nodes ∧ n ∈ F.nodes ∧ n ∈ F.succ p

/-- `m` lies on a path from `s` to `n`, before its end. -/
def Between (s m n : α) : Prop :=
  Relation.ReflTransGen F.Leads s m ∧ Relation.TransGen F.Leads m n

variable {F} {p n s : α}

theorem Leads.rank_lt (h : F.Leads p n) : F.rank p < F.rank n := by
  obtain ⟨hp, hn, ht⟩ := h
  rcases F.succ_after p hp n ht with rfl | ⟨-, hlt⟩
  · exact absurd hn F.exit_not_mem
  · exact hlt

theorem rank_le_of_path (h : Relation.ReflTransGen F.Leads s n) : F.rank s ≤ F.rank n := by
  induction h with
  | refl => exact Nat.le_refl _
  | tail _ hlast ih => exact Nat.le_of_lt (Nat.lt_of_le_of_lt ih hlast.rank_lt)

theorem rank_lt_of_path (h : Relation.TransGen F.Leads s n) : F.rank s < F.rank n := by
  obtain ⟨t, hfirst, hrest⟩ := Relation.TransGen.head'_iff.mp h
  exact Nat.lt_of_lt_of_le hfirst.rank_lt (rank_le_of_path hrest)

end Flow

/-- `dom n a` and `pdom n a`: every path from the entry to `n`, or from `n` to the exit,
passes `a`. Some nodes have the nearest node that is both as their source. -/
structure Joins (α : Type*) extends Flow α where
  dom : α → α → Prop
  pdom : α → α → Prop
  source : α → Option α
  dom_entry : ∀ a, dom entry a → a = entry
  dom_node : ∀ n ∈ nodes, ∀ a, dom n a ↔ a = n ∨ ∀ p ∈ pred n, dom p a
  dom_total : ∀ n a b, dom n a → dom n b → dom a b ∨ dom b a
  pdom_exit : ∀ a, pdom exit a → a = exit
  pdom_node : ∀ n ∈ nodes, ∀ a, pdom n a ↔ a = n ∨ ∀ t ∈ succ n, pdom t a
  source_spec : ∀ n ∈ nodes, ∀ s, source n = some s →
    dom n s ∧ s ≠ n ∧ s ≠ entry ∧ pdom s n ∧
      ∀ a, dom n a → a ≠ n → dom a s → a ≠ s → ¬ pdom a n

namespace Joins

variable {α : Type*} (J : Joins α) {n m a s : α}

/-- What dominates a node dominates its predecessors. -/
theorem dom_pred (hn : n ∈ J.nodes) (ha : J.dom n a) (hne : a ≠ n) {p : α} (hp : p ∈ J.pred n) :
    J.dom p a :=
  ((J.dom_node n hn a).mp ha).resolve_left hne p hp

theorem pdom_succ (hn : n ∈ J.nodes) (ha : J.pdom n a) (hne : a ≠ n) {t : α} (ht : t ∈ J.succ n) :
    J.pdom t a :=
  ((J.pdom_node n hn a).mp ha).resolve_left hne t ht

/-- A predecessor below a dominator is a node. -/
theorem pred_mem (hn : n ∈ J.nodes) (ha : J.dom n a) (hne : a ≠ n) (hentry : a ≠ J.entry) {p : α}
    (hp : p ∈ J.pred n) : p ∈ J.nodes ∧ J.rank p < J.rank n := by
  rcases J.pred_before n hn p hp with rfl | h
  · exact absurd (J.dom_entry a (J.dom_pred hn ha hne hp)) hentry
  · exact h

theorem dom_path (hn : n ∈ J.nodes) (ha : J.dom n a) (hentry : a ≠ J.entry) :
    a ∈ J.nodes ∧ Relation.ReflTransGen J.Leads a n := by
  generalize hk : J.rank n = k
  induction k using Nat.strongRecOn generalizing n with
  | ind k ih =>
      by_cases hne : a = n
      · exact ⟨hne ▸ hn, hne ▸ .refl⟩
      · obtain ⟨p, hp⟩ := List.exists_mem_of_ne_nil _ (J.pred_ne_nil n hn)
        obtain ⟨hmem, hlt⟩ := J.pred_mem hn ha hne hentry hp
        obtain ⟨hin, hpath⟩ := ih _ (hk ▸ hlt) hmem (J.dom_pred hn ha hne hp) rfl
        exact ⟨hin, hpath.tail ⟨hmem, hn, (J.pred_iff_succ p hmem n hn).mp hp⟩⟩

theorem dom_rank (hn : n ∈ J.nodes) (ha : J.dom n a) (hentry : a ≠ J.entry) (hne : a ≠ n) :
    J.rank a < J.rank n := by
  obtain ⟨-, hpath⟩ := J.dom_path hn ha hentry
  rcases Relation.ReflTransGen.cases_tail hpath with heq | ⟨p, hbefore, hlast⟩
  · exact absurd heq.symm hne
  · exact Nat.lt_of_le_of_lt (Flow.rank_le_of_path hbefore) hlast.rank_lt

/-- On the way from a node, as long as it is before `m`, every path comes to `m`. -/
theorem pdom_below (hn : n ∈ J.nodes) (ha : a ∈ J.nodes) (hdom : J.dom n a) (hpdom : J.pdom a m)
    (hlt : J.rank n < J.rank m) : J.pdom n m := by
  have hentry : a ≠ J.entry := fun heq => J.entry_not_mem (heq ▸ ha)
  generalize hk : J.rank n = k
  induction k using Nat.strongRecOn generalizing n with
  | ind k ih =>
      by_cases hne : a = n
      · exact hne ▸ hpdom
      · obtain ⟨p, hp⟩ := List.exists_mem_of_ne_nil _ (J.pred_ne_nil n hn)
        obtain ⟨hmem, hbefore⟩ := J.pred_mem hn hdom hne hentry hp
        have hprev := ih _ (hk ▸ hbefore) hmem (J.dom_pred hn hdom hne hp) (by omega) rfl
        have hpm : m ≠ p := fun heq => by
          rw [heq] at hlt
          omega
        exact J.pdom_succ hmem hprev hpm ((J.pred_iff_succ p hmem n hn).mp hp)

theorem pdom_path (hn : n ∈ J.nodes) (hm : m ∈ J.nodes) (hpdom : J.pdom n m) (hne : m ≠ n) :
    Relation.TransGen J.Leads n m := by
  generalize hk : J.last - J.rank n = k
  induction k using Nat.strongRecOn generalizing n with
  | ind k ih =>
      obtain ⟨t, ht⟩ := List.exists_mem_of_ne_nil _ (J.succ_ne_nil n hn)
      have hnext := J.pdom_succ hn hpdom hne ht
      rcases J.succ_after n hn t ht with rfl | ⟨htmem, hlt⟩
      · exact absurd (J.pdom_exit m hnext ▸ hm) J.exit_not_mem
      · have hlast := J.rank_le t htmem
        by_cases heq : m = t
        · exact heq ▸ .single ⟨hn, htmem, ht⟩
        · exact .head ⟨hn, htmem, ht⟩ (ih _ (by omega) htmem hnext heq rfl)

/-- Dominators of the end of a path dominate its nodes behind them. -/
theorem dom_of_path (hdom : J.dom m s) (hpath : Relation.ReflTransGen J.Leads n m)
    (hle : J.rank s ≤ J.rank n) : J.dom n s := by
  induction hpath using Relation.ReflTransGen.head_induction_on with
  | refl => exact hdom
  | head hlead _ ih =>
      have hlt := hlead.rank_lt
      obtain ⟨hp, ht, hedge⟩ := hlead
      have hne : s ≠ _ := fun heq => Nat.lt_irrefl _ (heq ▸ Nat.lt_of_le_of_lt hle hlt)
      exact J.dom_pred ht (ih (Nat.le_of_lt (Nat.lt_of_le_of_lt hle hlt))) hne
        ((J.pred_iff_succ _ hp _ ht).mpr hedge)

end Joins

/-- What is active in a flow whose joins take the activation of their sources. An edge
takes part where its node is active and did not get stuck. -/
structure Activation (α : Type*) extends Joins α where
  initial : α → Prop
  edge : α → α → Prop
  active : α → Prop
  stuck : α → Prop
  initial_entry : ∀ n ∈ nodes, initial n → entry ∈ pred n
  edge_pred : ∀ p n, edge p n → p ∈ pred n ∧ active p
  active_goes : ∀ n ∈ nodes, active n → ¬ stuck n → ∃ t ∈ succ n, t = exit ∨ edge n t
  active_sum : ∀ n ∈ nodes, source n = none →
    (active n ↔ initial n ∨ ∃ p ∈ nodes, edge p n)
  active_source : ∀ n ∈ nodes, ∀ s, source n = some s → (active n ↔ active s)

namespace Activation

variable {α : Type*} (A : Activation α) {n m s : α}

/-- What an incoming edge or the start gives. -/
def Sum (n : α) : Prop := A.initial n ∨ ∃ p ∈ A.nodes, A.edge p n

/-- Dominators of active nodes are active. -/
theorem active_dom (hn : n ∈ A.nodes) (hdom : A.dom n s) (hentry : s ≠ A.entry)
    (hactive : A.active n) : A.active s := by
  generalize hk : A.rank n = k
  induction k using Nat.strongRecOn generalizing n with
  | ind k ih =>
      by_cases hne : s = n
      · exact hne ▸ hactive
      cases hsource : A.source n with
      | none =>
          rcases (A.active_sum n hn hsource).mp hactive with hinitial | ⟨p, hp, hedge⟩
          · have hs := A.dom_pred hn hdom hne (A.initial_entry n hn hinitial)
            exact absurd (A.dom_entry s hs) hentry
          · obtain ⟨hpred, hpactive⟩ := A.edge_pred p n hedge
            obtain ⟨-, hlt⟩ := A.pred_mem hn hdom hne hentry hpred
            exact ih _ (hk ▸ hlt) hp (A.dom_pred hn hdom hne hpred) hpactive rfl
      | some q =>
          obtain ⟨hq, hqn, hqentry, hback, hnearest⟩ := A.source_spec n hn q hsource
          obtain ⟨hqmem, -⟩ := A.dom_path hn hq hqentry
          have hlt := A.dom_rank hn hq hqentry hqn
          have hqactive := (A.active_source n hn q hsource).mp hactive
          rcases A.dom_total n s q hdom hq with hsq | hqs
          · by_cases heq : q = s
            · exact heq ▸ hqactive
            · -- a nearer node would have been the source
              obtain ⟨hsmem, -⟩ := A.dom_path hn hdom hentry
              exact absurd (A.pdom_below hsmem hqmem hsq hback (A.dom_rank hn hdom hentry hne))
                (hnearest s hdom hne hsq (Ne.symm heq))
          · exact ih _ (hk ▸ hlt) hqmem hqs hqactive rfl

theorem active_of_sum (hn : n ∈ A.nodes) (hsum : A.Sum n) : A.active n := by
  cases hsource : A.source n with
  | none => exact (A.active_sum n hn hsource).mpr hsum
  | some s =>
      obtain ⟨hs, hsn, hentry, -, -⟩ := A.source_spec n hn s hsource
      rw [A.active_source n hn s hsource]
      rcases hsum with hinitial | ⟨p, hp, hedge⟩
      · have hs := A.dom_pred hn hs hsn (A.initial_entry n hn hinitial)
        exact absurd (A.dom_entry s hs) hentry
      · obtain ⟨hpred, hpactive⟩ := A.edge_pred p n hedge
        exact A.active_dom hp (A.dom_pred hn hs hsn hpred) hentry hpactive

/-- An active node before `m`, to which all its paths come, activates an edge to `m` unless
a node on the way gets stuck. -/
theorem sum_or_stuck (hn : n ∈ A.nodes) (hm : m ∈ A.nodes) (hpdom : A.pdom n m) (hne : m ≠ n)
    (hactive : A.active n) : A.Sum m ∨ ∃ k, A.Between n k m ∧ A.active k ∧ A.stuck k := by
  generalize hk : A.last - A.rank n = k
  induction k using Nat.strongRecOn generalizing n with
  | ind k ih =>
      -- a stuck node still has a path to `m`
      have hleads : ∀ t ∈ A.succ n, t ∈ A.nodes ∧ A.pdom t m := fun t ht => by
        have hnext := A.pdom_succ hn hpdom hne ht
        rcases A.succ_after n hn t ht with rfl | ⟨htmem, -⟩
        · exact absurd (A.pdom_exit m hnext ▸ hm) A.exit_not_mem
        · exact ⟨htmem, hnext⟩
      by_cases hstuck : A.stuck n
      · exact .inr ⟨n, ⟨.refl, A.pdom_path hn hm hpdom hne⟩, hactive, hstuck⟩
      obtain ⟨t, ht, hor⟩ := A.active_goes n hn hactive hstuck
      obtain ⟨htmem, hnext⟩ := hleads t ht
      have hlead : A.Leads n t := ⟨hn, htmem, ht⟩
      have hedge := hor.resolve_left fun heq => A.exit_not_mem (heq ▸ htmem)
      by_cases heq : m = t
      · exact .inl (heq ▸ .inr ⟨n, hn, hedge⟩)
      · have hlast := A.rank_le t htmem
        have hlt := hlead.rank_lt
        rcases ih _ (by omega) htmem hnext heq (A.active_of_sum htmem (.inr ⟨n, hn, hedge⟩)) rfl with
          hsum | ⟨k, ⟨hbefore, hafter⟩, hrest⟩
        · exact .inl hsum
        · exact .inr ⟨k, ⟨.head hlead hbefore, hafter⟩, hrest⟩

/-- A join is active where its edges activate it, or where an active node between its
source and it got stuck. -/
theorem active_iff (hn : n ∈ A.nodes) (hsource : A.source n = some s) :
    A.active n ↔ A.Sum n ∨ ∃ m, A.Between s m n ∧ A.active m ∧ A.stuck m := by
  obtain ⟨hs, hsn, hentry, hback, -⟩ := A.source_spec n hn s hsource
  obtain ⟨hsmem, -⟩ := A.dom_path hn hs hentry
  rw [A.active_source n hn s hsource]
  constructor
  · exact A.sum_or_stuck hsmem hn hback (Ne.symm hsn)
  · rintro (hsum | ⟨m, ⟨hbefore, hafter⟩, hactive, -⟩)
    · exact (A.active_source n hn s hsource).mp (A.active_of_sum hn hsum)
    · obtain ⟨t, ⟨hm, -, -⟩, -⟩ := Relation.TransGen.head'_iff.mp hafter
      have hdom := A.dom_of_path hs hafter.to_reflTransGen (Flow.rank_le_of_path hbefore)
      exact A.active_dom hm hdom hentry hactive

end Activation

end CppHdl
