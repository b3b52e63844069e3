import Mathlib.Algebra.BigOperators.Group.Finset.Piecewise
import Mathlib.Data.Finset.Sort
import Mathlib.Data.Finset.Card
import Mathlib.Order.WellFoundedSet
import CppHdl.Lib.Schedule

/-!
# Worklists over acyclic graphs

A worklist holds the nodes of a graph all of whose predecessors have been visited. The
least one is visited next; each of its targets then waits for one predecessor less.

What is visited is visited in an order in which predecessors come first, and that is
everything where the graph has no cycle (`order_complete`).
-/

namespace CppHdl

/-- How many predecessors nodes wait for, and the nodes that wait for none. -/
structure Worklist where
  degrees : Nat → Nat
  queue : Finset Nat

namespace Worklist

/-- `if (--degrees[next] == 0) queue.insert(next)`. -/
def release (w : Worklist) (next : Nat) : Worklist where
  degrees := Function.update w.degrees next (w.degrees next - 1)
  queue := if w.degrees next = 1 then insert next w.queue else w.queue

def take (targets : Nat → List Nat) (w : Worklist) (n : Nat) : Worklist :=
  (targets n).foldl release ⟨w.degrees, w.queue.erase n⟩

/-- Visits nodes until none waits; `fuel` bounds the visits. -/
def run {σ : Type*} (targets : Nat → List Nat) (visit : σ → Nat → σ) : Nat → Worklist → σ → σ
  | 0, _, x => x
  | fuel + 1, w, x =>
      if h : w.queue.Nonempty then
        let n := w.queue.min' h
        run targets visit fuel (w.take targets n) (visit x n)
      else x

def order (targets : Nat → List Nat) : Nat → Worklist → List Nat
  | 0, _ => []
  | fuel + 1, w =>
      if h : w.queue.Nonempty then
        let n := w.queue.min' h
        n :: order targets fuel (w.take targets n)
      else []

section

variable {targets : Nat → List Nat}

theorem run_eq_foldl {σ : Type*} (visit : σ → Nat → σ) (fuel : Nat) (w : Worklist) (x : σ) :
    run targets visit fuel w x = (order targets fuel w).foldl visit x := by
  induction fuel generalizing w x with
  | zero => rfl
  | succ fuel ih =>
      unfold run order
      split_ifs with h
      · exact ih _ _
      · rfl

theorem degrees_foldl {ts : List Nat} (hts : ts.Nodup) (w : Worklist) (m : Nat) :
    (ts.foldl release w).degrees m = w.degrees m - if m ∈ ts then 1 else 0 := by
  induction ts generalizing w with
  | nil => rfl
  | cons t ts ih =>
      obtain ⟨ht, hts⟩ := List.nodup_cons.mp hts
      rw [List.foldl_cons, ih hts]
      by_cases hm : m = t
      · subst hm
        rw [if_neg ht, if_pos List.mem_cons_self, Nat.sub_zero]
        exact Function.update_self ..
      · have hne : m ∈ t :: ts ↔ m ∈ ts := by simp [hm]
        rw [if_congr hne rfl rfl]
        exact congrArg (· - _) (Function.update_of_ne hm ..)

theorem mem_queue_foldl {ts : List Nat} (hts : ts.Nodup) (w : Worklist) (m : Nat) :
    m ∈ (ts.foldl release w).queue ↔ m ∈ w.queue ∨ m ∈ ts ∧ w.degrees m = 1 := by
  induction ts generalizing w with
  | nil => simp
  | cons t ts ih =>
      obtain ⟨ht, hts⟩ := List.nodup_cons.mp hts
      have hqueue : m ∈ (w.release t).queue ↔ m ∈ w.queue ∨ m = t ∧ w.degrees t = 1 := by
        unfold release
        dsimp only
        split_ifs with h
        · rw [Finset.mem_insert]
          tauto
        · tauto
      rw [List.foldl_cons, ih hts, hqueue]
      by_cases hm : m = t
      · subst hm
        simp [ht]
      · rw [show (w.release t).degrees m = w.degrees m from Function.update_of_ne hm ..]
        simp [hm]

end

/-! ## Orders -/

section

variable (targets : Nat → List Nat) (nodes : Finset Nat)

def Edge (p n : Nat) : Prop := p ∈ nodes ∧ n ∈ targets p

/-- Predecessors that have not been visited. -/
def waits (done : List Nat) (n : Nat) : Finset Nat :=
  nodes.filter fun p => p ∉ done ∧ n ∈ targets p

def start : Worklist where
  degrees n := ∑ p ∈ nodes, (targets p).count n
  queue := nodes.filter fun n => ∑ p ∈ nodes, (targets p).count n = 0

structure After (done : List Nat) (w : Worklist) : Prop where
  nodup : done.Nodup
  apart : ∀ n ∈ done, n ∉ w.queue
  mem : ∀ n, n ∈ done ∨ n ∈ w.queue → n ∈ nodes
  degrees : ∀ n ∈ nodes, w.degrees n = (waits targets nodes done n).card
  ready : ∀ n ∈ nodes, w.degrees n = 0 ↔ n ∈ done ∨ n ∈ w.queue
  topological : Topological (fun n p => Edge targets nodes p n) done

end

section

variable {targets : Nat → List Nat} {nodes : Finset Nat}
  (hnodup : ∀ n, (targets n).Nodup) (hclosed : ∀ n ∈ nodes, ∀ t ∈ targets n, t ∈ nodes)

include hnodup

theorem After.start : After targets nodes [] (start targets nodes) := by
  have hcount : ∀ n, (∑ p ∈ nodes, (targets p).count n) = (waits targets nodes [] n).card := by
    intro n
    unfold waits
    rw [Finset.card_filter]
    refine Finset.sum_congr rfl fun p _ => ?_
    by_cases h : n ∈ targets p
    · rw [List.count_eq_one_of_mem (hnodup p) h, if_pos ⟨List.not_mem_nil, h⟩]
    · rw [List.count_eq_zero_of_not_mem h, if_neg fun hand => h hand.2]
  refine ⟨List.nodup_nil, fun n hn => absurd hn List.not_mem_nil, ?_, fun n _ => hcount n, ?_, ?_⟩
  · rintro n (hn | hn)
    · exact absurd hn List.not_mem_nil
    · exact (Finset.mem_filter.mp hn).1
  · intro n hn
    unfold Worklist.start
    dsimp only
    rw [Finset.mem_filter]
    simp [hn]
  · intro done i rest hsplit
    cases done <;> cases hsplit

include hclosed

theorem After.take {done : List Nat} {w : Worklist} (h : After targets nodes done w) {n : Nat}
    (hn : n ∈ w.queue) : After targets nodes (done ++ [n]) (w.take targets n) := by
  have hnodes := h.mem n (.inr hn)
  have hfresh : n ∉ done := fun hdone => h.apart n hdone hn
  have hzero := (h.ready n hnodes).mpr (.inr hn)
  have hdone : ∀ m, m ∈ done ++ [n] ↔ m ∈ done ∨ m = n := fun m => by simp
  -- the visited node was one of those its targets wait for
  have hopen : ∀ m, (waits targets nodes done m).card =
      (waits targets nodes (done ++ [n]) m).card + if m ∈ targets n then 1 else 0 := by
    intro m
    by_cases hm : m ∈ targets n
    · rw [if_pos hm, ← Finset.card_insert_of_notMem (a := n)]
      · congr 1
        ext p
        unfold waits
        simp only [Finset.mem_insert, Finset.mem_filter, hdone]
        constructor
        · rintro ⟨hp, hpdone, hpm⟩
          by_cases heq : p = n
          · exact .inl heq
          · exact .inr ⟨hp, not_or.mpr ⟨hpdone, heq⟩, hpm⟩
        · rintro (rfl | ⟨hp, hpdone, hpm⟩)
          · exact ⟨hnodes, hfresh, hm⟩
          · exact ⟨hp, fun hin => hpdone (.inl hin), hpm⟩
      · unfold waits
        simp
    · rw [if_neg hm]
      congr 1
      ext p
      unfold waits
      simp only [Finset.mem_filter, hdone]
      constructor
      · rintro ⟨hp, hpdone, hpm⟩
        exact ⟨hp, not_or.mpr ⟨hpdone, fun heq => hm (heq ▸ hpm)⟩, hpm⟩
      · rintro ⟨hp, hpdone, hpm⟩
        exact ⟨hp, fun hin => hpdone (.inl hin), hpm⟩
  have hdegrees : ∀ m, (w.take targets n).degrees m =
      w.degrees m - if m ∈ targets n then 1 else 0 := fun m => degrees_foldl (hnodup n) _ m
  have hqueue : ∀ m, m ∈ (w.take targets n).queue ↔
      (m ≠ n ∧ m ∈ w.queue) ∨ m ∈ targets n ∧ w.degrees m = 1 := fun m =>
    (mem_queue_foldl (hnodup n) _ m).trans (or_congr_left Finset.mem_erase)
  -- a target is neither visited nor in the worklist
  have htarget : ∀ m ∈ targets n, w.degrees m ≠ 0 := fun m hm => by
    have hcard := h.degrees m (hclosed n hnodes m hm)
    rw [hopen, if_pos hm] at hcard
    omega
  refine ⟨?_, ?_, ?_, ?_, ?_, ?_⟩
  · exact List.nodup_append.mpr ⟨h.nodup, List.nodup_singleton n, fun a ha b hb heq =>
      hfresh (by rw [← List.mem_singleton.mp hb, ← heq]; exact ha)⟩
  · intro m hm hmqueue
    rw [hdone] at hm
    rcases (hqueue m).mp hmqueue with ⟨hne, hold⟩ | ⟨htm, hone⟩
    · exact h.apart m (hm.resolve_right hne) hold
    · have hmnodes := hclosed n hnodes m htm
      rcases hm with hm | rfl
      · exact htarget m htm ((h.ready m hmnodes).mpr (.inl hm))
      · exact htarget m htm hzero
  · rintro m (hm | hm)
    · rcases (hdone m).mp hm with hm | rfl
      · exact h.mem m (.inl hm)
      · exact hnodes
    · rcases (hqueue m).mp hm with ⟨-, hold⟩ | ⟨htm, -⟩
      · exact h.mem m (.inr hold)
      · exact hclosed n hnodes m htm
  · intro m hm
    have hcard := h.degrees m hm
    rw [hopen] at hcard
    rw [hdegrees]
    omega
  · intro m hm
    have hready := h.ready m hm
    rw [hdegrees, hqueue, hdone]
    by_cases htm : m ∈ targets n
    · have hne := htarget m htm
      have hnot := mt hready.mpr hne
      rw [not_or] at hnot
      have hmn : m ≠ n := fun heq => hne (heq ▸ hzero)
      rw [if_pos htm]
      constructor
      · intro hsub
        exact .inr (.inr ⟨htm, by omega⟩)
      · rintro ((hin | hin) | ⟨-, hin⟩ | ⟨-, hone⟩)
        · exact absurd hin hnot.1
        · exact absurd hin hmn
        · exact absurd hin hnot.2
        · omega
    · rw [if_neg htm, Nat.sub_zero, hready]
      by_cases hmn : m = n
      · simp [hmn, hn]
      · simp [hmn, htm]
  · refine h.topological.snoc fun p hp => ?_
    -- a node without open predecessors
    have hcard := h.degrees n hnodes
    rw [hzero] at hcard
    by_contra hpdone
    have hmem : p ∈ waits targets nodes done n := Finset.mem_filter.mpr ⟨hp.1, hpdone, hp.2⟩
    rw [Finset.card_eq_zero.mp hcard.symm] at hmem
    exact Finset.notMem_empty p hmem

theorem After.order {done : List Nat} {w : Worklist} (h : After targets nodes done w)
    (fuel : Nat) : ∃ w', After targets nodes (done ++ order targets fuel w) w' ∧
      (w'.queue = ∅ ∨ (Worklist.order targets fuel w).length = fuel) := by
  induction fuel generalizing done w with
  | zero =>
      refine ⟨w, ?_, .inr rfl⟩
      unfold Worklist.order
      rwa [List.append_nil]
  | succ fuel ih =>
      unfold Worklist.order
      split_ifs with hqueue
      · obtain ⟨w', hafter, hor⟩ := ih (h.take hnodup hclosed (w.queue.min'_mem hqueue))
        rw [List.append_assoc] at hafter
        exact ⟨w', hafter, hor.imp_right (congrArg (· + 1))⟩
      · rw [List.append_nil]
        exact ⟨w, h, .inl (Finset.not_nonempty_iff_eq_empty.mp hqueue)⟩

/-- Everything is visited, unless there is a cycle. -/
theorem order_complete (hacyclic : ∀ n, ¬ Relation.TransGen (Edge targets nodes) n n) :
    let l := Worklist.order targets nodes.card (start targets nodes)
    (∀ n, n ∈ l ↔ n ∈ nodes) ∧ l.Nodup ∧
      Topological (fun n p => Edge targets nodes p n) l := by
  intro l
  obtain ⟨w, hafter, hor⟩ := (After.start hnodup).order hnodup hclosed nodes.card
  rw [List.nil_append] at hafter
  change After targets nodes l w at hafter
  have hsub : ∀ n ∈ l, n ∈ nodes := fun n hn => hafter.mem n (.inl hn)
  -- at the end nothing waits
  have hqueue : ∀ n, n ∉ w.queue := by
    intro n hn
    rcases hor with hempty | hlength
    · exact Finset.notMem_empty n (hempty ▸ hn)
    · have hlt : (insert n l.toFinset).card ≤ nodes.card :=
        Finset.card_le_card fun m hm => by
          rcases Finset.mem_insert.mp hm with rfl | hm
          · exact hafter.mem m (.inr hn)
          · exact hsub m (List.mem_toFinset.mp hm)
      have hfresh : n ∉ l.toFinset := fun hl => hafter.apart n (List.mem_toFinset.mp hl) hn
      rw [Finset.card_insert_of_notMem hfresh, List.toFinset_card_of_nodup hafter.nodup] at hlt
      change l.length = nodes.card at hlength
      omega
  refine ⟨fun n => ⟨hsub n, fun hn => ?_⟩, hafter.nodup, hafter.topological⟩
  by_contra hnot
  -- of the nodes that are left, one has no predecessor among them
  have horder : IsStrictOrder Nat (Relation.TransGen (Edge targets nodes)) :=
    { irrefl := hacyclic, trans := fun _ _ _ => Relation.TransGen.trans }
  have hwell := (nodes.filter (· ∉ l)).finite_toSet.wellFoundedOn
    (r := Relation.TransGen (Edge targets nodes))
  obtain ⟨⟨m, hm⟩, -, hleast⟩ := hwell.has_min Set.univ ⟨⟨n, by simp [hn, hnot]⟩, trivial⟩
  obtain ⟨hmnodes, hml⟩ := Finset.mem_filter.mp hm
  have hopen : waits targets nodes l m = ∅ := by
    refine Finset.eq_empty_of_forall_notMem fun p hp => ?_
    obtain ⟨hpnodes, hpl, hpm⟩ := Finset.mem_filter.mp hp
    exact hleast ⟨p, by simp [hpnodes, hpl]⟩ trivial (.single ⟨hpnodes, hpm⟩)
  have hzero : w.degrees m = 0 := by
    rw [hafter.degrees m hmnodes, hopen, Finset.card_empty]
  rcases (hafter.ready m hmnodes).mp hzero with hin | hin
  · exact hml hin
  · exact hqueue m hin

end

end Worklist

end CppHdl
