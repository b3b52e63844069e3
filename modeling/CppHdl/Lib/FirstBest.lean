import Mathlib.Data.Fin.Basic
import Mathlib.Data.List.FinRange
import Mathlib.Order.Basic

/-!
# The first of the smallest

A scan that keeps an element until a strictly smaller one comes finds the first of the
smallest elements.
-/

namespace CppHdl

variable {α : Type*} [LinearOrder α] {n : Nat}

/-- The scan over indices in order. -/
def firstBest (f : Fin (n + 1) → α) : Fin (n + 1) :=
  (List.finRange (n + 1)).foldl (fun best i => if f i < f best then i else best) 0

/-- `b` is before or at all others, and strictly before those of lower index. -/
structure IsFirstBest (f : Fin (n + 1) → α) (b : Fin (n + 1)) : Prop where
  before : ∀ i < b, f b < f i
  best : ∀ i, f b ≤ f i

theorem isFirstBest_firstBest (f : Fin (n + 1) → α) : IsFirstBest f (firstBest f) := by
  -- what has been scanned, and what is still to come
  have scan : ∀ (todo : List (Fin (n + 1))) (done : Fin (n + 1) → Prop) (b : Fin (n + 1)),
      (∀ i, done i ∨ i ∈ todo) → todo.Pairwise (· < ·) → (∀ i, done i → ∀ j ∈ todo, i < j) →
      done b → (∀ i < b, f b < f i) → (∀ i, done i → f b ≤ f i) →
      IsFirstBest f (todo.foldl (fun best i => if f i < f best then i else best) b) := by
    intro todo
    induction todo with
    | nil =>
        intro done b hall _ _ _ hbefore hbest
        exact ⟨hbefore, fun i => hbest i ((hall i).resolve_right List.not_mem_nil)⟩
    | cons k todo ih =>
        intro done b hall hsorted horder hb hbefore hbest
        have hsorted' := List.pairwise_cons.mp hsorted
        refine ih (fun i => done i ∨ i = k) _ ?_ hsorted'.2 ?_ ?_ ?_ ?_
        · intro i
          rcases hall i with hdone | hmem
          · exact .inl (.inl hdone)
          · rcases List.mem_cons.mp hmem with rfl | hmem
            · exact .inl (.inr rfl)
            · exact .inr hmem
        · rintro i (hdone | rfl) j hj
          · exact horder i hdone j (List.mem_cons_of_mem k hj)
          · exact hsorted'.1 j hj
        · dsimp only
          split
          · exact .inr rfl
          · exact .inl hb
        · intro i hi
          dsimp only at hi ⊢
          split_ifs at hi ⊢ with hless
          · have hdone : done i := by
              rcases hall i with hdone | hmem
              · exact hdone
              · rcases List.mem_cons.mp hmem with rfl | hmem
                · exact absurd hi (lt_irrefl _)
                · exact absurd (hsorted'.1 i hmem) (not_lt_of_gt hi)
            exact lt_of_lt_of_le hless (hbest i hdone)
          · exact hbefore i hi
        · rintro i (hdone | rfl)
          · dsimp only
            split_ifs with hless
            · exact (lt_of_lt_of_le hless (hbest i hdone)).le
            · exact hbest i hdone
          · dsimp only
            split_ifs with hless
            · exact le_refl _
            · exact le_of_not_gt hless
  rw [firstBest, List.finRange_succ, List.foldl_cons, if_neg (lt_irrefl _)]
  refine scan _ (· = 0) 0 ?_ ?_ ?_ rfl (fun i hi => absurd hi (Fin.not_lt_zero i)) ?_
  · intro i
    cases i using Fin.cases with
    | zero => exact .inl rfl
    | succ i => exact .inr (List.mem_map_of_mem (List.mem_finRange i))
  · exact List.Pairwise.map _ (fun _ _ h => Fin.succ_lt_succ_iff.mpr h) (List.pairwise_lt_finRange n)
  · rintro i rfl j hj
    obtain ⟨k, -, rfl⟩ := List.mem_map.mp hj
    exact Fin.succ_pos k
  · rintro i rfl
    exact le_refl _

/-- There is only one. -/
theorem IsFirstBest.unique {f : Fin (n + 1) → α} {a b : Fin (n + 1)} (ha : IsFirstBest f a)
    (hb : IsFirstBest f b) : a = b := by
  rcases lt_trichotomy a b with hlt | heq | hgt
  · exact absurd (hb.before a hlt) (not_lt_of_ge (ha.best b))
  · exact heq
  · exact absurd (ha.before b hgt) (not_lt_of_ge (hb.best a))

end CppHdl
