import Mathlib.Data.List.Basic
import Mathlib.Tactic.Common

/-!
# Runs of cells

A row of cells, each taken or free. `findRun` scans the row from the left and
stops behind the first run of free cells of a given length; `fillRun` takes or
frees the cells of a run. `findRun_eq_none` says that the scan misses no run,
and `Marks` that the taken cells are the union of given intervals.
-/

namespace CppHdl

/-- Scan the cells from index `i` on, with `run` free cells right before them,
for the first run of `needed` free cells; its first index. -/
def findRun (needed : Nat) : List Bool → (i run : Nat) → Option Nat
  | [], _, _ => none
  | taken :: rest, i, run =>
      let run := if taken then 0 else run + 1
      if run = needed then some (i + 1 - needed) else findRun needed rest (i + 1) run

/-- Write `value` into `count` cells from `first` on. -/
def fillRun (cells : List Bool) (first count : Nat) (value : Bool) : List Bool :=
  (List.range count).foldl (fun cells j => cells.set (first + j) value) cells

/-- Cells `first` up to `first + count` lie in the row and are free. -/
def FreeRun (cells : List Bool) (first count : Nat) : Prop :=
  first + count ≤ cells.length ∧ ∀ j < count, cells[first + j]? = some false

/-! ## Finding -/

/-- What the scan knows at index `i`: the last `run` cells are free, the cell
before them is not, and no run of `needed` free cells ended so far. -/
structure Scanned (needed : Nat) (cells : List Bool) (i run : Nat) : Prop where
  run_le : run ≤ i
  run_lt : run < needed
  free : ∀ j < run, cells[i - run + j]? = some false
  blocked : run < i → cells[i - run - 1]? = some true
  missed : ∀ first, first + needed ≤ i → ¬ FreeRun cells first needed

theorem Scanned.start {needed : Nat} (h : 0 < needed) (cells : List Bool) :
    Scanned needed cells 0 0 where
  run_le := Nat.le_refl 0
  run_lt := h
  free j hj := absurd hj (Nat.not_lt_zero j)
  blocked hi := absurd hi (Nat.lt_irrefl 0)
  missed first hfirst := by omega

theorem Scanned.taken {needed : Nat} {cells : List Bool} {i run : Nat}
    (h : Scanned needed cells i run) (hi : cells[i]? = some true) :
    Scanned needed cells (i + 1) 0 where
  run_le := Nat.zero_le _
  run_lt := by have := h.run_lt; omega
  free j hj := absurd hj (Nat.not_lt_zero j)
  blocked _ := by rwa [Nat.sub_zero, Nat.add_sub_cancel]
  missed first hfirst hrun := by
    by_cases hle : first + needed ≤ i
    · exact h.missed first hle hrun
    · -- a run that ends here would contain the taken cell
      have hneeded := h.run_lt
      have := hrun.2 (i - first) (by omega)
      rw [Nat.add_sub_cancel' (by omega), hi] at this
      cases this

theorem Scanned.untaken {needed : Nat} {cells : List Bool} {i run : Nat}
    (h : Scanned needed cells i run) (hi : cells[i]? = some false) (hrun : run + 1 ≠ needed) :
    Scanned needed cells (i + 1) (run + 1) where
  run_le := Nat.succ_le_succ h.run_le
  run_lt := by have := h.run_lt; omega
  free j hj := by
    have hle := h.run_le
    rw [show i + 1 - (run + 1) + j = i - run + j by omega]
    by_cases hlast : j < run
    · exact h.free j hlast
    · rwa [show i - run + j = i by omega]
  blocked hlt := by
    rw [show i + 1 - (run + 1) - 1 = i - run - 1 by omega]
    exact h.blocked (by omega)
  missed first hfirst hfree := by
    by_cases hle : first + needed ≤ i
    · exact h.missed first hle hfree
    · -- it would reach back to the taken cell before the current run
      have hlt := h.run_lt
      have := hfree.2 (i - run - 1 - first) (by omega)
      rw [show first + (i - run - 1 - first) = i - run - 1 by omega, h.blocked (by omega)] at this
      cases this

theorem findRun_spec {needed : Nat} {cells done rest : List Bool} {run : Nat}
    (hcells : cells = done ++ rest) (h : Scanned needed cells done.length run) :
    match findRun needed rest done.length run with
    | some first => FreeRun cells first needed
    | none => ∀ first, ¬ FreeRun cells first needed := by
  induction rest generalizing done run with
  | nil =>
      intro first hrun
      rw [List.append_nil] at hcells
      exact h.missed first (by rw [← hcells]; exact hrun.1) hrun
  | cons taken rest ih =>
      have hget : cells[done.length]? = some taken := by simp [hcells]
      have hnext : cells = (done ++ [taken]) ++ rest := by simp [hcells]
      have hlen : (done ++ [taken]).length = done.length + 1 := by simp
      cases taken with
      | true =>
          have hne : ¬ 0 = needed := by have := h.run_lt; omega
          have := ih hnext (hlen ▸ h.taken hget)
          rw [hlen] at this
          simpa only [findRun, if_true, hne, if_false] using this
      | false =>
          by_cases heq : run + 1 = needed
          · have hrun := h.run_le
            simp only [findRun, Bool.false_eq_true, if_false, heq, if_true]
            refine ⟨?_, fun j hj => ?_⟩
            · rw [hcells]
              simp only [List.length_append, List.length_cons]
              omega
            · by_cases hlast : j < run
              · rw [show done.length + 1 - needed + j = done.length - run + j by omega]
                exact h.free j hlast
              · rw [show done.length + 1 - needed + j = done.length by omega]
                exact hget
          · have := ih hnext (hlen ▸ h.untaken hget heq)
            rw [hlen] at this
            simpa only [findRun, Bool.false_eq_true, if_false, heq] using this

theorem findRun_eq_some {needed first : Nat} {cells : List Bool} (hneeded : 0 < needed)
    (h : findRun needed cells 0 0 = some first) : FreeRun cells first needed := by
  have : match findRun needed cells 0 0 with
      | some first => FreeRun cells first needed
      | none => ∀ first, ¬ FreeRun cells first needed :=
    findRun_spec (List.nil_append cells).symm (Scanned.start hneeded cells)
  rw [h] at this
  exact this

/-- The scan finds nothing exactly when there is nothing to find. -/
theorem findRun_eq_none {needed : Nat} {cells : List Bool} (hneeded : 0 < needed) :
    findRun needed cells 0 0 = none ↔ ∀ first, ¬ FreeRun cells first needed := by
  have hspec : match findRun needed cells 0 0 with
      | some first => FreeRun cells first needed
      | none => ∀ first, ¬ FreeRun cells first needed :=
    findRun_spec (List.nil_append cells).symm (Scanned.start hneeded cells)
  constructor
  · intro h
    rwa [h] at hspec
  · intro h
    cases hfind : findRun needed cells 0 0 with
    | none => rfl
    | some first => exact absurd (findRun_eq_some hneeded hfind) (h first)

/-! ## Filling -/

@[simp] theorem length_fillRun (cells : List Bool) (first count : Nat) (value : Bool) :
    (fillRun cells first count value).length = cells.length := by
  unfold fillRun
  induction count with
  | zero => rfl
  | succ count ih => rw [List.range_succ, List.foldl_append]; simpa using ih

theorem fillRun_succ (cells : List Bool) (first count : Nat) (value : Bool) :
    fillRun cells first (count + 1) value =
      (fillRun cells first count value).set (first + count) value := by
  unfold fillRun
  rw [List.range_succ, List.foldl_append]
  rfl

theorem getElem?_fillRun {cells : List Bool} {first count : Nat} (value : Bool) {i : Nat}
    (hi : i < cells.length) : (fillRun cells first count value)[i]? =
      if first ≤ i ∧ i < first + count then some value else cells[i]? := by
  induction count with
  | zero =>
      rw [if_neg (by omega)]
      rfl
  | succ count ih =>
      rw [fillRun_succ, List.getElem?_set, length_fillRun, ih]
      by_cases hlast : first + count = i
      · rw [if_pos hlast, if_pos (by omega), if_pos (by omega)]
      · rw [if_neg hlast]
        by_cases hin : first ≤ i ∧ i < first + count
        · rw [if_pos hin, if_pos (by omega)]
        · rw [if_neg hin, if_neg (by omega)]

/-! ## Cells as a union of intervals -/

/-- Index `i` lies in the interval of a first index and a length. -/
def InRun (run : Nat × Nat) (i : Nat) : Prop := run.1 ≤ i ∧ i < run.1 + run.2

/-- Two intervals have no index in common. -/
def Apart (a b : Nat × Nat) : Prop := ∀ i, InRun a i → ¬ InRun b i

theorem Apart.symm {a b : Nat × Nat} (h : Apart a b) : Apart b a := fun i hb ha => h i ha hb

/-- The taken cells are the union of the intervals. -/
def Marks (cells : List Bool) (runs : List (Nat × Nat)) : Prop :=
  ∀ i < cells.length, cells[i]? = some true ↔ ∃ r ∈ runs, InRun r i

theorem Marks.apart {cells : List Bool} {runs : List (Nat × Nat)} (h : Marks cells runs)
    {first count : Nat} (hfree : FreeRun cells first count) :
    ∀ r ∈ runs, Apart (first, count) r := by
  rintro r hr i ⟨hle, hlt⟩ hin
  have hi : i < cells.length := Nat.lt_of_lt_of_le hlt hfree.1
  have htrue := (h i hi).mpr ⟨r, hr, hin⟩
  have hfalse := hfree.2 (i - first) (by change i < first + count at hlt; omega)
  rw [Nat.add_sub_cancel' hle, htrue] at hfalse
  cases hfalse

theorem Marks.take {cells : List Bool} {runs : List (Nat × Nat)} (h : Marks cells runs)
    (first count : Nat) : Marks (fillRun cells first count true) ((first, count) :: runs) := by
  intro i hi
  rw [length_fillRun] at hi
  rw [getElem?_fillRun true hi]
  simp only [List.mem_cons, exists_eq_or_imp]
  split_ifs with hin
  · exact ⟨fun _ => .inl hin, fun _ => rfl⟩
  · rw [h i hi]
    exact ⟨.inr, fun hor => hor.resolve_left hin⟩

/-- Freeing one of several disjoint intervals leaves the others. -/
theorem Marks.free {cells : List Bool} {runs : List (Nat × Nat)} (h : Marks cells runs)
    {r : Nat × Nat} (hr : r ∈ runs) (hpair : runs.Pairwise Apart) :
    Marks (fillRun cells r.1 r.2 false) (runs.erase r) := by
  intro i hi
  rw [length_fillRun] at hi
  rw [getElem?_fillRun false hi]
  have hperm := List.perm_cons_erase hr
  have hapart : ∀ s ∈ runs.erase r, Apart r s := fun s hs =>
    List.rel_of_pairwise_cons (hperm.pairwise hpair Apart.symm) hs
  split_ifs with hin
  · constructor
    · intro heq
      cases heq
    · rintro ⟨s, hs, hsi⟩
      exact absurd hsi (hapart s hs i hin)
  · rw [h i hi]
    constructor
    · rintro ⟨s, hs, hsi⟩
      rcases List.mem_cons.mp (hperm.mem_iff.mp hs) with rfl | hs
      · exact absurd hsi hin
      · exact ⟨s, hs, hsi⟩
    · rintro ⟨s, hs, hsi⟩
      exact ⟨s, List.mem_of_mem_erase hs, hsi⟩

end CppHdl
