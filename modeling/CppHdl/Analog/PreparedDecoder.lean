import CppHdl.Analog.CircularCosts
import Mathlib.Tactic.FinCases

/-!
# The prepared decoder

`PCSTrellisMetricRegister` delays the branch metrics by one symbol and computes their
directed differences. With these the comparison of two candidates has one summand less; the
decoder is the same in every register.
-/

namespace CppHdl.Analog

/-- The loops of the register over the subsets of one parity. -/
def directedDifferences (metricIn : Fin 8 → BitVec 18) (differences : Nat → BitVec 21) :
    Nat → BitVec 21 :=
  (List.finRange 2).foldl (fun differences parity =>
    (List.finRange 4).foldl (fun differences source =>
      (List.finRange 4).foldl (fun differences target =>
        if source ≠ target then
          let s : Fin 8 := ⟨2 * source.val + parity.val, by omega⟩
          let t : Fin 8 := ⟨2 * target.val + parity.val, by omega⟩
          let index := parity.val * 12 + source.val * 3 + target.val - if source < target then 1 else 0
          let difference := (metricIn s).setWidth 32 - (metricIn t).setWidth 32 &&& (2097151 : BitVec 32)
          Function.update differences index (difference.setWidth 21)
        else differences) differences) differences) differences

structure MetricRegister where
  metrics : Fin 8 → BitVec 18
  differences : Nat → BitVec 21

namespace MetricRegister

variable (r : MetricRegister) (reset symbolEnableIn : Bool) (metricIn : Fin 8 → BitVec 18)

/-- `PCSTrellisMetricRegister::_work`. -/
def work : MetricRegister :=
  if reset then { metrics := fun _ => 0, differences := fun _ => 0 }
  else if symbolEnableIn then
    { metrics := metricIn, differences := directedDifferences metricIn r.differences }
  else r

end MetricRegister

/-- The difference inputs are those that the register computes from the metrics. -/
def DecoderInputs.Prepared (i : DecoderInputs) : Prop :=
  ∀ index < 24, i.differenceIn index = directedDifferences i.metricIn (fun _ => 0) index

theorem directedDifferences_index (metricIn : Fin 8 → BitVec 18) (differences : Nat → BitVec 21)
    {s t : Fin 8} (hparity : s.val % 2 = t.val % 2) (hne : s ≠ t) :
    directedDifferences metricIn differences (Circular.differenceIndex s t) =
      Circular.cut ((metricIn s).setWidth 32) - Circular.cut ((metricIn t).setWidth 32) := by
  have hplace : directedDifferences metricIn differences (Circular.differenceIndex s t) =
      Circular.cut ((metricIn s).setWidth 32 - (metricIn t).setWidth 32 &&& 2097151) := by
    fin_cases s <;> fin_cases t <;>
      first | rfl | exact absurd rfl hne | exact absurd hparity (by decide)
  rw [hplace, Circular.cut_mask, Circular.cut_sub]

theorem Circular.differenceIndex_lt {s t : Fin 8} (hparity : s.val % 2 = t.val % 2) (hne : s ≠ t) :
    differenceIndex s t < 24 := by
  revert s t
  decide

theorem Circular.exists_differenceIndex : ∀ index < 24, ∃ s t : Fin 8,
    s.val % 2 = t.val % 2 ∧ s ≠ t ∧ differenceIndex s t = index := by decide

theorem directedDifferences_old (metricIn : Fin 8 → BitVec 18) (old old' : Nat → BitVec 21)
    {index : Nat} (h : index < 24) :
    directedDifferences metricIn old index = directedDifferences metricIn old' index := by
  obtain ⟨s, t, hparity, hne, rfl⟩ := Circular.exists_differenceIndex index h
  rw [directedDifferences_index _ _ hparity hne, directedDifferences_index _ _ hparity hne]

namespace MetricRegister

def drive (r : MetricRegister) (i : DecoderInputs) : DecoderInputs :=
  { i with metricIn := r.metrics, differenceIn := r.differences }

end MetricRegister

/-- The difference of two metrics as the decoder reads it. -/
theorem DecoderInputs.Prepared.difference {i : DecoderInputs} (h : i.Prepared) {s t : Fin 8}
    (hparity : s.val % 2 = t.val % 2) (hne : s ≠ t) :
    i.differenceIn (Circular.differenceIndex s t) =
      Circular.cut ((i.metricIn s).setWidth 32) - Circular.cut ((i.metricIn t).setWidth 32) := by
  rw [h _ (Circular.differenceIndex_lt hparity hne), directedDifferences_index _ _ hparity hne]

/-- Different branches into a state have different subsets of one parity. -/
theorem branchSubset_ne : ∀ (destination : Fin 8) {j k : Fin 4}, j ≠ k →
    branchSubset destination j ≠ branchSubset destination k := by decide

theorem branchSubset_parity : ∀ (destination : Fin 8) (j k : Fin 4),
    (branchSubset destination j).val % 2 = (branchSubset destination k).val % 2 := by decide

namespace Circular

variable {i : DecoderInputs}

theorem win_prepared (h : i.Prepared) (paths : Fin 8 → Path) (destination : Fin 8) {j k : Fin 4}
    (hne : k ≠ j) : win true i paths destination j k = win false i paths destination j k :=
  branchBetter_true _ _ _ _ _ _ _ _ _
    (h.difference (branchSubset_parity destination k j) (branchSubset_ne destination hne))

/-- The choice reads the comparisons of different branches in one direction. -/
theorem choose_congr {w w' : Fin 4 → Fin 4 → Bool} (h : ∀ j k, j < k → w j k = w' j k) :
    choose w = choose w' := by
  have h01 := h 0 1 (by decide)
  have h02 := h 0 2 (by decide)
  have h03 := h 0 3 (by decide)
  have h12 := h 1 2 (by decide)
  have h13 := h 1 3 (by decide)
  have h23 := h 2 3 (by decide)
  funext k
  unfold choose
  rw [h01, h02, h03, h12, h13, h23]

theorem choose_prepared (h : i.Prepared) (paths : Fin 8 → Path) (destination : Fin 8) :
    choose (win true i paths destination) = choose (win false i paths destination) :=
  choose_congr fun _ _ hlt => win_prepared h paths destination hlt.ne'

theorem select_prepared (h : i.Prepared) (paths : Fin 8 → Path) :
    select true i paths = select false i paths := by
  unfold select
  simp only [choose_prepared h]

end Circular

namespace TrellisDecoder

/-- A clock reads a trellis at its own inputs and paths only. -/
theorem work_congr {π : Type} {T T' : Trellis π} {s : TrellisDecoder π} {i : DecoderInputs}
    (hstart : T.start = T'.start) (hbest : T.best = T'.best)
    (hselect : T.select i s.paths = T'.select i s.paths) : s.work T i = s.work T' i := by
  unfold work nextPaths choices
  rw [hstart, hbest, hselect]

theorem work_prepared (s : TrellisDecoder Path) {i : DecoderInputs} (h : i.Prepared) :
    s.work (Circular.trellis true) i = s.work (Circular.trellis false) i :=
  work_congr rfl rfl (Circular.select_prepared h s.paths)

/-- The decoder with prepared differences has the registers of the decoder without. -/
theorem prepared_run (unreachable : Path) (inputs : List DecoderInputs)
    (h : ∀ i ∈ inputs, i.Prepared) :
    run (Circular.trellis true) unreachable inputs = run (Circular.trellis false) unreachable inputs :=
  List.foldl_ext _ _ _ fun s i hi => work_prepared s (h i hi)

/-- A symbol with metrics and their differences, after a reset. -/
theorem prepared_run_symbol :
    let clear : DecoderInputs := ⟨true, true, fun _ => 0, fun _ => 0, fun _ => 0, false, false, false⟩
    let metrics : Fin 8 → BitVec 18 := fun s => BitVec.ofNat 18 (1000 * s.val)
    let symbol : DecoderInputs := { clear with
      reset := false
      advanceIn := true
      metricIn := metrics
      differenceIn := directedDifferences metrics fun _ => 0 }
    run (Circular.trellis true) ⟨0, false⟩ [clear, symbol] =
      run (Circular.trellis false) ⟨0, false⟩ [clear, symbol] := by
  intro clear metrics symbol
  refine prepared_run _ _ fun i hi => ?_
  rcases List.mem_pair.mp hi with rfl | rfl
  · exact fun index hindex => (by decide : ∀ index < 24,
      (0 : BitVec 21) = directedDifferences (fun _ => 0) (fun _ => 0) index) index hindex
  · exact fun _ _ => rfl

end TrellisDecoder

end CppHdl.Analog
