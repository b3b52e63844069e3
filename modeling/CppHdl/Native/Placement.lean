import CppHdl.Native.Cone
import CppHdl.Native.Scopes

/-!
# Lanes own cones

Whatever lane the costs favour, a lane owns the cone of each root placed on it,
so what it owns is closed under dependencies. Roots whose cones hold a host
call are not placed by cost: they are the caller's, and no other lane owns such
an operation. A lane that is dropped has no load, hence no root.
-/

namespace CppHdl.Native

variable {g : Graph} {order : List Nat}

/-- The roots in `done` were placed. -/
structure Placing (g : Graph) (order : List Nat) (caller : List Nat) (lanes : Nat)
    (roots : List (List Field)) (done : List Nat) (p : Placement) : Prop where
  lane : ∀ root, p.lane root < lanes
  fresh : ∀ root, root ∉ done → p.lane root = 0
  caller : ∀ root ∈ caller, p.lane root = 0
  cone : ∀ root ∈ done, ∀ i ∈ visitCone g order (roots.getD root []), i ∈ p.owned (p.lane root)
  closed : ∀ lane, ∀ i ∈ p.owned lane,
    i ∈ values g order ∧ ∀ d ∈ dependencies g order i, d ∈ p.owned lane
  loaded : ∀ root, p.lane root = 0 ∨ p.load (p.lane root) ≠ 0
  hosts : ∀ lane, lane ≠ 0 → ∀ i ∈ p.owned lane, isHost g i = false

theorem closed_append (hs : Schedules g order) {owned : List Nat} (root : List Field)
    (hclosed : ∀ i ∈ owned, i ∈ values g order ∧ ∀ d ∈ dependencies g order i, d ∈ owned) :
    ∀ i ∈ owned ++ visitCone g order root,
      i ∈ values g order ∧ ∀ d ∈ dependencies g order i, d ∈ owned ++ visitCone g order root := by
  intro i hi
  rcases List.mem_append.mp hi with hi | hi
  · exact ⟨(hclosed i hi).1, fun d hd => List.mem_append_left _ ((hclosed i hi).2 d hd)⟩
  · obtain ⟨hvalue, hdeps⟩ := (hs.cone root).2 i hi
    exact ⟨hvalue, fun d hd => List.mem_append_right _ (hdeps d hd)⟩

theorem Placing.placeCaller {caller : List Nat} {lanes : Nat} {roots : List (List Field)}
    {done : List Nat} {p : Placement} (hs : Schedules g order)
    (h : Placing g order caller lanes roots done p) {r : Nat} (hr : r ∈ caller) :
    Placing g order caller lanes roots (done ++ [r]) (placeCaller g order roots p r) where
  lane := h.lane
  fresh root hroot := h.fresh root fun hmem => hroot (List.mem_append_left _ hmem)
  caller := h.caller
  cone root hroot i hi := by
    show i ∈ Function.update p.owned 0 (p.owned 0 ++ visitCone g order (roots.getD r []))
      (p.lane root)
    rcases List.mem_append.mp hroot with hroot | hroot
    · have hold := h.cone root hroot i hi
      by_cases hzero : p.lane root = 0
      · rw [hzero] at hold ⊢
        rw [Function.update_self]
        exact List.mem_append_left _ hold
      · rwa [Function.update_of_ne hzero]
    · obtain rfl := List.mem_singleton.mp hroot
      rw [h.caller root hr, Function.update_self]
      exact List.mem_append_right _ hi
  closed lane i hi := by
    show _ ∧ ∀ d ∈ dependencies g order i,
      d ∈ Function.update p.owned 0 (p.owned 0 ++ visitCone g order (roots.getD r [])) lane
    change i ∈ Function.update p.owned 0 (p.owned 0 ++ visitCone g order (roots.getD r [])) lane
      at hi
    by_cases hzero : lane = 0
    · subst hzero
      rw [Function.update_self] at hi ⊢
      exact closed_append hs _ (h.closed 0) i hi
    · rw [Function.update_of_ne hzero] at hi ⊢
      exact h.closed lane i hi
  loaded root := by
    refine (h.loaded root).imp id fun hload => ?_
    show Function.update p.load 0 _ (p.lane root) ≠ 0
    by_cases hzero : p.lane root = 0
    · rw [hzero] at hload ⊢
      rw [Function.update_self]
      omega
    · rwa [Function.update_of_ne hzero]
  hosts lane hlane i hi := by
    change i ∈ Function.update p.owned 0 _ lane at hi
    rw [Function.update_of_ne hlane] at hi
    exact h.hosts lane hlane i hi

/-- The best lane is one of the plan's, and gets some load unless it is 0. -/
theorem best_spec (g : Graph) (order : List Nat) (p : Placement) (balanceLanes : Bool) {lanes : Nat} (peak : Nat)
    (root : List Field) (cone : List Nat) {candidates : List Nat} {best : Best} (hcandidates : ∀ lane ∈ candidates, lane < lanes)
    (hbest : best.lane < lanes ∧ (best.lane = 0 ∨ best.added ≠ 0)) :
    let best := candidates.foldl (tryLane g order balanceLanes lanes p root cone peak) best
    best.lane < lanes ∧ (best.lane = 0 ∨ best.added ≠ 0) := by
  induction candidates generalizing best with
  | nil => exact hbest
  | cons lane candidates ih =>
      refine ih (fun l hl => hcandidates l (List.mem_cons_of_mem _ hl)) ?_
      unfold tryLane
      dsimp only
      split_ifs
      · refine ⟨hcandidates lane List.mem_cons_self, .inr ?_⟩
        simp [sinkCost]
      · exact hbest

theorem placeRoot_spec (g : Graph) (order : List Nat) {p : Placement} {lanes : Nat} {r : Nat} (hlane : p.lane r = 0)
    (hpos : 0 < lanes) (hostOverlap balanceLanes : Bool) (roots : List (List Field)) :
    ∃ lane added, lane < lanes ∧ (lane = 0 ∨ added ≠ 0) ∧
      placeRoot g order hostOverlap balanceLanes lanes roots p r =
        { owned := Function.update p.owned lane
            (p.owned lane ++ visitCone g order (roots.getD r []))
          load := Function.update p.load lane (p.load lane + added)
          lane := Function.update p.lane r lane } := by
  have hcandidates : ∀ lane ∈ (List.range lanes).filter (fun lane => !hostOverlap || lane ≠ 0),
      lane < lanes := fun lane hmem => List.mem_range.mp (List.mem_filter.mp hmem).1
  obtain ⟨hlt, hadded⟩ := best_spec g order p balanceLanes
    (((List.range lanes).map p.load).foldl max 0) (roots.getD r [])
    (visitCone g order (roots.getD r [])) hcandidates (show (⟨2 ^ 64 - 1, 0, p.lane r⟩ : Best).lane < lanes ∧ _ from ⟨by rw [hlane]; exact hpos, .inl hlane⟩)
  exact ⟨_, _, hlt, hadded, rfl⟩

theorem Placing.placeRoot {caller : List Nat} {lanes : Nat} {roots : List (List Field)}
    {done : List Nat} {p : Placement} (hs : Schedules g order)
    (h : Placing g order caller lanes roots done p) {r : Nat} (hr : r ∉ done) (hcaller : r ∉ caller)
    (hhost : ∀ i ∈ visitCone g order (roots.getD r []), isHost g i = false)
    (hostOverlap balanceLanes : Bool) :
    Placing g order caller lanes roots (done ++ [r])
      (placeRoot g order hostOverlap balanceLanes lanes roots p r) := by
  obtain ⟨lane, added, hlt, hadded, heq⟩ := placeRoot_spec g order (h.fresh r hr)
    (Nat.zero_lt_of_lt (h.lane r)) hostOverlap balanceLanes roots
  rw [heq]
  have howned : ∀ {l i}, i ∈ p.owned l → i ∈ Function.update p.owned lane
      (p.owned lane ++ visitCone g order (roots.getD r [])) l := by
    intro l i hi
    by_cases hl : l = lane
    · subst hl
      rw [Function.update_self]
      exact List.mem_append_left _ hi
    · rwa [Function.update_of_ne hl]
  refine ⟨fun root => ?_, fun root hroot => ?_, fun root hroot => ?_, fun root hroot i hi => ?_,
    fun l i hi => ?_, fun root => ?_, fun l hl i hi => ?_⟩
  · by_cases hroot : root = r
    · subst hroot
      simpa using hlt
    · simpa [Function.update_of_ne hroot] using h.lane root
  · simp only [List.mem_append, List.mem_singleton, not_or] at hroot
    simpa [Function.update_of_ne hroot.2] using h.fresh root hroot.1
  · have hne : root ≠ r := fun heq => hcaller (heq ▸ hroot)
    simpa [Function.update_of_ne hne] using h.caller root hroot
  · by_cases hne : root = r
    · subst hne
      simp only [Function.update_self]
      exact List.mem_append_right _ hi
    · simp only [Function.update_of_ne hne]
      refine howned (h.cone root ?_ i hi)
      simpa [hne] using hroot
  · by_cases hl : l = lane
    · subst hl
      simp only [Function.update_self] at hi ⊢
      exact closed_append hs _ (h.closed l) i hi
    · simp only [Function.update_of_ne hl] at hi ⊢
      exact h.closed l i hi
  · by_cases hne : root = r
    · subst hne
      simp only [Function.update_self]
      omega
    · simp only [Function.update_of_ne hne]
      refine (h.loaded root).imp id fun hload => ?_
      by_cases hl : p.lane root = lane
      · rw [hl] at hload ⊢
        rw [Function.update_self]
        omega
      · rwa [Function.update_of_ne hl]
  · by_cases heql : l = lane
    · subst heql
      simp only [Function.update_self] at hi
      exact (List.mem_append.mp hi).elim (h.hosts l hl i) (hhost i)
    · simp only [Function.update_of_ne heql] at hi
      exact h.hosts l hl i hi

/-- Cones with a host call are the caller's. -/
theorem host_free {hostOverlap : Bool} {r : Roots} (hs : Schedules g order)
    (hr : Rooted g order r) {root : Nat} (hroot : root < r.roots.length)
    (hcaller : root ∉ callerRoots g order hostOverlap r) :
    ∀ i ∈ visitCone g order (r.roots.getD root []), isHost g i = false := by
  intro i hi
  by_contra hhost
  rw [Bool.not_eq_false] at hhost
  have horder := (mem_values.mp ((hs.cone _).2 i hi).1).1
  obtain ⟨host, hmem, -⟩ := hr.hosts i horder hhost
  refine hcaller (List.mem_filter.mpr ⟨List.mem_range.mpr hroot, ?_⟩)
  have hsome : (!r.hostRoots.isEmpty && (visitCone g order (r.roots.getD root [])).any (isHost g))
      = true := by
    rw [Bool.and_eq_true, List.any_eq_true]
    exact ⟨by simpa using List.ne_nil_of_mem hmem, i, hi, hhost⟩
  rw [hsome]
  simp

theorem Placing.start (caller : List Nat) {lanes : Nat} (hlanes : 0 < lanes)
    (roots : List (List Field)) : Placing g order caller lanes roots [] {} where
  lane _ := hlanes
  fresh _ _ := rfl
  caller _ _ := rfl
  cone _ h := by cases h
  closed _ _ h := by cases h
  loaded _ := .inl rfl
  hosts _ _ _ h := by cases h

theorem placing_callers (hs : Schedules g order) {caller : List Nat} {lanes : Nat}
    (hlanes : 0 < lanes) (roots : List (List Field)) :
    Placing g order caller lanes roots caller (caller.foldl (placeCaller g order roots) {}) := by
  have key : ∀ done, done <+: caller → Placing g order caller lanes roots done
      (done.foldl (placeCaller g order roots) {}) := by
    intro done
    induction done using List.reverseRecOn with
    | nil => exact fun _ => .start caller hlanes roots
    | append_singleton done r ih =>
        intro hpre
        rw [List.foldl_append]
        exact (ih ((List.prefix_append done [r]).trans hpre)).placeCaller hs
          (hpre.subset (by simp))
  exact key caller (List.prefix_refl _)

theorem place_placing (hs : Schedules g order) {r : Roots} (hr : Rooted g order r)
    (hostOverlap balanceLanes : Bool) {lanes : Nat} (hlanes : 0 < lanes) :
    ∃ done, (∀ root, root < r.roots.length → root ∈ done) ∧
      Placing g order (callerRoots g order hostOverlap r) lanes r.roots done
        (place g order hostOverlap balanceLanes lanes r) := by
  set caller := callerRoots g order hostOverlap r with hcaller
  set others := (sortedRoots g order r.roots).filter (· ∉ caller) with hothers
  have hsorted : ∀ root, root ∈ sortedRoots g order r.roots ↔ root < r.roots.length := fun root => by
    unfold sortedRoots
    rw [List.mem_insertionSort, List.mem_range]
  have hnodup : others.Nodup :=
    ((List.perm_insertionSort _ _).nodup_iff.mpr List.nodup_range).filter _
  have key : ∀ done, done <+: others → Placing g order caller lanes r.roots (caller ++ done)
      (done.foldl (placeRoot g order hostOverlap balanceLanes lanes r.roots)
        (caller.foldl (placeCaller g order r.roots) {})) := by
    intro done
    induction done using List.reverseRecOn with
    | nil =>
        intro _
        rw [List.append_nil]
        exact placing_callers hs hlanes r.roots
    | append_singleton done root ih =>
        intro hpre
        have hmem : root ∈ others := hpre.subset (by simp)
        have hnew : root ∉ done := by
          have hd : (done ++ [root]).Nodup := hnodup.sublist hpre.sublist
          intro h
          exact (List.nodup_append.mp hd).2.2 root h root (by simp) rfl
        obtain ⟨hroot, hnotcaller⟩ := List.mem_filter.mp hmem
        have hnotcaller : root ∉ caller := by simpa using hnotcaller
        rw [List.foldl_append, ← List.append_assoc]
        refine (ih ((List.prefix_append done [root]).trans hpre)).placeRoot hs ?_ hnotcaller
          (host_free hs hr ((hsorted root).mp hroot) hnotcaller) hostOverlap balanceLanes
        simp [hnew, hnotcaller]
  refine ⟨caller ++ others, fun root hroot => ?_, key others (List.prefix_refl _)⟩
  by_cases hmem : root ∈ caller
  · exact List.mem_append_left _ hmem
  · exact List.mem_append_right _ (List.mem_filter.mpr ⟨(hsorted root).mpr hroot, by simpa using hmem⟩)

/-! ## Without empty lanes -/

/-- What the clones rely on. -/
structure Placed (g : Graph) (order : List Nat) (r : Roots) (lanes : Nat) (p : Placement) :
    Prop where
  pos : 0 < lanes
  lane : ∀ root, p.lane root < lanes
  cone : ∀ root, root < r.roots.length → ∀ i ∈ visitCone g order (r.roots.getD root []),
    i ∈ p.owned (p.lane root)
  closed : ∀ lane, ∀ i ∈ p.owned lane,
    i ∈ values g order ∧ ∀ d ∈ dependencies g order i, d ∈ p.owned lane
  caller : ∀ root, root < r.roots.length → root ∈ r.hostRoots ∨ root ∈ r.validationRoots →
    p.lane root = 0
  hosts : ∀ lane, 0 < lane → lane < lanes → ∀ i ∈ p.owned lane, isHost g i = false

theorem usedLanes_cons {lanes : Nat} (hlanes : 0 < lanes) (p : Placement) :
    ∃ rest, usedLanes lanes p = 0 :: rest := by
  obtain ⟨n, rfl⟩ := Nat.exists_eq_succ_of_ne_zero hlanes.ne'
  unfold usedLanes
  rw [List.range_succ_eq_map, List.filter_cons_of_pos (by simp)]
  exact ⟨_, rfl⟩

theorem Placing.compact {hostOverlap : Bool} {r : Roots} {lanes : Nat} {done : List Nat}
    {p : Placement} (h : Placing g order (callerRoots g order hostOverlap r) lanes r.roots done p)
    (hdone : ∀ root, root < r.roots.length → root ∈ done) (hlanes : 0 < lanes) :
    Placed g order r (usedLanes lanes p).length (p.compact lanes) := by
  obtain ⟨rest, hrest⟩ := usedLanes_cons hlanes p
  have hused : ∀ root, p.lane root ∈ usedLanes lanes p := fun root =>
    List.mem_filter.mpr ⟨List.mem_range.mpr (h.lane root), by simpa using h.loaded root⟩
  have hlane : ∀ root, (p.compact lanes).lane root = (usedLanes lanes p).idxOf (p.lane root) :=
    fun root => if_pos (hused root)
  have hback : ∀ root, (usedLanes lanes p).getD ((p.compact lanes).lane root) 0 = p.lane root := by
    intro root
    rw [hlane, List.getD_eq_getElem?_getD, List.getElem?_idxOf (hused root)]
    rfl
  have hnodup : (0 :: rest).Nodup := hrest ▸ List.nodup_range.filter _
  refine ⟨by simp [hrest], fun root => ?_, fun root hroot i hi => ?_,
    fun lane i hi => h.closed _ i hi, fun root hroot hcaller => ?_, fun lane hpos hlt i hi => ?_⟩
  · rw [hlane]
    exact List.idxOf_lt_length_of_mem (hused root)
  · show i ∈ p.owned ((usedLanes lanes p).getD ((p.compact lanes).lane root) 0)
    rw [hback]
    exact h.cone root (hdone root hroot) i hi
  · have hmem : root ∈ callerRoots g order hostOverlap r := by
      refine List.mem_filter.mpr ⟨List.mem_range.mpr hroot, ?_⟩
      rcases hcaller with hcaller | hcaller <;> simp [hcaller]
    rw [hlane, h.caller root hmem, hrest]
    exact List.idxOf_cons_self
  · refine h.hosts _ ?_ i hi
    rw [hrest] at hlt ⊢
    obtain ⟨k, rfl⟩ := Nat.exists_eq_succ_of_ne_zero hpos.ne'
    rw [List.getD_cons_succ]
    have hk : k < rest.length := by simpa using hlt
    rw [List.getD_eq_getElem _ _ hk]
    exact fun heq => (List.nodup_cons.mp hnodup).1 (heq ▸ List.getElem_mem hk)

end CppHdl.Native
