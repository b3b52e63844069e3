import CppHdl.Analog.PreparedDecoder
import CppHdl.Lib.FirstBest
import Mathlib.Algebra.Order.Monoid.WithTop

/-!
# The circular costs are exact

A Viterbi decoder without bounds on its costs keeps, for every state, the least cost of a
path to it, infinite where there is none, and takes the first of several least ones. Paths to
states of one parity differ by at most one branch metric and any two paths by two, so that
candidates lie within half the circle: the circular comparisons make the same choices.
-/

namespace CppHdl.Analog

abbrev maxMetric : Nat := 2 ^ 18 - 1

namespace Absolute

/-- The cost of the path to a state over one of its predecessors. -/
def candidate (i : DecoderInputs) (costs : Fin 8 → WithTop Nat) (destination : Fin 8)
    (choice : Fin 4) : WithTop Nat :=
  costs (predecessor destination choice) +
    ((i.metricIn (branchSubset destination choice)).toNat : WithTop Nat)

/-- The recurrence with costs that are not bounded. -/
def trellis : Trellis (WithTop Nat) where
  start s := if s = 0 then 0 else ⊤
  select i costs :=
    let winner := fun destination => firstBest (candidate i costs destination)
    { path := fun destination => candidate i costs destination (winner destination)
      winner := winner
      winningByte := fun destination => candidateByte i destination (winner destination) }
  best := firstBest

structure Spread (costs : Fin 8 → WithTop Nat) : Prop where
  parity : ∀ s t : Fin 8, s.val % 2 = t.val % 2 → costs s ≠ ⊤ → costs s ≤ costs t + (maxMetric : Nat)
  spread : ∀ s t : Fin 8, costs s ≠ ⊤ → costs s ≤ costs t + (2 * maxMetric : Nat)
  reached : (∀ s, costs s ≠ ⊤ → s = 0) ∨
    ∀ s t : Fin 8, s.val % 2 = t.val % 2 → costs s ≠ ⊤ → costs t ≠ ⊤

section

variable (i : DecoderInputs) (costs : Fin 8 → WithTop Nat) (destination : Fin 8)

theorem toNat_metric_le (x : BitVec 18) : x.toNat ≤ maxMetric := by
  have := x.isLt
  unfold maxMetric
  omega

/-- A state is reached from each of its predecessors for at most one branch metric. -/
theorem path_le {p : Fin 8} (hp : p.val / 4 = destination.val % 2) :
    (trellis.select i costs).path destination ≤ costs p + (maxMetric : Nat) := by
  have hchoice : predecessor destination ⟨p.val % 4, by omega⟩ = p := by
    apply Fin.ext
    change destination.val % 2 * 4 + p.val % 4 = p.val
    omega
  refine le_trans ((isFirstBest_firstBest (candidate i costs destination)).best ⟨p.val % 4, by omega⟩) ?_
  rw [candidate, hchoice]
  exact add_le_add_right (WithTop.coe_le_coe.mpr (toNat_metric_le _)) _

theorem exists_le_path : ∃ p : Fin 8, p.val / 4 = destination.val % 2 ∧
    costs p ≤ (trellis.select i costs).path destination := by
  refine ⟨predecessor destination (firstBest (candidate i costs destination)), ?_, le_self_add⟩
  change (destination.val % 2 * 4 + (firstBest (candidate i costs destination)).val) / 4 = _
  omega

end

theorem Spread.start : Spread trellis.start := by
  have hzero : ∀ s, trellis.start s ≠ ⊤ → s = 0 := fun s hs => by
    by_contra hne
    exact hs (if_neg hne)
  have hfree : trellis.start 0 = 0 := rfl
  refine ⟨fun s t _ hs => ?_, fun s t hs => ?_, .inl hzero⟩
  · rw [hzero s hs, hfree]
    exact zero_le
  · rw [hzero s hs, hfree]
    exact zero_le

theorem Spread.unreachable : Spread fun _ => ⊤ :=
  ⟨fun _ _ _ hs => absurd rfl hs, fun _ _ hs => absurd rfl hs, .inl fun _ hs => absurd rfl hs⟩

theorem ne_top_of_le_add {x y : WithTop Nat} {m : Nat} (h : x ≤ y + (m : Nat)) (hy : y ≠ ⊤) :
    x ≠ ⊤ :=
  ne_top_of_le_ne_top (WithTop.add_ne_top.mpr ⟨hy, WithTop.coe_ne_top⟩) h

/-- A predecessor of either half is at most one metric away, if both halves are reached. -/
theorem Spread.other_half {costs : Fin 8 → WithTop Nat} (h : Spread costs) {p q : Fin 8}
    (hp : costs p ≠ ⊤) (hq : costs q ≠ ⊤) (hhalf : p.val / 4 ≠ q.val / 4) :
    ∃ r : Fin 8, r.val / 4 = q.val / 4 ∧ costs r ≤ costs p + (maxMetric : Nat) := by
  rcases h.reached with honly | hclosed
  · rw [honly p hp, honly q hq] at hhalf
    exact absurd rfl hhalf
  · have hparity : ((p.val + 4) % 8) % 2 = p.val % 2 := by omega
    refine ⟨⟨(p.val + 4) % 8, by omega⟩, ?_, ?_⟩
    · change (p.val + 4) % 8 / 4 = _
      omega
    · exact h.parity _ p hparity (hclosed p _ hparity.symm hp)

theorem Spread.select {costs : Fin 8 → WithTop Nat} (h : Spread costs) (i : DecoderInputs) :
    Spread (trellis.select i costs).path where
  parity s t hparity _ := by
    obtain ⟨p, hp, hle⟩ := exists_le_path i costs t
    exact le_trans (path_le i costs s (hp.trans hparity.symm)) (add_le_add_left hle _)
  spread s t hs := by
    by_cases ht : (trellis.select i costs).path t = ⊤
    · rw [ht, WithTop.top_add]
      exact le_top
    obtain ⟨p, hp, hlep⟩ := exists_le_path i costs t
    obtain ⟨q, hq, hleq⟩ := exists_le_path i costs s
    have hstep : ∃ r : Fin 8, r.val / 4 = s.val % 2 ∧ costs r ≤ costs p + (maxMetric : Nat) := by
      by_cases hhalf : p.val / 4 = q.val / 4
      · exact ⟨p, hhalf.trans hq, le_self_add⟩
      · obtain ⟨r, hr, hle⟩ := h.other_half (ne_top_of_le_ne_top ht hlep)
          (ne_top_of_le_ne_top hs hleq) hhalf
        exact ⟨r, hr.trans hq, hle⟩
    obtain ⟨r, hr, hle⟩ := hstep
    calc (trellis.select i costs).path s ≤ costs r + (maxMetric : Nat) := path_le i costs s hr
      _ ≤ costs p + (maxMetric : Nat) + (maxMetric : Nat) := add_le_add_left hle _
      _ ≤ (trellis.select i costs).path t + (maxMetric : Nat) + (maxMetric : Nat) :=
          add_le_add_left (add_le_add_left hlep _) _
      _ = (trellis.select i costs).path t + (2 * maxMetric : Nat) := by
          rw [add_assoc, Nat.two_mul, Nat.cast_add]
  reached := .inr fun s t hparity hs => by
    obtain ⟨p, hp, hle⟩ := exists_le_path i costs s
    exact ne_top_of_le_add (path_le i costs t (hp.trans hparity)) (ne_top_of_le_ne_top hs hle)

end Absolute

/-! ## The circular decoder follows -/

/-- A circular path for a cost without bound. -/
structure Tracks (p : Path) (cost : WithTop Nat) : Prop where
  reachable : p.reachable = true ↔ cost ≠ ⊤
  cost : ∀ n : Nat, cost = n → p.cost = BitVec.ofNat 21 n

/-- Candidates within the spread are in the circular order. -/
theorem Tracks.before {p q : Path} {x y : WithTop Nat} (hp : Tracks p x) (hq : Tracks q y)
    (hxy : x ≠ ⊤ → x ≤ y + (2 * maxMetric : Nat)) (hyx : y ≠ ⊤ → y ≤ x + (2 * maxMetric : Nat))
    {m n : Nat} (hm : m ≤ maxMetric) (hn : n ≤ maxMetric) :
    (p.reachable && (!q.reachable ||
      (p.cost + BitVec.ofNat 21 m - (q.cost + BitVec.ofNat 21 n)).msb)) =
      decide (x + (m : Nat) < y + (n : Nat)) := by
  cases x with
  | top =>
      have hnot : p.reachable = false := by
        by_contra h
        exact (hp.reachable.mp (by simpa using h)) rfl
      simp [hnot]
  | coe x =>
      have hfinite : p.reachable = true := hp.reachable.mpr WithTop.coe_ne_top
      cases y with
      | top =>
          have hnot : q.reachable = false := by
            by_contra h
            exact (hq.reachable.mp (by simpa using h)) rfl
          simp [hfinite, hnot]
      | coe y =>
          have hfinite' : q.reachable = true := hq.reachable.mpr WithTop.coe_ne_top
          have hx : x ≤ y + 2 * maxMetric := WithTop.coe_le_coe.mp (hxy WithTop.coe_ne_top)
          have hy : y ≤ x + 2 * maxMetric := WithTop.coe_le_coe.mp (hyx WithTop.coe_ne_top)
          have hless : ((x : WithTop Nat) + (m : Nat) < y + (n : Nat)) = (x + m < y + n) :=
            propext (WithTop.coe_lt_coe (a := y + n) (b := x + m))
          unfold maxMetric at hx hy hm hn
          rw [hfinite, hfinite', hp.cost x rfl, hq.cost y rfl, ← BitVec.ofNat_add, ← BitVec.ofNat_add,
            CppHdl.Circular.msb_sub (w := 20) (by omega) (by omega)]
          change decide (x + m < y + n) = _
          exact (decide_eq_decide.mpr (iff_of_eq hless)).symm

namespace Circular

/-! ### Choosing one of four -/

section

variable {α : Type} [LinearOrder α] {f : Fin 4 → α} {b : Fin 4} {w : Fin 4 → Fin 4 → Bool}

/-- The six comparisons find the first of the least. -/
theorem choose_eq (hb : IsFirstBest f b) (hw : ∀ j k, j < k → w j k = decide (f k < f j)) :
    choose w = fun k => decide (k = b) := by
  have hwon : ∀ j, j < b → w j b = true := fun j hj => by
    rw [hw j b hj]
    exact decide_eq_true (hb.before j hj)
  have hlost : ∀ j, b < j → w b j = false := fun j hj => by
    rw [hw b j hj]
    exact decide_eq_false (not_lt_of_ge (hb.best j))
  have hfour : ∀ k : Fin 4, k = 0 ∨ k = 1 ∨ k = 2 ∨ k = 3 := by decide
  -- the three comparisons with `b` decide all four choices
  funext k
  rcases hfour b with rfl | rfl | rfl | rfl
  · have h1 := hlost 1 (by decide)
    have h2 := hlost 2 (by decide)
    have h3 := hlost 3 (by decide)
    rcases hfour k with rfl | rfl | rfl | rfl <;> simp [choose, h1, h2, h3]
  · have h0 := hwon 0 (by decide)
    have h2 := hlost 2 (by decide)
    have h3 := hlost 3 (by decide)
    rcases hfour k with rfl | rfl | rfl | rfl <;> simp [choose, h0, h2, h3]
  · have h0 := hwon 0 (by decide)
    have h1 := hwon 1 (by decide)
    have h3 := hlost 3 (by decide)
    rcases hfour k with rfl | rfl | rfl | rfl <;> simp [choose, h0, h1, h3]
  · have h0 := hwon 0 (by decide)
    have h1 := hwon 1 (by decide)
    have h2 := hwon 2 (by decide)
    rcases hfour k with rfl | rfl | rfl | rfl <;> simp [choose, h0, h1, h2]

theorem winner_eq (b : Fin 4) : winner (fun k => decide (k = b)) = b := by
  revert b
  decide

theorem oneHot_eq {n : Nat} (b : Fin 4) (x : Fin 4 → BitVec n) :
    oneHot (fun k => decide (k = b)) x = x b := by
  have hkeep : ∀ y : BitVec n, y &&& -1#n = y := by
    intro y
    rw [BitVec.neg_one_eq_allOnes, BitVec.and_allOnes]
  fin_cases b <;> simp [oneHot, hkeep]

end

/-! ### A step -/

section

variable {paths : Fin 8 → Path} {costs : Fin 8 → WithTop Nat}

/-- The comparison of two candidates is that of their costs without bound. -/
theorem win_eq (h : ∀ s, Tracks (paths s) (costs s)) (hspread : Absolute.Spread costs)
    (i : DecoderInputs) (destination : Fin 8) (j k : Fin 4) : win false i paths destination j k =
      decide (Absolute.candidate i costs destination k < Absolute.candidate i costs destination j) := by
  unfold win
  rw [branchBetter_false, cut_setWidth, cut_setWidth, cut_setWidth, cut_setWidth, BitVec.setWidth_eq,
    BitVec.setWidth_eq]
  have hbefore := (h (predecessor destination k)).before (h (predecessor destination j))
    (hspread.spread _ _) (hspread.spread _ _)
    (Absolute.toNat_metric_le (i.metricIn (branchSubset destination k)))
    (Absolute.toNat_metric_le (i.metricIn (branchSubset destination j)))
  rw [BitVec.ofNat_toNat, BitVec.ofNat_toNat] at hbefore
  exact hbefore

/-- The step makes the choices of the decoder without bounds. -/
theorem choose_win (h : ∀ s, Tracks (paths s) (costs s)) (hspread : Absolute.Spread costs)
    (i : DecoderInputs) (destination : Fin 8) : choose (win false i paths destination) =
      fun k => decide (k = (Absolute.trellis.select i costs).winner destination) :=
  choose_eq (isFirstBest_firstBest _) fun j k _ => win_eq h hspread i destination j k

theorem select_winner (h : ∀ s, Tracks (paths s) (costs s)) (hspread : Absolute.Spread costs)
    (i : DecoderInputs) :
    (select false i paths).winner = (Absolute.trellis.select i costs).winner := by
  funext destination
  change winner (choose (win false i paths destination)) = _
  rw [choose_win h hspread, winner_eq]

theorem select_winningByte (h : ∀ s, Tracks (paths s) (costs s)) (hspread : Absolute.Spread costs)
    (i : DecoderInputs) :
    (select false i paths).winningByte = (Absolute.trellis.select i costs).winningByte := by
  funext destination
  change oneHot (choose (win false i paths destination)) (candidateByte i destination) = _
  rw [choose_win h hspread, oneHot_eq]
  rfl

theorem reachable_iff (i : DecoderInputs) (destination : Fin 8) :
    ((select false i paths).path destination).reachable = true ↔
      ∃ k, (paths (predecessor destination k)).reachable = true := by
  have hfour : ∀ k : Fin 4, k = 0 ∨ k = 1 ∨ k = 2 ∨ k = 3 := by decide
  simp only [select, Bool.or_eq_true]
  constructor
  · rintro (((h | h) | h) | h)
    exacts [⟨0, h⟩, ⟨1, h⟩, ⟨2, h⟩, ⟨3, h⟩]
  · rintro ⟨k, hk⟩
    rcases hfour k with rfl | rfl | rfl | rfl
    exacts [.inl (.inl (.inl hk)), .inl (.inl (.inr hk)), .inl (.inr hk), .inr hk]

/-- The costs that are kept are those of the decoder without bounds. -/
theorem select_path (h : ∀ s, Tracks (paths s) (costs s)) (hspread : Absolute.Spread costs)
    (i : DecoderInputs) (destination : Fin 8) : Tracks ((select false i paths).path destination)
      ((Absolute.trellis.select i costs).path destination) where
  reachable := by
    rw [reachable_iff]
    constructor
    · rintro ⟨k, hk⟩
      refine Absolute.ne_top_of_le_add (Absolute.path_le i costs destination ?_)
        ((h _).reachable.mp hk)
      change (destination.val % 2 * 4 + k.val) / 4 = _
      omega
    · intro hpath
      exact ⟨_, (h _).reachable.mpr (WithTop.add_ne_top.mp hpath).1⟩
  cost n hn := by
    change Absolute.candidate i costs destination
      ((Absolute.trellis.select i costs).winner destination) = n at hn
    change (oneHot (choose (win false i paths destination)) (candidate i paths destination)).setWidth 21 = _
    rw [choose_win h hspread, oneHot_eq]
    generalize (Absolute.trellis.select i costs).winner destination = k at hn
    have hfinite : costs (predecessor destination k) ≠ ⊤ := fun htop => by
      rw [Absolute.candidate, htop, WithTop.top_add] at hn
      exact WithTop.top_ne_coe hn
    obtain ⟨x, hx⟩ := WithTop.ne_top_iff_exists.mp hfinite
    have hsum : x + (i.metricIn (branchSubset destination k)).toNat = n := by
      rw [Absolute.candidate, ← hx] at hn
      exact WithTop.coe_inj.mp hn
    change cut (addMetric _ _) = _
    rw [cut_addMetric, cut_setWidth, cut_setWidth, BitVec.setWidth_eq, (h _).cost x hx.symm, ← hsum,
      BitVec.ofNat_add, BitVec.ofNat_toNat]

/-- A scan that ands conditions is a conjunction. -/
theorem foldl_and {α : Type} (p : α → Bool) (l : List α) (init : Bool) :
    l.foldl (fun acc j => acc && p j) init = (init && l.all p) := by
  induction l generalizing init with
  | nil => simp
  | cons j l ih => rw [List.foldl_cons, ih, List.all_cons, Bool.and_assoc]

theorem outranks_eq (h : ∀ s, Tracks (paths s) (costs s)) (hspread : Absolute.Spread costs)
    (i j : Fin 8) : outranks paths i j = decide (costs j < costs i) := by
  have hbefore := (h j).before (h i) (hspread.spread _ _) (hspread.spread _ _) (Nat.zero_le _)
    (Nat.zero_le _)
  unfold outranks
  rw [better_eq]
  simpa using hbefore

theorem isBest_iff (h : ∀ s, Tracks (paths s) (costs s)) (hspread : Absolute.Spread costs)
    (i : Fin 8) : isBest paths i = true ↔ costs i ≠ ⊤ ∧ IsFirstBest costs i := by
  have hall : isBest paths i = ((paths i).reachable && (List.finRange 8).all fun j =>
      if j < i then outranks paths j i else if i < j then !outranks paths i j else true) := by
    rw [← foldl_and]
    refine List.foldl_ext _ _ _ fun acc j _ => ?_
    split_ifs <;> simp
  rw [hall, Bool.and_eq_true, (h i).reachable, List.all_eq_true]
  refine and_congr_right fun _ => ⟨fun hbest => ⟨fun j hj => ?_, fun j => ?_⟩, fun hbest j _ => ?_⟩
  · have hless := hbest j (List.mem_finRange j)
    rw [if_pos hj, outranks_eq h hspread, decide_eq_true_iff] at hless
    exact hless
  · have hless := hbest j (List.mem_finRange j)
    rcases lt_trichotomy j i with hlt | rfl | hgt
    · rw [if_pos hlt, outranks_eq h hspread, decide_eq_true_iff] at hless
      exact hless.le
    · exact le_refl _
    · rw [if_neg (not_lt_of_gt hgt), if_pos hgt, outranks_eq h hspread] at hless
      simpa using hless
  · rw [outranks_eq h hspread, outranks_eq h hspread]
    split_ifs with hlt hgt
    · exact decide_eq_true (hbest.before j hlt)
    · simpa using hbest.best j
    · rfl

theorem bestState_eq (h : ∀ s, Tracks (paths s) (costs s)) (hspread : Absolute.Spread costs) :
    bestState paths = firstBest costs := by
  have hfirst := isFirstBest_firstBest costs
  have hbest : ∀ i, isBest paths i = decide (costs i ≠ ⊤ ∧ i = firstBest costs) := by
    intro i
    rw [Bool.eq_iff_iff, isBest_iff h hspread, decide_eq_true_iff]
    refine and_congr_right fun _ => ⟨fun hi => hi.unique hfirst, ?_⟩
    rintro rfl
    exact hfirst
  unfold bestState
  simp only [hbest]
  by_cases htop : costs (firstBest costs) = ⊤
  · -- no state is reached, and all are equal
    have hzero : firstBest costs = 0 := by
      by_contra hne
      have hlt := hfirst.before 0 (Fin.pos_of_ne_zero hne)
      rw [htop] at hlt
      exact not_top_lt hlt
    have hnone : ∀ i, ¬ (costs i ≠ ⊤ ∧ i = firstBest costs) := fun i hi => hi.1 (hi.2 ▸ htop)
    simp only [hnone]
    rw [hzero]
    rfl
  · have hone : ∀ i, (costs i ≠ ⊤ ∧ i = firstBest costs) ↔ i = firstBest costs := by
      intro i
      refine ⟨And.right, ?_⟩
      rintro rfl
      exact ⟨htop, rfl⟩
    have hscan : ∀ b : Fin 8, (List.finRange 8).foldl (fun bestState i =>
        if decide (i = b) = true then bestState ||| i else bestState) 0 = b := by decide
    simp only [hone]
    exact hscan _

end

end Circular

/-! ## Runs -/

namespace TrellisDecoder

/-- The decoder with circular costs follows the one without bounds. -/
structure Follows (s : TrellisDecoder Path) (t : TrellisDecoder (WithTop Nat)) : Prop where
  tracks : ∀ state, Tracks (s.paths state) (t.paths state)
  spread : Absolute.Spread t.paths
  decisions : s.decisions = t.decisions

variable {s : TrellisDecoder Path} {t : TrellisDecoder (WithTop Nat)}

theorem Follows.choices (h : Follows s t) (i : DecoderInputs) :
    s.choices (Circular.trellis false) i = t.choices Absolute.trellis i := by
  have hbest : Circular.bestState s.paths = firstBest t.paths := Circular.bestState_eq h.tracks h.spread
  change Choices.mk (Circular.select false i s.paths).winner (Circular.select false i s.paths).winningByte
    (Circular.bestState s.paths) = _
  rw [Circular.select_winner h.tracks h.spread, Circular.select_winningByte h.tracks h.spread, hbest]
  rfl

theorem tracks_start (state : Fin 8) :
    Tracks ((Circular.trellis false).start state) (Absolute.trellis.start state) := by
  by_cases hzero : state = 0
  · subst hzero
    refine ⟨by simp [Circular.trellis, Absolute.trellis], fun n hn => ?_⟩
    have hn0 : n = 0 := (WithTop.coe_inj.mp hn).symm
    rw [hn0]
    rfl
  · have htop : Absolute.trellis.start state = ⊤ := if_neg hzero
    refine ⟨by simp [Circular.trellis, hzero, htop], fun n hn => ?_⟩
    rw [htop] at hn
    exact absurd hn WithTop.top_ne_coe

theorem Follows.work (h : Follows s t) (i : DecoderInputs) :
    Follows (s.work (Circular.trellis false) i) (t.work Absolute.trellis i) where
  tracks state := by
    change Tracks (s.nextPaths _ i state) (t.nextPaths _ i state)
    unfold nextPaths
    split_ifs
    · exact h.tracks state
    · exact tracks_start state
    · exact Circular.select_path h.tracks h.spread i state
    · exact h.tracks state
  spread := by
    change Absolute.Spread (t.nextPaths _ i)
    unfold nextPaths
    split_ifs
    · exact h.spread
    · exact .start
    · exact h.spread.select i
    · exact h.spread
  decisions := by
    change s.decisions.work i _ = t.decisions.work i _
    rw [h.choices i, h.decisions]

theorem follows_run (inputs : List DecoderInputs) :
    Follows (run (Circular.trellis false) ⟨0, false⟩ inputs) (run Absolute.trellis ⊤ inputs) := by
  have hstart : Follows { paths := fun _ => ⟨0, false⟩, decisions := .cleared }
      { paths := fun _ => ⊤, decisions := .cleared } :=
    ⟨fun _ => ⟨by simp, fun n hn => absurd hn WithTop.top_ne_coe⟩, .unreachable, rfl⟩
  unfold run
  revert hstart
  generalize ({ paths := fun _ => ⟨0, false⟩, decisions := .cleared } : TrellisDecoder Path) = s
  generalize ({ paths := fun _ => ⊤, decisions := .cleared } : TrellisDecoder (WithTop Nat)) = t
  intro h
  induction inputs generalizing s t with
  | nil => exact h
  | cons i inputs ih => exact ih _ _ (h.work i)

/-- After any symbols, in either arithmetic, all registers behind the paths and all choices of
the next clock are those of the decoder without bounds, and its costs differ by less than half
the circle. -/
theorem circular_exact (PREPARED : Bool) (inputs : List DecoderInputs) (i : DecoderInputs)
    (h : PREPARED = true → ∀ j ∈ i :: inputs, j.Prepared) :
    let s := run (Circular.trellis PREPARED) ⟨0, false⟩ inputs
    let t := run Absolute.trellis ⊤ inputs
    s.decisions = t.decisions ∧
      s.choices (Circular.trellis PREPARED) i = t.choices Absolute.trellis i ∧
      (∀ state, Tracks (s.paths state) (t.paths state)) ∧
      ∀ a b, t.paths a ≠ ⊤ → t.paths a < t.paths b + (2 ^ 20 : Nat) := by
  intro s t
  have hrun : s = run (Circular.trellis false) ⟨0, false⟩ inputs := by
    cases PREPARED with
    | false => rfl
    | true => exact prepared_run _ _ fun j hj => h rfl j (List.mem_cons_of_mem i hj)
  have hchoices : s.choices (Circular.trellis PREPARED) i = s.choices (Circular.trellis false) i := by
    cases PREPARED with
    | false => rfl
    | true =>
        have hselect := Circular.select_prepared (h rfl i List.mem_cons_self) s.paths
        exact congrArg (fun x : Selection Path => Choices.mk x.winner x.winningByte
          (Circular.bestState s.paths)) hselect
  have hfollows : Follows s t := by
    rw [hrun]
    exact follows_run inputs
  refine ⟨hfollows.decisions, hchoices.trans (hfollows.choices i), hfollows.tracks, fun a b ha => ?_⟩
  have hle := hfollows.spread.spread a b ha
  cases hb : t.paths b with
  | top => exact lt_of_le_of_ne le_top (by simpa [hb] using ha)
  | coe y =>
      have hlt : y + 2 * maxMetric < y + 2 ^ 20 := by
        unfold maxMetric
        omega
      rw [hb] at hle
      exact lt_of_le_of_lt hle (Nat.cast_lt.mpr hlt : ((y + 2 * maxMetric : Nat) : WithTop Nat) < _)

/-- Three symbols after a reset, with the largest metrics. -/
theorem circular_exact_symbols :
    let clear : DecoderInputs := ⟨true, true, fun _ => 0, fun _ => 0, fun _ => 0, false, false, false⟩
    let symbol : DecoderInputs := { clear with
      reset := false
      advanceIn := true
      metricIn := fun s => if s = 0 then 0 else 262143
      differenceIn := directedDifferences (fun s => if s = 0 then 0 else 262143) fun _ => 0 }
    let s := run (Circular.trellis true) ⟨0, false⟩ [clear, symbol, symbol]
    let t := run Absolute.trellis ⊤ [clear, symbol, symbol]
    s.decisions = t.decisions ∧
      s.choices (Circular.trellis true) symbol = t.choices Absolute.trellis symbol ∧
      (∀ state, Tracks (s.paths state) (t.paths state)) ∧
      ∀ a b, t.paths a ≠ ⊤ → t.paths a < t.paths b + (2 ^ 20 : Nat) := by
  intro clear symbol
  have hclear : clear.Prepared := by
    change ∀ index < 24, (0 : BitVec 21) = directedDifferences (fun _ => 0) (fun _ => 0) index
    decide
  have hsymbol : symbol.Prepared := fun _ _ => rfl
  refine circular_exact true [clear, symbol, symbol] symbol fun _ j hj => ?_
  simp only [List.mem_cons, List.not_mem_nil, or_false] at hj
  rcases hj with rfl | rfl | rfl | rfl
  exacts [hsymbol, hclear, hsymbol, hsymbol]

end TrellisDecoder

end CppHdl.Analog
