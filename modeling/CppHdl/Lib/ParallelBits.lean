import Mathlib.Data.List.Sort

/-!
# Bits moved in parallel

`pext` collects the bits of a word that a mask selects at its low end, and
`pdep` spreads the low bits of a word to the positions of a mask. Both go
through the positions of the mask from the lowest, so what they do is told by
`setBits`, and one after the other they move bits along pairs of positions
(`pdep_pext`).
-/

namespace CppHdl

variable {w : Nat}

/-! ## The positions of a mask -/

def setBits (x : BitVec w) : List Nat := (List.range w).filter x.getLsbD

theorem mem_setBits {x : BitVec w} {i : Nat} : i ∈ setBits x ↔ x.getLsbD i = true := by
  rw [setBits, List.mem_filter, List.mem_range]
  exact and_iff_right_of_imp BitVec.lt_of_getLsbD

theorem setBits_pairwise (x : BitVec w) : (setBits x).Pairwise (· < ·) :=
  List.pairwise_lt_range.filter _

/-- A mask has one increasing list of positions. -/
theorem setBits_eq {x : BitVec w} {l : List Nat} (hl : l.Pairwise (· < ·))
    (hmem : ∀ i, i ∈ l ↔ x.getLsbD i = true) : setBits x = l :=
  (setBits_pairwise x).eq_of_mem_iff hl fun i => mem_setBits.trans (hmem i).symm

theorem setBits_eq_nil {x : BitVec w} : setBits x = [] ↔ x = 0#w := by
  constructor
  · intro h
    refine BitVec.eq_of_getLsbD_eq fun i hi => ?_
    rw [BitVec.getLsbD_zero, ← Bool.not_eq_true, ← mem_setBits, h]
    exact List.not_mem_nil
  · rintro rfl
    exact setBits_eq .nil fun i => by simp

/-- A position above all others comes last. -/
theorem setBits_or_twoPow {x : BitVec w} {s : Nat} (hs : s < w)
    (hx : ∀ i, x.getLsbD i = true → i < s) :
    setBits (x ||| BitVec.twoPow w s) = setBits x ++ [s] := by
  refine setBits_eq ?_ fun i => ?_
  · refine List.pairwise_append.mpr ⟨setBits_pairwise x, List.pairwise_singleton _ _, ?_⟩
    intro i hi j hj
    rw [List.mem_singleton.mp hj]
    exact hx i (mem_setBits.mp hi)
  · rw [List.mem_append, mem_setBits, List.mem_singleton, BitVec.getLsbD_or, Bool.or_eq_true,
      BitVec.getLsbD_twoPow, decide_eq_true hs, Bool.true_and, decide_eq_true_iff]
    exact or_congr_right eq_comm

section

variable {x : BitVec w} {p : Nat} {rest : List Nat}

/-- Below the lowest position a mask is clear. -/
theorem getLsbD_of_setBits (h : setBits x = p :: rest) (i : Nat) :
    x.getLsbD i = true ↔ i = p ∨ i ∈ rest := by
  rw [← mem_setBits, h, List.mem_cons]

theorem lt_of_setBits (h : setBits x = p :: rest) {i : Nat} (hi : i ∈ rest) : p < i :=
  (List.pairwise_cons.mp (h ▸ setBits_pairwise x)).1 i hi

/-- The negation of a mask flips all above the lowest position. -/
theorem getLsbD_neg_of_setBits (h : setBits x = p :: rest) (i : Nat) :
    (-x).getLsbD i = (decide (i = p) || (decide (p < i ∧ i < w) && !x.getLsbD i)) := by
  have hp : x.getLsbD p = true := (getLsbD_of_setBits h p).mpr (.inl rfl)
  have hlow : ∀ j, j < p → x.getLsbD j = false := by
    intro j hj
    rw [← Bool.not_eq_true, getLsbD_of_setBits h]
    rintro (rfl | hmem)
    · omega
    · have := lt_of_setBits h hmem
      omega
  have hbelow : (∃ j < i, x.getLsbD j = true) ↔ p < i := by
    constructor
    · rintro ⟨j, hj, hset⟩
      by_contra hle
      rw [hlow j (by omega)] at hset
      cases hset
    · exact fun hlt => ⟨p, hlt, hp⟩
  have hdecide : decide (∃ j < i, x.getLsbD j = true) = decide (p < i) :=
    decide_eq_decide.mpr hbelow
  rw [BitVec.getLsbD_neg, hdecide]
  obtain hi | heq | hi := Nat.lt_trichotomy i p
  · simp [hlow i hi, Nat.ne_of_lt hi, Nat.not_lt_of_gt hi]
  · simp [heq, hp]
  · by_cases hiw : i < w
    · simp [hiw, hi, Nat.ne_of_gt hi]
    · simp [hiw, Nat.ne_of_gt hi, BitVec.getLsbD_of_ge x i (Nat.le_of_not_lt hiw)]

theorem and_neg_eq_twoPow (h : setBits x = p :: rest) : x &&& -x = BitVec.twoPow w p := by
  refine BitVec.eq_of_getLsbD_eq fun i hi => ?_
  rw [BitVec.getLsbD_and, getLsbD_neg_of_setBits h, BitVec.getLsbD_twoPow]
  have hp : x.getLsbD p = true := (getLsbD_of_setBits h p).mpr (.inl rfl)
  by_cases heq : i = p
  · subst heq
    simp [hp, hi]
  · cases x.getLsbD i <;> simp [heq, Ne.symm heq]

/-- `x & (x - 1)` clears the lowest position. -/
theorem setBits_and_pred (h : setBits x = p :: rest) : setBits (x &&& (x - 1#w)) = rest := by
  refine setBits_eq (List.pairwise_cons.mp (h ▸ setBits_pairwise x)).2 fun i => ?_
  rw [← BitVec.not_neg, BitVec.getLsbD_and, BitVec.getLsbD_not, getLsbD_neg_of_setBits h]
  have hiff := getLsbD_of_setBits h i
  constructor
  · intro hi
    have hset : x.getLsbD i = true := hiff.mpr (.inr hi)
    have hlt := lt_of_setBits h hi
    have hiw := BitVec.lt_of_getLsbD hset
    simp [hset, hiw, Nat.ne_of_gt hlt]
  · intro hi
    rw [Bool.and_eq_true] at hi
    refine (hiff.mp hi.1).resolve_left fun heq => ?_
    simp [heq] at hi

end

/-! ## Moving bits -/

/-- The bit at the first position of each pair, moved to the second. -/
def moveBits (value : BitVec w) : List (Nat × Nat) → BitVec w
  | [] => 0#w
  | (source, destination) :: rest =>
      (if value.getLsbD source then BitVec.twoPow w destination else 0#w) ||| moveBits value rest

theorem moveBits_append (value : BitVec w) (l l' : List (Nat × Nat)) :
    moveBits value (l ++ l') = moveBits value l ||| moveBits value l' := by
  induction l with
  | nil => exact (BitVec.zero_or).symm
  | cons pair l ih =>
      rw [List.cons_append, moveBits, moveBits, ih, BitVec.or_assoc]

theorem getLsbD_moveBits (value : BitVec w) (l : List (Nat × Nat)) (i : Nat) :
    (moveBits value l).getLsbD i = true ↔
      i < w ∧ ∃ source, (source, i) ∈ l ∧ value.getLsbD source = true := by
  induction l with
  | nil => simp [moveBits]
  | cons pair l ih =>
      obtain ⟨source, destination⟩ := pair
      rw [moveBits, BitVec.getLsbD_or, Bool.or_eq_true, ih]
      have hone : (if value.getLsbD source then BitVec.twoPow w destination else 0#w).getLsbD i =
          true ↔ i < w ∧ destination = i ∧ value.getLsbD source = true := by
        split_ifs with hbit
        · rw [BitVec.getLsbD_twoPow, Bool.and_eq_true, decide_eq_true_iff, decide_eq_true_iff]
          constructor
          · rintro ⟨hlt, rfl⟩
            exact ⟨hlt, rfl, hbit⟩
          · rintro ⟨hlt, rfl, -⟩
            exact ⟨hlt, rfl⟩
        · simp [hbit]
      rw [hone]
      constructor
      · rintro (⟨hlt, rfl, hbit⟩ | ⟨hlt, s, hmem, hbit⟩)
        · exact ⟨hlt, source, .head _, hbit⟩
        · exact ⟨hlt, s, .tail _ hmem, hbit⟩
      · rintro ⟨hlt, s, hmem, hbit⟩
        rcases List.mem_cons.mp hmem with heq | hmem
        · cases heq
          exact .inl ⟨hlt, rfl, hbit⟩
        · exact .inr ⟨hlt, s, hmem, hbit⟩

/-! ## Extract and deposit -/

/-- At position `m` of the mask: the next low bit is bit `m` of the value. -/
def pextStep (value : BitVec w) (s : Nat × BitVec w) (m : Nat) : Nat × BitVec w :=
  (s.1 + 1, (if value.getLsbD m then BitVec.twoPow w s.1 else 0#w) ||| s.2)

/-- `PEXT`. -/
def pext (value mask : BitVec w) : BitVec w :=
  ((List.range w).foldl (fun s m => if mask.getLsbD m then pextStep value s m else s) (0, 0#w)).2

/-- At position `m` of the mask: bit `m` is the next low bit of the value. -/
def pdepStep (value : BitVec w) (s : Nat × BitVec w) (m : Nat) : Nat × BitVec w :=
  (s.1 + 1, (if value.getLsbD s.1 then BitVec.twoPow w m else 0#w) ||| s.2)

/-- `PDEP`. -/
def pdep (value mask : BitVec w) : BitVec w :=
  ((List.range w).foldl (fun s m => if mask.getLsbD m then pdepStep value s m else s) (0, 0#w)).2

theorem pextLoop_eq (value : BitVec w) (l : List Nat) (k : Nat) (r : BitVec w) :
    (l.foldl (pextStep value) (k, r)).2 = moveBits value (l.zipIdx k) ||| r := by
  induction l generalizing k r with
  | nil => exact (BitVec.zero_or).symm
  | cons m l ih =>
      rw [List.foldl_cons, pextStep, ih, List.zipIdx_cons, moveBits, ← BitVec.or_assoc,
        BitVec.or_comm (moveBits value _)]

theorem pext_eq (value mask : BitVec w) : pext value mask = moveBits value (setBits mask).zipIdx := by
  unfold pext
  rw [← List.foldl_filter, ← setBits, pextLoop_eq, BitVec.or_zero]

theorem length_setBits_le (x : BitVec w) : (setBits x).length ≤ w := by
  have := List.length_filter_le x.getLsbD (List.range w)
  rwa [List.length_range] at this

/-- Bit `k` of an extract is the value's bit at position `k` of the mask. -/
theorem getLsbD_pext (value mask : BitVec w) (k : Nat) :
    (pext value mask).getLsbD k = true ↔
      ∃ source, (setBits mask)[k]? = some source ∧ value.getLsbD source = true := by
  rw [pext_eq, getLsbD_moveBits]
  simp only [List.mem_zipIdx_iff_getElem?]
  refine and_iff_right_of_imp fun ⟨source, hsource, _⟩ => ?_
  have hk := (List.getElem?_eq_some_iff.mp hsource).1
  exact Nat.lt_of_lt_of_le hk (length_setBits_le mask)

theorem pdepLoop_eq (value : BitVec w) (l : List Nat) (k : Nat) (r : BitVec w) :
    (l.foldl (pdepStep value) (k, r)).2 = moveBits value ((l.zipIdx k).map Prod.swap) ||| r := by
  induction l generalizing k r with
  | nil => exact (BitVec.zero_or).symm
  | cons m l ih =>
      rw [List.foldl_cons, pdepStep, ih, List.zipIdx_cons, List.map_cons, Prod.swap_prod_mk, moveBits,
        ← BitVec.or_assoc, BitVec.or_comm (moveBits value _)]

theorem pdep_eq (value mask : BitVec w) :
    pdep value mask = moveBits value ((setBits mask).zipIdx.map Prod.swap) := by
  unfold pdep
  rw [← List.foldl_filter, ← setBits, pdepLoop_eq, BitVec.or_zero]

/-- Extract, then deposit: the bits move from the positions of one mask to those
of the other, in order. -/
theorem pdep_pext (value source destination : BitVec w) :
    pdep (pext value source) destination =
      moveBits value ((setBits source).zip (setBits destination)) := by
  refine BitVec.eq_of_getLsbD_eq fun i _ => ?_
  rw [Bool.eq_iff_iff, pdep_eq, getLsbD_moveBits, getLsbD_moveBits]
  refine and_congr_right fun _ => ⟨?_, ?_⟩
  · rintro ⟨k, hmem, hbit⟩
    obtain ⟨⟨_, k⟩, hpair, heq⟩ := List.mem_map.mp hmem
    cases heq
    obtain ⟨a, ha, hvalue⟩ := (getLsbD_pext value source k).mp hbit
    rw [List.mem_zipIdx_iff_getElem?] at hpair
    refine ⟨a, List.mem_iff_getElem?.mpr ⟨k, ?_⟩, hvalue⟩
    exact List.getElem?_zip_eq_some.mpr ⟨ha, hpair⟩
  · rintro ⟨a, hmem, hvalue⟩
    obtain ⟨k, hk⟩ := List.mem_iff_getElem?.mp hmem
    obtain ⟨ha, hi⟩ := List.getElem?_zip_eq_some.mp hk
    refine ⟨k, List.mem_map.mpr ⟨(i, k), List.mem_zipIdx_iff_getElem?.mpr hi, rfl⟩, ?_⟩
    exact (getLsbD_pext value source k).mpr ⟨a, ha, hvalue⟩

end CppHdl
