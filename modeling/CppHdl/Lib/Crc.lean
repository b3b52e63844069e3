import Mathlib.Data.BitVec
import Mathlib.Logic.Function.Iterate

/-!
# Cyclic redundancy checks

A register of `n` bits that shifts to the right and adds a polynomial for each one that falls
out, with the bits of a message added at the low end. The register is linear in the message
and what it held before. Where the top bit of the polynomial is set a step loses nothing, and
no change of at most `n` bits in a row goes unseen.
-/

namespace CppHdl.Crc

variable {n : Nat}

def step (poly s : BitVec n) : BitVec n :=
  if s.getLsbD 0 then s >>> 1 ^^^ poly else s >>> 1

def feed (poly s : BitVec n) (b : Bool) : BitVec n := step poly (s ^^^ (BitVec.ofBool b).setWidth n)

def feedAll (poly s : BitVec n) (bits : List Bool) : BitVec n := bits.foldl (feed poly) s

/-- The bits of a word, the low one first. -/
def bitsOf {m : Nat} (w : BitVec m) : List Bool := (List.range m).map w.getLsbD

def word (n : Nat) : List Bool → BitVec n
  | [] => 0#n
  | b :: bits => (BitVec.ofBool b).setWidth n ^^^ word n bits <<< 1

variable {poly s t : BitVec n} {bits bits' : List Bool}

/-! ## Linearity -/

theorem step_xor : step poly (s ^^^ t) = step poly s ^^^ step poly t := by
  unfold step
  rw [BitVec.getLsbD_xor, BitVec.ushiftRight_xor_distrib]
  cases s.getLsbD 0 <;> cases t.getLsbD 0
  · rfl
  · change s >>> 1 ^^^ t >>> 1 ^^^ poly = s >>> 1 ^^^ (t >>> 1 ^^^ poly)
    exact BitVec.xor_assoc _ _ _
  · change s >>> 1 ^^^ t >>> 1 ^^^ poly = s >>> 1 ^^^ poly ^^^ t >>> 1
    rw [BitVec.xor_assoc, BitVec.xor_comm (t >>> 1), BitVec.xor_assoc]
  · change s >>> 1 ^^^ t >>> 1 = s >>> 1 ^^^ poly ^^^ (t >>> 1 ^^^ poly)
    rw [BitVec.xor_assoc, BitVec.xor_comm (t >>> 1) poly, ← BitVec.xor_assoc poly, BitVec.xor_self,
      BitVec.zero_xor]

theorem step_zero : step poly 0#n = 0#n := by
  unfold step
  rw [BitVec.getLsbD_zero, if_neg Bool.false_ne_true, BitVec.zero_ushiftRight]

theorem feed_xor {b c : Bool} :
    feed poly (s ^^^ t) (b ^^ c) = feed poly s b ^^^ feed poly t c := by
  have hbit : (BitVec.ofBool (b ^^ c)).setWidth n =
      (BitVec.ofBool b).setWidth n ^^^ (BitVec.ofBool c).setWidth n := by
    rw [← BitVec.setWidth_xor, BitVec.ofBool_xor_ofBool]
  unfold feed
  rw [hbit, ← step_xor]
  congr 1
  ac_rfl

theorem feedAll_xor (h : bits.length = bits'.length) :
    feedAll poly (s ^^^ t) (List.zipWith xor bits bits') =
      feedAll poly s bits ^^^ feedAll poly t bits' := by
  induction bits generalizing s t bits' with
  | nil =>
      obtain rfl : bits' = [] := List.length_eq_zero_iff.mp h.symm
      rfl
  | cons b bits ih =>
      cases bits' with
      | nil => cases h
      | cons c bits' =>
          change feedAll poly (feed poly (s ^^^ t) (b ^^ c)) _ = _
          rw [feed_xor]
          exact ih (Nat.succ.inj h)

theorem feedAll_append : feedAll poly s (bits ++ bits') = feedAll poly (feedAll poly s bits) bits' :=
  List.foldl_append

/-! ## Words -/

theorem getLsbD_word {i : Nat} (hi : i < n) : (word n bits).getLsbD i = bits[i]?.getD false := by
  induction bits generalizing i with
  | nil => exact BitVec.getLsbD_zero
  | cons b bits ih =>
      unfold word
      rw [BitVec.getLsbD_xor, BitVec.getLsbD_setWidth, BitVec.getLsbD_shiftLeft, decide_eq_true hi]
      cases i with
      | zero => cases b <;> rfl
      | succ i =>
          rw [Nat.add_sub_cancel, ih (Nat.lt_of_succ_lt hi),
            BitVec.getLsbD_of_ge _ _ (Nat.succ_le_succ (Nat.zero_le i))]
          simp

theorem word_bitsOf {m : Nat} (w : BitVec m) : word n (bitsOf w) = w.setWidth n := by
  apply BitVec.eq_of_getLsbD_eq
  intro i hi
  rw [getLsbD_word hi, BitVec.getLsbD_setWidth, decide_eq_true hi, Bool.true_and]
  unfold bitsOf
  rw [List.getElem?_map]
  by_cases hm : i < m
  · rw [List.getElem?_range hm]
    rfl
  · rw [List.getElem?_eq_none (by simpa using hm), BitVec.getLsbD_of_ge _ _ (Nat.le_of_not_lt hm)]
    rfl

/-- A word that leaves the top bit free comes back from a shift. -/
theorem step_shiftLeft (h : ∀ i, n ≤ i + 1 → s.getLsbD i = false) : step poly (s <<< 1) = s := by
  have hlow : (s <<< 1).getLsbD 0 = false := by
    rw [BitVec.getLsbD_shiftLeft]
    simp
  unfold step
  rw [hlow, if_neg Bool.false_ne_true]
  apply BitVec.eq_of_getLsbD_eq
  intro i hi
  rw [BitVec.getLsbD_ushiftRight, BitVec.getLsbD_shiftLeft, Nat.add_sub_cancel_left]
  by_cases htop : n ≤ i + 1
  · rw [h i htop, Bool.and_false]
  · rw [decide_eq_true (by omega : 1 + i < n), decide_eq_false (by omega : ¬ 1 + i < 1)]
    rfl

/-- Bits that fit the register may as well be added all at once. -/
theorem feedAll_eq (h : bits.length ≤ n) :
    feedAll poly s bits = (step poly)^[bits.length] (s ^^^ word n bits) := by
  induction bits generalizing s with
  | nil => exact (BitVec.xor_zero (x := s)).symm
  | cons b bits ih =>
      have hlen : bits.length + 1 ≤ n := h
      have hshift : step poly (word n bits <<< 1) = word n bits := by
        apply step_shiftLeft
        intro i hi
        by_cases hin : i < n
        · rw [getLsbD_word hin, List.getElem?_eq_none (by omega)]
          rfl
        · exact BitVec.getLsbD_of_ge _ _ (Nat.le_of_not_lt hin)
      change feedAll poly (feed poly s b) bits =
        (step poly)^[bits.length] (step poly (s ^^^ ((BitVec.ofBool b).setWidth n ^^^ word n bits <<< 1)))
      rw [ih (by omega), ← BitVec.xor_assoc, step_xor, hshift]
      rfl

theorem feedAll_replicate {k : Nat} :
    feedAll poly s (List.replicate k false) = (step poly)^[k] s := by
  induction k generalizing s with
  | zero => rfl
  | succ k ih =>
      rw [List.replicate_succ]
      change feedAll poly (feed poly s false) _ = _
      rw [ih, Function.iterate_succ_apply]
      congr 1
      unfold feed
      rw [show (BitVec.ofBool false).setWidth n = 0#n by apply BitVec.eq_of_toNat_eq; simp, BitVec.xor_zero]

/-! ## Bursts -/

theorem step_ne_zero (hpoly : poly.msb = true) (h : s ≠ 0#n) : step poly s ≠ 0#n := by
  intro hzero
  unfold step at hzero
  have hpos : 0 < n := by
    rw [BitVec.msb_eq_getLsbD_last] at hpoly
    by_contra hnot
    rw [BitVec.getLsbD_of_ge _ _ (by omega)] at hpoly
    cases hpoly
  have hbit := fun i => congrArg (fun x => BitVec.getLsbD x i) hzero
  split_ifs at hzero hbit with hlow
  · -- the top bit comes from the polynomial alone
    have htop := hbit (n - 1)
    rw [BitVec.getLsbD_xor, BitVec.getLsbD_ushiftRight, BitVec.getLsbD_of_ge _ _ (by omega),
      ← BitVec.msb_eq_getLsbD_last, hpoly] at htop
    rw [BitVec.getLsbD_zero] at htop
    cases htop
  · apply h
    apply BitVec.eq_of_getLsbD_eq
    intro i hi
    refine Eq.trans ?_ BitVec.getLsbD_zero.symm
    cases i with
    | zero => exact Bool.not_eq_true _ ▸ hlow
    | succ i =>
        have hi' := hbit i
        rw [BitVec.getLsbD_ushiftRight, Nat.add_comm] at hi'
        exact hi'.trans BitVec.getLsbD_zero

theorem iterate_step_ne_zero (hpoly : poly.msb = true) (h : s ≠ 0#n) (k : Nat) :
    (step poly)^[k] s ≠ 0#n := by
  induction k with
  | zero => exact h
  | succ k ih =>
      rw [Function.iterate_succ_apply']
      exact step_ne_zero hpoly ih

/-- Some bit is set, and all that are set lie within `n` bits in a row. -/
def Burst (n : Nat) (bits : List Bool) : Prop :=
  true ∈ bits ∧ ∃ p, ∀ i, bits[i]? = some true → p ≤ i ∧ i < p + n

/-- A burst is seen. -/
theorem feedAll_burst (hpoly : poly.msb = true) (h : Burst n bits) : feedAll poly 0#n bits ≠ 0#n := by
  obtain ⟨hsome, p, hspan⟩ := h
  have hzeros : ∀ l : List Bool, (∀ i : Nat, l[i]? ≠ some true) → l = List.replicate l.length false := by
    intro l hl
    rw [List.eq_replicate_iff]
    refine ⟨rfl, fun b hb => ?_⟩
    obtain ⟨i, hi⟩ := List.getElem?_of_mem hb
    cases b
    · rfl
    · exact absurd hi (hl i)
  have hbefore := hzeros (bits.take p) fun i hi => by
    rw [List.getElem?_take] at hi
    split_ifs at hi with hip
    have := (hspan i hi).1
    omega
  have hafter := hzeros ((bits.drop p).drop n) fun i hi => by
    rw [List.getElem?_drop, List.getElem?_drop] at hi
    have := (hspan _ hi).2
    omega
  have hsplit : bits = bits.take p ++ ((bits.drop p).take n ++ (bits.drop p).drop n) := by
    rw [List.take_append_drop, List.take_append_drop]
  have hword : word n ((bits.drop p).take n) ≠ 0#n := by
    obtain ⟨i, hi⟩ := List.getElem?_of_mem hsome
    obtain ⟨hlow, hhigh⟩ := hspan i hi
    intro hzero
    have hbit := congrArg (fun x => BitVec.getLsbD x (i - p)) hzero
    rw [getLsbD_word (by omega), List.getElem?_take, if_pos (by omega), List.getElem?_drop,
      Nat.add_sub_cancel' hlow, hi] at hbit
    exact Bool.false_ne_true (BitVec.getLsbD_zero.symm.trans hbit.symm)
  rw [hsplit, feedAll_append, feedAll_append, hbefore, feedAll_replicate, hafter,
    feedAll_replicate, feedAll_eq (List.length_take_le _ _)]
  refine iterate_step_ne_zero hpoly (iterate_step_ne_zero hpoly ?_ _) _
  have hnone : ∀ k, (step poly)^[k] 0#n = 0#n := by
    intro k
    exact Function.iterate_fixed step_zero k
  rw [hnone, BitVec.zero_xor]
  exact hword

end CppHdl.Crc
