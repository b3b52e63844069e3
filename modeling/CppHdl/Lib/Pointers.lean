import Mathlib.Data.BitVec

/-!
# Read and write pointers

A ring of `2 ^ k` cells kept by two pointers that wrap around and a flag: equal
pointers mean full or empty, and the flag, which only counts there, says which.
`occupancy_step` is one step with a word in, a word out or both.
-/

namespace CppHdl

/-- The words between a read and a write pointer of `k` bits; the flag tells the
full queue from the empty one. -/
def occupancy {k : Nat} (wp rp : BitVec k) (full : Bool) : Nat :=
  if wp = rp then (if full then 2 ^ k else 0) else (wp - rp).toNat

section

variable {k : Nat} {wp rp : BitVec k} {full : Bool}

theorem toNat_sub_pos (h : wp ≠ rp) : 0 < (wp - rp).toNat := by
  refine Nat.pos_of_ne_zero fun hzero => h ?_
  have hsub : wp - rp = 0#k := BitVec.eq_of_toNat_eq (hzero.trans BitVec.toNat_zero.symm)
  rwa [BitVec.sub_eq_iff_eq_add, BitVec.zero_add] at hsub

theorem occupancy_le : occupancy wp rp full ≤ 2 ^ k := by
  have hlt := (wp - rp).isLt
  unfold occupancy
  split_ifs <;> omega

theorem occupancy_eq_zero_iff : occupancy wp rp full = 0 ↔ wp = rp ∧ full = false := by
  have hpos := Nat.two_pow_pos k
  unfold occupancy
  split_ifs with hptr hfull
  · simp [hptr, hfull]
  · simp [hptr, hfull]
  · exact iff_of_false (Nat.ne_of_gt (toNat_sub_pos hptr)) fun h => hptr h.1

theorem occupancy_eq_full_iff : occupancy wp rp full = 2 ^ k ↔ wp = rp ∧ full = true := by
  have hpos := Nat.two_pow_pos k
  have hlt := (wp - rp).isLt
  unfold occupancy
  split_ifs with hptr hfull
  · simp [hptr, hfull]
  · exact iff_of_false (Nat.ne_of_lt hpos) fun h => hfull h.2
  · exact iff_of_false (Nat.ne_of_lt hlt) fun h => hptr h.1

/-- The cell behind the last word is the one the write pointer points to. -/
theorem occupancy_tail : (rp.toNat + occupancy wp rp full) % 2 ^ k = wp.toNat := by
  unfold occupancy
  split_ifs with hptr hfull
  · rw [hptr, Nat.add_mod_right, Nat.mod_eq_of_lt rp.isLt]
  · rw [hptr, Nat.add_zero, Nat.mod_eq_of_lt rp.isLt]
  · rw [← BitVec.toNat_add, BitVec.add_comm, BitVec.sub_add_cancel]

theorem toNat_succ (x : BitVec k) : (x + 1#k).toNat = (x.toNat + 1) % 2 ^ k := by
  rw [BitVec.toNat_add, BitVec.toNat_ofNat, Nat.add_mod_mod]

theorem succ_ne_self (hk : 0 < k) (x : BitVec k) : x + 1#k ≠ x := by
  intro h
  have hone : 1#k = 0#k := by grind
  have := congrArg BitVec.toNat hone
  rw [BitVec.toNat_ofNat, BitVec.toNat_ofNat, Nat.zero_mod,
    Nat.mod_eq_of_lt (Nat.one_lt_two_pow (Nat.ne_of_gt hk))] at this
  cases this

theorem toNat_succ_of_ne {x : BitVec k} (h : x + 1#k ≠ 0) : (x + 1#k).toNat = x.toNat + 1 := by
  have hlt := x.isLt
  rw [toNat_succ]
  refine Nat.mod_eq_of_lt (Nat.lt_of_le_of_ne hlt fun heq => h (BitVec.eq_of_toNat_eq ?_))
  rw [toNat_succ, heq, Nat.mod_self]
  rfl

theorem toNat_add_one_of_eq {x : BitVec k} (h : x + 1#k = 0) : x.toNat + 1 = 2 ^ k := by
  have hlt := x.isLt
  have hmod : (x.toNat + 1) % 2 ^ k = 0 := by
    rw [← toNat_succ, h]
    rfl
  have hle := Nat.le_of_dvd (Nat.succ_pos _) (Nat.dvd_of_mod_eq_zero hmod)
  omega

theorem occupancy_push {full' : Bool} (h : occupancy wp rp full < 2 ^ k)
    (hfull : wp + 1#k = rp → full' = true) :
    occupancy (wp + 1#k) rp full' = occupancy wp rp full + 1 := by
  have hdist : wp + 1#k - rp = (wp - rp) + 1#k := by grind
  have hocc : occupancy wp rp full = (wp - rp).toNat := by
    unfold occupancy
    split_ifs with hptr hset
    · exact absurd (occupancy_eq_full_iff.mpr ⟨hptr, hset⟩) (Nat.ne_of_lt h)
    · rw [hptr, BitVec.sub_self]
      rfl
    · rfl
  by_cases hptr : wp + 1#k = rp
  · rw [hocc, occupancy_eq_full_iff.mpr ⟨hptr, hfull hptr⟩]
    exact (toNat_add_one_of_eq (by grind)).symm
  · have hne : (wp - rp) + 1#k ≠ 0 := by
      rw [← hdist]
      exact fun hzero => hptr (by grind)
    unfold occupancy
    rw [if_neg hptr, hdist, toNat_succ_of_ne hne]
    exact congrArg (· + 1) hocc.symm

theorem occupancy_pop (hk : 0 < k) (h : 0 < occupancy wp rp full) :
    occupancy wp (rp + 1#k) false = occupancy wp rp full - 1 := by
  have hdist : wp - rp = (wp - (rp + 1#k)) + 1#k := by grind
  by_cases hlast : wp = rp + 1#k
  · have hone : (wp - rp).toNat = 1 := by
      rw [hdist, hlast, BitVec.sub_self, BitVec.zero_add, BitVec.toNat_ofNat]
      exact Nat.mod_eq_of_lt (Nat.one_lt_two_pow (Nat.ne_of_gt hk))
    have hne : wp ≠ rp := hlast ▸ succ_ne_self hk rp
    unfold occupancy
    rw [if_pos hlast, if_neg hne, hone]
    rfl
  · have hocc : occupancy wp rp full = (wp - (rp + 1#k)).toNat + 1 := by
      unfold occupancy
      split_ifs with hptr hset
      · exact (toNat_add_one_of_eq (by grind)).symm
      · exact absurd (occupancy_eq_zero_iff.mpr ⟨hptr, eq_false_of_ne_true hset⟩) (Nat.ne_of_gt h)
      · rw [hdist]
        exact toNat_succ_of_ne fun hzero => hptr (by grind)
    rw [hocc]
    unfold occupancy
    rw [if_neg hlast]
    rfl

theorem occupancy_move {full' : Bool} (hfull : wp = rp → full' = full) :
    occupancy (wp + 1#k) (rp + 1#k) full' = occupancy wp rp full := by
  have hdist : wp + 1#k - (rp + 1#k) = wp - rp := by grind
  have hptr : wp + 1#k = rp + 1#k ↔ wp = rp := by grind
  unfold occupancy
  rw [hdist]
  by_cases h : wp = rp
  · rw [if_pos (hptr.mpr h), if_pos h, hfull h]
  · rw [if_neg (mt hptr.mp h), if_neg h]

theorem occupancy_step (hk : 0 < k) {pop push full' : Bool} (hpop : pop → 0 < occupancy wp rp full)
    (hpush : push → occupancy wp rp full < 2 ^ k + pop.toNat)
    (hmove : pop = push → wp = rp → full' = full) (hdrain : pop → push = false → full' = false)
    (hfill : push → pop = false → wp + 1#k = rp → full' = true) :
    occupancy (if push then wp + 1#k else wp) (if pop then rp + 1#k else rp) full' =
      occupancy wp rp full - pop.toNat + push.toNat := by
  cases pop with
  | false =>
      cases push with
      | false =>
          change occupancy wp rp full' = occupancy wp rp full
          unfold occupancy
          by_cases h : wp = rp
          · rw [if_pos h, if_pos h, hmove rfl h]
          · rw [if_neg h, if_neg h]
      | true => exact occupancy_push (hpush rfl) (hfill rfl rfl)
  | true =>
      have hpos := hpop rfl
      cases push with
      | false =>
          rw [hdrain rfl rfl]
          exact occupancy_pop hk hpos
      | true =>
          refine (occupancy_move (hmove rfl)).trans ?_
          change _ = _ - 1 + 1
          omega

end

end CppHdl
