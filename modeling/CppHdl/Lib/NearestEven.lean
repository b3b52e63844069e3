import Mathlib.Algebra.Order.Field.Basic
import Mathlib.Algebra.Order.AbsoluteValue.Basic
import Mathlib.Data.Nat.Cast.Order.Field
import Mathlib.Order.Monotone.Basic
import Mathlib.Tactic.FieldSimp
import Mathlib.Tactic.Linarith
import Mathlib.Tactic.Ring

/-!
# Rounding to nearest even

The codes of a grid stand for growing numbers. A number is rounded to the code of
the nearest of them, and where two are as near to the even code. The grid of a
binary format counts through the significands in unit steps, and doubles the step
with every turn after the first two.
-/

namespace CppHdl

variable {K : Type*} [Field K] [LinearOrder K] [IsStrictOrderedRing K]

/-- `n` is the code nearest to `x`, and of two as near the even one. -/
def NearestEven (g : Nat → K) (x : K) (n : Nat) : Prop :=
  ∀ k, |x - g n| ≤ |x - g k| ∧ (k ≠ n → |x - g n| = |x - g k| → Even n)

namespace NearestEven

variable {g : Nat → K} {x u : K} {n k lo hi : Nat}

/-- A number of the grid is its own rounding. -/
theorem exact (hg : StrictMono g) (n : Nat) : NearestEven g (g n) n := by
  intro k
  rw [sub_self, abs_zero]
  refine ⟨abs_nonneg _, fun hk heq => ?_⟩
  have hsame := sub_eq_zero.mp (abs_eq_zero.mp heq.symm)
  exact absurd (hg.injective hsame).symm hk

/-- The rounding of a number at or below a code is at or below it. -/
theorem le (hg : StrictMono g) (h : NearestEven g x n) (hx : x ≤ g k) : n ≤ k := by
  by_contra hlt
  have hstep : g k < g n := hg (not_le.mp hlt)
  have hnear := (h k).1
  rw [abs_of_nonpos (by linarith), abs_of_nonpos (by linarith)] at hnear
  linarith

theorem ge (hg : StrictMono g) (h : NearestEven g x n) (hx : g k ≤ x) : k ≤ n := by
  by_contra hlt
  have hstep : g n < g k := hg (not_le.mp hlt)
  have hnear := (h k).1
  rw [abs_of_nonneg (by linarith), abs_of_nonneg (by linarith)] at hnear
  linarith

/-- Between two even codes lies a nearer one. -/
theorem not_below (hg : StrictMono g) (hn : NearestEven g x n) (hk : NearestEven g x k) :
    ¬ n < k := by
  intro hlt
  have heq : |x - g n| = |x - g k| := le_antisymm (hn k).1 (hk n).1
  obtain ⟨i, rfl⟩ := (hn k).2 hlt.ne' heq
  obtain ⟨j, rfl⟩ := (hk (i + i)).2 hlt.ne heq.symm
  have hlow : g (i + i) < g (i + i + 1) := hg (by omega)
  have hhigh : g (i + i + 1) < g (j + j) := hg (by omega)
  -- the middle of the two is at the same distance of both
  have hmid : x - g (i + i) = g (j + j) - x := by
    rcases abs_eq_abs.mp heq with h | h
    · linarith
    · linarith
  have hnear := (hn (i + i + 1)).1
  rw [abs_of_nonneg (by linarith)] at hnear
  have hless : |x - g (i + i + 1)| < x - g (i + i) := abs_lt.mpr ⟨by linarith, by linarith⟩
  linarith

theorem unique (hg : StrictMono g) (hn : NearestEven g x n) (hk : NearestEven g x k) : n = k :=
  Nat.le_antisymm (not_lt.mp (not_below hg hk hn)) (not_lt.mp (not_below hg hn hk))

/-- Only the codes around the number matter. -/
theorem of_window (hg : StrictMono g) (hlo : g lo ≤ x) (hhi : x ≤ g hi) (hlohi : lo ≤ hi)
    (h : ∀ k, lo ≤ k → k ≤ hi → |x - g n| ≤ |x - g k| ∧
      (k ≠ n → |x - g n| = |x - g k| → Even n)) : NearestEven g x n := by
  have hoff : ∀ k, |x - g n| < |x - g k| →
      |x - g n| ≤ |x - g k| ∧ (k ≠ n → |x - g n| = |x - g k| → Even n) := fun k hk =>
    ⟨hk.le, fun _ heq => absurd heq hk.ne⟩
  intro k
  rcases Nat.lt_or_ge k lo with hk | hk
  · refine hoff k ((h lo le_rfl hlohi).1.trans_lt ?_)
    have hstep := hg hk
    rw [abs_of_nonneg (by linarith), abs_of_nonneg (by linarith)]
    linarith
  · rcases Nat.lt_or_ge hi k with hk' | hk'
    · refine hoff k ((h hi hlohi le_rfl).1.trans_lt ?_)
      have hstep := hg hk'
      rw [abs_of_nonpos (by linarith), abs_of_nonpos (by linarith)]
      linarith
    · exact h k hk hk'

theorem scale (h : NearestEven g x n) (hu : 0 < u) :
    NearestEven (fun k => g k * u) (x * u) n := by
  have hdist : ∀ k, |x * u - g k * u| = |x - g k| * u := fun k => by
    rw [← sub_mul, abs_mul, abs_of_pos hu]
  intro k
  simp only [hdist]
  refine ⟨mul_le_mul_of_nonneg_right (h k).1 hu.le, fun hk heq => (h k).2 hk ?_⟩
  exact mul_right_cancel₀ hu.ne' heq

end NearestEven

/-! ## Integers -/

/-- The quotient to nearest even. -/
def roundDiv (a b : Nat) : Nat :=
  if b < 2 * (a % b) ∨ 2 * (a % b) = b ∧ a / b % 2 = 1 then a / b + 1 else a / b

theorem nearestEven_div {a b : Nat} (hb : 0 < b) :
    NearestEven (Nat.cast : Nat → K) (a / b) (roundDiv a b) := by
  have hpos : (0 : K) < b := Nat.cast_pos.mpr hb
  have hrest : a % b < b := Nat.mod_lt _ hb
  have hsplit : (a : K) = ↑(a / b) * b + ↑(a % b) := by
    rw [← Nat.cast_mul, ← Nat.cast_add, Nat.mul_comm, Nat.div_add_mod]
  generalize hq : a / b = q at hsplit
  generalize ht : a % b = t at hsplit hrest
  have hrest' : (t : K) < b := Nat.cast_lt.mpr hrest
  -- the distances to the quotient and to its successor, in units of `1 / b`
  have hbelow : |(a : K) / b - q| = t / b := by
    have heq : (a : K) / b - q = t / b := by
      rw [hsplit]
      field_simp
      ring
    rw [heq, abs_of_nonneg (by positivity)]
  have habove : |(a : K) / b - (q + 1 : Nat)| = (b - t) / b := by
    have heq : (a : K) / b - (q + 1 : Nat) = -((b - t) / b) := by
      rw [hsplit]
      push_cast
      field_simp
      ring
    rw [heq, abs_neg, abs_of_nonneg (div_nonneg (by linarith) hpos.le)]
  have hlo : ((q : Nat) : K) ≤ a / b := by
    rw [le_div_iff₀ hpos, hsplit]
    have := Nat.cast_nonneg (α := K) t
    linarith
  have hhi : (a : K) / b ≤ ((q + 1 : Nat) : K) := by
    rw [div_le_iff₀ hpos, hsplit]
    push_cast
    linarith
  refine NearestEven.of_window Nat.strictMono_cast hlo hhi (Nat.le_succ q) fun k hk hk' => ?_
  have hcompare : ((t : K) / b ≤ (b - t) / b ↔ 2 * t ≤ b) ∧
      ((b - t : K) / b ≤ t / b ↔ b ≤ 2 * t) := by
    rw [div_le_div_iff_of_pos_right hpos, div_le_div_iff_of_pos_right hpos,
      ← Nat.cast_le (α := K), ← Nat.cast_le (α := K)]
    push_cast
    constructor <;> constructor <;> intro h <;> linarith
  have hk'' : k = q ∨ k = q + 1 := by omega
  unfold roundDiv
  rw [hq, ht]
  split_ifs with hup
  · rcases hk'' with rfl | rfl
    · rw [hbelow, habove]
      refine ⟨hcompare.2.mpr (by omega), fun _ heq => ?_⟩
      have htie := hcompare.1.mp heq.ge
      rw [Nat.even_iff]
      omega
    · exact ⟨le_rfl, fun hne => absurd rfl hne⟩
  · rcases hk'' with rfl | rfl
    · exact ⟨le_rfl, fun hne => absurd rfl hne⟩
    · rw [hbelow, habove]
      refine ⟨hcompare.1.mpr (by omega), fun _ heq => ?_⟩
      have htie := hcompare.2.mp heq.ge
      rw [Nat.even_iff]
      omega

/-- The bits below `k` are kept as one sticky bit. -/
def jam (x k : Nat) : Nat := if x % 2 ^ k = 0 then x / 2 ^ k else x / 2 ^ k ||| 1

theorem or_one_eq (q : Nat) : q ||| 1 = q / 2 * 2 + 1 := by
  have hlow : ∀ b < 2, q / 2 * 2 + b = q / 2 * 2 ||| b := fun b hb => by
    rw [Nat.mul_comm]
    exact Nat.two_pow_add_eq_or_of_lt (show b < 2 ^ 1 from hb) (q / 2)
  have hbit : q % 2 ||| 1 = 1 := by
    rcases Nat.mod_two_eq_zero_or_one q with h | h <;> rw [h] <;> rfl
  calc q ||| 1 = (q / 2 * 2 + q % 2) ||| 1 := by rw [Nat.div_add_mod']
    _ = q / 2 * 2 ||| (q % 2 ||| 1) := by rw [hlow _ (Nat.mod_lt _ two_pos), Nat.or_assoc]
    _ = q / 2 * 2 + 1 := by rw [hbit, hlow 1 one_lt_two]

theorem jam_zero (x : Nat) : jam x 0 = x := by
  unfold jam
  rw [Nat.pow_zero, Nat.mod_one, if_pos rfl, Nat.div_one]

theorem jam_pos {x : Nat} (hx : x ≠ 0) (k : Nat) : 0 < jam x k := by
  unfold jam
  rw [or_one_eq]
  split_ifs with hrest
  · exact Nat.div_pos (Nat.le_of_dvd (Nat.pos_of_ne_zero hx) (Nat.dvd_of_mod_eq_zero hrest))
      (Nat.two_pow_pos k)
  · exact Nat.succ_pos _

theorem le_jam {x k lo : Nat} (h : lo * 2 ^ k ≤ x) : lo ≤ jam x k := by
  have hdiv := (Nat.le_div_iff_mul_le (Nat.two_pow_pos k)).mpr h
  unfold jam
  rw [or_one_eq]
  split_ifs <;> omega

theorem jam_lt {x k hi : Nat} (h : x < hi * 2 ^ k) (heven : 2 ∣ hi) : jam x k < hi := by
  have hdiv := (Nat.div_lt_iff_lt_mul (Nat.two_pow_pos k)).mpr h
  unfold jam
  rw [or_one_eq]
  split_ifs <;> omega

theorem jam_le {x k hi : Nat} (h : x ≤ hi * 2 ^ k) (heven : 2 ∣ hi) : jam x k ≤ hi := by
  have hdiv := Nat.div_le_of_le_mul (Nat.mul_comm hi _ ▸ h)
  have hsplit := Nat.div_add_mod' x (2 ^ k)
  unfold jam
  rw [or_one_eq]
  split_ifs with hrest
  · exact hdiv
  · have hless : x / 2 ^ k < hi := by
      by_contra hge
      have := Nat.mul_le_mul_right (2 ^ k) (not_lt.mp hge)
      omega
    omega

/-- A sum or difference with the jammed operand is the jammed sum or difference. -/
theorem jam_add {A : Nat} (hA : 2 ∣ A) (B k : Nat) : jam (A * 2 ^ k + B) k = A + jam B k := by
  have hpos := Nat.two_pow_pos k
  unfold jam
  rw [Nat.mul_comm A, Nat.mul_add_mod, Nat.mul_add_div hpos, or_one_eq, or_one_eq]
  split_ifs <;> omega

theorem jam_sub {A B k : Nat} (hA : 2 ∣ A) (hB : B ≤ A * 2 ^ k) :
    jam (A * 2 ^ k - B) k = A - jam B k := by
  have hpos := Nat.two_pow_pos k
  have hrest := Nat.mod_lt B hpos
  have hsplit := Nat.div_add_mod' B (2 ^ k)
  unfold jam
  rw [or_one_eq, or_one_eq]
  generalize 2 ^ k = p at *
  generalize hq : B / p = q at *
  generalize B % p = r at *
  subst hsplit
  by_cases hzero : r = 0
  · rw [hzero, Nat.add_zero, ← Nat.sub_mul, if_pos (Nat.mul_mod_left ..), if_pos rfl,
      Nat.mul_div_cancel _ hpos]
  · have hless : q < A := by
      by_contra hge
      have := Nat.mul_le_mul_right p (not_lt.mp hge)
      omega
    obtain ⟨c, rfl⟩ := Nat.exists_eq_add_of_lt hless
    have hdiff : (q + c + 1) * p - (q * p + r) = p * c + (p - r) := by
      rw [Nat.add_mul, Nat.add_mul, Nat.mul_comm c]
      omega
    rw [hdiff, Nat.mul_add_mod, Nat.mod_eq_of_lt (by omega), Nat.mul_add_div hpos,
      Nat.div_eq_of_lt (by omega), if_neg (by omega), if_neg hzero]
    omega

theorem roundDiv_mul {c : Nat} (hc : 0 < c) (a b : Nat) :
    roundDiv (a * c) (b * c) = roundDiv a b := by
  have hup : b * c < 2 * (a % b * c) ↔ b < 2 * (a % b) := by
    rw [← Nat.mul_assoc]
    exact Nat.mul_lt_mul_right hc
  have htie : 2 * (a % b * c) = b * c ↔ 2 * (a % b) = b := by
    rw [← Nat.mul_assoc, Nat.mul_left_inj hc.ne']
  unfold roundDiv
  rw [Nat.mul_mod_mul_right, Nat.mul_div_mul_right _ _ hc]
  exact if_congr (or_congr hup (and_congr_left' htie)) rfl rfl

/-- A sticky bit is enough for a later rounding by two or more bits. -/
theorem roundDiv_jam {b : Nat} (hb : 4 ∣ b) (hpos : 0 < b) (x k : Nat) :
    roundDiv (jam x k) b = roundDiv x (b * 2 ^ k) := by
  have hp := Nat.two_pow_pos k
  unfold jam
  generalize 2 ^ k = p at hp ⊢
  by_cases hzero : x % p = 0
  · rw [if_pos hzero, ← roundDiv_mul hp, Nat.div_mul_cancel (Nat.dvd_of_mod_eq_zero hzero)]
  have hdiv : x / (b * p) = x / p / b := by rw [Nat.mul_comm, Nat.div_div_eq_div_mul]
  have hmod : x % (b * p) = x % p + p * (x / p % b) := by rw [Nat.mul_comm, Nat.mod_mul]
  have hr := Nat.mod_lt x hp
  have ht := Nat.mod_lt (x / p) hpos
  have hsplit := Nat.div_add_mod (x / p) b
  unfold roundDiv
  rw [hdiv, hmod]
  generalize x % p = r at hr hzero ⊢
  generalize x / p = a at ht hsplit ⊢
  generalize a / b = q at hsplit ⊢
  generalize a % b = t at ht hsplit ⊢
  subst hsplit
  have hscale : ∀ m n, m * p ≤ n * p ↔ m ≤ n := fun m n => Nat.mul_le_mul_right_iff hp
  obtain ⟨c, rfl⟩ := hb
  -- the sticky bit stands for a rest that decides every tie
  have hjam : (4 * c * q + t) ||| 1 = 4 * c * q + (t / 2 * 2 + 1) := by
    rw [or_one_eq, Nat.mul_assoc]
    omega
  have hrest : 0 < r := Nat.pos_of_ne_zero hzero
  have ht' : t / 2 * 2 + 1 < 4 * c := by omega
  have hup : 4 * c * p < 2 * (r + p * t) ↔ 4 * c ≤ 2 * t := by
    constructor
    · intro h
      by_contra hlow
      have := (hscale (2 * t + 2) (4 * c)).mpr (by omega)
      nlinarith
    · intro h
      have := (hscale _ _).mpr h
      nlinarith
  have htie : 2 * (r + p * t) ≠ 4 * c * p := by
    intro h
    by_cases hlow : 4 * c ≤ 2 * t
    · exact absurd h (hup.mpr hlow).ne'
    · have := (hscale (2 * t + 2) (4 * c)).mpr (by omega)
      nlinarith
  simp only [hzero, if_false, hjam, Nat.mul_add_mod, Nat.mod_eq_of_lt ht', Nat.mul_add_div hpos,
    Nat.div_eq_of_lt ht', Nat.add_zero, hup, htie, false_and, or_false]
  refine if_congr ?_ rfl rfl
  omega

section

variable {X d k n : Nat}

theorem le_jam_iff {lo : Nat} (heven : 2 ∣ lo) : lo ≤ jam X d ↔ lo * 2 ^ d ≤ X := by
  refine ⟨fun h => ?_, le_jam⟩
  by_contra hless
  exact absurd (jam_lt (not_le.mp hless) heven) (not_lt.mpr h)

theorem jam_mul (d S : Nat) : jam (2 ^ d * S) d = S := by
  unfold jam
  rw [if_pos (Nat.mul_mod_right ..), Nat.mul_div_cancel_left _ (Nat.two_pow_pos d)]

/-- Where no bit was lost, and where at most one is shifted in, the jammed number
keeps the order and the rounding. -/
theorem le_jam_shift (h : 2 ^ d ∣ X ∨ k ≤ 1) (hn : 2 ≤ n) :
    2 ^ n ≤ jam X d * 2 ^ k ↔ 2 ^ n * 2 ^ d ≤ X * 2 ^ k := by
  rcases h with ⟨S, rfl⟩ | h
  · rw [jam_mul, Nat.mul_comm _ S, Nat.mul_right_comm,
      Nat.mul_le_mul_right_iff (Nat.two_pow_pos d)]
  · obtain ⟨j, rfl⟩ := Nat.exists_eq_add_of_le' (h.trans (by omega : 1 ≤ n))
    rw [Nat.pow_add, Nat.mul_le_mul_right_iff (Nat.two_pow_pos k), Nat.mul_right_comm,
      Nat.mul_le_mul_right_iff (Nat.two_pow_pos k)]
    exact le_jam_iff (dvd_pow_self 2 (by omega))

theorem roundDiv_jam_shift (h : 2 ^ d ∣ X ∨ k ≤ 1) :
    roundDiv (jam X d * 2 ^ k) 8 = roundDiv (X * 2 ^ k) (2 ^ 3 * 2 ^ d) := by
  rcases h with ⟨S, rfl⟩ | h
  · rw [jam_mul, Nat.mul_comm _ S, Nat.mul_right_comm, roundDiv_mul (Nat.two_pow_pos d)]
    rfl
  · obtain ⟨b, hb, h8, hpos⟩ : ∃ b, 4 ∣ b ∧ 2 ^ 3 = b * 2 ^ k ∧ 0 < b := by
      rcases (by omega : k = 0 ∨ k = 1) with rfl | rfl
      · exact ⟨8, by decide⟩
      · exact ⟨4, by decide⟩
    have hk := Nat.two_pow_pos k
    rw [show 8 = b * 2 ^ k from h8, h8, roundDiv_mul hk, roundDiv_jam hb hpos, Nat.mul_right_comm,
      roundDiv_mul hk]

end

/-! ## Binary formats -/

/-- The number that code `E` of a format with `m` bits of mantissa counts, in units
of the first step. -/
def steps (m E : Nat) : Nat :=
  if E < 2 ^ m then E else (2 ^ m + E % 2 ^ m) * 2 ^ (E / 2 ^ m - 1)

variable {m c r j : Nat}

/-- In every turn the codes count significands. -/
theorem steps_add (hc : c = 0 ∨ 2 ^ m ≤ r) (hr : r ≤ 2 ^ (m + 1)) :
    steps m (c * 2 ^ m + r) = r * 2 ^ c := by
  have hpos := Nat.two_pow_pos m
  rw [Nat.pow_succ] at hr
  unfold steps
  rcases Nat.lt_or_ge r (2 ^ m) with hlow | hhigh
  · obtain rfl : c = 0 := hc.resolve_right (Nat.not_le.mpr hlow)
    rw [Nat.zero_mul, Nat.zero_add, if_pos hlow, Nat.pow_zero, Nat.mul_one]
  · have hge : ¬ c * 2 ^ m + r < 2 ^ m := by omega
    rw [if_neg hge]
    rcases Nat.lt_or_ge r (2 ^ m * 2) with hlt | hfull
    · obtain ⟨f, rfl⟩ := Nat.exists_eq_add_of_le hhigh
      have hf : f < 2 ^ m := by omega
      rw [← Nat.add_assoc, ← Nat.succ_mul, Nat.mul_comm c.succ, Nat.mul_add_mod,
        Nat.mul_add_div hpos, Nat.mod_eq_of_lt hf, Nat.div_eq_of_lt hf, Nat.add_zero,
        Nat.add_sub_cancel]
    · -- the last significand is the first of the next turn
      obtain rfl : r = 2 ^ m * 2 := le_antisymm hr hfull
      rw [show c * 2 ^ m + 2 ^ m * 2 = 2 ^ m * (c + 2) by ring, Nat.mul_mod_right,
        Nat.mul_div_cancel_left _ hpos, Nat.add_zero, Nat.add_sub_assoc (by decide), Nat.pow_succ]
      ring

theorem exists_turn (m E : Nat) :
    ∃ c r, E = c * 2 ^ m + r ∧ (c = 0 ∨ 2 ^ m ≤ r) ∧ r < 2 ^ (m + 1) := by
  have hpos := Nat.two_pow_pos m
  have hrest := Nat.mod_lt E hpos
  have hsplit := Nat.div_add_mod' E (2 ^ m)
  rw [Nat.pow_succ]
  rcases Nat.eq_zero_or_pos (E / 2 ^ m) with hzero | hturn
  · rw [hzero, Nat.zero_mul, Nat.zero_add] at hsplit
    exact ⟨0, E % 2 ^ m, by omega, Or.inl rfl, by omega⟩
  · obtain ⟨c, hc⟩ := Nat.exists_eq_succ_of_ne_zero hturn.ne'
    rw [hc, Nat.succ_mul] at hsplit
    exact ⟨c, 2 ^ m + E % 2 ^ m, by omega, Or.inr (Nat.le_add_right _ _), by omega⟩

theorem steps_strictMono (m : Nat) : StrictMono (steps m) := by
  refine strictMono_nat_of_lt_succ fun E => ?_
  obtain ⟨c, r, rfl, hc, hr⟩ := exists_turn m E
  rw [steps_add hc hr.le, Nat.add_assoc, steps_add (by omega) hr]
  exact Nat.mul_lt_mul_of_pos_right (Nat.lt_succ_self r) (Nat.two_pow_pos c)

/-- What has few significant bits is on the grid. -/
theorem exists_steps (hr : r < 2 ^ (m + 1)) (j : Nat) : ∃ E, steps m E = r * 2 ^ j := by
  have hpos := Nat.two_pow_pos m
  induction j with
  | zero => exact ⟨r, by simpa using @steps_add m 0 r (Or.inl rfl) hr.le⟩
  | succ j ih =>
      obtain ⟨E, hE⟩ := ih
      obtain ⟨c, r', rfl, hc, hr'⟩ := exists_turn m E
      rw [steps_add hc hr'.le] at hE
      rw [Nat.pow_succ, ← Nat.mul_assoc, ← hE]
      rcases Nat.lt_or_ge r' (2 ^ m) with hlow | hhigh
      · obtain rfl : c = 0 := hc.resolve_right (Nat.not_le.mpr hlow)
        refine ⟨0 * 2 ^ m + r' * 2, ?_⟩
        rw [steps_add (Or.inl rfl) (by rw [Nat.pow_succ]; omega), Nat.pow_zero, Nat.mul_one,
          Nat.mul_one]
      · refine ⟨(c + 1) * 2 ^ m + r', ?_⟩
        rw [steps_add (Or.inr hhigh) hr'.le, Nat.pow_succ, Nat.mul_assoc]

/-- Rounding the significand rounds the number, also where it carries into the next turn. -/
theorem NearestEven.steps {y : K} (hm : 0 < m) (h : NearestEven Nat.cast y r) (hy : 0 ≤ y)
    (hc : c = 0 ∨ 2 ^ m ≤ y) (hy' : y ≤ 2 ^ (m + 1)) :
    NearestEven (fun E => (CppHdl.steps m E : K)) (y * 2 ^ c) (c * 2 ^ m + r) := by
  have hmono : StrictMono fun E => (CppHdl.steps m E : K) :=
    Nat.strictMono_cast.comp (steps_strictMono m)
  -- the turn of the number, from its first significand on
  obtain ⟨first, hfirst, hturn⟩ : ∃ first : Nat, (first : K) ≤ y ∧
      ∀ s, first ≤ s → c = 0 ∨ 2 ^ m ≤ s := by
    rcases hc with hc | hc
    · exact ⟨0, by rwa [Nat.cast_zero], fun _ _ => Or.inl hc⟩
    · exact ⟨2 ^ m, by rwa [Nat.cast_pow, Nat.cast_ofNat], fun _ hs => Or.inr hs⟩
  have hlast : y ≤ ((2 ^ (m + 1) : Nat) : K) := by rwa [Nat.cast_pow, Nat.cast_ofNat]
  have hr : r ≤ 2 ^ (m + 1) := h.le Nat.strictMono_cast hlast
  have hfirst_le : first ≤ r := h.ge Nat.strictMono_cast hfirst
  have hvalue : ∀ s, first ≤ s → s ≤ 2 ^ (m + 1) →
      (CppHdl.steps m (c * 2 ^ m + s) : K) = s * 2 ^ c := fun s hs hs' => by
    rw [steps_add (hturn s hs) hs', Nat.cast_mul, Nat.cast_pow, Nat.cast_ofNat]
  have hscale : (0 : K) < 2 ^ c := by positivity
  have hlo : (CppHdl.steps m (c * 2 ^ m + first) : K) ≤ y * 2 ^ c := by
    rw [hvalue first le_rfl (hfirst_le.trans hr)]
    exact mul_le_mul_of_nonneg_right hfirst hscale.le
  have hhi : y * 2 ^ c ≤ (CppHdl.steps m (c * 2 ^ m + 2 ^ (m + 1)) : K) := by
    rw [hvalue _ (hfirst_le.trans hr) le_rfl]
    exact mul_le_mul_of_nonneg_right hlast hscale.le
  refine of_window hmono hlo hhi (by omega) fun k hk hk' => ?_
  obtain ⟨s, rfl⟩ := Nat.exists_eq_add_of_le (le_trans (Nat.le_add_right _ first) hk)
  rw [hvalue r hfirst_le hr, hvalue s (by omega) (by omega)]
  obtain ⟨hnear, heven⟩ := h.scale hscale s
  refine ⟨hnear, fun hne heq => ?_⟩
  have hhalf : Even (2 ^ m) := Nat.even_pow.mpr ⟨even_two, hm.ne'⟩
  exact (hhalf.mul_left c).add (heven (fun hs => hne (by rw [hs])) heq)

end CppHdl
