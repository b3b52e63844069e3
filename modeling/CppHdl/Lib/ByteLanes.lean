import Mathlib.Data.Nat.Init
import Mathlib.Tactic.SplitIfs

/-!
# Memory in lanes

Cell `b` of a memory in `n` lanes lies in lane `b % n` at row `b / n`. The `n`
cells from `a` on take one cell of each lane: `laneRow` is the row it is in and
`laneOffset` how far above `a` it is. A word made of the lanes in their order is
those cells rotated.
-/

namespace CppHdl

/-! ## Rows and offsets -/

/-- The cells of lanes in their order. -/
def flat {α : Type*} (n : Nat) (lanes : Nat → Nat → α) (b : Nat) : α := lanes (b % n) (b / n)

/-- Lanes below the first address take part in the next row. -/
def laneRow (n a l : Nat) : Nat := a / n + if l < a % n then 1 else 0

def laneOffset (n a l : Nat) : Nat := if l < a % n then l + n - a % n else l - a % n

variable {n a l k : Nat}

theorem laneOffset_lt (hl : l < n) : laneOffset n a l < n := by
  unfold laneOffset
  split_ifs <;> omega

theorem lane_address (hl : l < n) : n * laneRow n a l + l = a + laneOffset n a l := by
  have hmod := Nat.mod_lt a (Nat.zero_lt_of_lt hl)
  have hdiv := Nat.div_add_mod a n
  unfold laneRow laneOffset
  split_ifs with h
  · rw [Nat.mul_add, Nat.mul_one]
    omega
  · rw [Nat.add_zero]
    omega

theorem lane_div_mod (hl : l < n) :
    (a + laneOffset n a l) / n = laneRow n a l ∧ (a + laneOffset n a l) % n = l := by
  refine (Nat.div_mod_unique (Nat.zero_lt_of_lt hl)).mpr ⟨?_, hl⟩
  rw [← lane_address hl, Nat.add_comm]

theorem laneOffset_mod (hk : k < n) : laneOffset n a ((a + k) % n) = k := by
  have hmod := Nat.mod_lt a (Nat.zero_lt_of_lt hk)
  have hsum : (a + k) % n = if a % n + k < n then a % n + k else a % n + k - n := by
    rw [Nat.add_mod, Nat.mod_eq_of_lt hk]
    split_ifs with h
    · exact Nat.mod_eq_of_lt h
    · rw [Nat.mod_eq_sub_mod (by omega), Nat.mod_eq_of_lt (by omega)]
  unfold laneOffset
  rw [hsum]
  split_ifs <;> omega

/-- Among the cells from `a` on, that of lane `l` is the one with its offset. -/
theorem flat_lane {α : Type*} (lanes : Nat → Nat → α) (hl : l < n) :
    lanes l (laneRow n a l) = flat n lanes (a + laneOffset n a l) := by
  unfold flat
  rw [(lane_div_mod hl).1, (lane_div_mod hl).2]

/-! ## Reads and writes of a flat memory -/

def loadCells {α : Type*} (mem : Nat → α) (a count : Nat) : List α :=
  (List.range count).map fun k => mem (a + k)

def storeCells {α : Type*} (mem : Nat → α) (a count : Nat) (data : Nat → α) (b : Nat) : α :=
  if a ≤ b ∧ b < a + count then data (b - a) else mem b

/-! ## Bytes of words -/

def wordByte {w : Nat} (x : BitVec w) (k : Nat) : BitVec 8 := x.extractLsb' (8 * k) 8

theorem wordByte_append {w : Nat} (high : BitVec w) (low : BitVec (8 * n)) (k : Nat) :
    wordByte (high ++ low) k = if k < n then wordByte low k else wordByte high (k - n) := by
  refine BitVec.eq_of_getLsbD_eq fun i hi => ?_
  unfold wordByte
  rw [BitVec.getLsbD_extractLsb', BitVec.getLsbD_append]
  by_cases hk : k < n
  · rw [if_pos hk, if_pos (by omega), BitVec.getLsbD_extractLsb']
  · rw [if_neg hk, if_neg (by omega), BitVec.getLsbD_extractLsb',
      show 8 * k + i - 8 * n = 8 * (k - n) + i by omega]

theorem wordByte_cast {v w : Nat} (h : v = w) (x : BitVec v) (k : Nat) :
    wordByte (x.cast h) k = wordByte x k := by
  subst h
  rfl

theorem wordByte_self (x : BitVec 8) : wordByte x 0 = x := BitVec.extractLsb'_eq_self

def ofBytes : (n : Nat) → (Nat → BitVec 8) → BitVec (8 * n)
  | 0, _ => 0
  | n + 1, bytes => (bytes n ++ ofBytes n bytes).cast (Nat.add_comm ..)

theorem wordByte_ofBytes {bytes : Nat → BitVec 8} (hk : k < n) :
    wordByte (ofBytes n bytes) k = bytes k := by
  induction n with
  | zero => omega
  | succ n ih =>
      rw [ofBytes, wordByte_cast, wordByte_append]
      split_ifs with h
      · exact ih h
      · obtain rfl : k = n := by omega
        rw [Nat.sub_self, wordByte_self]

theorem ofBytes_congr {f g : Nat → BitVec 8} (h : ∀ k < n, f k = g k) :
    ofBytes n f = ofBytes n g := by
  induction n with
  | zero => rfl
  | succ n ih =>
      rw [ofBytes, ofBytes, h n (Nat.lt_succ_self n), ih fun k hk => h k (Nat.lt_succ_of_lt hk)]

theorem wordByte_shiftRight {w : Nat} (x : BitVec w) (k s : Nat) :
    wordByte (x >>> (8 * s)) k = wordByte x (s + k) := by
  refine BitVec.eq_of_getLsbD_eq fun i hi => ?_
  unfold wordByte
  rw [BitVec.getLsbD_extractLsb', BitVec.getLsbD_extractLsb', BitVec.getLsbD_ushiftRight,
    show 8 * s + (8 * k + i) = 8 * (s + k) + i by omega]

theorem wordByte_setWidth {v w : Nat} (x : BitVec v) (hk : 8 * k + 8 ≤ w) :
    wordByte (x.setWidth w) k = wordByte x k := by
  refine BitVec.eq_of_getLsbD_eq fun i hi => ?_
  unfold wordByte
  have hin : 8 * k + i < w := by omega
  rw [BitVec.getLsbD_extractLsb', BitVec.getLsbD_extractLsb', BitVec.getLsbD_setWidth,
    decide_eq_true hin, Bool.true_and]

/-- A word behind itself, shifted by bytes, is the word rotated. -/
theorem wordByte_rotate {bytes : Nat → BitVec 8} {s : Nat} (hs : s < n) (hk : k < n) :
    wordByte ((ofBytes n bytes ++ ofBytes n bytes) >>> (8 * s)) k = bytes ((s + k) % n) := by
  rw [wordByte_shiftRight, wordByte_append]
  split_ifs with h
  · rw [wordByte_ofBytes h, Nat.mod_eq_of_lt h]
  · rw [wordByte_ofBytes (by omega), Nat.mod_eq_sub_mod (by omega), Nat.mod_eq_of_lt (by omega)]

/-- Lanes at their rows, as a word rotated by the first address, are the cells in order. -/
theorem wordByte_lanes (lanes : Nat → Nat → BitVec 8) (a : Nat) (hk : k < n) :
    let word := ofBytes n fun l => lanes l (laneRow n a l)
    wordByte ((word ++ word) >>> (8 * (a % n))) k = flat n lanes (a + k) := by
  have hn := Nat.zero_lt_of_lt hk
  intro word
  rw [wordByte_rotate (Nat.mod_lt a hn) hk, flat_lane lanes (Nat.mod_lt _ hn), Nat.mod_add_mod,
    laneOffset_mod hk]

end CppHdl
