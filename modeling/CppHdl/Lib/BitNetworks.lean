import Mathlib.Data.Nat.ModEq
import CppHdl.Lib.Bits

/-!
# Arithmetic on bit lists, one lane at a time

The textbook networks of a gate library as functions on little-endian bit
lists: the ripple adder and subtractor, the comparator that keeps the verdict of
the highest differing lane, the stages of a barrel shifter, the 3:2 compressor
of a carry-save tree and the restoring divider. Each is stated in terms of the
numbers the lists denote.
-/

namespace CppHdl

/-! ## Addition -/

/-- The sum of two bit lists and a carry; the carry out is dropped. -/
def rippleSum : Bool → List Bool → List Bool → List Bool
  | carry, x :: xs, y :: ys =>
      ((x ^^ y) ^^ carry) :: rippleSum ((x && y) || ((x ^^ y) && carry)) xs ys
  | _, _, _ => []

theorem length_rippleSum {carry : Bool} {xs ys : List Bool} (h : xs.length = ys.length) :
    (rippleSum carry xs ys).length = xs.length := by
  induction xs generalizing carry ys with
  | nil => simp [rippleSum]
  | cons x xs ih =>
      obtain _ | ⟨y, ys⟩ := ys
      · simp at h
      · simp [rippleSum, ih (Nat.succ.inj h)]

theorem fullAdder (x y carry : Bool) :
    (((x ^^ y) ^^ carry)).toNat + 2 * ((x && y) || ((x ^^ y) && carry)).toNat =
      carry.toNat + x.toNat + y.toNat := by
  cases x <;> cases y <;> cases carry <;> rfl

theorem natOfBits_rippleSum {carry : Bool} {xs ys : List Bool} (h : xs.length = ys.length) :
    natOfBits (rippleSum carry xs ys) ≡
      carry.toNat + natOfBits xs + natOfBits ys [MOD 2 ^ xs.length] := by
  induction xs generalizing carry ys with
  | nil =>
      rw [List.length_nil, Nat.pow_zero]
      exact Nat.modEq_one
  | cons x xs ih =>
      obtain _ | ⟨y, ys⟩ := ys
      · simp at h
      have hlane := fullAdder x y carry
      have hrest : natOfBits (rippleSum ((x && y) || ((x ^^ y) && carry)) xs ys) ≡ _
          [MOD 2 ^ xs.length] := ih (Nat.succ.inj h)
      have htail := hrest.mul_left' 2
      rw [← Nat.pow_succ'] at htail
      rw [rippleSum, natOfBits_cons, natOfBits_cons, natOfBits_cons, List.length_cons]
      calc _ ≡ ((x ^^ y) ^^ carry).toNat + 2 * (((x && y) || ((x ^^ y) && carry)).toNat +
              natOfBits xs + natOfBits ys) [MOD 2 ^ (xs.length + 1)] := htail.add_left _
        _ = _ := by omega

theorem natOfBits_sum {xs ys : List Bool} (h : xs.length = ys.length) :
    natOfBits (rippleSum false xs ys) = (natOfBits xs + natOfBits ys) % 2 ^ xs.length := by
  have hsum : natOfBits (rippleSum false xs ys) % 2 ^ xs.length = _ :=
    natOfBits_rippleSum h
  rw [Nat.mod_eq_of_lt (by rw [← length_rippleSum h]; exact natOfBits_lt _)] at hsum
  rw [hsum, Bool.toNat_false, Nat.zero_add]

/-- Subtraction adds the complement and one. -/
theorem natOfBits_difference {xs ys : List Bool} (h : xs.length = ys.length) :
    natOfBits (rippleSum true xs (ys.map not)) =
      (natOfBits xs + (2 ^ xs.length - natOfBits ys)) % 2 ^ xs.length := by
  have hlen : xs.length = (ys.map not).length := by rw [List.length_map, h]
  have hsum : natOfBits (rippleSum true xs (ys.map not)) % 2 ^ xs.length = _ :=
    natOfBits_rippleSum hlen
  rw [Nat.mod_eq_of_lt (by rw [← length_rippleSum hlen]; exact natOfBits_lt _)] at hsum
  have hlt := natOfBits_lt ys
  rw [hsum, natOfBits_map_not, h, Bool.toNat_true]
  congr 1
  omega

theorem natOfBits_difference_of_le {xs ys : List Bool} (h : xs.length = ys.length)
    (hle : natOfBits ys ≤ natOfBits xs) :
    natOfBits (rippleSum true xs (ys.map not)) = natOfBits xs - natOfBits ys := by
  have hx := natOfBits_lt xs
  rw [natOfBits_difference h, ← Nat.add_sub_assoc (by omega), Nat.add_comm, Nat.add_sub_assoc hle,
    Nat.add_mod_left, Nat.mod_eq_of_lt (by omega)]

/-! ## Comparison -/

/-- Below, from the low end: the highest lane that differs decides, and a tie
keeps the verdict brought in. -/
def lessBits : Bool → List Bool → List Bool → Bool
  | verdict, x :: xs, y :: ys => lessBits (if x = y then verdict else y) xs ys
  | verdict, _, _ => verdict

theorem lessBits_eq {verdict : Bool} {xs ys : List Bool} (h : xs.length = ys.length) :
    lessBits verdict xs ys =
      decide (natOfBits xs < natOfBits ys ∨ natOfBits xs = natOfBits ys ∧ verdict = true) := by
  induction xs generalizing verdict ys with
  | nil =>
      obtain rfl : ys = [] := List.length_eq_zero_iff.mp h.symm
      simp [lessBits]
  | cons x xs ih =>
      obtain _ | ⟨y, ys⟩ := ys
      · simp at h
      rw [lessBits, ih (Nat.succ.inj h), natOfBits_cons, natOfBits_cons, decide_eq_decide]
      cases x <;> cases y <;> simp <;> omega

theorem lessBits_false {xs ys : List Bool} (h : xs.length = ys.length) :
    lessBits false xs ys = decide (natOfBits xs < natOfBits ys) := by
  simp [lessBits_eq h]

/-! ## Shifting -/

/-- A list moved by `distance` lanes; vacated lanes read `fill`. -/
def movedBy {α : Type} (left : Bool) (fill : α) (distance : Nat) (l : List α) : List α :=
  (List.range l.length).map fun i =>
    if left then if distance ≤ i then l.getD (i - distance) fill else fill
    else l.getD (i + distance) fill

section Moved

variable {α : Type} (left : Bool) (fill : α) (l : List α)

@[simp] theorem length_movedBy (distance : Nat) :
    (movedBy left fill distance l).length = l.length := by
  simp [movedBy]

theorem getD_movedBy (distance i : Nat) :
    (movedBy left fill distance l).getD i fill =
      if l.length ≤ i then fill
      else if left then if distance ≤ i then l.getD (i - distance) fill else fill
      else l.getD (i + distance) fill := by
  unfold movedBy
  rw [List.getD_eq_getElem?_getD, List.getElem?_map]
  by_cases hi : l.length ≤ i
  · rw [List.getElem?_eq_none (by simpa using hi), if_pos hi]
    rfl
  · rw [List.getElem?_range (by omega), if_neg hi]
    rfl

theorem movedBy_zero : movedBy left fill 0 l = l := by
  apply List.ext_getElem (by simp)
  intro i h _
  have hi : i < l.length := by simpa using h
  simp [movedBy, hi]

theorem movedBy_movedBy (d e : Nat) :
    movedBy left fill e (movedBy left fill d l) = movedBy left fill (d + e) l := by
  apply List.ext_getElem (by simp)
  intro i h _
  have hi : i < l.length := by simpa using h
  conv_lhs => rw [← List.getD_eq_getElem _ fill h, getD_movedBy]
  conv_rhs => rw [← List.getD_eq_getElem _ fill (by simpa using hi), getD_movedBy]
  simp only [length_movedBy, getD_movedBy]
  cases left with
  | true =>
      simp only [if_true]
      split_ifs <;> first | rfl | omega | (congr 1; omega)
  | false =>
      simp only [Bool.false_eq_true, if_false, if_neg (show ¬ l.length ≤ i by omega)]
      split_ifs with hout
      · rw [List.getD_eq_default _ _ (by omega)]
      · congr 1
        omega

/-- Moving by the length or more leaves only the fill. -/
theorem movedBy_of_length_le {distance : Nat} (h : l.length ≤ distance) :
    movedBy left fill distance l = List.replicate l.length fill := by
  apply List.ext_getElem (by simp)
  intro i hi _
  have hlt : i < l.length := by simpa using hi
  have hfar : ¬ distance ≤ i := by omega
  rw [List.getElem_replicate, ← List.getD_eq_getElem _ fill hi, getD_movedBy,
    if_neg (show ¬ l.length ≤ i by omega), if_neg hfar, List.getD_eq_default _ _ (by omega),
    ite_self]

end Moved

/-! ## Carry-save addition -/

/-- Three rows become a row of sums and a row of majorities, which counts
double. The majority of the last lane is dropped. -/
def carrySave : List Bool → List Bool → List Bool → List Bool × List Bool
  | x :: xs, y :: ys, z :: zs =>
      let rest := carrySave xs ys zs
      (((x ^^ y) ^^ z) :: rest.1,
        (if xs.isEmpty then [] else [(x && y) || ((x ^^ y) && z)]) ++ rest.2)
  | _, _, _ => ([], [])

theorem natOfBits_carrySave {xs ys zs : List Bool} (hy : ys.length = xs.length)
    (hz : zs.length = xs.length) :
    natOfBits (carrySave xs ys zs).1 + 2 * natOfBits (carrySave xs ys zs).2 ≡
      natOfBits xs + natOfBits ys + natOfBits zs [MOD 2 ^ xs.length] := by
  induction xs generalizing ys zs with
  | nil =>
      rw [List.length_nil, Nat.pow_zero]
      exact Nat.modEq_one
  | cons x xs ih =>
      obtain _ | ⟨y, ys⟩ := ys
      · simp at hy
      obtain _ | ⟨z, zs⟩ := zs
      · simp at hz
      have hlane := fullAdder x y z
      have htail := (ih (Nat.succ.inj hy) (Nat.succ.inj hz)).mul_left' 2
      rw [← Nat.pow_succ'] at htail
      simp only [carrySave, natOfBits_cons, List.length_cons]
      by_cases hlast : xs = []
      · -- one lane: the dropped majority is a multiple of the modulus
        subst hlast
        obtain rfl : ys = [] := List.length_eq_zero_iff.mp (Nat.succ.inj hy)
        obtain rfl : zs = [] := List.length_eq_zero_iff.mp (Nat.succ.inj hz)
        simp only [carrySave, natOfBits_nil, List.isEmpty_nil, if_true, List.append_nil]
        change _ % 2 = _ % 2
        omega
      · rw [if_neg (by simpa using hlast), List.singleton_append, natOfBits_cons]
        calc _ = (((x ^^ y) ^^ z)).toNat + 2 * ((x && y) || ((x ^^ y) && z)).toNat +
                2 * (natOfBits (carrySave xs ys zs).1 + 2 * natOfBits (carrySave xs ys zs).2) := by
              omega
          _ ≡ (((x ^^ y) ^^ z)).toNat + 2 * ((x && y) || ((x ^^ y) && z)).toNat +
                2 * (natOfBits xs + natOfBits ys + natOfBits zs) [MOD 2 ^ (xs.length + 1)] :=
              htail.add_left _
          _ = _ := by omega

/-! ## Restoring division -/

/-- The remainder and the quotient after the lanes of the dividend, highest
first. -/
def restored (divisor : List Bool) : List Bool → List Bool × List Bool
  | [] => (List.replicate divisor.length false, [])
  | bit :: higher =>
      let (rem, quotient) := restored divisor higher
      let rem := (bit :: rem).take divisor.length
      let fits := !lessBits false rem divisor
      (if fits then rippleSum true rem (divisor.map not) else rem, fits :: quotient)

/-- What the divider keeps, lane by lane: `dividend = divisor * quotient + rem`. -/
structure Restored (divisor dividend : List Bool) (result : List Bool × List Bool) : Prop where
  remLength : result.1.length = divisor.length
  quotientLength : result.2.length = dividend.length
  rem_lt : natOfBits result.1 < natOfBits divisor
  eq : natOfBits result.1 + natOfBits divisor * natOfBits result.2 = natOfBits dividend

/-- The divisor has a spare lane, so that a doubled remainder fits. -/
theorem restored_spec {divisor : List Bool} (hpos : 0 < natOfBits divisor)
    (hspare : 2 * natOfBits divisor ≤ 2 ^ divisor.length) (dividend : List Bool) :
    Restored divisor dividend (restored divisor dividend) := by
  induction dividend with
  | nil => exact ⟨by simp [restored], rfl, by simpa [restored] using hpos, by simp [restored]⟩
  | cons bit higher ih =>
      have hbit := Bool.toNat_le bit
      generalize hrem : (bit :: (restored divisor higher).1).take divisor.length = rem
      have hremLength : rem.length = divisor.length := by
        rw [← hrem, List.length_take, List.length_cons, ih.remLength]
        omega
      have hvalue : natOfBits rem = bit.toNat + 2 * natOfBits (restored divisor higher).1 := by
        have := ih.rem_lt
        rw [← hrem, natOfBits_take, natOfBits_cons, Nat.mod_eq_of_lt (by omega)]
      have hstep : restored divisor (bit :: higher) =
          (if !lessBits false rem divisor then rippleSum true rem (divisor.map not) else rem,
            (!lessBits false rem divisor) :: (restored divisor higher).2) := by
        rw [← hrem]
        rfl
      have heq := ih.eq
      have hlt := ih.rem_lt
      rw [hstep, lessBits_false hremLength]
      by_cases hfits : natOfBits rem < natOfBits divisor
      · rw [decide_eq_true hfits]
        refine ⟨hremLength, by simp [ih.quotientLength], hfits, ?_⟩
        simp only [Bool.not_true, Bool.false_eq_true, if_false, natOfBits_cons, Bool.toNat_false]
        rw [hvalue, ← heq]
        ring
      · rw [decide_eq_false hfits]
        have hdifference := natOfBits_difference_of_le hremLength (by omega)
        refine ⟨?_, by simp [ih.quotientLength], ?_, ?_⟩
        · simp only [Bool.not_false, if_true]
          rw [length_rippleSum (by rw [List.length_map, hremLength]), hremLength]
        · simp only [Bool.not_false, if_true]
          rw [hdifference]
          omega
        · simp only [Bool.not_false, if_true, natOfBits_cons, Bool.toNat_true]
          rw [hdifference, ← heq, Nat.mul_add, Nat.mul_one, ← Nat.mul_assoc, Nat.mul_comm _ 2,
            Nat.mul_assoc]
          omega

theorem natOfBits_restored {divisor : List Bool} (hpos : 0 < natOfBits divisor)
    (hspare : 2 * natOfBits divisor ≤ 2 ^ divisor.length) (dividend : List Bool) :
    natOfBits (restored divisor dividend).1 = natOfBits dividend % natOfBits divisor ∧
      natOfBits (restored divisor dividend).2 = natOfBits dividend / natOfBits divisor := by
  have hspec := restored_spec hpos hspare dividend
  rw [← hspec.eq]
  constructor
  · rw [Nat.add_mul_mod_self_left, Nat.mod_eq_of_lt hspec.rem_lt]
  · rw [Nat.add_mul_div_left _ _ hpos, Nat.div_eq_of_lt hspec.rem_lt, Nat.zero_add]

end CppHdl
