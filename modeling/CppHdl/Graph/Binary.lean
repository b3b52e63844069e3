import CppHdl.Graph.Wide

/-!
# `binary` computes integer operations

For addition, subtraction, multiplication, comparison, shifts and the bitwise
connectives, the bits `binary` returns hold the integer result of the operation
modulo `2 ^ width`, at every operand width and every result width. The operands
are read as unsigned numbers, except that an arithmetic shift reads its left
operand in two's complement.
-/

namespace CppHdl

open Failing

/-- The operations whose result is specified over the integers. -/
def Op.integer : Op → Bool
  | .add | .sub | .mul | .eq | .lt | .shl | .shr | .sar | .and | .or | .xor => true
  | _ => false

/-- The integer result of an operation on operands given as bits. -/
def integerResult (op : Op) (l r : List Bool) : Int :=
  let x := natOfBits l
  let y := natOfBits r
  match op with
  | .add => x + y
  | .sub => x - y
  | .mul => x * y
  | .eq => if x = y then 1 else 0
  | .lt => if x < y then 1 else 0
  | .shl => x * 2 ^ y
  | .shr => x / 2 ^ y
  | .sar => intOfBits l / 2 ^ y
  | .and => (x &&& y : Nat)
  | .or => (x ||| y : Nat)
  | _ => (x ^^^ y : Nat)

namespace World

variable {w : World}

/-- A value holds an integer when its lanes are the integer's bits. -/
theorem holds_of_lanes {v : Value} {z : Int}
    (h : ∀ i < v.length, w.look (v.getD i 0) = some ((z % 2 ^ v.length).toNat.testBit i)) :
    w.Holds v z := by
  refine ⟨_, h, ?_⟩
  rw [Int.toNat_of_nonneg (Int.emod_nonneg _ (pow_ne_zero _ (by omega)))]
  exact Int.mod_modEq _ _

/-- Read back, the integer is known up to the width. -/
theorem Holds.mapM_eq {v : Value} {z : Int} (h : w.Holds v z) :
    v.mapM w.look = some (bitsOfNat v.length (z % 2 ^ v.length).toNat) := by
  obtain ⟨x, hx, hmod⟩ := h
  rw [mapM_eq_some_iff]
  have hnum : x % 2 ^ v.length = (z % 2 ^ v.length).toNat := by
    have hcast : ((x % 2 ^ v.length : Nat) : Int) = (x : Int) % 2 ^ v.length := by
      rw [Int.natCast_emod, Int.natCast_pow, Nat.cast_ofNat]
    have : ((x % 2 ^ v.length : Nat) : Int) = z % 2 ^ v.length := hcast.trans hmod
    rw [← this, Int.toNat_natCast]
  rw [← hnum, bitsOfNat_mod]
  exact num_iff_reads.mp hx

end World

theorem toNat_beq_eq_ite (x y : Nat) : (((x == y).toNat : Nat) : Int) = if x = y then 1 else 0 := by
  by_cases h : x = y <;> simp [h]

theorem toNat_decide_eq_ite (p : Prop) [Decidable p] :
    (((decide p).toNat : Nat) : Int) = if p then 1 else 0 := by
  by_cases h : p <;> simp [h]

/-- Lanes shifted right hold the quotient. -/
theorem World.holds_of_shiftRight {w : World} {op : Op} (hop : op = .shr ∨ op = .sar)
    {v : Value} {l r : List Bool}
    (h : ∀ i < v.length, w.look (v.getD i 0) = some (shiftRightLane op l (natOfBits r) i)) :
    w.Holds v (integerResult op l r) := by
  rcases hop with rfl | rfl
  · have hnum : w.Num v (natOfBits l / 2 ^ natOfBits r) := by
      intro i hi
      rw [h i hi, Nat.testBit_div_two_pow, testBit_natOfBits, Nat.add_comm i]
      unfold shiftRightLane
      split_ifs with hin
      · rfl
      · rw [List.getD_eq_getElem?_getD, List.getElem?_eq_none (by omega)]
        rfl
    have hcast : integerResult .shr l r = ((natOfBits l / 2 ^ natOfBits r : Nat) : Int) := by
      simp only [integerResult, Int.natCast_ediv, Int.natCast_pow, Nat.cast_ofNat]
    rw [hcast]
    exact hnum.holds
  · refine World.holds_of_lanes fun i hi => ?_
    rw [h i hi, Option.some.injEq]
    simp only [integerResult]
    rw [testBit_ediv l _ hi]
    unfold shiftRightLane
    simp

/-- A machine word computes the integer result, or its lanes. -/
theorem calculate_integer {op : Op} (hop : op.integer = true) {l r : List Bool} {word : Nat}
    (hl : l.length ≤ 64) (hr : r.length ≤ 64)
    (h : calculate op (natOfBits l) (natOfBits r) l.length = .ok word) {w : World} {v : Value}
    (hv : v.length ≤ 64) (hnum : w.Num v word) : w.Holds v (integerResult op l r) := by
  have hx := natOfBits_lt l
  have hy := natOfBits_lt r
  have hmod : ∀ z : Int, (word : Int) ≡ z [ZMOD 2 ^ 64] → w.Holds v z := fun z hz =>
    ⟨word, hnum, modEq_of_le hz hv⟩
  have hshift : op = .shr ∨ op = .sar → w.Holds v (integerResult op l r) := by
    intro hop
    refine World.holds_of_shiftRight hop fun i hi => ?_
    rw [hnum i hi]
    obtain ⟨-, hshr, hsar⟩ := calculate_shift hl h (by omega : i < 64)
    unfold shiftRightLane
    rcases hop with rfl | rfl
    · rw [hshr rfl]
      split_ifs with hin
      · rfl
      · rw [List.getD_eq_getElem?_getD, List.getElem?_eq_none (by omega)]
        rfl
    · rw [hsar rfl]
      simp
  cases op <;> cases hop <;> try cases h
  case add =>
    refine hmod _ ((natCast_mod_modEq _ 64).trans ?_)
    rw [Int.natCast_add]
    rfl
  case sub =>
    obtain ⟨word', hword', heq⟩ := calculate_addSub (.inr (Eq.refl Op.sub))
      (natOfBits l) l.length (World.lt_two_pow_of_le hy hr)
    cases hword'
    exact hmod _ heq
  case mul =>
    refine hmod _ ((natCast_mod_modEq _ 64).trans ?_)
    rw [Int.natCast_mul]
    rfl
  case eq =>
    refine hmod _ ?_
    rw [toNat_beq_eq_ite]
    rfl
  case lt =>
    refine hmod _ ?_
    rw [toNat_decide_eq_ite]
    rfl
  case shl =>
    refine hmod _ ?_
    have hresult : integerResult .shl l r = ((natOfBits l * 2 ^ natOfBits r : Nat) : Int) := by
      simp only [integerResult, Int.natCast_mul, Int.natCast_pow, Nat.cast_ofNat]
    rw [hresult]
    split_ifs with hy64
    · rw [Nat.shiftLeft_eq]
      exact natCast_mod_modEq _ 64
    · -- a shift of 64 or more leaves a multiple of `2 ^ 64`
      symm
      rw [Nat.cast_zero, Int.modEq_zero_iff_dvd, Int.natCast_mul, Int.natCast_pow, Nat.cast_ofNat]
      exact (pow_dvd_pow 2 (by omega)).mul_left _
  case shr => exact hshift (.inl rfl)
  case sar => exact hshift (.inr rfl)

abbrev BuildsInteger (op : Op) (left right : Value) (width : Nat) (m : GraphM Value) : Prop :=
  GraphBuilds m fun w result => result.length = width ∧
    ∀ l r, w.Consts → w.Reads left l → w.Reads right r → w.Holds result (integerResult op l r)

theorem BuildsInteger.of_num {op : Op} {left right : Value} {width : Nat} {m : GraphM Value}
    (f : Nat → Nat → Nat)
    (hf : ∀ l r : List Bool, ((f (natOfBits l) (natOfBits r) : Nat) : Int) = integerResult op l r)
    (hm : GraphBuilds m fun w result => result.length = width ∧
      ∀ x y, w.Consts → w.Num left x → x < 2 ^ left.length → w.Num right y →
        y < 2 ^ right.length → w.Num result (f x y)) :
    BuildsInteger op left right width m := by
  refine hm.mono ?_
  rintro w result ⟨hlen, hnum⟩
  refine ⟨hlen, fun l r hw hl hr => ?_⟩
  rw [← hf]
  exact (hnum _ _ hw hl.num hl.num_lt hr.num hr.num_lt).holds

theorem wordBinary_integer {op : Op} (hop : op.integer = true) (harith : op.arithmetic = true)
    {left right : Value} {width : Nat} (hnarrow : isWide left right width = false) :
    BuildsInteger op left right width (wordBinary op left right width) := by
  simp only [isWide, decide_eq_false_iff_not, not_or, Nat.not_lt] at hnarrow
  obtain ⟨hleft, hright, hwidth⟩ := hnarrow
  refine (wordBinary_builds harith left right hwidth).mono ?_
  rintro w result ⟨hlen, hnum⟩
  refine ⟨hlen, fun l r hw hl hr => ?_⟩
  have hll := hl.length_eq
  have hrl := hr.length_eq
  obtain ⟨word, hword⟩ : ∃ word,
      calculate op (natOfBits l) (natOfBits r) l.length = .ok word := by
    cases op <;> cases hop <;> first | exact ⟨_, rfl⟩ | cases harith
  have hword' := hword
  rw [← hll] at hword'
  exact calculate_integer hop (by omega) (by omega) hword (by omega)
    (hnum _ _ word hw hl.num hl.num_lt hleft hr.num hr.num_lt hright hword')

theorem binaryCore_integer {op : Op} (hop : op.integer = true) (left right : Value) (width : Nat)
    (hsize : max left.length width ≤ 2 ^ 63) :
    BuildsInteger op left right width (binaryCore op left right width) := by
  have hword : op.arithmetic = true → isWide left right width ≠ true →
      BuildsInteger op left right width (wordBinary op left right width) := fun harith hwide =>
    wordBinary_integer hop harith (Bool.eq_false_of_not_eq_true hwide)
  have hright : op = .shr ∨ op = .sar →
      BuildsInteger op left right width (wideShiftRight op left right width) := by
    intro hshift
    refine (wideShiftRight_builds op left right width).mono ?_
    rintro w result ⟨hlen, hlanes⟩
    refine ⟨hlen, fun l r hw hl hr => World.holds_of_shiftRight hshift fun i hi => ?_⟩
    exact hlanes l _ hw hl hr.num hr.num_lt i (by omega)
  have hbitwise : op = .and ∨ op = .or ∨ op = .xor →
      BuildsInteger op left right width (bitwise op left right width) := fun hcases =>
    .of_num (bitwiseNat op) (fun l r => by rcases hcases with rfl | rfl | rfl <;> rfl)
      (bitwise_num hcases left right width)
  have hsum : op = .add ∨ op = .sub →
      BuildsInteger op left right width (wideAddSub op left right width) := by
    intro hcases
    refine (wideAddSub_builds op left right width).mono ?_
    rintro w result ⟨hlen, hnum⟩
    refine ⟨hlen, fun l r hw hl hr => ?_⟩
    have := hnum _ _ hw hl.num hl.num_lt hr.num hr.num_lt
    rcases hcases with rfl | rfl <;> exact this
  cases op <;> cases hop <;> unfold binaryCore
  case and => exact hbitwise (.inl rfl)
  case or => exact hbitwise (.inr (.inl rfl))
  case xor => exact hbitwise (.inr (.inr rfl))
  case add => exact Builds.ite (fun _ => hsum (.inl rfl)) (hword rfl)
  case sub => exact Builds.ite (fun _ => hsum (.inr rfl)) (hword rfl)
  case shr => exact Builds.ite (fun _ => hright (.inl rfl)) (hword rfl)
  case sar => exact Builds.ite (fun _ => hright (.inr rfl)) (hword rfl)
  case mul =>
    refine Builds.ite (fun _ => BuildsInteger.of_num (· * ·) (fun l r => ?_) (wideMul_builds left right width))
      (hword rfl)
    rw [Int.natCast_mul]
    rfl
  case eq =>
    exact Builds.ite (fun _ => BuildsInteger.of_num (fun x y => (x == y).toNat)
      (fun l r => toNat_beq_eq_ite _ _) (wideEq_builds left right width)) (hword rfl)
  case lt =>
    exact Builds.ite (fun _ => BuildsInteger.of_num (fun x y => (decide (x < y)).toNat)
      (fun l r => toNat_decide_eq_ite _) (wideLt_builds left right width)) (hword rfl)
  case shl =>
    refine Builds.ite (fun _ => BuildsInteger.of_num (fun x y => x * 2 ^ y) (fun l r => ?_)
      (wideShl_builds left right width hsize)) (hword rfl)
    simp only [integerResult, Int.natCast_mul, Int.natCast_pow, Nat.cast_ofNat]

/-- The bits `binary` builds hold the integer result. Vectors of `2 ^ 63` bits
do not exist; only the left shifter would notice one. -/
theorem binary_integer {op : Op} (hop : op.integer = true) (left right : Value) (width : Nat)
    (hsize : max left.length width ≤ 2 ^ 63) :
    BuildsInteger op left right width (binary op left right width) := by
  have hcore := binaryCore_integer hop left right width hsize
  refine Builds.ite (fun hmul => ?_) fun _ => hcore
  refine (powerProduct_builds left right width).bind fun product => ?_
  cases product with
  | none => exact hcore.mono fun w result h _ => h
  | some result =>
      refine Builds.pure fun w hproduct => ?_
      obtain ⟨hlen, hnum⟩ := hproduct result rfl
      refine ⟨hlen, fun l r hw hl hr => ?_⟩
      have := (hnum _ _ hw hl.num hl.num_lt hr.num hr.num_lt).holds
      rw [Int.natCast_mul] at this
      rw [hmul]
      exact this

end CppHdl
