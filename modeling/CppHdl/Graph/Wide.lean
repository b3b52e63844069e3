import Mathlib.Data.Int.ModEq
import CppHdl.Graph.Number

/-!
# Arithmetic beyond the machine word

The operators on operands or results of more than 64 bits, each by the
invariant of its loop: a comparison decided by the words so far, the shift
amount applied so far, the carry out of the limbs so far, the partial product
so far. `binary` then computes the integer operation modulo `2 ^ width` at
every width.
-/

namespace CppHdl

open Failing

namespace World

variable {w : World}

theorem num_of_look {v : Value} (hv : v.length = 1) {b : Bool}
    (h : w.look (v.getD 0 0) = some b) : w.Num v b.toNat := by
  intro i hi
  obtain rfl : i = 0 := by omega
  rw [h, testBit_toNat_zero]

theorem Num.look_bit {v : Value} (hv : v.length = 1) {b : Bool} (h : w.Num v b.toNat) :
    w.look (v.getD 0 0) = some b := by
  rw [h 0 (by omega), testBit_toNat_zero]

theorem lt_two_pow_of_le {x m n : Nat} (h : x < 2 ^ m) (hmn : m ≤ n) : x < 2 ^ n :=
  Nat.lt_of_lt_of_le h (Nat.pow_le_pow_right (by omega) hmn)

theorem Num.reads_any {v : Value} {x : Nat} (h : w.Num v x) (hx : x < 2 ^ v.length) :
    ∃ bits, w.Reads v bits ∧ bits.any id = decide (x ≠ 0) := by
  refine ⟨_, num_iff_reads.mp h, ?_⟩
  have hzero := natOfBits_eq_zero_iff (bitsOfNat v.length x)
  rw [natOfBits_bitsOfNat, Nat.mod_eq_of_lt hx] at hzero
  by_cases h0 : x = 0
  · rw [hzero.mp h0, decide_eq_false (by simpa using h0)]
  · rw [decide_eq_true h0]
    exact Bool.eq_true_of_not_eq_false fun hf => h0 (hzero.mpr hf)

theorem reads_of_look {v : Value} (hv : v.length = 1) {b : Bool}
    (h : w.look (v.getD 0 0) = some b) : w.Reads v [b] := by
  obtain ⟨c, rfl⟩ := List.length_eq_one_iff.mp hv
  exact reads_singleton.mpr h

theorem num_of_mux {condition yes no result : Value} (hw : w.Consts)
    (hmux : ∀ bits, w.Consts → w.Reads condition bits →
      w.Follows result (if bits.any id then yes else no))
    {c : Bool} (hc : w.Num condition c.toNat) (hlen : condition.length = 1) {x : Nat}
    (hx : w.Num (if c then yes else no) x) : w.Num result x := by
  have hread : w.Reads condition [c] := by
    rw [num_iff_reads, hlen] at hc
    cases c <;> exact hc
  have := hmux [c] hw hread
  rw [show [c].any id = c by simp] at this
  exact this.num hx

end World

/-! ## Comparison -/

theorem wideEq_builds (left right : Value) (width : Nat) :
    GraphBuilds (wideEq left right width) fun w result => result.length = width ∧
      ∀ x y, w.Consts → w.Num left x → x < 2 ^ left.length → w.Num right y →
        y < 2 ^ right.length → w.Num result (x == y).toNat := by
  unfold wideEq
  refine (bitwise_num (.inr (.inr rfl)) _ _ _).bind fun different =>
    (unary_builds (rfl : Op.reduces .any = true) different).bind fun any =>
    (unaryNot_num any).bind fun same => Builds.pure ?_
  rintro w ⟨hsame, hnot⟩ ⟨hany, hreduce⟩ ⟨hdifferent, hxor⟩
  refine ⟨length_resize _ _ _, fun x y hw hl hx hr hy => ?_⟩
  simp only [length_resize] at hxor
  have hx' := World.lt_two_pow_of_le hx (Nat.le_max_left left.length right.length)
  have hy' := World.lt_two_pow_of_le hy (Nat.le_max_right left.length right.length)
  have hnum := hxor x y hw (hw.num_resize hl hx _) hx' (hw.num_resize hr hy _) hy'
  obtain ⟨bits, hbits, hdecide⟩ := hnum.reads_any (by
    rw [hdifferent]; exact Nat.xor_lt_two_pow hx' hy')
  have hflag : w.look (any.getD 0 0) = some (!(x == y)) := by
    rw [hreduce bits hw hbits, show reduction .any bits = bits.any id from rfl, hdecide]
    simp only [bitwiseNat, ne_eq, Nat.xor_eq_zero_iff]
    by_cases hxy : x = y <;> simp [hxy]
  have hlt : ((!(x == y)).toNat) < 2 ^ any.length := by
    rw [hany]; cases (x == y) <;> decide
  have := hnot _ hw (World.num_of_look hany hflag) hlt
  rw [hany] at this
  refine hw.num_resize (x := (x == y).toNat) ?_ ?_ _
  · cases hxy : (x == y) <;> rw [hxy] at this <;> exact this
  · rw [hsame, hany]; cases (x == y) <;> decide

/-- One step of a comparison from the low end. -/
theorem lt_mod_add {x y k n : Nat} :
    x % 2 ^ (k + n) < y % 2 ^ (k + n) ↔
      if x / 2 ^ k % 2 ^ n = y / 2 ^ k % 2 ^ n then x % 2 ^ k < y % 2 ^ k
      else x / 2 ^ k % 2 ^ n < y / 2 ^ k % 2 ^ n := by
  rw [Nat.pow_add, Nat.mod_mul, Nat.mod_mul (x := y)]
  have hx : x % 2 ^ k < 2 ^ k := Nat.mod_lt _ (Nat.two_pow_pos k)
  have hy : y % 2 ^ k < 2 ^ k := Nat.mod_lt _ (Nat.two_pow_pos k)
  split_ifs with h
  · rw [h]; omega
  · rcases Nat.lt_or_gt_of_ne h with hlt | hgt
    · have := Nat.mul_le_mul_left (2 ^ k) hlt
      rw [Nat.mul_succ] at this
      exact ⟨fun _ => hlt, fun _ => by omega⟩
    · have := Nat.mul_le_mul_left (2 ^ k) hgt
      rw [Nat.mul_succ] at this
      exact ⟨fun h' => by omega, fun h' => by omega⟩

/-- A slice reads the corresponding digits, as a number that fits. -/
theorem World.Consts.num_digits {w : World} (hw : w.Consts) {v : Value} {x : Nat}
    (h : w.Num v x) (hx : x < 2 ^ v.length) (offset width : Nat) :
    w.Num (slice v offset width) (x / 2 ^ offset % 2 ^ width) := by
  refine (hw.num_slice h hx offset width).congr ?_
  rw [length_slice, Nat.mod_mod]

theorem wideLt_builds (left right : Value) (width : Nat) :
    GraphBuilds (wideLt left right width) fun w result => result.length = width ∧
      ∀ x y, w.Consts → w.Num left x → x < 2 ^ left.length → w.Num right y →
        y < 2 ^ right.length → w.Num result (decide (x < y)).toNat := by
  unfold wideLt
  generalize hcount : max left.length right.length = count
  refine Builds.bind (builds_chunks (by omega) (fun offset w (less : Value) => less.length = 1 ∧
    ∀ x y, w.Consts → w.Num (resize left count) x → x < 2 ^ count → w.Num (resize right count) y →
      y < 2 ^ count → w.Num less (decide (x % 2 ^ offset < y % 2 ^ offset)).toNat) ?_ ?_)
    fun less => Builds.pure ?_
  · refine fun w => ⟨rfl, fun x y hw _ _ _ _ => ?_⟩
    rw [Nat.pow_zero, Nat.mod_one, Nat.mod_one]
    exact hw.num_replicate_zero 1
  · intro offset less hoffset
    generalize hlength : min 64 (count - offset) = length
    refine (wordBinary_builds (rfl : Op.arithmetic .eq = true) _ _ (by omega)).bind fun same =>
      (wordBinary_builds (rfl : Op.arithmetic .lt = true) _ _ (by omega)).bind fun below =>
      (mux_builds _ _ _).mono ?_
    rintro w result ⟨hresult, -, hmux⟩ ⟨-, hbelow⟩ ⟨hsame, heq⟩ ⟨hless, hdone⟩
    refine ⟨hresult.trans hless, fun x y hw hl hx hr hy => ?_⟩
    simp only [length_slice] at heq hbelow
    have hdigit : ∀ z, z / 2 ^ offset % 2 ^ length < 2 ^ length :=
      fun z => Nat.mod_lt _ (Nat.two_pow_pos _)
    have ha := hw.num_digits hl (by rwa [length_resize]) offset length
    have hb := hw.num_digits hr (by rwa [length_resize]) offset length
    have hs := heq _ _ _ hw ha (hdigit x) (by omega) hb (hdigit y) (by omega) rfl
    have hlt := hbelow _ _ _ hw ha (hdigit x) (by omega) hb (hdigit y) (by omega) rfl
    rw [show min (offset + 64) count = offset + length by omega]
    refine World.num_of_mux hw hmux hs hsame ?_
    have hstep := lt_mod_add (x := x) (y := y) (k := offset) (n := length)
    by_cases hdig : x / 2 ^ offset % 2 ^ length = y / 2 ^ offset % 2 ^ length
    · rw [if_pos hdig] at hstep
      simp only [hdig, BEq.rfl, if_true, hstep]
      exact hdone x y hw hl hx hr hy
    · rw [if_neg hdig] at hstep
      simp only [beq_false_of_ne hdig, Bool.false_eq_true, if_false, hstep]
      exact hlt
  · rintro w ⟨hless, hread⟩
    refine ⟨length_resize _ _ _, fun x y hw hl hx hr hy => ?_⟩
    have hx' := World.lt_two_pow_of_le hx (by omega : left.length ≤ count)
    have hy' := World.lt_two_pow_of_le hy (by omega : right.length ≤ count)
    have := hread x y hw (hw.num_resize hl hx _) hx' (hw.num_resize hr hy _) hy'
    rw [Nat.mod_eq_of_lt hx', Nat.mod_eq_of_lt hy'] at this
    refine hw.num_resize this ?_ _
    rw [hless]; cases decide (x < y) <;> decide

/-! ## Sums -/

/-- What the limbs of `right` add up to: the operand, or its complement. -/
def addend (op : Op) (y k : Nat) : Nat :=
  if op = .sub then 2 ^ k - (y % 2 ^ k + 1) else y % 2 ^ k

theorem addend_lt (op : Op) (y k : Nat) : addend op y k < 2 ^ k := by
  have := Nat.mod_lt y (Nat.two_pow_pos k)
  unfold addend
  split_ifs <;> omega

theorem mod_two_pow_add (x k n : Nat) :
    x % 2 ^ (k + n) = x % 2 ^ k + 2 ^ k * (x / 2 ^ k % 2 ^ n) := by
  rw [Nat.pow_add, Nat.mod_mul]

theorem addend_add (op : Op) (y k n : Nat) :
    addend op y (k + n) = addend op y k + 2 ^ k * addend op (y / 2 ^ k) n := by
  unfold addend
  rw [mod_two_pow_add]
  have hlow := Nat.mod_lt y (Nat.two_pow_pos k)
  have hhigh := Nat.mod_lt (y / 2 ^ k) (Nat.two_pow_pos n)
  split_ifs
  · rw [Nat.pow_add]
    generalize y / 2 ^ k % 2 ^ n = high at hhigh ⊢
    obtain ⟨rest, hrest⟩ := Nat.exists_eq_add_of_lt hhigh
    rw [hrest, show high + rest + 1 - (high + 1) = rest by omega]
    have hexpand : 2 ^ k * (high + rest + 1) = 2 ^ k * high + 2 ^ k * rest + 2 ^ k := by ring
    omega
  · rfl

/-- The sum of the limbs below `k`, carry into bit 0 included. -/
def limbSum (op : Op) (x y k : Nat) : Nat :=
  x % 2 ^ k + addend op y k + if op = .sub then 1 else 0

theorem limbSum_lt (op : Op) (x y k : Nat) : limbSum op x y k < 2 * 2 ^ k := by
  have hx := Nat.mod_lt x (Nat.two_pow_pos k)
  have hy := addend_lt op y k
  unfold limbSum
  split_ifs <;> omega

theorem limbSum_add (op : Op) (x y k n : Nat) :
    limbSum op x y (k + n) = limbSum op x y k % 2 ^ k +
      2 ^ k * (x / 2 ^ k % 2 ^ n + addend op (y / 2 ^ k) n + limbSum op x y k / 2 ^ k) := by
  have hsplit := Nat.mod_add_div (limbSum op x y k) (2 ^ k)
  have : limbSum op x y (k + n) =
      limbSum op x y k + 2 ^ k * (x / 2 ^ k % 2 ^ n + addend op (y / 2 ^ k) n) := by
    unfold limbSum
    rw [mod_two_pow_add, addend_add]
    ring
  rw [this]
  conv_lhs => rw [← hsplit]
  ring

theorem addendLimb_builds (op : Op) (limb : Value) :
    GraphBuilds (addendLimb op limb) fun w result => result.length = limb.length ∧
      ∀ y, w.Consts → w.Num limb y → y < 2 ^ limb.length →
        w.Num result (addend op y limb.length) := by
  unfold addendLimb addend
  refine Builds.ite (fun hop => ?_) fun hop => Builds.pure fun w => ⟨rfl, fun y _ hy hlt => ?_⟩
  · refine (unaryNot_num limb).mono ?_
    rintro w result ⟨hlen, hnot⟩
    refine ⟨hlen, fun y hw hy hlt => ?_⟩
    rw [if_pos hop, Nat.mod_eq_of_lt hlt]
    exact hnot y hw hy hlt
  · rw [if_neg hop, Nat.mod_eq_of_lt hlt]
    exact hy

/-- The invariant of the limb loop: the sum so far and the carry out of it. -/
def SumSoFar (op : Op) (left right : Value) (offset : Nat) (w : World) (acc : Value × Value) :
    Prop :=
  acc.1.length = offset ∧ acc.2.length = 1 ∧
    ∀ x y, w.Consts → w.Num left x → x < 2 ^ left.length → w.Num right y →
      y < 2 ^ right.length →
      w.Num acc.1 (limbSum op x y offset) ∧ w.Num acc.2 (limbSum op x y offset / 2 ^ offset)

theorem addLimb_builds (op : Op) (left right : Value) {width offset : Nat}
    (hoffset : offset < width) (acc : Value × Value) :
    GraphBuilds (addLimb op left right width acc offset) fun w result =>
      SumSoFar op left right offset w acc →
        SumSoFar op left right (min (offset + 32) width) w result := by
  obtain ⟨result, carry⟩ := acc
  unfold addLimb
  simp only
  generalize hcount : min 32 (width - offset) = count
  refine (addendLimb_builds _ _).bind fun b =>
    (wordBinary_builds (rfl : Op.arithmetic .add = true) _ _ (by omega)).bind fun first =>
    (wordBinary_builds (rfl : Op.arithmetic .add = true) _ _ (by omega)).bind fun sum => Builds.pure ?_
  rintro w ⟨hsum, hadd₂⟩ ⟨hfirst, hadd₁⟩ ⟨hb, haddend⟩ ⟨hresult, hcarry, hsofar⟩
  simp only [length_resize, length_slice] at hadd₁ hadd₂ hb haddend
  have hnext : min (offset + 32) width = offset + count := by omega
  refine ⟨?_, length_slice _ _ _, fun x y hw hl hx hr hy => ?_⟩
  · rw [List.length_append, length_slice, hresult, hnext]
  obtain ⟨hnum, hcin⟩ := hsofar x y hw hl hx hr hy
  have hpow : 2 ^ (count + 1) = 2 * 2 ^ count := by rw [Nat.pow_succ, Nat.mul_comm]
  have hsmall : 2 ^ count ≤ 2 ^ 32 := Nat.pow_le_pow_right (by omega) (by omega)
  have hdigit : x / 2 ^ offset % 2 ^ count < 2 ^ count := Nat.mod_lt _ (Nat.two_pow_pos _)
  have hy' := addend_lt op (y / 2 ^ offset % 2 ^ count) count
  have hc : limbSum op x y offset / 2 ^ offset < 2 :=
    (Nat.div_lt_iff_lt_mul (Nat.two_pow_pos _)).mpr (limbSum_lt op x y offset)
  have ha := hw.num_resize (hw.num_digits hl hx offset count)
    (by rw [length_slice]; exact hdigit) (count + 1)
  have hb' := haddend _ hw (hw.num_digits hr hy offset count) (Nat.mod_lt _ (Nat.two_pow_pos _))
  have hbr := hw.num_resize hb' (by rw [hb]; exact hy') (count + 1)
  have h₁ := hadd₁ _ _ _ hw ha (by omega) (by omega) hbr (by omega) (by omega) rfl
  have hcr := hw.num_resize hcin (by rw [hcarry]; exact hc) (count + 1)
  rw [Nat.mod_eq_of_lt (by omega)] at h₁
  rw [hfirst] at hadd₂
  have h₂ := hadd₂ _ _ _ hw h₁ (by omega) (by omega) hcr (by omega) (by omega) rfl
  have haddmod : addend op (y / 2 ^ offset % 2 ^ count) count = addend op (y / 2 ^ offset) count := by
    unfold addend
    rw [Nat.mod_mod]
  rw [Nat.mod_eq_of_lt (by omega), haddmod] at h₂
  have htotal := limbSum_add op x y offset count
  have htotal_lt : x / 2 ^ offset % 2 ^ count + addend op (y / 2 ^ offset) count +
      limbSum op x y offset / 2 ^ offset < 2 ^ sum.length := by
    have := addend_lt op (y / 2 ^ offset) count
    rw [hsum]
    omega
  generalize x / 2 ^ offset % 2 ^ count + addend op (y / 2 ^ offset) count +
    limbSum op x y offset / 2 ^ offset = total at htotal h₂ htotal_lt
  have hlow : limbSum op x y offset % 2 ^ offset < 2 ^ offset := Nat.mod_lt _ (Nat.two_pow_pos _)
  rw [hnext, htotal]
  constructor
  · have := World.Consts.num_append hnum (hw.num_slice h₂ htotal_lt 0 count)
    rw [hresult, Nat.pow_zero, Nat.div_one] at this
    exact this
  · rw [Nat.pow_add, ← Nat.div_div_eq_div_mul, Nat.add_mul_div_left _ _ (Nat.two_pow_pos _),
      Nat.div_eq_of_lt hlow, Nat.zero_add]
    exact hw.num_slice h₂ htotal_lt count 1

/-- The sum or difference of two numbers. -/
def sumInt (op : Op) (x y : Nat) : Int := if op = .sub then (x : Int) - y else x + y

theorem natCast_mod_modEq (x k : Nat) : ((x % 2 ^ k : Nat) : Int) ≡ x [ZMOD 2 ^ k] := by
  rw [Int.natCast_emod, Int.natCast_pow]
  exact Int.mod_modEq _ _

theorem limbSum_modEq (op : Op) (x y width : Nat) :
    (limbSum op x y width : Int) ≡ sumInt op x y [ZMOD 2 ^ width] := by
  have hx := natCast_mod_modEq x width
  have hy := natCast_mod_modEq y width
  have hlt := Nat.mod_lt y (Nat.two_pow_pos width)
  unfold limbSum addend sumInt
  split_ifs
  · have hcast : ((x % 2 ^ width + (2 ^ width - (y % 2 ^ width + 1)) + 1 : Nat) : Int) =
        (x % 2 ^ width : Nat) - (y % 2 ^ width : Nat) + 2 ^ width := by
      rw [Nat.add_assoc, show 2 ^ width - (y % 2 ^ width + 1) + 1 = 2 ^ width - y % 2 ^ width by omega]
      push_cast [Nat.cast_sub hlt.le]
      ring
    rw [hcast]
    exact Int.add_modEq_right.trans (hx.sub hy)
  · rw [Nat.add_zero, Int.natCast_add]
    exact hx.add hy

/-- A value of `width` bits holds an integer modulo `2 ^ width`. -/
def World.Holds (w : World) (v : Value) (z : Int) : Prop :=
  ∃ x : Nat, w.Num v x ∧ (x : Int) ≡ z [ZMOD 2 ^ v.length]

theorem World.Num.holds {w : World} {v : Value} {x : Nat} (h : w.Num v x) : w.Holds v x :=
  ⟨x, h, Int.ModEq.refl _⟩

theorem wideAddSub_builds (op : Op) (left right : Value) (width : Nat) :
    GraphBuilds (wideAddSub op left right width) fun w result => result.length = width ∧
      ∀ x y, w.Consts → w.Num left x → x < 2 ^ left.length → w.Num right y →
        y < 2 ^ right.length → w.Holds result (sumInt op x y) := by
  unfold wideAddSub
  refine (builds_chunks (by omega)
    (SumSoFar op (resize left width) (resize right width)) ?_ ?_).bind fun acc =>
    Builds.pure ?_
  · refine fun w => ⟨rfl, rfl, fun x y hw _ _ _ _ => ⟨World.num_nil, ?_⟩⟩
    unfold limbSum addend
    rw [Nat.pow_zero, Nat.div_one, Nat.mod_one, Nat.mod_one]
    by_cases hop : op = .sub
    · simp only [if_pos hop]
      exact World.num_singleton.mpr hw.one
    · simp only [if_neg hop]
      exact World.num_singleton.mpr hw.zero
  · intro offset acc hoffset
    exact addLimb_builds op _ _ hoffset acc
  · rintro w ⟨hlen, -, hread⟩
    refine ⟨hlen, fun x y hw hl hx hr hy => ?_⟩
    have hfit : ∀ (v : Value) z, w.Num v z → z < 2 ^ v.length →
        w.Num (resize v width) (z % 2 ^ width) := by
      intro v z hz hlt
      refine (hw.num_resize hz hlt width).congr ?_
      rw [length_resize, Nat.mod_mod]
    have hlt : ∀ z, z % 2 ^ width < 2 ^ width := fun z => Nat.mod_lt _ (Nat.two_pow_pos _)
    have := (hread _ _ hw (hfit left x hl hx) (by rw [length_resize]; exact hlt x)
      (hfit right y hr hy) (by rw [length_resize]; exact hlt y)).1
    refine ⟨_, this, ?_⟩
    rw [hlen]
    refine (limbSum_modEq op _ _ width).trans ?_
    have hx' := natCast_mod_modEq x width
    have hy' := natCast_mod_modEq y width
    unfold sumInt
    split_ifs
    · exact hx'.sub hy'
    · exact hx'.add hy'

theorem modEq_of_le {a b : Int} {m n : Nat} (h : a ≡ b [ZMOD 2 ^ n]) (hmn : m ≤ n) :
    a ≡ b [ZMOD 2 ^ m] :=
  h.of_dvd (pow_dvd_pow 2 hmn)

theorem calculate_addSub {op : Op} (hop : op = .add ∨ op = .sub) (x n : Nat)
    {y : Nat} (hy : y < 2 ^ 64) :
    ∃ word, calculate op x y n = .ok word ∧ (word : Int) ≡ sumInt op x y [ZMOD 2 ^ 64] := by
  rcases hop with rfl | rfl
  · refine ⟨_, rfl, (natCast_mod_modEq _ 64).trans ?_⟩
    unfold sumInt
    rw [if_neg (by decide), Int.natCast_add]
  · refine ⟨_, rfl, (natCast_mod_modEq _ 64).trans ?_⟩
    have hcast : ((x + 2 ^ 64 - y : Nat) : Int) = (x : Int) - y + 2 ^ 64 := by
      rw [Nat.cast_sub (by omega)]
      push_cast
      ring
    unfold sumInt
    rw [if_pos rfl, hcast]
    exact Int.add_modEq_right

theorem addSub_builds {op : Op} (hop : op = .add ∨ op = .sub) (left right : Value) (width : Nat) :
    GraphBuilds (addSub op left right width) fun w result => result.length = width ∧
      ∀ x y, w.Consts → w.Num left x → x < 2 ^ left.length → w.Num right y →
        y < 2 ^ right.length → w.Holds result (sumInt op x y) := by
  unfold addSub
  refine Builds.ite (fun _ => wideAddSub_builds op left right width) fun hnarrow => ?_
  simp only [isWide, decide_eq_true_eq, not_or, Nat.not_lt] at hnarrow
  obtain ⟨hleft, hright, hwidth⟩ := hnarrow
  have harith : op.arithmetic = true := by rcases hop with rfl | rfl <;> rfl
  refine (wordBinary_builds harith left right hwidth).mono ?_
  rintro w result ⟨hlen, hnum⟩
  refine ⟨hlen, fun x y hw hl hx hr hy => ?_⟩
  obtain ⟨word, hword, heq⟩ := calculate_addSub hop x left.length
    (World.lt_two_pow_of_le hy hright)
  exact ⟨word, hnum x y word hw hl hx hleft hr hy hright hword,
    modEq_of_le heq (by omega)⟩

/-! ## Products -/

theorem constantPower_builds (value : Value) :
    GraphBuilds (constantPower value) fun w power => ∀ shift, power = some shift →
      ∀ x, w.Consts → w.Num value x → x < 2 ^ value.length → x = 2 ^ shift := by
  unfold constantPower
  refine (resolved_builds value).bind fun roots => Builds.pure fun w hroots shift hpower => ?_
  intro x hw hx hlt
  split_ifs at hpower with hconst
  obtain ⟨⟨shift', enable⟩, hpowerOf, rfl⟩ := Option.map_eq_some_iff.mp hpower
  have hread : w.Reads roots (bitsOfNat value.length x) := World.mapM_eq_some_iff.mp <| by
    rw [mapM_eq_of_map_eq hroots]
    exact World.mapM_eq_some_iff.mpr (World.num_iff_reads.mp hx)
  obtain ⟨e, he, hnum⟩ := hw.reads_powerOf hpowerOf hread
  obtain ⟨hget, hne, -⟩ := powerOf_spec hpowerOf
  -- the one bit that is not 0 is the constant 1
  have hone : enable = 1 := by
    have : ¬ 1 < enable := fun h =>
      hconst (List.any_eq_true.mpr ⟨enable, List.mem_of_getElem? hget, by simpa using h⟩)
    omega
  rw [hone, hw.one] at he
  rw [← Option.some.inj he, if_pos rfl, natOfBits_bitsOfNat, Nat.mod_eq_of_lt hlt] at hnum
  exact hnum

/-- Multiplication by a power of two is wiring. -/
theorem World.Consts.num_shifted {w : World} (hw : w.Consts) {value : Value} {x : Nat}
    (hx : w.Num value x) (hlt : x < 2 ^ value.length) (shift width : Nat) :
    w.Num (resize (List.replicate (min shift width) 0 ++ value) width) (2 ^ shift * x) := by
  have happend := World.Consts.num_append (hw.num_replicate_zero (min shift width)) hx
  rw [List.length_replicate, Nat.zero_mod, Nat.zero_add] at happend
  have hfit : 2 ^ min shift width * x < 2 ^ (List.replicate (min shift width) 0 ++ value).length := by
    rw [List.length_append, List.length_replicate, Nat.pow_add]
    exact Nat.mul_lt_mul_of_pos_left hlt (Nat.two_pow_pos _)
  refine (hw.num_resize happend hfit width).congr ?_
  rw [length_resize]
  by_cases hle : shift ≤ width
  · rw [Nat.min_eq_left hle]
  · rw [Nat.min_eq_right (by omega), Nat.mul_mod_right]
    symm
    rw [show shift = width + (shift - width) by omega, Nat.pow_add, Nat.mul_assoc,
      Nat.mul_mod_right]

theorem powerProduct_builds (left right : Value) (width : Nat) :
    GraphBuilds (powerProduct left right width) fun w product => ∀ result, product = some result →
      result.length = width ∧ ∀ x y, w.Consts → w.Num left x → x < 2 ^ left.length →
        w.Num right y → y < 2 ^ right.length → w.Num result (x * y) := by
  unfold powerProduct
  refine (constantPower_builds right).bind fun power => ?_
  cases power with
  | some shift =>
      refine Builds.pure fun w hpower result hresult => ?_
      obtain rfl := Option.some.inj hresult
      refine ⟨length_resize _ _ _, fun x y hw hl hx hr hy => ?_⟩
      rw [hpower shift rfl y hw hr hy, Nat.mul_comm]
      exact hw.num_shifted hl hx shift width
  | none =>
      refine (constantPower_builds left).bind fun power => ?_
      cases power with
      | some shift =>
          refine Builds.pure fun w hpower _ result hresult => ?_
          obtain rfl := Option.some.inj hresult
          refine ⟨length_resize _ _ _, fun x y hw hl hx hr hy => ?_⟩
          rw [hpower shift rfl x hw hl hx]
          exact hw.num_shifted hr hy shift width
      | none => exact Builds.pure fun w _ _ result hresult => by cases hresult

theorem wordMul_builds (left right : Value) {width : Nat} (hwidth : width ≤ 64)
    (hleft : left.length ≤ 64) (hright : right.length ≤ 64) :
    GraphBuilds (wordMul left right width) fun w result => result.length = width ∧
      ∀ x y, w.Consts → w.Num left x → x < 2 ^ left.length → w.Num right y →
        y < 2 ^ right.length → w.Num result (x * y) := by
  unfold wordMul
  refine (powerProduct_builds left right width).bind fun product => ?_
  cases product with
  | some result => exact Builds.pure fun w h => h result rfl
  | none =>
      refine (wordBinary_builds (rfl : Op.arithmetic .mul = true) left right hwidth).mono ?_
      rintro w result ⟨hlen, hnum⟩ -
      refine ⟨hlen, fun x y hw hl hx hr hy => ?_⟩
      refine (hnum x y _ hw hl hx hleft hr hy hright rfl).congr ?_
      rw [hlen, Nat.mod_mod_of_dvd _ (Nat.pow_dvd_pow 2 hwidth)]

theorem World.Holds.num {w : World} {v : Value} {x : Nat} (h : w.Holds v x) : w.Num v x := by
  obtain ⟨y, hy, hmod⟩ := h
  have : ((2 : Int) ^ v.length) = ((2 ^ v.length : Nat) : Int) := by push_cast; rfl
  rw [this, Int.natCast_modEq_iff] at hmod
  exact hy.congr hmod

/-- Only the low bits of a factor reach the result past a row's offset. -/
theorem mul_two_pow_modEq {x y k n : Nat} (h : x ≡ y [MOD 2 ^ n]) :
    2 ^ k * x ≡ 2 ^ k * y [MOD 2 ^ (k + n)] := by
  rw [Nat.pow_add]
  exact h.mul_left' (2 ^ k)

/-- The rows of the product below `a`, and of row `a` the limbs below `b`. -/
def partialProduct (x y a c b : Nat) : Nat :=
  x % 2 ^ a * y + 2 ^ a * (x / 2 ^ a % 2 ^ c * (y % 2 ^ b))

theorem partialProduct_add {x y a b c width n : Nat} (hab : a + b < width)
    (hn : n = min 32 (width - b)) :
    partialProduct x y a c b + 2 ^ (a + b) * (x / 2 ^ a % 2 ^ c * (y / 2 ^ b % 2 ^ n)) ≡
      partialProduct x y a c (min (b + 32) (width - a)) [MOD 2 ^ width] := by
  generalize hd : min 32 (width - a - b) = d
  have hlow : y / 2 ^ b % 2 ^ n ≡ y / 2 ^ b % 2 ^ d [MOD 2 ^ (width - (a + b))] := by
    by_cases hsmall : 32 ≤ width - a - b
    · rw [show n = d by omega]
    · have hdn : d ≤ n := by omega
      rw [show width - (a + b) = d by omega]
      change y / 2 ^ b % 2 ^ n % 2 ^ d = y / 2 ^ b % 2 ^ d % 2 ^ d
      rw [Nat.mod_mod_of_dvd _ (Nat.pow_dvd_pow 2 hdn), Nat.mod_mod]
  have hrow := mul_two_pow_modEq (k := a + b) (hlow.mul_left (x / 2 ^ a % 2 ^ c))
  rw [Nat.add_sub_cancel' hab.le] at hrow
  refine (Nat.ModEq.add_left _ hrow).trans ?_
  rw [show min (b + 32) (width - a) = b + d by omega]
  unfold partialProduct
  rw [mod_two_pow_add y b d, Nat.pow_add]
  refine congrArg (· % 2 ^ width) ?_
  ring

theorem partialProduct_row {x y a c width : Nat} (ha : a ≤ width) :
    partialProduct x y a c (width - a) ≡ x % 2 ^ (a + c) * y [MOD 2 ^ width] := by
  have hy : y % 2 ^ (width - a) ≡ y [MOD 2 ^ (width - a)] := Nat.mod_modEq _ _
  have hrow := mul_two_pow_modEq (k := a) (hy.mul_left (x / 2 ^ a % 2 ^ c))
  rw [Nat.add_sub_cancel' ha] at hrow
  refine (Nat.ModEq.add_left _ hrow).trans (congrArg (· % 2 ^ width) ?_)
  rw [mod_two_pow_add]
  ring

/-- The accumulator of a multiplication holds `f` of the operands. -/
def ProductSoFar (left right : Value) (width : Nat) (f : Nat → Nat → Nat) (w : World)
    (acc : Value) : Prop :=
  acc.length = width ∧ ∀ x y, w.Consts → w.Num left x → x < 2 ^ left.length →
    w.Num right y → y < 2 ^ right.length → w.Num acc (f x y)

theorem ProductSoFar.congr {left right : Value} {width : Nat} {f g : Nat → Nat → Nat}
    {w : World} {acc : Value} (h : ProductSoFar left right width f w acc)
    (hfg : ∀ x y, f x y ≡ g x y [MOD 2 ^ width]) : ProductSoFar left right width g w acc := by
  obtain ⟨hlen, hacc⟩ := h
  refine ⟨hlen, fun x y hw hl hx hr hy => (hacc x y hw hl hx hr hy).congr ?_⟩
  rw [hlen]
  exact hfg x y

/-- A limb of an operand, widened to a word. -/
theorem World.Consts.num_limb {w : World} (hw : w.Consts) {v : Value} {x : Nat}
    (h : w.Num v x) (hx : x < 2 ^ v.length) (offset : Nat) {count : Nat} (hcount : count ≤ 32) :
    w.Num (resize (slice v offset count) 64) (x / 2 ^ offset % 2 ^ count) ∧
      x / 2 ^ offset % 2 ^ count < 2 ^ 32 := by
  have hlt : x / 2 ^ offset % 2 ^ count < 2 ^ count := Nat.mod_lt _ (Nat.two_pow_pos _)
  refine ⟨hw.num_resize (hw.num_digits h hx offset count) ?_ 64, World.lt_two_pow_of_le hlt hcount⟩
  rwa [length_slice]

/-- A row of a product: a word above `offset` zeros, cut to the width. -/
theorem World.Consts.num_row {w : World} (hw : w.Consts) {product : Value} {x : Nat}
    (h : w.Num product x) (hx : x < 2 ^ product.length) (offset width : Nat) :
    w.Num (resize (List.replicate offset 0 ++ product) width) (2 ^ offset * x) := by
  have happend := World.Consts.num_append (hw.num_replicate_zero offset) h
  rw [List.length_replicate, Nat.zero_mod, Nat.zero_add] at happend
  refine hw.num_resize happend ?_ width
  rw [List.length_append, List.length_replicate, Nat.pow_add]
  exact Nat.mul_lt_mul_of_pos_left hx (Nat.two_pow_pos _)

/-- `addSub` adds numbers modulo the width of its result. -/
theorem add_num (left right : Value) (width : Nat) :
    GraphBuilds (addSub .add left right width) fun w result => result.length = width ∧
      ∀ x y, w.Consts → left.length = width → right.length = width → w.Num left x →
        w.Num right y → w.Num result (x + y) := by
  refine (addSub_builds (.inl rfl) left right width).mono ?_
  rintro w result ⟨hlen, hsum⟩
  refine ⟨hlen, fun x y hw hleft hright hl hr => ?_⟩
  have hlt : ∀ z, z % 2 ^ width < 2 ^ width := fun z => Nat.mod_lt _ (Nat.two_pow_pos _)
  have hl' : w.Num left (x % 2 ^ width) := hl.congr (by rw [hleft, Nat.mod_mod])
  have hr' : w.Num right (y % 2 ^ width) := hr.congr (by rw [hright, Nat.mod_mod])
  have := hsum _ _ hw hl' (by rw [hleft]; exact hlt x) hr' (by rw [hright]; exact hlt y)
  unfold sumInt at this
  rw [if_neg (by decide), ← Int.natCast_add] at this
  refine this.num.congr ?_
  rw [hlen, ← Nat.add_mod]

theorem mulLimb_builds (left right : Value) {width a b : Nat} (hab : a + b < width)
    (result : Value) :
    GraphBuilds (mulLimb left right width a result b) fun w sum =>
      ProductSoFar left right width (partialProduct · · a (min 32 (width - a)) b) w result →
        ProductSoFar left right width
          (partialProduct · · a (min 32 (width - a)) (min (b + 32) (width - a))) w sum := by
  unfold mulLimb
  refine (wordMul_builds _ _ (by omega) (length_resize _ _ _).le (length_resize _ _ _).le).bind
    fun product => (add_num _ _ _).mono ?_
  rintro w sum ⟨hsum, hadd⟩ ⟨hproduct, hmul⟩ ⟨hlen, hdone⟩
  refine ProductSoFar.congr (f := fun x y => partialProduct x y a (min 32 (width - a)) b +
    2 ^ (a + b) * (x / 2 ^ a % 2 ^ min 32 (width - a) * (y / 2 ^ b % 2 ^ min 32 (width - b))))
    ⟨hsum, fun x y hw hl hx hr hy => ?_⟩ fun x y => partialProduct_add hab rfl
  obtain ⟨hlhs, hlhs_lt⟩ := hw.num_limb hl hx a (by omega : min 32 (width - a) ≤ 32)
  obtain ⟨hrhs, hrhs_lt⟩ := hw.num_limb hr hy b (by omega : min 32 (width - b) ≤ 32)
  simp only [length_resize] at hmul
  have hword := hmul _ _ hw hlhs (by omega) hrhs (by omega)
  refine hadd _ _ hw hlen (length_resize _ _ _) (hdone x y hw hl hx hr hy) ?_
  refine hw.num_row hword ?_ (a + b) width
  rw [hproduct, show 64 = 32 + 32 from rfl, Nat.pow_add]
  exact Nat.mul_lt_mul'' hlhs_lt hrhs_lt

theorem mulRow_builds (left right : Value) {width a : Nat} (ha : a < width) (result : Value) :
    GraphBuilds (mulRow left right width result a) fun w sum =>
      ProductSoFar left right width (fun x y => x % 2 ^ a * y) w result →
        ProductSoFar left right width (fun x y => x % 2 ^ min (a + 32) width * y) w sum := by
  unfold mulRow
  refine (builds_chunks (by omega) (fun b w acc =>
    ProductSoFar left right width (fun x y => x % 2 ^ a * y) w result →
      ProductSoFar left right width (partialProduct · · a (min 32 (width - a)) b) w acc)
    ?_ ?_).mono ?_
  · refine fun w h => h.congr fun x y => congrArg (· % 2 ^ width) ?_
    unfold partialProduct
    rw [Nat.pow_zero, Nat.mod_one, Nat.mul_zero, Nat.mul_zero, Nat.add_zero]
  · intro b acc hb
    exact (mulLimb_builds left right (by omega) acc).mono fun w sum h hacc hresult =>
      h (hacc hresult)
  · intro w sum h hresult
    refine (h hresult).congr fun x y => ?_
    rw [show min (a + 32) width = a + min 32 (width - a) by omega]
    exact partialProduct_row ha.le

theorem wideMul_builds (left right : Value) (width : Nat) :
    GraphBuilds (wideMul left right width) fun w result => result.length = width ∧
      ∀ x y, w.Consts → w.Num left x → x < 2 ^ left.length → w.Num right y →
        y < 2 ^ right.length → w.Num result (x * y) := by
  unfold wideMul
  refine (builds_chunks (by omega) (fun a => ProductSoFar (resize left width) (resize right width)
    width fun x y => x % 2 ^ a * y) ?_ fun a result ha => mulRow_builds _ _ ha result).mono ?_
  · refine fun w => ⟨List.length_replicate, fun x y hw _ _ _ _ => ?_⟩
    simp only [Nat.pow_zero, Nat.mod_one, Nat.zero_mul]
    exact hw.num_replicate_zero width
  · rintro w result ⟨hlen, hdone⟩
    refine ⟨hlen, fun x y hw hl hx hr hy => ?_⟩
    have hlt : ∀ z, z % 2 ^ width < 2 ^ width := fun z => Nat.mod_lt _ (Nat.two_pow_pos _)
    have hfit : ∀ (v : Value) z, w.Num v z → z < 2 ^ v.length →
        w.Num (resize v width) (z % 2 ^ width) := by
      intro v z hz hlt'
      refine (hw.num_resize hz hlt' width).congr ?_
      rw [length_resize, Nat.mod_mod]
    simp only [length_resize] at hdone
    refine (hdone _ _ hw (hfit left x hl hx) (hlt x) (hfit right y hr hy) (hlt y)).congr ?_
    rw [hlen, Nat.mod_mod, ← Nat.mul_mod]

/-! ## Shifts -/

/-- A loop that counts down keeps an invariant on the rounds left. -/
theorem builds_countdown {β : Type} {n : Nat} {f : β → Nat → GraphM β} {b : β}
    (I : Nat → World → β → Prop) (h₀ : ∀ w, I n w b)
    (h : ∀ k b, k < n → GraphBuilds (f b k) fun w c => I (k + 1) w b → I k w c) :
    GraphBuilds ((List.range n).reverse.foldlM f b) (I 0) := by
  have main : ∀ m b, m ≤ n → GraphBuilds ((List.range m).reverse.foldlM f b)
      fun w c => I m w b → I 0 w c := by
    intro m
    induction m with
    | zero => exact fun b _ => Builds.pure fun w hb => hb
    | succ m ih =>
        intro b hm
        rw [List.range_succ, List.reverse_append, List.reverse_singleton, List.singleton_append,
          List.foldlM_cons]
        exact (h m b hm).bind fun c => (ih c (by omega)).mono fun w d hd hc hb => hd (hc hb)
  exact (main n b (Nat.le_refl n)).mono fun w c hc => hc (h₀ w)

/-- A loop that counts up keeps an invariant on the rounds done. -/
theorem builds_count {β : Type} {n : Nat} {f : β → Nat → GraphM β} {b : β}
    (I : Nat → World → β → Prop) (h₀ : ∀ w, I 0 w b)
    (h : ∀ k b, k < n → GraphBuilds (f b k) fun w c => I k w b → I (k + 1) w c) :
    GraphBuilds ((List.range n).foldlM f b) (I n) := by
  induction n with
  | zero => exact Builds.pure h₀
  | succ n ih =>
      rw [List.range_succ, List.foldlM_append]
      refine (ih fun k b hk => h k b (by omega)).bind fun c => ?_
      rw [List.foldlM_cons]
      exact (h n c (by omega)).bind fun d => Builds.pure fun w hd hc => hd hc

theorem le_two_pow_shiftStages (length : Nat) : length ≤ 2 ^ shiftStages length := by
  have main : ∀ fuel stages, length ≤ fuel + stages →
      length ≤ 2 ^ shiftStages.go length fuel stages := by
    intro fuel
    induction fuel with
    | zero =>
        intro stages h
        have := Nat.lt_two_pow_self (n := stages)
        unfold shiftStages.go
        omega
    | succ fuel ih =>
        intro stages h
        unfold shiftStages.go
        split_ifs with hlt
        · exact ih _ (by omega)
        · omega
  exact main length 0 (by omega)

/-- How far the stages from `stage` up have shifted. -/
def shiftedBy (y stages stage : Nat) : Nat := y % 2 ^ stages / 2 ^ stage * 2 ^ stage

theorem shiftedBy_succ {y stages stage : Nat} (h : stage < stages) :
    shiftedBy y stages stage =
      shiftedBy y stages (stage + 1) + if y.testBit stage then 2 ^ stage else 0 := by
  have hbit : (y % 2 ^ stages).testBit stage = y.testBit stage := by
    rw [Nat.testBit_mod_two_pow, decide_eq_true h, Bool.true_and]
  unfold shiftedBy
  rw [← hbit]
  generalize y % 2 ^ stages = z
  rw [Nat.testBit_eq_decide_div_mod_eq, Nat.pow_succ, ← Nat.div_div_eq_div_mul]
  have hsplit := Nat.div_add_mod (z / 2 ^ stage) 2
  rcases Nat.mod_two_eq_zero_or_one (z / 2 ^ stage) with hmod | hmod
  · rw [hmod] at hsplit ⊢
    conv_lhs => rw [← hsplit]
    simp only [Nat.add_zero, decide_eq_true_eq, zero_ne_one, if_false]
    ring
  · rw [hmod] at hsplit ⊢
    conv_lhs => rw [← hsplit]
    simp only [decide_true, if_true]
    ring

/-- The lanes of `v` from the front are the bits of `f` from `offset`. -/
def World.Shifted (w : World) (v : Value) (f : Nat → Bool) (offset : Nat) : Prop :=
  ∀ i < v.length, w.look (v.getD i 0) = some (f (offset + i))

/-- The invariant of the right shifter: `stage` stages are left, bits past the
end of the operand equal the fill, and what later stages cannot move into the
result is dropped. -/
def ShiftingRight (operand right : Value) (width fill stages stage : Nat) (w : World)
    (left : Value) : Prop :=
  0 < width → left.length = min operand.length (width + 2 ^ stage - 1) ∧
    ∀ f y s, w.Consts → w.Num right y → y < 2 ^ right.length → w.look fill = some s →
      w.Shifted operand f 0 → (∀ j, operand.length ≤ j → f j = s) →
        w.Shifted left f (shiftedBy y stages stage)

theorem getD_map_range {n i : Nat} (f : Nat → Nat) (hi : i < n) :
    ((List.range n).map f).getD i 0 = f i := by
  rw [List.getD_eq_getElem?_getD, List.getElem?_map, List.getElem?_range hi]
  rfl

theorem shiftRightStage_builds (operand right : Value) (width fill : Nat) {stages stage : Nat}
    (hstage : stage < stages) (left : Value) :
    GraphBuilds (shiftRightStage right width fill left stage) fun w result =>
      ShiftingRight operand right width fill stages (stage + 1) w left →
        ShiftingRight operand right width fill stages stage w result := by
  have hpow : 2 ^ (stage + 1) = 2 * 2 ^ stage := by rw [Nat.pow_succ, Nat.mul_comm]
  have hpos := Nat.two_pow_pos stage
  generalize hneeded : min left.length (width + 2 ^ stage - 1) = needed
  generalize hmoved : (List.range needed).map (fun i =>
    if 2 ^ stage < left.length - i then left.getD (i + 2 ^ stage) 0 else fill) = moved
  have hmovedlen : moved.length = needed := by rw [← hmoved]; simp
  -- the lanes of both operands of the multiplexer
  have hlanes : ∀ w : World, left.length = min operand.length (width + 2 ^ (stage + 1) - 1) →
      ∀ (f : Nat → Bool) (y : Nat) (s : Bool), w.look fill = some s → (∀ j, operand.length ≤ j → f j = s) →
        w.Shifted left f (shiftedBy y stages (stage + 1)) →
        w.Shifted moved f (shiftedBy y stages (stage + 1) + 2 ^ stage) ∧
          w.Shifted (padTo left needed fill) f (shiftedBy y stages (stage + 1)) := by
    intro w hlen f y s hfill hpast hleft
    constructor
    · intro i hi
      rw [hmovedlen] at hi
      rw [← hmoved, getD_map_range _ hi]
      split_ifs with hin
      · rw [hleft _ (by omega)]
        congr 2
        omega
      · rw [hfill, hpast _ (by omega)]
    · intro i hi
      rw [length_padTo] at hi
      rw [getD_padTo left _ hi, if_pos (by omega)]
      exact hleft i (by omega)
  unfold shiftRightStage
  simp only [hneeded, hmoved]
  cases hbit : right[stage]? with
  | some bit =>
      refine (mux_builds [bit] moved (padTo left needed fill)).mono ?_
      rintro w result ⟨hresult, -, hmux⟩ hsofar hwidth
      obtain ⟨hlen, hdone⟩ := hsofar hwidth
      refine ⟨by omega, fun f y s hw hr hy hfill hoperand hpast i hi => ?_⟩
      obtain ⟨hmovedlanes, hkept⟩ := hlanes w hlen f y s hfill hpast
        (hdone f y s hw hr hy hfill hoperand hpast)
      have hlook : w.look bit = some (y.testBit stage) := by
        obtain ⟨hlt, rfl⟩ := List.getElem?_eq_some_iff.mp hbit
        rw [← List.getD_eq_getElem _ 0]
        exact hr stage hlt
      have hfollows := hmux [y.testBit stage] hw (World.reads_singleton.mpr hlook)
      rw [shiftedBy_succ hstage]
      cases hy' : y.testBit stage with
      | true =>
          simp only [hy', List.any_cons, List.any_nil, Bool.or_false, id_eq, if_true] at hfollows ⊢
          exact hfollows.2 i (by omega) _ (hmovedlanes i (by omega))
      | false =>
          simp only [hy', List.any_cons, List.any_nil, Bool.or_false, id_eq, Bool.false_eq_true,
            if_false, Nat.add_zero] at hfollows ⊢
          exact hfollows.2 i (by rw [length_padTo]; omega) _
            (hkept i (by rw [length_padTo]; omega))
  | none =>
      refine Builds.pure fun w hsofar hwidth => ?_
      obtain ⟨hlen, hdone⟩ := hsofar hwidth
      refine ⟨by rw [length_padTo]; omega, fun f y s hw hr hy hfill hoperand hpast => ?_⟩
      have hzero : y.testBit stage = false := by
        rw [List.getElem?_eq_none_iff] at hbit
        exact Nat.testBit_lt_two_pow (World.lt_two_pow_of_le hy hbit)
      rw [shiftedBy_succ hstage, hzero, if_neg (by decide), Nat.add_zero]
      exact (hlanes w hlen f y s hfill hpast (hdone f y s hw hr hy hfill hoperand hpast)).2

/-- The lane of a right shift by `y`: a bit of the operand, or its sign. -/
def shiftRightLane (op : Op) (l : List Bool) (y i : Nat) : Bool :=
  if y + i < l.length then l.getD (y + i) false else decide (op = .sar) && signBit l

theorem wideShiftRight_builds (op : Op) (left right : Value) (width : Nat) :
    GraphBuilds (wideShiftRight op left right width) fun w result => result.length = width ∧
      ∀ l y, w.Consts → w.Reads left l → w.Num right y → y < 2 ^ right.length →
        ∀ i < width, w.look (result.getD i 0) = some (shiftRightLane op l y i) := by
  unfold wideShiftRight
  generalize hfill : (if op = .sar ∧ (!left.isEmpty) = true then left.getLastD 0 else 0) = fill
  simp only
  generalize hoperand : padTo left (max left.length width) fill = operand
  have hlen : operand.length = max left.length width := by rw [← hoperand, length_padTo]
  have hcover := le_two_pow_shiftStages operand.length
  generalize shiftStages operand.length = stages at hcover ⊢
  have hlook : ∀ w : World, w.Consts → ∀ l, w.Reads left l →
      w.look fill = some (decide (op = .sar) && signBit l) := by
    intro w hw l hl
    rw [← hfill]
    by_cases hop : op = .sar
    · simp only [hop, decide_true, Bool.true_and, true_and, Bool.not_eq_true']
      have := hw.look_getLastD hl
      split_ifs with hempty
      · exact this
      · obtain rfl : left = [] := by simpa using hempty
        exact this
    · simp only [hop, decide_false, Bool.false_and, false_and, if_false]
      exact hw.zero
  -- the operand continued by the fill
  have hext : ∀ w : World, w.Consts → ∀ l, w.Reads left l →
      w.Shifted operand (shiftRightLane op l 0) 0 := by
    intro w hw l hl i hi
    rw [← hoperand] at hi ⊢
    rw [length_padTo] at hi
    rw [getD_padTo left _ hi, Nat.zero_add]
    unfold shiftRightLane
    rw [Nat.zero_add, ← hl.length_eq]
    split_ifs
    · exact hw.look_getD hl i
    · exact hlook w hw l hl
  refine (builds_countdown (ShiftingRight operand right width fill stages) ?_ fun stage b hstage =>
    shiftRightStage_builds operand right width fill hstage b).bind fun shifted => ?_
  · refine fun w hwidth => ⟨by omega, fun f y s hw hr hy hfill' hop hpast => ?_⟩
    have : shiftedBy y stages stages = 0 := by
      unfold shiftedBy
      rw [Nat.div_eq_of_lt (Nat.mod_lt _ (Nat.two_pow_pos _)), Nat.zero_mul]
    rwa [this]
  -- after the last stage the result is shifted by the low bits of the amount
  have hlow : ∀ w : World, ShiftingRight operand right width fill stages 0 w shifted →
      w.Consts → ∀ l y, w.Reads left l → w.Num right y → y < 2 ^ right.length → ∀ i < width,
        w.look ((padTo shifted width fill).getD i 0) =
          some (shiftRightLane op l (y % 2 ^ stages) i) := by
    intro w hshift hw l y hl hr hy i hi
    obtain ⟨hshifted, hlanes⟩ := hshift (by omega)
    have hpast : ∀ j, operand.length ≤ j →
        shiftRightLane op l 0 j = (decide (op = .sar) && signBit l) := by
      intro j hj
      have := hl.length_eq
      unfold shiftRightLane
      rw [if_neg (by omega)]
    have := hlanes _ y _ hw hr hy (hlook w hw l hl) (hext w hw l hl) hpast i (by omega)
    rw [getD_padTo shifted _ hi, if_pos (by omega), this]
    unfold shiftedBy shiftRightLane
    rw [Nat.pow_zero, Nat.div_one, Nat.mul_one, Nat.zero_add]
  refine Builds.ite (fun hover => ?_) fun hnot => ?_
  · refine (unary_builds (rfl : Op.reduces .any = true) _).bind fun beyond =>
      (mux_builds _ _ _).mono ?_
    rintro w result ⟨hresult, -, hmux⟩ ⟨hoverlen, hany⟩ hshift
    refine ⟨by rw [hresult, List.length_replicate], fun l y hw hl hr hy i hi => ?_⟩
    have hhigh : y / 2 ^ stages < 2 ^ (right.length - stages) := by
      rw [Nat.div_lt_iff_lt_mul (Nat.two_pow_pos _), ← Nat.pow_add]
      exact World.lt_two_pow_of_le hy (by omega)
    obtain ⟨bits, hbits, hdecide⟩ := (hw.num_slice hr hy stages (right.length - stages)).reads_any
      (by rw [length_slice]; exact hhigh)
    have hflag : w.look (beyond.getD 0 0) = some (decide (y / 2 ^ stages ≠ 0)) := by
      rw [hany bits hw hbits, show reduction .any bits = bits.any id from rfl, hdecide]
    have hfollows := hmux _ hw (World.reads_of_look hoverlen hflag)
    simp only [List.any_cons, List.any_nil, Bool.or_false, id_eq, decide_eq_true_eq] at hfollows
    have hl' := hl.length_eq
    by_cases hzero : y / 2 ^ stages = 0
    · -- no bit above the stages: nothing was cut off the amount
      rw [if_neg (by simpa using hzero)] at hfollows
      have hy' := (Nat.div_eq_zero_iff_lt (Nat.two_pow_pos _)).mp hzero
      refine hfollows.2 i (by rw [length_padTo]; exact hi) _ ?_
      rw [hlow w hshift hw l y hl hr hy i hi, Nat.mod_eq_of_lt hy']
    · rw [if_pos hzero] at hfollows
      have hy' := Nat.le_of_not_lt fun h => hzero ((Nat.div_eq_zero_iff_lt (Nat.two_pow_pos _)).mpr h)
      refine hfollows.2 i (by rw [List.length_replicate]; exact hi) _ ?_
      rw [List.getD_eq_getElem?_getD, List.getElem?_replicate, if_pos hi, Option.getD_some,
        hlook w hw l hl]
      unfold shiftRightLane
      rw [if_neg (by omega)]
  · refine Builds.pure fun w hshift => ⟨length_padTo _ _ _, fun l y hw hl hr hy i hi => ?_⟩
    rw [hlow w hshift hw l y hl hr hy i hi,
      Nat.mod_eq_of_lt (World.lt_two_pow_of_le hy (by omega))]

/-- Left shifts by stages: a stage past every index of the operand clears it. -/
theorem wideShl_builds (left right : Value) (width : Nat)
    (hsize : max left.length width ≤ 2 ^ 63) :
    GraphBuilds (wideShl left right width) fun w result => result.length = width ∧
      ∀ x y, w.Consts → w.Num left x → x < 2 ^ left.length → w.Num right y →
        y < 2 ^ right.length → w.Num result (x * 2 ^ y) := by
  unfold wideShl
  simp only
  generalize hoperand : padTo left (max left.length width) 0 = operand
  have hlen : operand.length = max left.length width := by rw [← hoperand, length_padTo]
  refine (builds_count (fun stage w (shifted : Value) => shifted.length = operand.length ∧
    ∀ x y, w.Consts → w.Num operand x → w.Num right y →
      w.Num shifted (x * 2 ^ (y % 2 ^ stage))) ?_ ?_).bind fun shifted => Builds.pure ?_
  · refine fun w => ⟨rfl, fun x y _ hx _ => ?_⟩
    rwa [Nat.pow_zero, Nat.mod_one, Nat.pow_zero, Nat.mul_one]
  · intro stage current hstage
    refine (mux_builds _ _ _).mono ?_
    rintro w result ⟨hresult, heq, hmux⟩ ⟨hcurrent, hdone⟩
    simp only [List.length_map, List.length_range] at hresult heq
    refine ⟨hresult.trans hcurrent, fun x y hw hx hy => ?_⟩
    have hnum := hdone x y hw hx hy
    have hbit : w.look (right.getD stage 0) = some (y.testBit stage) := hy stage hstage
    refine World.num_of_mux hw hmux (c := y.testBit stage) (World.num_of_look rfl hbit) rfl ?_
    rw [mod_two_pow_add, Nat.pow_one, ← Nat.toNat_testBit]
    cases y.testBit stage with
    | false => simpa using hnum
    | true =>
        intro i hi
        simp only [if_true, List.length_map, List.length_range] at hi ⊢
        rw [getD_map_range _ hi, Bool.toNat_true, Nat.mul_one, Nat.pow_add, ← Nat.mul_assoc,
          Nat.testBit_mul_two_pow]
        split_ifs with hin
        · rw [hnum _ (Nat.lt_of_le_of_lt (Nat.sub_le _ _) hi), decide_eq_true hin.2, Bool.true_and]
        · have hfar : ¬ 2 ^ stage ≤ i := by
            intro hle
            have : 2 ^ 63 ≤ 2 ^ stage := Nat.pow_le_pow_right (by omega) (by omega)
            omega
          rw [hw.zero, decide_eq_false hfar, Bool.false_and]
  · rintro w ⟨hshifted, hdone⟩
    refine ⟨length_resize _ _ _, fun x y hw hl hx hr hy i hi => ?_⟩
    rw [length_resize] at hi
    have hx' : w.Num operand x := by
      rw [← hoperand]
      exact hw.num_resize hl hx _
    have := hdone x y hw hx' hr
    rw [Nat.mod_eq_of_lt hy] at this
    rw [getD_resize shifted hi]
    exact this i (by omega)

end CppHdl
