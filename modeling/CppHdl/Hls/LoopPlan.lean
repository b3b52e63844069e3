import CppHdl.Lib.CppInteger

/-!
# Static loop plans

`loopPlan` lists the values of the induction variable of a canonical `for` loop. It reads
constants by sign extension of their bits and compares in 64-bit signed numbers; the loop
compares in the common type of the variable and the bound.
-/

namespace CppHdl.Hls

open IntType

/-- `BO_LT`, `BO_LE`, `BO_GT` and `BO_GE`. -/
inductive Comparison
  | lt | le | gt | ge
deriving DecidableEq

def Comparison.holds : Comparison → Int → Int → Bool
  | lt, a, b => decide (a < b)
  | le, a, b => decide (a ≤ b)
  | gt, a, b => decide (a > b)
  | ge, a, b => decide (a ≥ b)

def Comparison.ascending : Comparison → Bool
  | lt | le => true
  | gt | ge => false

/-- How far a comparison is from failing. -/
def Comparison.gap : Comparison → Int → Int → Int
  | .lt, i, bound => bound - i
  | .le, i, bound => bound - i + 1
  | .gt, i, bound => i - bound
  | .ge, i, bound => i - bound + 1

theorem Comparison.holds_iff (op : Comparison) (i bound : Int) : op.holds i bound = true ↔ 0 < op.gap i bound := by
  cases op <;> simp only [Comparison.holds, Comparison.gap, decide_eq_true_eq] <;> omega

/-- A stride towards the bound shortens the gap by its size. -/
theorem Comparison.gap_step (op : Comparison) {step : Int} (hdir : decide (step > 0) = op.ascending)
    (hstep : step ≠ 0) (i bound : Int) :
    op.gap (i + step) bound = op.gap i bound - |step| := by
  have hsign : step > 0 ∨ step < 0 := by omega
  cases op <;> rcases hsign with hpos | hneg <;> simp only [Comparison.ascending] at hdir <;>
    simp only [Comparison.gap]
  all_goals first
    | (rw [abs_of_pos hpos]; omega)
    | (rw [abs_of_neg hneg]; omega)
    | (rw [decide_eq_true hpos] at hdir; cases hdir)
    | (rw [decide_eq_false (by omega)] at hdir; cases hdir)

/-- The first value for which the comparison fails. -/
def exitValue (op : Comparison) (bound step i : Int) : Int :=
  i + step * ((op.gap i bound + |step| - 1) / |step|)

/-- The increment; an assignment has a constant with its type. -/
inductive Stride
  | increment
  | decrement
  | addAssign (type : IntType) (value : Int)
  | subAssign (type : IntType) (value : Int)

/-- `for (type var = init; var op bound; stride)` with constants. -/
structure CanonicalLoop where
  type : IntType
  init : Int
  op : Comparison
  boundType : IntType
  bound : Int
  stride : Stride

namespace CanonicalLoop

variable (l : CanonicalLoop)

/-! ## The plan -/

/-- `constant`: `isSignedIntN(63)` and `getSExtValue` of the value's bits. -/
def constant (t : IntType) (v : Int) : Option Int :=
  if -2 ^ 62 ≤ t.sext v ∧ t.sext v < 2 ^ 62 then some (t.sext v) else none

/-- The initializer is converted to the variable's type. -/
def start : Int := l.type.convert l.init

/-- The bound is converted to the type of the comparison. -/
def compareType : IntType := l.type.common l.boundType

def compareBound : Int := l.compareType.convert l.bound

/-- The operand of an assignment is converted to the type of the computation. -/
def operand (t : IntType) (v : Int) : Int := (l.type.common t).convert v

def planStep : Option Int :=
  match l.stride with
  | .increment => some 1
  | .decrement => some (-1)
  | .addAssign t v => constant (l.type.common t) (l.operand t v)
  | .subAssign t v => (constant (l.type.common t) (l.operand t v)).map (-·)

def minimum : Int := if l.type.signed then -2 ^ (l.type.objectBits - 1) else 0

def maximum : Int := if l.type.signed then 2 ^ (l.type.objectBits - 1) - 1 else 2 ^ l.type.objectBits - 1

/-- The loop, with so many lanes left. -/
def enumerate (bound step : Int) : Nat → Int → Option (List Int)
  | lanes, i =>
    if l.op.holds i bound then
      if i < l.minimum ∨ i > l.maximum ∨ step > l.maximum - i ∨ step < l.minimum - i then none
      else
        match lanes with
        | 0 => none
        | lanes + 1 => (enumerate bound step lanes (i + step)).map (i :: ·)
    else some []

def OpenMPMaxLanes : Nat := 4096

def loopPlan : Option (List Int) := do
  guard (l.type.objectBits ≤ 32)
  let start ← constant l.type l.start
  let bound ← constant l.compareType l.compareBound
  let step ← l.planStep
  guard (step ≠ 0 ∧ (decide (step > 0) = l.op.ascending))
  l.enumerate bound step OpenMPMaxLanes start

/-! ## The loop -/

def cond (i : Int) : Bool := l.op.holds (l.compareType.convert i) l.compareBound

/-- The variable after the increment; nothing where that overflows. -/
def next (i : Int) : Option Int :=
  match l.stride with
  | .increment => (l.type.promote.result (l.type.promote.convert i + 1)).map l.type.convert
  | .decrement => (l.type.promote.result (l.type.promote.convert i - 1)).map l.type.convert
  | .addAssign t v =>
      ((l.type.common t).result ((l.type.common t).convert i + l.operand t v)).map l.type.convert
  | .subAssign t v =>
      ((l.type.common t).result ((l.type.common t).convert i - l.operand t v)).map l.type.convert

/-- The loop ends, without overflow, and its body sees these values. -/
inductive Iterates : Int → List Int → Prop
  | done {i : Int} : l.cond i = false → Iterates i []
  | body {i j : Int} {vs : List Int} : l.cond i = true → l.next i = some j → Iterates j vs →
      Iterates i (i :: vs)

/-! ## The increment -/

variable {l : CanonicalLoop} {i v : Int}

/-- The plan takes a variable for an integer of its object's bits. -/
def objectType : IntType → IntType
  | .bool => .int .s8 false
  | t => t

theorem promote_objectType (t : IntType) : (objectType t).promote = t.promote := by
  cases t <;> rfl

theorem common_objectType (t u : IntType) : (objectType t).common u = t.common u := by
  unfold IntType.common
  rw [promote_objectType]

/-- What the plan takes for a value. -/
def Planned (l : CanonicalLoop) (v : Int) : Prop := (objectType l.type).InRange v

theorem planned_iff : l.Planned v ↔ l.minimum ≤ v ∧ v ≤ l.maximum := by
  unfold Planned minimum maximum InRange lo hi
  cases l.type with
  | bool =>
      change (0 : Int) ≤ v ∧ v < 256 ↔ (0 : Int) ≤ v ∧ v ≤ 255
      omega
  | int size signed =>
      change (if signed then _ else _) ≤ v ∧ v < (if signed then _ else _) ↔
        (if signed then _ else _) ≤ v ∧ v ≤ if signed then _ else _
      cases signed with
      | true =>
          change _ ∧ v < (2 : Int) ^ (size.bits - 1) ↔ _ ∧ v ≤ (2 : Int) ^ (size.bits - 1) - 1
          rw [Int.le_sub_one_iff]
          rfl
      | false =>
          change _ ∧ v < (2 : Int) ^ size.bits ↔ _ ∧ v ≤ (2 : Int) ^ size.bits - 1
          rw [Int.le_sub_one_iff]
          rfl

/-- In a type as wide, without overflow. -/
theorem result_eq {size : IntSize} {signed : Bool} {x : Int}
    (hcongr : x % 2 ^ size.bits = v % 2 ^ size.bits)
    (hsigned : signed = true → x = v ∧ (IntType.int size signed).InRange v) :
    (IntType.int size signed).result x = some ((IntType.int size signed).convert v) := by
  unfold result
  cases signed with
  | false => exact congrArg some (convert_congr hcongr)
  | true =>
      obtain ⟨rfl, hrange⟩ := hsigned rfl
      rw [decide_eq_true hrange]
      rfl

/-- Through a wider type, a value is converted as without. -/
theorem convert_convert {t : IntType} {size : IntSize} {signed : Bool} (hv : (objectType t).InRange v)
    (hbits : (objectType t).bits ≤ size.bits)
    (hsigned : signed = true → (IntType.int size signed).InRange v) :
    t.convert ((IntType.int size signed).convert v) = t.convert v := by
  have hexact : 0 ≤ v → v < 2 ^ (objectType t).bits →
      (IntType.int size signed).convert v = v := by
    intro hlo hhi
    apply convert_of_inRange
    cases signed with
    | true => exact hsigned rfl
    | false =>
        exact ⟨hlo, Int.lt_of_lt_of_le hhi (pow_le_pow_right₀ (by decide) hbits)⟩
  cases t with
  | bool => rw [hexact hv.1 hv.2]
  | int size' signed' =>
      apply convert_congr
      have hdvd : (2 : Int) ^ size'.bits ∣ 2 ^ size.bits := pow_dvd_pow 2 hbits
      rw [← Int.emod_emod_of_dvd _ hdvd, convert_emod, Int.emod_emod_of_dvd _ hdvd]

theorem object_le_common (t u : IntType) : (objectType t).bits ≤ (t.common u).bits := by
  rw [← common_objectType]
  exact bits_le_common _ _

theorem promote_eq_common (t : IntType) : t.promote = t.common (.int .s32 true) := by
  have hbits : 32 ≤ t.promote.bits := by
    cases t with
    | bool => decide
    | int size signed => cases size <;> cases signed <;> decide
  have hint : (IntType.int .s32 true).promote = .int .s32 true := rfl
  unfold common
  rw [hint]
  change t.promote = if t.promote.bits < 32 then _ else if 32 < t.promote.bits then t.promote
    else t.promote
  rw [if_neg (Nat.not_lt.mpr hbits), ite_self]

theorem computed (t : IntType) {x : Int} (hplanned : l.Planned v)
    (hcongr : x % 2 ^ (l.type.common t).bits = v % 2 ^ (l.type.common t).bits)
    (hsigned : (l.type.common t).signed = true → x = v) :
    ((l.type.common t).result x).map l.type.convert = some (l.type.convert v) := by
  have hbits := object_le_common l.type t
  have hrange : (l.type.common t).signed = true → (l.type.common t).InRange v := by
    intro hs
    rw [← common_objectType] at hs ⊢
    exact InRange.common hplanned hs
  obtain ⟨size, signed, heq⟩ := common_eq l.type t
  rw [heq] at hcongr hsigned hbits hrange ⊢
  have hresult : (IntType.int size signed).result x = some ((IntType.int size signed).convert v) :=
    result_eq hcongr fun hs => ⟨hsigned hs, hrange hs⟩
  rw [hresult]
  exact congrArg some (convert_convert hplanned hbits hrange)

theorem convert_common (t : IntType) (hi : l.type.InRange i) :
    (l.type.common t).convert i % 2 ^ (l.type.common t).bits = i % 2 ^ (l.type.common t).bits ∧
      ((l.type.common t).signed = true → (l.type.common t).convert i = i) := by
  refine ⟨?_, fun hs => convert_of_inRange (hi.common hs)⟩
  obtain ⟨size, signed, heq⟩ := common_eq l.type t
  rw [heq]
  exact convert_emod i

theorem constant_eq {t : IntType} {w : Int} (h : constant t v = some w) : t.sext v = w := by
  unfold constant at h
  split_ifs at h
  exact Option.some.inj h

theorem operand_step (t : IntType) {w : Int}
    (h : constant (l.type.common t) (l.operand t v) = some w) :
    l.operand t v % 2 ^ (l.type.common t).bits = w % 2 ^ (l.type.common t).bits ∧
      ((l.type.common t).signed = true → l.operand t v = w) := by
  rw [← constant_eq h]
  exact ⟨(sext_emod _ _).symm, fun hs => (sext_of_signed hs (convert_inRange _ _)).symm⟩

/-- What is planned for the next value is what the loop converts to its type. -/
theorem next_eq {step : Int} (hstep : l.planStep = some step) (hi : l.type.InRange i)
    (hplanned : l.Planned (i + step)) : l.next i = some (l.type.convert (i + step)) := by
  unfold planStep at hstep
  unfold next
  cases hstride : l.stride with
  | increment =>
      rw [hstride] at hstep
      cases hstep
      dsimp only
      rw [promote_eq_common]
      obtain ⟨hcongr, hsigned⟩ := convert_common (.int .s32 true) hi
      exact computed _ hplanned (Int.ModEq.add_right 1 hcongr) fun hs => by rw [hsigned hs]
  | decrement =>
      rw [hstride] at hstep
      cases hstep
      dsimp only
      rw [promote_eq_common]
      obtain ⟨hcongr, hsigned⟩ := convert_common (.int .s32 true) hi
      exact computed _ hplanned (Int.ModEq.sub_right 1 hcongr) fun hs => by rw [hsigned hs]; rfl
  | addAssign t w =>
      rw [hstride] at hstep
      obtain ⟨hcongr, hsigned⟩ := convert_common t hi
      obtain ⟨hcongr', hsigned'⟩ := operand_step t hstep
      exact computed t hplanned (Int.ModEq.add hcongr hcongr') fun hs => by
        rw [hsigned hs, hsigned' hs]
  | subAssign t w =>
      rw [hstride] at hstep
      obtain ⟨c, hc, rfl⟩ := Option.map_eq_some_iff.mp hstep
      obtain ⟨hcongr, hsigned⟩ := convert_common t hi
      obtain ⟨hcongr', hsigned'⟩ := operand_step t hc
      exact computed t hplanned (Int.ModEq.sub hcongr hcongr') fun hs => by
        rw [hsigned hs, hsigned' hs, Int.sub_eq_add_neg]

/-! ## The values -/

/-- What the plan lists from a value, and the value behind. -/
inductive Listed (l : CanonicalLoop) (bound step : Int) : Int → List Int → Int → Prop
  | done {i : Int} : l.op.holds i bound = false → Listed l bound step i [] i
  | body {i e : Int} {vs : List Int} : l.op.holds i bound = true → l.Planned i →
      l.Planned (i + step) → Listed l bound step (i + step) vs e → Listed l bound step i (i :: vs) e

variable {bound step e : Int} {vs : List Int}

theorem listed_of_enumerate {lanes : Nat} (h : l.enumerate bound step lanes i = some vs) :
    ∃ e, Listed l bound step i vs e := by
  induction lanes generalizing i vs with
  | zero =>
      unfold enumerate at h
      split_ifs at h with hactive
      cases h
      exact ⟨i, .done (Bool.eq_false_iff.mpr hactive)⟩
  | succ lanes ih =>
      unfold enumerate at h
      split_ifs at h with hactive hbad
      · obtain ⟨rest, hrest, rfl⟩ := Option.map_eq_some_iff.mp h
        obtain ⟨e, he⟩ := ih hrest
        refine ⟨e, .body hactive (planned_iff.mpr ?_) (planned_iff.mpr ?_) he⟩ <;> omega
      · cases h
        exact ⟨i, .done (Bool.eq_false_iff.mpr hactive)⟩

namespace Listed

theorem exit (h : Listed l bound step i vs e) : l.op.holds e bound = false := by
  induction h with
  | done hexit => exact hexit
  | body _ _ _ _ ih => exact ih

theorem planned_exit (h : Listed l bound step i vs e) (hi : l.Planned i) : l.Planned e := by
  induction h with
  | done => exact hi
  | body _ _ hnext _ ih => exact ih hnext

theorem active (h : Listed l bound step i vs e) : ∀ v ∈ vs, l.op.holds v bound = true ∧ l.Planned v := by
  induction h with
  | done => intro v hv; cases hv
  | body hactive hplanned _ _ ih =>
      intro v hv
      rcases List.mem_cons.mp hv with rfl | hv
      · exact ⟨hactive, hplanned⟩
      · exact ih v hv

/-- The values lie between the first one and the exit. -/
theorem between (h : Listed l bound step i vs e) :
    (0 < step → i ≤ e ∧ ∀ v ∈ vs, i ≤ v ∧ v ≤ e) ∧ (step < 0 → e ≤ i ∧ ∀ v ∈ vs, e ≤ v ∧ v ≤ i) := by
  induction h with
  | done => exact ⟨fun _ => ⟨Int.le_refl _, fun v hv => by cases hv⟩,
      fun _ => ⟨Int.le_refl _, fun v hv => by cases hv⟩⟩
  | body _ _ _ _ ih =>
      refine ⟨fun hstep => ?_, fun hstep => ?_⟩
      · obtain ⟨hle, hall⟩ := ih.1 hstep
        refine ⟨by omega, fun v hv => ?_⟩
        rcases List.mem_cons.mp hv with rfl | hv
        · omega
        · have := hall v hv
          omega
      · obtain ⟨hle, hall⟩ := ih.2 hstep
        refine ⟨by omega, fun v hv => ?_⟩
        rcases List.mem_cons.mp hv with rfl | hv
        · omega
        · have := hall v hv
          omega

/-! ### The exit -/

end Listed

theorem Listed.exit_eq (h : Listed l bound step i vs e) (hstep : step ≠ 0)
    (hdir : decide (step > 0) = l.op.ascending) (hactive : l.op.holds i bound = true) :
    e = exitValue l.op bound step i := by
  have hpos : 0 < |step| := abs_pos.mpr hstep
  induction h with
  | done hexit =>
      rw [hexit] at hactive
      cases hactive
  | @body i e vs _ _ _ hrest ih =>
      have hgap := l.op.gap_step hdir hstep i bound
      unfold exitValue
      cases hnext : l.op.holds (i + step) bound with
      | true =>
          have hless : (l.op.gap i bound + |step| - 1) / |step| =
              (l.op.gap (i + step) bound + |step| - 1) / |step| + 1 := by
            have hsum : l.op.gap i bound + |step| - 1 =
                l.op.gap (i + step) bound + |step| - 1 + 1 * |step| := by omega
            rw [hsum, Int.add_mul_ediv_right _ _ (Int.ne_of_gt hpos)]
          rw [ih hnext, exitValue, hless, Int.mul_add, Int.mul_one, Int.add_assoc, Int.add_comm step]
      | false =>
          obtain rfl : e = i + step := by
            cases hrest with
            | done => rfl
            | body hactive' => rw [hnext] at hactive'; cases hactive'
          have hi : 0 < l.op.gap i bound := (l.op.holds_iff i bound).mp hactive
          have hle : l.op.gap (i + step) bound ≤ 0 := by
            rw [← Int.not_lt, ← l.op.holds_iff, hnext]
            exact Bool.false_ne_true
          have hone : (l.op.gap i bound + |step| - 1) / |step| = 1 := by
            rw [Int.ediv_eq_iff_of_pos hpos]
            omega
          rw [hone, Int.mul_one]

/-! ## The comparison -/

def planBound (l : CanonicalLoop) : Int := l.compareType.sext l.compareBound

theorem cond_signed (hs : l.compareType.signed = true) (hi : l.type.InRange i) :
    l.cond i = l.op.holds i l.planBound := by
  unfold cond planBound
  rw [show l.compareType.convert i = i from convert_of_inRange (InRange.common hi hs),
    sext_of_signed hs (show l.compareType.InRange l.compareBound from convert_inRange _ _)]

theorem emod_eq_ite {m : Int} (hlo : -m ≤ v) (hhi : v < m) :
    v % m = if 0 ≤ v then v else v + m := by
  split_ifs with hv
  · exact Int.emod_eq_of_lt hv hhi
  · rw [← Int.add_emod_right, Int.emod_eq_of_lt (by omega) (by omega)]

/-- In an unsigned type, negative numbers are above all others. -/
theorem unsigned_view (hs : l.compareType.signed = false) (hrange : l.type.InRange i) :
    ∃ half : Int, 0 < half ∧
      l.compareType.convert i = (if 0 ≤ i then i else i + 2 * half) ∧
      l.compareBound = (if 0 ≤ l.planBound then l.planBound else l.planBound + 2 * half) ∧
      (-half ≤ l.planBound ∧ l.planBound < half) ∧ (-half ≤ i ∧ i < 2 * half) ∧
      (l.type.signed = true → i < half) := by
  have hbits : l.type.bits ≤ l.compareType.bits := bits_le_common _ _
  have hpow := l.compareType.two_pow_bits
  have hhalf := l.type.two_pow_bits
  have hle : (2 : Int) ^ l.type.bits ≤ 2 ^ l.compareType.bits := pow_le_pow_right₀ (by decide) hbits
  have hpos := l.type.half_pos
  have hbound : l.compareType.InRange l.compareBound := convert_inRange _ _
  have hsext := l.compareType.sext_mem l.compareBound
  have hcongr := l.compareType.sext_emod l.compareBound
  have hi' : -2 ^ (l.type.bits - 1) ≤ i ∧ i < 2 ^ l.type.bits ∧
      (l.type.signed = true → i < 2 ^ (l.type.bits - 1)) := by
    unfold InRange lo hi at hrange
    split_ifs at hrange with htype
    · exact ⟨hrange.1, by omega, fun _ => hrange.2⟩
    · exact ⟨by omega, hrange.2, fun h => absurd h htype⟩
  obtain ⟨size, signed, heq⟩ := common_eq l.type l.boundType
  have hC : l.compareType = .int size signed := heq
  unfold planBound
  rw [hC] at hs hbound hsext hcongr hpow hle ⊢
  cases hs
  refine ⟨2 ^ ((IntType.int size false).bits - 1), (IntType.int size false).half_pos, ?_, ?_, hsext,
    by omega, fun htype => by have := hi'.2.2 htype; omega⟩
  · rw [← hpow]
    change i % 2 ^ (IntType.int size false).bits = _
    exact emod_eq_ite (by omega) (by omega)
  · rw [← hpow, ← emod_eq_ite (by omega) (by omega)]
    exact (Int.emod_eq_of_lt hbound.1 hbound.2).symm.trans hcongr.symm

/-- In an unsigned type they agree on numbers of the same sign. -/
theorem cond_same_sign (hs : l.compareType.signed = false) (hi : l.type.InRange i)
    (hsign : 0 ≤ i ↔ 0 ≤ l.planBound) : l.cond i = l.op.holds i l.planBound := by
  obtain ⟨half, hpos, hconvert, hbound, hmem, hi', _⟩ := unsigned_view hs hi
  unfold cond
  rw [hconvert, hbound]
  by_cases hneg : 0 ≤ i
  · rw [if_pos hneg, if_pos (hsign.mp hneg)]
  · rw [if_neg hneg, if_neg (fun h => hneg (hsign.mpr h))]
    cases l.op <;> simp only [Comparison.holds, decide_eq_decide] <;> omega

/-- They differ on a number of a signed type that has the other sign. -/
theorem cond_other_sign (hs : l.compareType.signed = false) (htype : l.type.signed = true)
    (hi : l.type.InRange i) (hsign : ¬ (0 ≤ i ↔ 0 ≤ l.planBound)) :
    l.cond i = !l.op.holds i l.planBound := by
  obtain ⟨half, hpos, hconvert, hbound, hmem, hi', hlt⟩ := unsigned_view hs hi
  have hlt := hlt htype
  unfold cond
  rw [hconvert, hbound]
  by_cases hneg : 0 ≤ i
  · have hplan : ¬ 0 ≤ l.planBound := fun h => hsign ⟨fun _ => h, fun _ => hneg⟩
    rw [if_pos hneg, if_neg hplan]
    cases l.op <;> simp only [Comparison.holds, ← decide_not, decide_eq_decide] <;> omega
  · have hplan : 0 ≤ l.planBound := by omega
    rw [if_neg hneg, if_pos hplan]
    cases l.op <;> simp only [Comparison.holds, ← decide_not, decide_eq_decide] <;> omega

/-! ## Exactness -/

def planStart (l : CanonicalLoop) : Int := l.type.sext l.start

/-- The comparison is right at the start and, where the loop is entered, behind the values;
a loop over `bool` has one iteration at most. -/
def PlansRight (l : CanonicalLoop) : Prop :=
  l.cond l.start = l.op.holds l.planStart l.planBound ∧
  ∀ step, l.planStep = some step → l.op.holds l.planStart l.planBound = true →
    l.cond (l.type.convert (exitValue l.op l.planBound step l.planStart)) = false ∧
    (l.type = .bool → l.op.holds (l.planStart + step) l.planBound = false)

theorem iterates_nil {i : Int} : l.Iterates i [] ↔ l.cond i = false :=
  ⟨fun h => by cases h; assumption, .done⟩

theorem iterates_cons {i j : Int} (hnext : l.next i = some j) :
    l.Iterates i (i :: vs) ↔ l.cond i = true ∧ l.Iterates j vs := by
  constructor
  · rintro (_ | ⟨hcond, hnext', hrest⟩)
    rw [hnext] at hnext'
    cases hnext'
    exact ⟨hcond, hrest⟩
  · rintro ⟨hcond, hrest⟩
    exact .body hcond hnext hrest

/-- The loop goes through the values listed if its comparison agrees on them. -/
theorem Listed.iterates_iff {size : IntSize} {signed : Bool} (htype : l.type = .int size signed)
    (hstep : l.planStep = some step) (h : Listed l bound step i vs e) :
    l.Iterates i vs ↔ (∀ v ∈ vs, l.cond v = true) ∧ l.cond e = false := by
  induction h with
  | done =>
      rw [iterates_nil]
      exact ⟨fun h => ⟨fun v hv => (by cases hv), h⟩, And.right⟩
  | @body i e vs _ hplanned hplanned' _ ih =>
      have hrange : ∀ v, l.Planned v ↔ l.type.InRange v := by
        intro v
        unfold Planned
        rw [htype]
        rfl
      have hnext := next_eq hstep ((hrange i).mp hplanned) hplanned'
      rw [convert_of_inRange ((hrange _).mp hplanned')] at hnext
      rw [iterates_cons hnext, ih, List.forall_mem_cons, and_assoc]

/-- Where the comparison agrees at both ends, it agrees between them. -/
theorem Listed.agrees {size : IntSize} {signed : Bool} (htype : l.type = .int size signed)
    (hstep : step ≠ 0) (h : Listed l l.planBound step i vs e) (hi : l.Planned i) (hne : vs ≠ [])
    (hstart : l.cond i = true) (hexit : l.cond e = false) : ∀ v ∈ vs, l.cond v = true := by
  have hrange : ∀ {v}, l.Planned v → l.type.InRange v := by
    intro v hv
    unfold Planned at hv
    rw [htype] at hv ⊢
    exact hv
  have he := h.planned_exit hi
  have hfirst : l.op.holds i l.planBound = true := by
    cases h with
    | done => exact absurd rfl hne
    | body hactive => exact hactive
  intro v hv
  obtain ⟨hactive, hplanned⟩ := h.active v hv
  rw [← hactive]
  cases hs : l.compareType.signed with
  | true => exact cond_signed hs (hrange hplanned)
  | false =>
      refine cond_same_sign hs (hrange hplanned) ?_
      cases signed with
      | false =>
          -- no value is negative, and the bound is not where the loop is entered and left
          have hnonneg : ∀ {v}, l.Planned v → 0 ≤ v := by
            intro v hv
            have := (hrange hv).1
            rw [htype] at this
            exact this
          refine ⟨fun _ => ?_, fun _ => hnonneg hplanned⟩
          have hi0 := hnonneg hi
          have he0 := hnonneg he
          have hlast := h.exit
          revert hfirst hlast
          cases l.op <;> simp only [Comparison.holds, decide_eq_true_eq, decide_eq_false_iff_not] <;>
            omega
      | true =>
          -- both ends have the sign of the bound
          have hsigned : l.type.signed = true := by rw [htype]; rfl
          have hsign : ∀ {w : Int}, l.Planned w → l.cond w = l.op.holds w l.planBound →
              (0 ≤ w ↔ 0 ≤ l.planBound) := by
            intro w hw heq
            by_contra hother
            rw [cond_other_sign hs hsigned (hrange hw) hother] at heq
            cases hb : l.op.holds w l.planBound <;> rw [hb] at heq <;> cases heq
          have hi' := hsign hi (hstart.trans hfirst.symm)
          have he' := hsign he (hexit.trans h.exit.symm)
          obtain ⟨hup, hdown⟩ := h.between
          rcases Int.lt_or_gt_of_ne hstep with hneg | hpos
          · have := (hdown hneg).2 v hv
            omega
          · have := (hup hpos).2 v hv
            omega

theorem loopPlan_eq_some {vs : List Int} (h : l.loopPlan = some vs) :
    ∃ step e, l.planStep = some step ∧ step ≠ 0 ∧ decide (step > 0) = l.op.ascending ∧
      Listed l l.planBound step l.planStart vs e := by
  have hguard : ∀ {p : Prop} [Decidable p] {u : Unit}, (guard p : Option Unit) = some u → p := by
    intro p _ u h
    by_contra hp
    rw [guard, if_neg hp] at h
    cases h
  unfold loopPlan at h
  simp only [Option.bind_eq_bind, Option.bind_eq_some_iff] at h
  obtain ⟨_, _, start, hstart, bound, hbound, step, hstep, _, hdirected, hlist⟩ := h
  obtain ⟨hne, hdir⟩ := hguard hdirected
  obtain ⟨e, he⟩ := listed_of_enumerate hlist
  refine ⟨step, e, hstep, hne, hdir, ?_⟩
  rw [show l.planStart = start from constant_eq hstart, show l.planBound = bound from constant_eq hbound]
  exact he

/-- A start in the range of the plan is the start of the loop. -/
theorem start_of_planned (h : l.Planned l.planStart) : l.planStart = l.start := by
  have hstart : l.type.InRange l.start := convert_inRange _ _
  unfold Planned at h
  unfold planStart at h ⊢
  cases htype : l.type with
  | bool =>
      rw [htype] at h hstart
      obtain ⟨hlo, hhi⟩ := hstart
      have hbit : l.start = 0 ∨ l.start = 1 := by
        change 0 ≤ l.start at hlo
        change l.start < 2 at hhi
        omega
      rcases hbit with hzero | hone
      · rw [hzero]
        rfl
      · rw [hone] at h
        exact absurd h (by decide)
  | int size signed =>
      rw [htype] at h hstart
      exact (convert_of_inRange h).symm.trans
        ((convert_congr (sext_emod _ _)).trans (convert_of_inRange hstart))

/-- A loop over `bool` goes through the values listed if there is one at most. -/
theorem Listed.iterates_bool (htype : l.type = .bool) (hstep : l.planStep = some step)
    (hpos : 0 < step) (h : Listed l bound step 0 (0 :: vs) e) :
    l.Iterates 0 (0 :: vs) ↔ l.cond 0 = true ∧ l.cond (l.type.convert e) = false ∧
      l.op.holds step bound = false := by
  have hnext : ∀ {i : Int}, i = 0 ∨ i = 1 → l.Planned (i + step) → l.next i = some 1 := by
    intro i hi hplanned
    have hrange : l.type.InRange i := by
      rw [htype]
      rcases hi with rfl | rfl <;> decide
    rw [next_eq hstep hrange hplanned, htype]
    exact congrArg some (if_neg (by omega))
  cases h with
  | body hactive _ hplanned hrest =>
      rw [iterates_cons (hnext (.inl rfl) hplanned)]
      refine and_congr_right fun _ => ?_
      cases hrest with
      | done hexit =>
          rw [Int.zero_add] at hexit
          rw [iterates_nil, htype, Int.zero_add,
            show IntType.bool.convert step = 1 from if_neg (by omega)]
          exact ⟨fun h => ⟨h, hexit⟩, And.left⟩
      | body hactive' _ hplanned' hrest' =>
          rw [Int.zero_add] at hactive'
          refine ⟨fun h => ?_, fun h => ?_⟩
          · exfalso
            -- the variable stays true, so a second value is not followed by a third
            generalize hvalue : (0 : Int) + step = value at h
            cases h with
            | body hcond hnext' hrest =>
                rw [hvalue] at hplanned' hrest'
                rw [hnext (.inr rfl) hplanned'] at hnext'
                cases hnext'
                cases hrest' with
                | done =>
                    rw [iterates_nil.mp hrest] at hcond
                    cases hcond
                | body =>
                    generalize hthird : (1 : Int) + step = third at hrest
                    cases hrest with
                    | body => omega
          · rw [h.2] at hactive'
            cases hactive'

/-- The plan lists the values of the loop, which ends without overflow, exactly when the
comparison is right. -/
theorem loopPlan_exact (l : CanonicalLoop) {vs : List Int} (h : l.loopPlan = some vs) :
    l.Iterates l.start vs ↔ l.PlansRight := by
  obtain ⟨step, e, hstep, hne, hdir, hlist⟩ := loopPlan_eq_some h
  have hright : l.PlansRight ↔ l.cond l.start = l.op.holds l.planStart l.planBound ∧
      (l.op.holds l.planStart l.planBound = true →
        l.cond (l.type.convert (exitValue l.op l.planBound step l.planStart)) = false ∧
        (l.type = .bool → l.op.holds (l.planStart + step) l.planBound = false)) := by
    unfold PlansRight
    rw [hstep]
    simp only [Option.some.injEq, forall_eq']
  rw [hright]
  cases hlist with
  | done hexit =>
      rw [iterates_nil, hexit]
      exact ⟨fun h => ⟨h, fun h => by cases h⟩, And.left⟩
  | @body _ _ vs hactive hplanned hplanned' hrest =>
      have hall := Listed.body hactive hplanned hplanned' hrest
      have hstart := start_of_planned hplanned
      rw [hactive, ← hall.exit_eq hne hdir hactive, ← hstart]
      cases htype : l.type with
      | bool =>
          have hzero : l.planStart = 0 := by
            unfold Planned at hplanned
            have hlo := hplanned.1
            have hhi : l.planStart < 1 := by
              have := (l.type.sext_mem l.start).2
              rwa [show (2 : Int) ^ (l.type.bits - 1) = 1 by rw [htype]; rfl] at this
            rw [htype] at hlo
            change 0 ≤ l.planStart at hlo
            omega
          have hpos : 0 < step := by
            unfold Planned at hplanned'
            have hlo := hplanned'.1
            rw [htype, hzero] at hlo
            change 0 ≤ 0 + step at hlo
            omega
          rw [hzero] at hall ⊢
          rw [hall.iterates_bool htype hstep hpos, htype, Int.zero_add]
          exact and_congr_right fun _ => ⟨fun h _ => ⟨h.1, fun _ => h.2⟩,
            fun h => ⟨(h rfl).1, (h rfl).2 rfl⟩⟩
      | int size signed =>
          have he : l.type.convert e = e := by
            have hexit := hall.planned_exit hplanned
            unfold Planned at hexit
            rw [htype] at hexit ⊢
            exact convert_of_inRange hexit
          rw [htype] at he
          rw [hall.iterates_iff htype hstep, he]
          refine ⟨fun h => ⟨h.1 _ List.mem_cons_self, fun _ => ⟨h.2, fun h => by cases h⟩⟩, fun h => ?_⟩
          have hexit := (h.2 rfl).1
          exact ⟨hall.agrees htype hne hplanned (List.cons_ne_nil _ _) h.1 hexit, hexit⟩

/-- `for (unsigned char i = 10; i > 2; i -= 3)` -/
def downToTwo : CanonicalLoop :=
  ⟨.int .s8 false, 10, .gt, .int .s32 true, 2, .subAssign (.int .s32 true) 3⟩

theorem loopPlan_exact_downToTwo : downToTwo.Iterates 10 [10, 7, 4] :=
  (loopPlan_exact downToTwo (by decide +kernel)).mpr
    ⟨by decide +kernel, fun step hstep _ => by
      obtain rfl : -3 = step := Option.some.inj hstep
      exact ⟨by decide +kernel, fun h => by cases h⟩⟩

/-- `for (int i = -1; i < 2u; ++i)` -/
def belowUnsigned : CanonicalLoop :=
  ⟨.int .s32 true, -1, .lt, .int .s32 false, 2, .increment⟩

/-- The loop is not entered: -1 is not below 2 in the unsigned type. -/
theorem loopPlan_belowUnsigned : belowUnsigned.loopPlan = some [-1, 0, 1] ∧
    belowUnsigned.Iterates belowUnsigned.start [] ∧
    ¬ belowUnsigned.Iterates belowUnsigned.start [-1, 0, 1] := by
  have hcond : belowUnsigned.cond belowUnsigned.start = false := by decide +kernel
  refine ⟨by decide +kernel, .done hcond, fun h => ?_⟩
  generalize belowUnsigned.start = i at h hcond
  cases h with
  | body hentered =>
      rw [hcond] at hentered
      cases hentered

end CanonicalLoop

end CppHdl.Hls
