import CppHdl.Synth.Networks

/-!
# The restoring divider

Division works on magnitudes: signed operands are negated where their sign bit
says so, the unsigned divider runs lane by lane, and the result takes the sign
back. Division by zero is replaced by zero at the end.
-/

namespace CppHdl

open Failing

namespace Mapper

/-! ## The network -/

/-- The remainder and the quotient after the lanes of the dividend, highest
first. -/
def divideFrom (divisor : Value) : Value → MapperM (Value × Value)
  | [] => pure (List.replicate divisor.length 0, [])
  | bit :: higher => do
      let p ← divideFrom divisor higher
      let rem := (bit :: p.1).take divisor.length
      let below ← less rem divisor
      let fits ← invert below
      let difference ← add rem divisor true
      let rem ← choose fits difference rem
      pure (rem, fits :: p.2)

/-- `choose(select, neg(v), v)` of the divider, on signed operands. -/
def negateIf (sign : Bool) (select : Nat) (v : Value) : MapperM Value :=
  if sign then do
    let negated ← add (List.replicate v.length 0) v true
    choose select negated v
  else pure v

/-- The lane that says whether the result is negated. -/
def resultSign (sign remainder : Bool) (sa sb : Nat) : MapperM Nat :=
  if remainder || !sign then pure sa else gate .xor sa sb

def divide (a b : Value) (sign remainder : Bool) : MapperM Value := do
  let width := a.length
  let sa := if sign then a.getLastD 0 else 0
  let sb := if sign then b.getLastD 0 else 0
  let a ← negateIf sign sa a
  let b ← negateIf sign sb b
  let p ← divideFrom (resize b (width + 1)) a
  let result := if remainder then resize p.1 width else p.2
  let negative ← resultSign sign remainder sa sb
  let result ← negateIf sign negative result
  let absent ← equal b (List.replicate width 0)
  choose absent (List.replicate width 0) result

/-! ## The unsigned divider -/

variable {m : Mapper}

theorem divideFrom_maps (hm : m.Sound) {divisor a : Value} (hd : m.out.Has divisor)
    (ha : m.out.Has a) :
    Maps m (divideFrom divisor a) (fun n p =>
        (n.out.Has p.1 ∧ p.1.length = divisor.length) ∧ n.out.Has p.2 ∧ p.2.length = a.length)
      fun w p => ∀ ds xs, w.Reads divisor ds → w.Reads a xs →
        w.Reads p.1 (restored ds xs).1 ∧ w.Reads p.2 (restored ds xs).2 := by
  induction a generalizing m with
  | nil =>
      refine Maps.pure hm ⟨⟨Graph.Has.replicate (Graph.Has.zero_lt _) _, by simp⟩,
        Graph.Has.nil, rfl⟩ ?_
      intro w hw ds xs hds hx
      cases hx
      refine ⟨?_, .nil⟩
      rw [hds.length_eq]
      exact World.reads_replicate hw.consts.zero _
  | cons bit higher ih =>
      obtain ⟨hbit, hhigher⟩ := has_cons.mp ha
      unfold divideFrom
      refine (ih hm hd hhigher).bind fun p m₁ h₁ le₁ hp => ?_
      simp only
      generalize hrem : (bit :: p.1).take divisor.length = rem
      have hlen : rem.length = divisor.length := by
        rw [← hrem, List.length_take, List.length_cons, hp.1.2]
        omega
      have hhas : m₁.out.Has rem := fun c hc => by
        rw [← hrem] at hc
        exact has_cons.mpr ⟨Nat.lt_of_lt_of_le hbit le₁, hp.1.1⟩ c (List.mem_of_mem_take hc)
      refine (less_maps h₁ false hhas (hd.mono le₁) hlen).bind fun below m₂ h₂ le₂ hbelow => ?_
      refine (invert_maps h₂ hbelow).bind fun fits m₃ h₃ le₃ hfits => ?_
      have le₃' := Nat.le_trans le₂ le₃
      refine (add_maps h₃ true (hhas.mono le₃') (hd.mono (Nat.le_trans le₁ le₃')) hlen).bind
        fun difference m₄ h₄ le₄ hdifference => ?_
      have le₄' := Nat.le_trans le₃' le₄
      refine (choose_maps h₄ (Nat.lt_of_lt_of_le hfits le₄) hdifference.1 (hhas.mono le₄')
        hdifference.2).bind fun rem' m₅ h₅ le₅ hrem' => ?_
      have le₅' := Nat.le_trans le₄' le₅
      refine Maps.pure h₅ ⟨⟨hrem'.1, by rw [hrem'.2, hdifference.2, hlen]⟩,
        has_cons.mpr ⟨Nat.lt_of_lt_of_le hfits (Nat.le_trans le₄ le₅), hp.2.1.mono le₅'⟩,
        by simp [hp.2.2]⟩ ?_
      intro w _ rrem rdifference rfits rbelow rp ds xs hds hx
      cases hx with
      | @cons _ x _ xs hx hxs =>
      obtain ⟨hfirst, hsecond⟩ := rp ds xs hds hxs
      have hreads : w.Reads rem ((x :: (restored ds xs).1).take ds.length) := by
        rw [← hrem, ← hds.length_eq]
        exact World.Reads.take (.cons hx hfirst) _
      have hfit := rfits _ (rbelow _ _ hreads hds)
      exact ⟨rrem _ _ _ hfit (rdifference _ _ hreads hds) hreads, .cons hfit hsecond⟩

/-! ## Signs -/

def signed (negative : Bool) (n : Nat) : Int := if negative then -(n : Int) else n

/-- What an operand of the divider denotes. -/
def operandInt (sign : Bool) (bits : List Bool) : Int :=
  if sign then intOfBits bits else natOfBits bits

theorem look_sign {w : World} (hw : w.Consts) (sign : Bool) {v : Value} {bits : List Bool}
    (h : w.Reads v bits) :
    w.look (if sign then v.getLastD 0 else 0) = some (sign && signBit bits) := by
  cases sign with
  | false => exact hw.zero
  | true =>
      rw [if_pos rfl, Bool.true_and]
      unfold signBit
      rw [List.getLastD_eq_getLast?, List.getLastD_eq_getLast?, List.getLast?_eq_getElem?,
        List.getLast?_eq_getElem?, ← List.getD_eq_getElem?_getD, ← List.getD_eq_getElem?_getD,
        h.length_eq]
      exact h.getD hw _

/-- Negation in two's complement. -/
theorem natOfBits_negated (bits : List Bool) :
    natOfBits (rippleSum true (List.replicate bits.length false) (bits.map not)) =
      (2 ^ bits.length - natOfBits bits) % 2 ^ bits.length := by
  rw [natOfBits_difference (by simp), natOfBits_replicate_false, List.length_replicate,
    Nat.zero_add]

theorem operandInt_eq (sign : Bool) (bits : List Bool) {magnitude : Nat}
    (h : magnitude = if sign && signBit bits then (2 ^ bits.length - natOfBits bits) % 2 ^ bits.length
      else natOfBits bits) :
    operandInt sign bits = signed (sign && signBit bits) magnitude := by
  subst h
  unfold operandInt signed
  cases sign with
  | false => simp
  | true =>
      rw [Bool.true_and, if_pos rfl]
      unfold intOfBits
      cases hsign : signBit bits with
      | false => simp
      | true =>
          have hne : bits ≠ [] := by
            rintro rfl
            cases hsign
          have hge := (two_pow_le_natOfBits_iff hne).mpr hsign
          have hlt := natOfBits_lt bits
          have hpos := Nat.two_pow_pos (bits.length - 1)
          simp only [if_true]
          rw [Nat.mod_eq_of_lt (by omega), Nat.cast_sub hlt.le]
          push_cast
          ring

theorem signed_tdiv (p q : Bool) (x y : Nat) :
    (signed p x).tdiv (signed q y) = signed (p ^^ q) (x / y) := by
  unfold signed
  cases p <;> cases q <;> simp [Int.neg_tdiv, Int.tdiv_neg]

theorem signed_tmod (p q : Bool) (x y : Nat) :
    (signed p x).tmod (signed q y) = signed p (x % y) := by
  have hcast : (x : Int).tmod y = (x : Int) % y := rfl
  unfold signed
  cases p <;> cases q <;> simp [Int.neg_tmod, Int.tmod_neg, hcast]

theorem signed_eq_zero_iff (p : Bool) (x : Nat) : signed p x = 0 ↔ x = 0 := by
  unfold signed
  cases p <;> simp

/-- The magnitude of the operand, or the signed value of the result. -/
theorem negateIf_maps (hm : m.Sound) (sign : Bool) {select : Nat} {v : Value}
    (hs : select < m.out.bound) (hv : m.out.Has v) :
    MapsValue m (negateIf sign select v) v.length fun w value => ∀ c bits,
      w.look select = some c → w.Reads v bits → ∃ bits', w.Reads value bits' ∧
        natOfBits bits' = if sign && c then (2 ^ bits.length - natOfBits bits) % 2 ^ bits.length
          else natOfBits bits := by
  unfold negateIf
  cases sign with
  | false =>
      refine Maps.pure hm ⟨hv, rfl⟩ ?_
      exact fun w _ c bits _ h => ⟨bits, h, by simp⟩
  | true =>
      rw [if_pos rfl]
      have hzeros := Graph.Has.replicate (Graph.Has.zero_lt m.out) v.length
      have hadd := add_maps hm true hzeros hv (by simp)
      rw [List.length_replicate] at hadd
      refine hadd.bind fun negated n hn hmn hnegated => ?_
      have hchoose := choose_maps hn (Nat.lt_of_lt_of_le hs hmn) hnegated.1 (hv.mono hmn)
        hnegated.2
      rw [hnegated.2] at hchoose
      refine hchoose.mono (fun _ _ _ h => h) ?_
      intro w value hw h rnegated c bits hc hbits
      have hneg := rnegated _ bits (World.reads_replicate hw.zero v.length) hbits
      rw [hbits.length_eq] at hneg
      refine ⟨_, h c _ _ hc hneg hbits, ?_⟩
      cases c with
      | true => exact natOfBits_negated bits
      | false => rfl

/-! ## Division -/

/-- Quotient or remainder, rounded towards zero; zero for a divisor of zero. -/
def divided (sign remainder : Bool) (xs ys : List Bool) : Int :=
  if operandInt sign ys = 0 then 0
  else if remainder then (operandInt sign xs).tmod (operandInt sign ys)
  else (operandInt sign xs).tdiv (operandInt sign ys)

/-- A negated magnitude holds the negative number. -/
theorem signed_modEq (negative : Bool) {n k : Nat} (h : n < 2 ^ k) :
    (((if negative then (2 ^ k - n) % 2 ^ k else n : Nat) : Int)) ≡ signed negative n
      [ZMOD 2 ^ k] := by
  unfold signed
  cases negative with
  | false => exact rfl
  | true =>
      simp only [if_true]
      have hcast : (((2 ^ k - n) % 2 ^ k : Nat) : Int) = (2 ^ k - n) % 2 ^ k := by
        rw [Int.natCast_emod, Nat.cast_sub h.le]
        push_cast
        rfl
      rw [hcast]
      refine (Int.mod_modEq _ _).trans ?_
      rw [Int.modEq_iff_dvd]
      exact ⟨-1, by ring⟩

theorem divided_eq {sign remainder p q : Bool} {xs ys : List Bool} {x y : Nat}
    (hx : operandInt sign xs = signed p x) (hy : operandInt sign ys = signed q y) (h : y ≠ 0) :
    divided sign remainder xs ys =
      signed (if remainder then p else p ^^ q) (if remainder then x % y else x / y) := by
  have hne : operandInt sign ys ≠ 0 := by rwa [hy, ne_eq, signed_eq_zero_iff]
  unfold divided
  rw [if_neg hne, hx, hy, signed_tmod, signed_tdiv]
  cases remainder <;> rfl

theorem divided_eq_zero {sign remainder q : Bool} {xs ys : List Bool}
    (hy : operandInt sign ys = signed q 0) : divided sign remainder xs ys = 0 :=
  if_pos (hy.trans ((signed_eq_zero_iff q 0).mpr rfl))

theorem resultSign_maps (hm : m.Sound) (sign remainder : Bool) {sa sb : Nat}
    (ha : sa < m.out.bound) (hb : sb < m.out.bound) :
    MapsBit m (resultSign sign remainder sa sb) fun w bit => ∀ p q,
      w.look sa = some p → w.look sb = some q →
        w.look bit = some (if remainder || !sign then p else p ^^ q) := by
  unfold resultSign
  cases remainder || !sign with
  | true => exact Maps.pure hm ha fun _ _ _ _ h _ => h
  | false => exact xor_maps hm ha hb

/-- The bits of a value kept or widened by zeros hold the same number. -/
theorem reads_resize {w : World} (hw : w.Consts) {v : Value} {bits : List Bool}
    (h : w.Reads v bits) (width : Nat) :
    ∃ bits', w.Reads (resize v width) bits' ∧
      natOfBits bits' = natOfBits bits % 2 ^ width := by
  have hnum := hw.num_resize h.num h.num_lt width
  refine ⟨_, World.num_iff_reads.mp hnum, ?_⟩
  rw [natOfBits_bitsOfNat, length_resize]

theorem divide_maps (hm : m.Sound) (sign remainder : Bool) {a b : Value} (ha : m.out.Has a)
    (hb : m.out.Has b) (hlen : b.length = a.length) :
    MapsValue m (divide a b sign remainder) a.length fun w value => ∀ xs ys,
      w.Reads a xs → w.Reads b ys → w.Holds value (divided sign remainder xs ys) := by
  have hlast : ∀ v : Value, m.out.Has v → (if sign then v.getLastD 0 else 0) < m.out.bound := by
    intro v hv
    split_ifs
    · exact hv.getLastD
    · exact Graph.Has.zero_lt _
  unfold divide
  simp only
  generalize hsa : (if sign then a.getLastD 0 else 0) = sa
  generalize hsb : (if sign then b.getLastD 0 else 0) = sb
  have hsa' : sa < m.out.bound := hsa ▸ hlast a ha
  have hsb' : sb < m.out.bound := hsb ▸ hlast b hb
  refine (negateIf_maps hm sign hsa' ha).bind fun a' m₁ h₁ le₁ ha' => ?_
  refine (negateIf_maps h₁ sign (Nat.lt_of_lt_of_le hsb' le₁) (hb.mono le₁)).bind
    fun b' m₂ h₂ le₂ hb' => ?_
  have le₂' := Nat.le_trans le₁ le₂
  refine (divideFrom_maps h₂ (hb'.1.resize _) (ha'.1.mono le₂)).bind fun p m₃ h₃ le₃ hp => ?_
  have le₃' := Nat.le_trans le₂' le₃
  generalize hresult : (if remainder then resize p.1 a.length else p.2) = result
  have hhas : m₃.out.Has result ∧ result.length = a.length := by
    rw [← hresult]
    split_ifs
    · exact ⟨hp.1.1.resize _, length_resize _ _ _⟩
    · exact ⟨hp.2.1, by rw [hp.2.2, ha'.2]⟩
  refine (resultSign_maps h₃ sign remainder (Nat.lt_of_lt_of_le hsa' le₃')
    (Nat.lt_of_lt_of_le hsb' le₃')).bind fun negative m₄ h₄ le₄ hnegative => ?_
  refine (negateIf_maps h₄ sign hnegative (hhas.1.mono le₄)).bind fun final m₅ h₅ le₅ hfinal => ?_
  have le₅' := Nat.le_trans le₃ (Nat.le_trans le₄ le₅)
  have hzeros : ∀ n : Mapper, n.out.Has (List.replicate a.length 0) := fun n =>
    Graph.Has.replicate (Graph.Has.zero_lt n.out) _
  have hfinalLen : final.length = a.length := hfinal.2.trans hhas.2
  refine (equal_maps h₅ (hb'.1.mono le₅') (hzeros _)
    (by rw [hb'.2, hlen, List.length_replicate])).bind fun absent m₆ h₆ le₆ habsent => ?_
  have hchoose := choose_maps h₆ habsent (hzeros _) (hfinal.1.mono le₆)
    (by rw [List.length_replicate, hfinalLen])
  rw [List.length_replicate] at hchoose
  -- what the lanes read, from the operands to the result
  obtain ⟨value, n, hrun, hn, hgrows, hQ, hR⟩ := hchoose
  refine ⟨value, n, hrun, hn, hgrows, hQ, fun w hw => ?_⟩
  intro rabsent rfinal rnegative rp rb ra xs ys hx hy
  have hc := hw.consts
  have hxs := hx.length_eq
  have hys : a.length = ys.length := by rw [← hlen, hy.length_eq]
  obtain ⟨xs', hx', hX⟩ := ra _ xs (hsa ▸ look_sign hc sign hx) hx
  obtain ⟨ys', hy', hY⟩ := rb _ ys (hsb ▸ look_sign hc sign hy) hy
  rw [← Bool.and_assoc, Bool.and_self] at hX hY
  have hxint := operandInt_eq sign xs hX
  have hyint := operandInt_eq sign ys hY
  obtain ⟨ds, hds, hD⟩ := reads_resize hc hy' (a.length + 1)
  have hys' : ys'.length = a.length := by rw [← hy'.length_eq, hb'.2, hlen]
  have hYlt := natOfBits_lt ys'
  rw [hys'] at hYlt
  rw [Nat.mod_eq_of_lt (by rw [Nat.pow_succ]; omega)] at hD
  obtain ⟨hrem, hquotient⟩ := rp ds xs' hds hx'
  have hzero := World.reads_replicate hc.zero a.length
  -- the lanes before the sign is put back
  have hread : ∃ rs, w.Reads result rs ∧ natOfBits rs = (if remainder then
      natOfBits (restored ds xs').1 % 2 ^ a.length else natOfBits (restored ds xs').2) := by
    rw [← hresult]
    cases remainder with
    | true => exact reads_resize hc hrem a.length
    | false => exact ⟨_, hquotient, rfl⟩
  obtain ⟨rs, hrs, hV⟩ := hread
  have hsigns := rnegative _ _ (hsa ▸ look_sign hc sign hx) (hsb ▸ look_sign hc sign hy)
  obtain ⟨fs, hfs, hF⟩ := rfinal _ rs hsigns hrs
  have hvalue := hR w hw _ _ _ (rabsent _ _ hy' hzero) hzero hfs
  rw [← hrs.length_eq, hhas.2] at hF
  have hlenValue : value.length = a.length := hQ.2
  have hequal : (ys' == List.replicate a.length false) = decide (natOfBits ys' = 0) := by
    rw [Bool.eq_iff_iff, beq_iff_eq, decide_eq_true_eq]
    constructor
    · rintro h
      rw [h, natOfBits_replicate_false]
    · intro h
      exact natOfBits_inj (by rw [hys', List.length_replicate])
        (by rw [h, natOfBits_replicate_false])
  rw [hequal] at hvalue
  by_cases hY0 : natOfBits ys' = 0
  · rw [hY0] at hyint
    rw [decide_eq_true hY0, if_pos rfl] at hvalue
    rw [divided_eq_zero hyint, ← Nat.cast_zero, ← natOfBits_replicate_false a.length]
    exact hvalue.num.holds
  · rw [decide_eq_false hY0, if_neg (by simp)] at hvalue
    refine ⟨_, hvalue.num, ?_⟩
    have hpos : 0 < natOfBits ds := by omega
    have hspare : 2 * natOfBits ds ≤ 2 ^ ds.length := by
      rw [hD, ← hds.length_eq, length_resize, Nat.pow_succ]
      omega
    obtain ⟨hR', hQ'⟩ := natOfBits_restored hpos hspare xs'
    have hXlt : natOfBits xs' < 2 ^ a.length := by
      have := natOfBits_lt xs'
      rwa [← hx'.length_eq, ha'.2] at this
    have hmod := Nat.mod_lt (natOfBits xs') (Nat.pos_of_ne_zero hY0)
    have hdiv := Nat.div_le_self (natOfBits xs') (natOfBits ys')
    rw [hR', hQ', hD, Nat.mod_eq_of_lt (Nat.lt_trans hmod hYlt)] at hV
    have hVlt : natOfBits rs < 2 ^ a.length := by
      rw [hV]
      split_ifs
      · exact Nat.lt_trans hmod hYlt
      · exact Nat.lt_of_le_of_lt hdiv hXlt
    -- without signs nothing is negated
    have hneg : (sign && (if (remainder || !sign) = true then sign && signBit xs
        else (sign && signBit xs) ^^ (sign && signBit ys))) =
        (if remainder then sign && signBit xs
          else (sign && signBit xs) ^^ (sign && signBit ys)) := by
      cases sign <;> cases remainder <;> simp
    rw [hF, hneg, hlenValue, divided_eq hxint hyint hY0, ← hV]
    exact signed_modEq _ hVlt

end Mapper

end CppHdl
