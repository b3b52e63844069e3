import CppHdl.Lib.BitNetworks
import CppHdl.Synth.Gates

/-!
# Adders, comparators and shifters from gates

The networks the mapper builds lane by lane, and what their bits read: the
network of the same shape on bit lists. Where the source takes several gates in
one expression the order in which they are made is not fixed; it is from left
to right here.
-/

namespace CppHdl

open Failing

namespace Mapper

/-! ## The networks -/

def choose (select : Nat) (a b : Value) : MapperM Value :=
  if a.length ≠ b.length then throw (.runtime "mapper mux width mismatch")
  else (a.zip b).mapM fun lanes => gate .mux lanes.1 lanes.2 select

/-- `flag ? invert(b) : b`. -/
def invertIf (flag : Bool) (b : Nat) : MapperM Nat := if flag then invert b else pure b

/-- The lanes of the ripple adder from the one `carry` enters. -/
def addFrom (subtract : Bool) : Nat → Value → Value → MapperM Value
  | carry, a :: as, b :: bs => do
      let rhs ← invertIf subtract b
      let x ← gate .xor a rhs
      let generated ← gate .and a rhs
      let propagated ← gate .and x carry
      let next ← gate .or generated propagated
      let sum ← gate .xor x carry
      let sums ← addFrom subtract next as bs
      pure (sum :: sums)
  | _, _, _ => pure []

def add (a b : Value) (subtract : Bool := false) : MapperM Value :=
  addFrom subtract subtract.toNat a b

/-- The comparator from a lane on; the sign bits count the other way. -/
def lessFrom (sign : Bool) : Nat → Value → Value → MapperM Nat
  | result, a :: as, b :: bs => do
      let top := sign && as.isEmpty
      let a ← invertIf top a
      let b ← invertIf top b
      let differ ← gate .xor a b
      let same ← invert differ
      let result ← gate .mux result b same
      lessFrom sign result as bs
  | result, _, _ => pure result

def less (a b : Value) (sign : Bool := false) : MapperM Nat := lessFrom sign 0 a b

def equalFrom : Nat → Value → Value → MapperM Nat
  | result, a :: as, b :: bs => do
      let differ ← gate .xor a b
      let same ← invert differ
      let result ← gate .and result same
      equalFrom result as bs
  | result, _, _ => pure result

def equal (a b : Value) : MapperM Nat := equalFrom 1 a b

/-- The stages of the barrel shifter from `stage` on. -/
def shiftFrom (left : Bool) (fill : Nat) : Nat → Value → Value → MapperM Value
  | _, a, [] => pure a
  | stage, a, bit :: amount => do
      let shifted :=
        if stage < 63 ∧ 2 ^ stage < a.length then movedBy left fill (2 ^ stage) a
        else List.replicate a.length fill
      let a ← choose bit shifted a
      shiftFrom left fill (stage + 1) a amount

def shift (a amount : Value) (left arithmetic : Bool) (width : Nat) : MapperM Value := do
  let a := resize a (max a.length width) arithmetic
  let fill := if arithmetic then a.getLastD 0 else 0
  let a ← shiftFrom left fill 0 a amount
  pure (resize a width)

/-! ## Loops of gates -/

variable {m : Mapper}

theorem Maps.mapM {α : Type} {f : α → MapperM Nat} {R : α → World → Nat → Prop} {l : List α}
    (hm : m.Sound) (hf : ∀ a ∈ l, ∀ n : Mapper, n.Sound → m.out.bound ≤ n.out.bound →
      MapsBit n (f a) (R a)) :
    MapsValue m (l.mapM f) l.length fun w value => List.Forall₂ (fun a => R a w) l value := by
  induction l generalizing m with
  | nil =>
      rw [List.mapM_nil]
      exact Maps.pure hm ⟨Graph.Has.nil, rfl⟩ fun _ _ => .nil
  | cons a l ih =>
      rw [List.mapM_cons]
      refine (hf a List.mem_cons_self m hm (Nat.le_refl _)).bind fun bit n hn hmn hbit => ?_
      have hrest := ih hn fun c hc k hk hnk =>
        hf c (List.mem_cons_of_mem _ hc) k hk (Nat.le_trans hmn hnk)
      refine hrest.bind fun bits k hk hnk hbits => ?_
      refine Maps.pure hk ⟨?_, by simp [hbits.2]⟩ fun w _ hbits hbit => .cons hbit hbits
      exact (Graph.Has.singleton (Nat.lt_of_lt_of_le hbit hnk)).append hbits.1

theorem has_cons {g : Graph} {a : Nat} {v : Value} : g.Has (a :: v) ↔ a < g.bound ∧ g.Has v := by
  constructor
  · exact fun h => ⟨h a List.mem_cons_self, fun b hb => h b (List.mem_cons_of_mem _ hb)⟩
  · rintro ⟨ha, hv⟩
    exact (Graph.Has.singleton ha).append hv

theorem choose_maps (hm : m.Sound) {select : Nat} {a b : Value} (hs : select < m.out.bound)
    (ha : m.out.Has a) (hb : m.out.Has b) (hlen : a.length = b.length) :
    MapsValue m (choose select a b) a.length fun w value => ∀ c xs ys,
      w.look select = some c → w.Reads a xs → w.Reads b ys →
        w.Reads value (if c then xs else ys) := by
  unfold choose
  rw [if_neg (by simpa using hlen)]
  have hlanes : MapsValue m ((a.zip b).mapM fun lanes => gate .mux lanes.1 lanes.2 select)
      (a.zip b).length fun w value => List.Forall₂ (fun lanes bit => ∀ x y c,
        w.look lanes.1 = some x → w.look lanes.2 = some y → w.look select = some c →
          w.look bit = some (if c then x else y)) (a.zip b) value := by
    refine Maps.mapM hm fun lanes h n hn hmn => ?_
    exact mux_maps hn (Nat.lt_of_lt_of_le (ha _ (List.of_mem_zip h).1) hmn)
      (Nat.lt_of_lt_of_le (hb _ (List.of_mem_zip h).2) hmn) (Nat.lt_of_lt_of_le hs hmn)
  rw [List.length_zip, ← hlen, Nat.min_self] at hlanes
  refine hlanes.mono (fun _ _ _ h => h) ?_
  intro w value _ h c xs ys hc hx hy
  clear hlanes ha hb
  induction a generalizing b value xs ys with
  | nil =>
      obtain rfl : b = [] := List.length_eq_zero_iff.mp hlen.symm
      cases hx
      cases hy
      cases h
      rw [ite_self]
      exact .nil
  | cons a as ih =>
      obtain _ | ⟨b, bs⟩ := b
      · simp at hlen
      cases hx with
      | cons hx hxs =>
      cases hy with
      | cons hy hys =>
      cases h with
      | cons hbit hbits =>
      have := ih (Nat.succ.inj hlen) _ hbits _ _ hxs hys
      cases c with
      | true => exact .cons (hbit _ _ _ hx hy hc) this
      | false => exact .cons (hbit _ _ _ hx hy hc) this

theorem invertIf_maps (hm : m.Sound) (flag : Bool) {b : Nat} (hb : b < m.out.bound) :
    MapsBit m (invertIf flag b) fun w bit => ∀ x,
      w.look b = some x → w.look bit = some (if flag then !x else x) := by
  unfold invertIf
  cases flag with
  | true => exact invert_maps hm hb
  | false => exact Maps.pure hm hb fun _ _ _ h => h

/-! ## Addition -/

theorem addFrom_maps (hm : m.Sound) (subtract : Bool) {carry : Nat} {a b : Value}
    (hc : carry < m.out.bound) (ha : m.out.Has a) (hb : m.out.Has b)
    (hlen : a.length = b.length) :
    MapsValue m (addFrom subtract carry a b) a.length fun w value => ∀ c xs ys,
      w.look carry = some c → w.Reads a xs → w.Reads b ys →
        w.Reads value (rippleSum c xs (if subtract then ys.map not else ys)) := by
  induction a generalizing m carry b with
  | nil =>
      unfold addFrom
      refine Maps.pure hm ⟨Graph.Has.nil, rfl⟩ ?_
      intro w _ c xs ys _ hx hy
      cases hx
      exact .nil
  | cons a as ih =>
      obtain _ | ⟨b, bs⟩ := b
      · simp at hlen
      obtain ⟨ha, has⟩ := has_cons.mp ha
      obtain ⟨hb, hbs⟩ := has_cons.mp hb
      unfold addFrom
      refine (invertIf_maps hm subtract hb).bind fun rhs m₁ h₁ le₁ hrhs => ?_
      refine (xor_maps h₁ (Nat.lt_of_lt_of_le ha le₁) hrhs).bind fun x m₂ h₂ le₂ hx => ?_
      have le₂' := Nat.le_trans le₁ le₂
      refine (and_maps h₂ (Nat.lt_of_lt_of_le ha le₂') (Nat.lt_of_lt_of_le hrhs le₂)).bind
        fun generated m₃ h₃ le₃ hgenerated => ?_
      have le₃' := Nat.le_trans le₂' le₃
      refine (and_maps h₃ (Nat.lt_of_lt_of_le hx le₃) (Nat.lt_of_lt_of_le hc le₃')).bind
        fun propagated m₄ h₄ le₄ hpropagated => ?_
      refine (or_maps h₄ (Nat.lt_of_lt_of_le hgenerated le₄) hpropagated).bind
        fun next m₅ h₅ le₅ hnext => ?_
      have le₅' := Nat.le_trans le₃' (Nat.le_trans le₄ le₅)
      refine (xor_maps h₅ (Nat.lt_of_lt_of_le hx (Nat.le_trans le₃ (Nat.le_trans le₄ le₅)))
        (Nat.lt_of_lt_of_le hc le₅')).bind fun sum m₆ h₆ le₆ hsum => ?_
      have le₆' := Nat.le_trans le₅' le₆
      refine (ih h₆ (Nat.lt_of_lt_of_le hnext le₆) (has.mono le₆') (hbs.mono le₆')
        (Nat.succ.inj hlen)).bind fun sums m₇ h₇ le₇ hsums => ?_
      refine Maps.pure h₇ ⟨has_cons.mpr ⟨Nat.lt_of_lt_of_le hsum le₇, hsums.1⟩,
        by simp [hsums.2]⟩ ?_
      intro w _ rsums rsum rnext rpropagated rgenerated rx rrhs c xs ys hc hx hy
      cases hx with
      | cons hx hxs =>
      cases hy with
      | @cons _ y _ ys hy hys =>
      have hr := rrhs y hy
      have hxor := rx _ _ hx hr
      have hcarry := rnext _ _ (rgenerated _ _ hx hr) (rpropagated _ _ hxor hc)
      have hlist : (if subtract then (y :: ys).map not else y :: ys) =
          (if subtract then !y else y) :: (if subtract then ys.map not else ys) := by
        cases subtract <;> rfl
      rw [hlist, rippleSum]
      exact .cons (rsum _ _ hxor hc) (rsums _ _ _ hcarry hxs hys)

theorem toNat_lt_bound (g : Graph) (b : Bool) : b.toNat < g.bound :=
  Nat.lt_of_le_of_lt (Bool.toNat_le b) g.one_lt_bound

theorem look_toNat {w : World} (hw : w.Consts) (b : Bool) : w.look b.toNat = some b := by
  cases b with
  | false => exact hw.zero
  | true => exact hw.one

theorem add_maps (hm : m.Sound) (subtract : Bool) {a b : Value} (ha : m.out.Has a)
    (hb : m.out.Has b) (hlen : a.length = b.length) :
    MapsValue m (add a b subtract) a.length fun w value => ∀ xs ys,
      w.Reads a xs → w.Reads b ys →
        w.Reads value (rippleSum subtract xs (if subtract then ys.map not else ys)) := by
  refine (addFrom_maps hm subtract (toNat_lt_bound _ _) ha hb hlen).mono (fun _ _ _ h => h) ?_
  intro w value hw h xs ys
  exact h _ xs ys (look_toNat hw subtract)

/-! ## Comparison -/

/-- The bits of a signed operand with the top one inverted. -/
def biased : List Bool → List Bool
  | [] => []
  | [b] => [!b]
  | b :: c :: l => b :: biased (c :: l)

theorem biased_cons (b : Bool) (l : List Bool) :
    biased (b :: l) = (if l.isEmpty then !b else b) :: biased l := by
  cases l <;> rfl

theorem lessFrom_maps (hm : m.Sound) (sign : Bool) {result : Nat} {a b : Value}
    (hr : result < m.out.bound) (ha : m.out.Has a) (hb : m.out.Has b)
    (hlen : a.length = b.length) :
    MapsBit m (lessFrom sign result a b) fun w bit => ∀ verdict xs ys,
      w.look result = some verdict → w.Reads a xs → w.Reads b ys →
        w.look bit = some (lessBits verdict (if sign then biased xs else xs)
          (if sign then biased ys else ys)) := by
  induction a generalizing m result b with
  | nil =>
      obtain rfl : b = [] := List.length_eq_zero_iff.mp hlen.symm
      unfold lessFrom
      refine Maps.pure hm hr ?_
      intro w _ verdict xs ys h hx hy
      cases hx
      cases hy
      rw [h]
      cases sign <;> rfl
  | cons a as ih =>
      obtain _ | ⟨b, bs⟩ := b
      · simp at hlen
      obtain ⟨ha, has⟩ := has_cons.mp ha
      obtain ⟨hb, hbs⟩ := has_cons.mp hb
      unfold lessFrom
      simp only
      refine (invertIf_maps hm (sign && as.isEmpty) ha).bind fun a' m₁ h₁ le₁ ha' => ?_
      refine (invertIf_maps h₁ (sign && as.isEmpty) (Nat.lt_of_lt_of_le hb le₁)).bind fun b' m₂ h₂ le₂ hb' => ?_
      refine (xor_maps h₂ (Nat.lt_of_lt_of_le ha' le₂) hb').bind fun differ m₃ h₃ le₃ hdiffer => ?_
      refine (invert_maps h₃ hdiffer).bind fun same m₄ h₄ le₄ hsame => ?_
      have le₂₄ := Nat.le_trans le₃ le₄
      have le₄' := Nat.le_trans (Nat.le_trans le₁ le₂) le₂₄
      refine (mux_maps h₄ (Nat.lt_of_lt_of_le hr le₄') (Nat.lt_of_lt_of_le hb' le₂₄) hsame).bind
        fun result' m₅ h₅ le₅ hresult => ?_
      have le₅' := Nat.le_trans le₄' le₅
      refine (ih h₅ hresult (has.mono le₅') (hbs.mono le₅') (Nat.succ.inj hlen)).mono
        (fun _ _ _ h => h) ?_
      intro w bit _ h rresult rsame rdiffer rb ra verdict xs ys hv hx hy
      have hys : (ys.drop 1).length = as.length := by
        rw [List.length_drop, ← hy.length_eq, List.length_cons, Nat.succ.inj hlen,
          Nat.add_sub_cancel]
      cases hx with
      | @cons _ x _ xs hx hxs =>
      cases hy with
      | @cons _ y _ ys hy hys' =>
      have hempty : ∀ l : List Bool, l.length = as.length → l.isEmpty = as.isEmpty := by
        intro l hl
        cases l <;> cases as <;> simp at hl ⊢
      have hlist : ∀ (z : Bool) (l : List Bool), l.length = as.length →
          (if sign then biased (z :: l) else z :: l) =
            (if sign && as.isEmpty then !z else z) :: (if sign then biased l else l) := by
        intro z l hl
        rw [biased_cons, hempty l hl]
        cases sign <;> rfl
      rw [hlist x xs hxs.length_eq.symm, hlist y ys hys, lessBits]
      refine h _ _ _ ?_ hxs hys'
      have hxor := rdiffer _ _ (ra x hx) (rb y hy)
      rw [rresult _ _ _ hv (rb y hy) (rsame _ hxor)]
      congr 1
      generalize (if sign && as.isEmpty then !x else x) = x'
      generalize (if sign && as.isEmpty then !y else y) = y'
      cases x' <;> cases y' <;> rfl

theorem less_maps (hm : m.Sound) (sign : Bool) {a b : Value} (ha : m.out.Has a)
    (hb : m.out.Has b) (hlen : a.length = b.length) :
    MapsBit m (less a b sign) fun w bit => ∀ xs ys, w.Reads a xs → w.Reads b ys →
      w.look bit = some (lessBits false (if sign then biased xs else xs)
        (if sign then biased ys else ys)) := by
  refine (lessFrom_maps hm sign (Graph.Has.zero_lt _) ha hb hlen).mono (fun _ _ _ h => h) ?_
  intro w bit hw h xs ys
  exact h false xs ys hw.zero

theorem equalFrom_maps (hm : m.Sound) {result : Nat} {a b : Value} (hr : result < m.out.bound)
    (ha : m.out.Has a) (hb : m.out.Has b) (hlen : a.length = b.length) :
    MapsBit m (equalFrom result a b) fun w bit => ∀ verdict xs ys,
      w.look result = some verdict → w.Reads a xs → w.Reads b ys →
        w.look bit = some (verdict && xs == ys) := by
  induction a generalizing m result b with
  | nil =>
      obtain rfl : b = [] := List.length_eq_zero_iff.mp hlen.symm
      unfold equalFrom
      refine Maps.pure hm hr ?_
      intro w _ verdict xs ys h hx hy
      cases hx
      cases hy
      rw [h, beq_self_eq_true, Bool.and_true]
  | cons a as ih =>
      obtain _ | ⟨b, bs⟩ := b
      · simp at hlen
      obtain ⟨ha, has⟩ := has_cons.mp ha
      obtain ⟨hb, hbs⟩ := has_cons.mp hb
      unfold equalFrom
      refine (xor_maps hm ha hb).bind fun differ m₁ h₁ le₁ hdiffer => ?_
      refine (invert_maps h₁ hdiffer).bind fun same m₂ h₂ le₂ hsame => ?_
      have le₂' := Nat.le_trans le₁ le₂
      refine (and_maps h₂ (Nat.lt_of_lt_of_le hr le₂') hsame).bind
        fun result' m₃ h₃ le₃ hresult => ?_
      have le₃' := Nat.le_trans le₂' le₃
      refine (ih h₃ hresult (has.mono le₃') (hbs.mono le₃') (Nat.succ.inj hlen)).mono
        (fun _ _ _ h => h) ?_
      intro w bit _ h rresult rsame rdiffer verdict xs ys hv hx hy
      cases hx with
      | @cons _ x _ xs hx hxs =>
      cases hy with
      | @cons _ y _ ys hy hys =>
      rw [h _ _ _ (rresult _ _ hv (rsame _ (rdiffer _ _ hx hy))) hxs hys, List.cons_beq_cons,
        Bool.and_assoc]
      congr 2
      cases x <;> cases y <;> rfl

theorem equal_maps (hm : m.Sound) {a b : Value} (ha : m.out.Has a) (hb : m.out.Has b)
    (hlen : a.length = b.length) :
    MapsBit m (equal a b) fun w bit => ∀ xs ys, w.Reads a xs → w.Reads b ys →
      w.look bit = some (xs == ys) := by
  refine (equalFrom_maps hm (Graph.one_lt_bound _) ha hb hlen).mono (fun _ _ _ h => h) ?_
  intro w bit hw h xs ys hx hy
  rw [h true xs ys hw.one hx hy, Bool.true_and]

/-! ## Shifting -/

theorem Has.movedBy {g : Graph} {left : Bool} {fill distance : Nat} {v : Value}
    (hfill : fill < g.bound) (hv : g.Has v) : g.Has (movedBy left fill distance v) := by
  have hlane : ∀ i, v.getD i fill < g.bound := by
    intro i
    rw [List.getD_eq_getElem?_getD]
    cases h : v[i]? with
    | none => exact hfill
    | some bit => exact hv bit (List.mem_of_getElem? h)
  refine Graph.Has.map_range fun i => ?_
  split_ifs
  · exact hlane _
  · exact hfill
  · exact hlane _

theorem reads_movedBy {w : World} {left : Bool} {fill distance : Nat} {f : Bool} {v : Value}
    {bits : List Bool} (hfill : w.look fill = some f) (hv : w.Reads v bits) :
    w.Reads (movedBy left fill distance v) (movedBy left f distance bits) := by
  have hlane : ∀ i, w.look (v.getD i fill) = some (bits.getD i f) := by
    intro i
    by_cases hi : i < v.length
    · have hi' : i < bits.length := hv.length_eq ▸ hi
      rw [List.getD_eq_getElem _ _ hi, List.getD_eq_getElem _ _ hi']
      exact (World.reads_iff_getElem.mp hv).2 i hi hi'
    · rw [List.getD_eq_default _ _ (by omega),
        List.getD_eq_default _ _ (by rw [← hv.length_eq]; omega)]
      exact hfill
  unfold movedBy
  rw [← hv.length_eq]
  refine World.reads_map_range fun i _ => ?_
  split_ifs
  · exact hlane _
  · exact hfill
  · exact hlane _

/-- The stages left move by the amount that is left. Vectors have fewer than
`2 ^ 63` lanes, so the stages past the 62nd move everything out. -/
theorem shiftFrom_maps (hm : m.Sound) (left : Bool) {fill stage : Nat} {a amount : Value}
    (hfill : fill < m.out.bound) (ha : m.out.Has a) (hamount : m.out.Has amount)
    (hlen : a.length ≤ 2 ^ 63) :
    MapsValue m (shiftFrom left fill stage a amount) a.length fun w value => ∀ f xs ns,
      w.look fill = some f → w.Reads a xs → w.Reads amount ns →
        w.Reads value (movedBy left f (2 ^ stage * natOfBits ns) xs) := by
  induction amount generalizing m stage a with
  | nil =>
      unfold shiftFrom
      refine Maps.pure hm ⟨ha, rfl⟩ ?_
      intro w _ f xs ns _ hx hn
      cases hn
      rw [natOfBits_nil, Nat.mul_zero, movedBy_zero]
      exact hx
  | cons bit amount ih =>
      obtain ⟨hbit, hamount⟩ := has_cons.mp hamount
      unfold shiftFrom
      simp only
      generalize hshifted : (if stage < 63 ∧ 2 ^ stage < a.length
        then CppHdl.movedBy left fill (2 ^ stage) a else List.replicate a.length fill) = shifted
      -- a stage that is out of range moves by the length or more
      have hmoved : shifted = CppHdl.movedBy left fill (2 ^ stage) a := by
        rw [← hshifted]
        split_ifs with hstage
        · rfl
        · refine (movedBy_of_length_le left fill a ?_).symm
          by_cases h63 : stage < 63
          · exact Nat.le_of_not_lt fun h => hstage ⟨h63, h⟩
          · exact Nat.le_trans hlen (Nat.pow_le_pow_right (by omega) (by omega))
      have hlength : shifted.length = a.length := by rw [hmoved, length_movedBy]
      have hhas : m.out.Has shifted := by
        rw [hmoved]
        exact Has.movedBy hfill ha
      have hchoose := choose_maps hm hbit hhas ha hlength
      rw [hlength] at hchoose
      refine hchoose.bind fun a' n hn le ha' => ?_
      have hrest : MapsValue n (shiftFrom left fill (stage + 1) a' amount) a'.length _ :=
        ih hn (Nat.lt_of_lt_of_le hfill le) ha'.1 (hamount.mono le) (by rw [ha'.2]; exact hlen)
      rw [ha'.2] at hrest
      refine hrest.mono (fun _ _ _ h => h) ?_
      intro w value _ h rchoose f xs ns hf hx hns
      cases hns with
      | @cons _ c _ cs hc hcs =>
      have hstage := rchoose c _ _ hc (hmoved ▸ reads_movedBy hf hx) hx
      have hvalue := h f _ cs hf hstage hcs
      rw [natOfBits_cons, Nat.mul_add, ← Nat.mul_assoc, ← Nat.pow_succ]
      cases c with
      | true =>
          rw [if_pos rfl, movedBy_movedBy] at hvalue
          rwa [Bool.toNat_true, Nat.mul_one]
      | false =>
          rw [if_neg (by simp)] at hvalue
          rwa [Bool.toNat_false, Nat.mul_zero, Nat.zero_add]

end Mapper

end CppHdl
