import CppHdl.Synth.Multiplier
import CppHdl.Synth.Divider

/-!
# Word operations as gate networks

`wordGates` is the choice of the network for a node and the widths its operands
are brought to; `mapNode` brings the result to the width of the node. For the
operations of `calculate` the result holds the integer the operation means, at
every width, and the word `calculate` returns on machine words.
-/

namespace CppHdl

open Failing

namespace Mapper

def reduceGates (op : Op) (value : Value) : MapperM Nat :=
  value.foldlM (fun bit x => gate (match op with | .all => .and | .any => .or | _ => .xor) bit x)
    (if op = .all then 1 else 0)

/-- The network of an operation. -/
def wordGates (op : Op) (a b s : Value) (width : Nat) : MapperM Value :=
  match op with
  | .mux =>
      match s with
      | select :: _ => choose select (resize a width) (resize b width)
      | [] => throw .outOfRange
  | .any | .all | .parity => do
      let bit ← reduceGates op a
      pure [bit]
  | .shl | .shr | .sar => shift a b (decide (op = .shl)) (decide (op = .sar)) width
  | .eq => do
      let count := max a.length b.length
      let bit ← equal (resize a count) (resize b count)
      pure [bit]
  | .lt | .slt => do
      let count := max a.length b.length
      let sign := decide (op = .slt)
      let bit ← less (resize a count sign) (resize b count sign) sign
      pure [bit]
  | .div | .mod | .sdiv | .smod =>
      let count := max width (max a.length b.length)
      let sign := decide (op = .sdiv ∨ op = .smod)
      divide (resize a count sign) (resize b count sign) sign (decide (op = .mod ∨ op = .smod))
  | .add | .sub => add (resize a width) (resize b width) (decide (op = .sub))
  | .and | .or | .xor =>
      ((resize a width).zip (resize b width)).mapM fun lanes => gate op lanes.1 lanes.2
  | .mul => multiply (resize a width) (resize b width) width
  | op => throw (.runtime ("unsupported gate mapping operation: " ++ op.text))

/-- The gates of a node, and the bits that take its place. -/
def mapNode (op : Op) (a b s : Value) (width : Nat) : MapperM Value := do
  let result ← wordGates op a b s width
  pure (resize result width)

/-! ## Widened operands -/

/-- An operand continued by its sign, or by zeros. -/
def extended (sign : Bool) (bits : List Bool) (width : Nat) : List Bool :=
  bits ++ List.replicate (width - bits.length) (sign && signBit bits)

theorem length_extended (sign : Bool) {bits : List Bool} {width : Nat}
    (h : bits.length ≤ width) : (extended sign bits width).length = width := by
  unfold extended
  rw [List.length_append, List.length_replicate]
  omega

theorem signBit_extended (bits : List Bool) (width : Nat) :
    signBit (extended true bits width) = signBit bits := by
  unfold extended
  rw [Bool.true_and]
  cases hk : width - bits.length with
  | zero => rw [List.replicate_zero, List.append_nil]
  | succ k =>
      unfold signBit
      rw [List.replicate_succ', ← List.append_assoc, List.getLastD_concat]

theorem natOfBits_extended_false (bits : List Bool) (width : Nat) :
    natOfBits (extended false bits width) = natOfBits bits := by
  unfold extended
  rw [Bool.false_and, natOfBits_append, natOfBits_replicate_false, Nat.mul_zero, Nat.add_zero]

theorem operandInt_extended (sign : Bool) {bits : List Bool} {width : Nat}
    (h : bits.length ≤ width) :
    operandInt sign (extended sign bits width) = operandInt sign bits := by
  unfold operandInt
  cases sign with
  | false =>
      rw [if_neg (by simp), if_neg (by simp), natOfBits_extended_false]
  | true =>
      have hext : extended true bits width = signExtend bits width := by
        unfold extended signExtend
        rw [Bool.true_and]
      rw [if_pos rfl, if_pos rfl]
      have hvalue := natOfBits_signExtend h
      have hsign := signBit_extended bits width
      have hlen := length_extended true h
      rw [hext] at hsign hlen ⊢
      unfold intOfBits at hvalue ⊢
      rw [hvalue, hsign, hlen]
      ring

theorem reads_extended {w : World} (hw : w.Consts) (sign : Bool) {v : Value} {bits : List Bool}
    {width : Nat} (h : w.Reads v bits) (hle : v.length ≤ width) :
    w.Reads (resize v width sign) (extended sign bits width) := by
  unfold resize extended
  rw [List.take_of_length_le hle, ← h.length_eq]
  exact h.append (World.reads_replicate (look_sign hw sign h) _)

theorem has_resize {g : Graph} {v : Value} (hv : g.Has v) (width : Nat) (sign : Bool) :
    g.Has (resize v width sign) := by
  have hfill : (if sign then v.getLastD 0 else 0) < g.bound := by
    split_ifs
    · exact hv.getLastD
    · exact Graph.Has.zero_lt g
  exact Graph.Has.append (fun b hb => hv b (List.mem_of_mem_take hb)) (Graph.Has.replicate hfill _)

/-! ## The results over the integers -/

/-- The integer a word operation denotes on operands given as bits. -/
def exactResult (op : Op) (l r : List Bool) : Int :=
  match op with
  | .div => divided false false l r
  | .mod => divided false true l r
  | .sdiv => divided true false l r
  | .smod => divided true true l r
  | .slt => if intOfBits l < intOfBits r then 1 else 0
  | op => integerResult op l r

/-- Narrowing keeps the integer modulo the width. -/
theorem holds_resize {w : World} (hw : w.Consts) {v : Value} {z : Int} (h : w.Holds v z)
    {width : Nat} (hle : width ≤ v.length) : w.Holds (resize v width) z := by
  obtain ⟨x, hx, hmod⟩ := h
  have hnum : w.Num v (x % 2 ^ v.length) := hx.congr (Nat.mod_mod _ _).symm
  refine ⟨_, hw.num_resize hnum (Nat.mod_lt _ (Nat.two_pow_pos _)) width, ?_⟩
  rw [length_resize]
  refine modEq_of_le ?_ hle
  rw [Int.natCast_emod, Int.natCast_pow, Nat.cast_ofNat]
  exact (Int.mod_modEq _ _).trans hmod

theorem holds_flag {w : World} (hw : w.Consts) {bit : Nat} {flag : Bool}
    (h : w.look bit = some flag) (width : Nat) :
    w.Holds (resize [bit] width) (flag.toNat : Int) := by
  refine World.Num.holds (hw.num_resize (World.num_singleton.mpr ?_) ?_ width)
  · rw [h]
    cases flag <;> rfl
  · cases flag <;> simp

/-- What a network of a word operation promises of its node. -/
abbrev MapsNode (m : Mapper) (op : Op) (a b s : Value) (width : Nat) : Prop :=
  MapsValue m (mapNode op a b s width) width fun w value => ∀ l r,
    w.Reads a l → w.Reads b r → w.Holds value (exactResult op l r)

variable {m : Mapper} {a b s : Value} {width : Nat}

/-- A node from the network of its operation. -/
theorem mapNode_of_network {op : Op} {count : Nat} {R : World → Value → Prop}
    (h : MapsValue m (wordGates op a b s width) count R)
    (hR : ∀ w value, w.Consts → value.length = count → R w value → ∀ l r,
      w.Reads a l → w.Reads b r → w.Holds (resize value width) (exactResult op l r)) :
    MapsNode m op a b s width := by
  unfold MapsNode mapNode
  refine h.bind fun value n hn _ hvalue => ?_
  refine Maps.pure hn ⟨has_resize hvalue.1 _ _, length_resize _ _ _⟩ fun w hw hr => ?_
  exact hR w value hw.consts hvalue.2 hr

theorem addSub_node (hm : m.Sound) {op : Op} (hop : op = .add ∨ op = .sub)
    (ha : m.out.Has a) (hb : m.out.Has b) : MapsNode m op a b s width := by
  have hadd := add_maps hm (decide (op = .sub)) (has_resize ha width false)
    (has_resize hb width false) (by rw [length_resize, length_resize])
  have hgates : wordGates op a b s width =
      add (resize a width) (resize b width) (decide (op = .sub)) := by
    rcases hop with rfl | rfl <;> rfl
  rw [length_resize, ← hgates] at hadd
  refine mapNode_of_network hadd ?_
  intro w value hw hlen h l r hl hr
  obtain ⟨xs, hxs, hX⟩ := reads_resize hw hl width
  obtain ⟨ys, hys, hY⟩ := reads_resize hw hr width
  have hsum := h xs ys hxs hys
  have hxlen : xs.length = width := by rw [← hxs.length_eq, length_resize]
  have hylen : ys.length = width := by rw [← hys.length_eq, length_resize]
  refine holds_resize hw ⟨_, hsum.num, ?_⟩ (by omega)
  rw [hlen]
  have hx : (natOfBits xs : Int) ≡ natOfBits l [ZMOD 2 ^ width] := by
    rw [hX]
    exact natCast_mod_modEq _ _
  have hy : (natOfBits ys : Int) ≡ natOfBits r [ZMOD 2 ^ width] := by
    rw [hY]
    exact natCast_mod_modEq _ _
  rcases hop with rfl | rfl
  · simp only [reduceCtorEq, decide_false, Bool.false_eq_true, if_false]
    rw [natOfBits_sum (by omega), hxlen]
    refine (natCast_mod_modEq _ _).trans ?_
    rw [Int.natCast_add]
    exact hx.add hy
  · simp only [decide_true, if_true]
    have hlt := natOfBits_lt ys
    rw [natOfBits_difference (by omega), hxlen]
    refine (natCast_mod_modEq _ _).trans ?_
    rw [Int.natCast_add, Nat.cast_sub (by rw [← hylen]; exact hlt.le), Int.natCast_pow,
      Nat.cast_ofNat]
    refine Int.ModEq.trans ?_ (hx.sub hy)
    rw [Int.modEq_iff_dvd]
    exact ⟨-1, by ring⟩

theorem mul_node (hm : m.Sound) (hwidth : 0 < width) (ha : m.out.Has a) (hb : m.out.Has b) :
    MapsNode m .mul a b s width := by
  refine mapNode_of_network (multiply_maps hm (has_resize ha width false)
    (has_resize hb width false) (length_resize _ _ _) (length_resize _ _ _) hwidth) ?_
  intro w value hw hlen h l r hl hr
  obtain ⟨xs, hxs, hX⟩ := reads_resize hw hl width
  obtain ⟨ys, hys, hY⟩ := reads_resize hw hr width
  obtain ⟨bits, hbits, hproduct⟩ := h xs ys hxs hys
  refine holds_resize hw ⟨_, hbits.num, ?_⟩ (by omega)
  have hnat : natOfBits bits ≡ natOfBits l * natOfBits r [MOD 2 ^ width] := by
    rw [hX, hY] at hproduct
    exact hproduct.trans ((Nat.mod_modEq _ _).mul (Nat.mod_modEq _ _))
  have := Int.natCast_modEq_iff.mpr hnat
  rw [Int.natCast_mul, Int.natCast_pow, Nat.cast_ofNat] at this
  rw [hlen]
  exact this

theorem divide_node (hm : m.Sound) {op : Op} (hop : op = .div ∨ op = .mod ∨ op = .sdiv ∨ op = .smod)
    (ha : m.out.Has a) (hb : m.out.Has b) : MapsNode m op a b s width := by
  generalize hcount : max width (max a.length b.length) = count
  generalize hsign : decide (op = .sdiv ∨ op = .smod) = sign
  generalize hrem : decide (op = .mod ∨ op = .smod) = remainder
  have hdivide := divide_maps hm sign remainder (has_resize ha count sign)
    (has_resize hb count sign) (by rw [length_resize, length_resize])
  have hgates : wordGates op a b s width =
      divide (resize a count sign) (resize b count sign) sign remainder := by
    subst hcount hsign hrem
    rcases hop with rfl | rfl | rfl | rfl <;> rfl
  rw [length_resize, ← hgates] at hdivide
  refine mapNode_of_network hdivide ?_
  intro w value hw hlen h l r hl hr
  have hla : l.length ≤ count := by rw [← hl.length_eq]; omega
  have hlb : r.length ≤ count := by rw [← hr.length_eq]; omega
  have hholds := h _ _ (reads_extended hw sign hl (by omega)) (reads_extended hw sign hr (by omega))
  unfold divided at hholds
  rw [operandInt_extended sign hla, operandInt_extended sign hlb] at hholds
  have hexact : exactResult op l r = divided sign remainder l r := by
    subst hsign hrem
    rcases hop with rfl | rfl | rfl | rfl <;> rfl
  rw [hexact]
  exact holds_resize hw hholds (by omega)

theorem eq_node (hm : m.Sound) (ha : m.out.Has a) (hb : m.out.Has b) :
    MapsNode m .eq a b s width := by
  generalize hcount : max a.length b.length = count
  have hequal := equal_maps hm (has_resize ha count false) (has_resize hb count false)
    (by rw [length_resize, length_resize])
  have hgates : wordGates .eq a b s width =
      equal (resize a count) (resize b count) >>= fun bit => Pure.pure [bit] := by
    rw [← hcount]
    rfl
  have hnetwork : MapsValue m (wordGates .eq a b s width) 1 fun w value => ∃ bit,
      value = [bit] ∧ ∀ xs ys, w.Reads (resize a count) xs → w.Reads (resize b count) ys →
        w.look bit = some (xs == ys) := by
    rw [hgates]
    refine hequal.bind fun bit n hn _ hbit => ?_
    exact Maps.pure hn ⟨Graph.Has.singleton hbit, rfl⟩ fun w _ h => ⟨bit, rfl, h⟩
  refine mapNode_of_network hnetwork ?_
  rintro w _ hw - ⟨bit, rfl, h⟩ l r hl hr
  have hla : l.length ≤ count := by rw [← hl.length_eq]; omega
  have hlb : r.length ≤ count := by rw [← hr.length_eq]; omega
  have hflag := h _ _ (reads_extended hw false hl (by omega))
    (reads_extended hw false hr (by omega))
  have hexact : exactResult .eq l r =
      ((extended false l count == extended false r count).toNat : Int) := by
    have hiff : extended false l count = extended false r count ↔ natOfBits l = natOfBits r := by
      rw [← natOfBits_extended_false l count, ← natOfBits_extended_false r count]
      exact ⟨congrArg natOfBits, natOfBits_inj (by rw [length_extended _ hla, length_extended _ hlb])⟩
    change (if natOfBits l = natOfBits r then 1 else 0 : Int) = _
    by_cases heq : natOfBits l = natOfBits r
    · rw [if_pos heq, hiff.mpr heq, beq_self_eq_true]
      rfl
    · rw [if_neg heq, beq_false_of_ne (mt hiff.mp heq)]
      rfl
  rw [hexact]
  exact holds_flag hw hflag width

/-- Inverting the top bit adds half the range to the signed number. -/
theorem natOfBits_biased {bits : List Bool} (h : bits ≠ []) :
    (natOfBits (biased bits) : Int) = intOfBits bits + 2 ^ (bits.length - 1) := by
  induction bits with
  | nil => exact absurd rfl h
  | cons b l ih =>
      rw [biased_cons]
      cases l with
      | nil => cases b <;> rfl
      | cons c l =>
          have htail := ih (by simp)
          have hsign : signBit (b :: c :: l) = signBit (c :: l) := rfl
          unfold intOfBits at htail ⊢
          rw [hsign, natOfBits_cons, natOfBits_cons b]
          push_cast
          rw [htail]
          simp only [List.isEmpty_cons, Bool.false_eq_true, if_false, List.length_cons,
            Nat.add_sub_cancel]
          split_ifs <;> ring

theorem length_biased (bits : List Bool) : (biased bits).length = bits.length := by
  induction bits with
  | nil => rfl
  | cons b l ih => rw [biased_cons, List.length_cons, List.length_cons, ih]

theorem less_node (hm : m.Sound) {op : Op} (hop : op = .lt ∨ op = .slt)
    (ha : m.out.Has a) (hb : m.out.Has b) : MapsNode m op a b s width := by
  generalize hcount : max a.length b.length = count
  generalize hsign : decide (op = .slt) = sign
  have hless := less_maps hm sign (has_resize ha count sign) (has_resize hb count sign)
    (by rw [length_resize, length_resize])
  have hgates : wordGates op a b s width =
      less (resize a count sign) (resize b count sign) sign >>= fun bit => Pure.pure [bit] := by
    subst hcount hsign
    rcases hop with rfl | rfl <;> rfl
  have hnetwork : MapsValue m (wordGates op a b s width) 1 fun w value => ∃ bit,
      value = [bit] ∧ ∀ xs ys, w.Reads (resize a count sign) xs →
        w.Reads (resize b count sign) ys →
          w.look bit = some (lessBits false (if sign then biased xs else xs)
            (if sign then biased ys else ys)) := by
    rw [hgates]
    refine hless.bind fun bit n hn _ hbit => ?_
    exact Maps.pure hn ⟨Graph.Has.singleton hbit, rfl⟩ fun w _ h => ⟨bit, rfl, h⟩
  refine mapNode_of_network hnetwork ?_
  rintro w _ hw - ⟨bit, rfl, h⟩ l r hl hr
  have hla : l.length ≤ count := by rw [← hl.length_eq]; omega
  have hlb : r.length ≤ count := by rw [← hr.length_eq]; omega
  have hflag := h _ _ (reads_extended hw sign hl (by omega))
    (reads_extended hw sign hr (by omega))
  have hx := length_extended sign hla
  have hy := length_extended sign hlb
  have hexact : exactResult op l r = if operandInt sign l < operandInt sign r then 1 else 0 := by
    subst hsign
    rcases hop with rfl | rfl
    · simp only [exactResult, integerResult, operandInt, reduceCtorEq, decide_false,
        Bool.false_eq_true, if_false, Int.ofNat_lt]
    · rfl
  rw [hexact, ← toNat_decide_eq_ite, ← operandInt_extended sign hla,
    ← operandInt_extended sign hlb]
  refine holds_flag hw ?_ width
  rw [hflag, Option.some.injEq]
  unfold operandInt
  cases sign with
  | false =>
      simp only [Bool.false_eq_true, if_false]
      rw [lessBits_false (by rw [hx, hy]), decide_eq_decide]
      exact Int.ofNat_lt.symm
  | true =>
      simp only [if_true]
      rw [lessBits_false (by rw [length_biased, length_biased, hx, hy]), decide_eq_decide]
      by_cases hzero : count = 0
      · -- no lanes at all
        subst hzero
        rw [List.length_eq_zero_iff.mp hx, List.length_eq_zero_iff.mp hy]
        simp [intOfBits, biased]
      · have hne : ∀ e : List Bool, e.length = count → e ≠ [] := by
          rintro e he rfl
          exact hzero he.symm
        have hbx := natOfBits_biased (hne _ hx)
        have hby := natOfBits_biased (hne _ hy)
        rw [hx] at hbx
        rw [hy] at hby
        omega

/-! ## Shifts -/

/-- A shifted operand, lane by lane. -/
theorem getD_movedBy_extended {left sign : Bool} {bits : List Bool} {count distance i : Nat}
    (hle : bits.length ≤ count) (hi : i < count) :
    (movedBy left (sign && signBit bits) distance (extended sign bits count)).getD i
        (sign && signBit bits) =
      if left then if distance ≤ i then (extended sign bits count).getD (i - distance)
        (sign && signBit bits) else sign && signBit bits
      else if distance + i < bits.length then bits.getD (distance + i) false
      else sign && signBit bits := by
  rw [getD_movedBy, length_extended sign hle, if_neg (by omega)]
  cases left with
  | true => rfl
  | false =>
      simp only [Bool.false_eq_true, if_false]
      unfold extended
      rw [Nat.add_comm]
      split_ifs with hin
      · rw [List.getD_eq_getElem?_getD, List.getElem?_append_left hin, List.getD_eq_getElem?_getD,
          List.getElem?_eq_getElem hin]
        rfl
      · rw [List.getD_eq_getElem?_getD, List.getElem?_append_right (by omega),
          List.getElem?_replicate]
        split_ifs <;> rfl

theorem shift_maps (hm : m.Sound) (left arithmetic : Bool) (hcount : max a.length width ≤ 2 ^ 63)
    (ha : m.out.Has a) (hb : m.out.Has b) :
    MapsValue m (shift a b left arithmetic width) width fun w value => ∀ l r, w.Reads a l →
      w.Reads b r → ∀ i < width, w.look (value.getD i 0) = some
        ((movedBy left (arithmetic && signBit l) (natOfBits r)
          (extended arithmetic l (max a.length width))).getD i (arithmetic && signBit l)) := by
  have hwide : a.length ≤ max a.length width := le_max_left _ _
  unfold shift
  simp only
  generalize hcountEq : max a.length width = count at hcount hwide ⊢
  have hsize : (resize a count arithmetic).length = count := length_resize _ _ _
  have hhas := has_resize ha count arithmetic
  generalize hwidened : resize a count arithmetic = widened at hsize hhas ⊢
  have hfill : (if arithmetic then widened.getLastD 0 else 0) < m.out.bound := by
    split_ifs
    · exact hhas.getLastD
    · exact Graph.Has.zero_lt _
  refine (shiftFrom_maps hm left hfill hhas hb (by omega)).bind fun value n hn hmn hvalue => ?_
  refine Maps.pure hn ⟨hvalue.1.resize _, length_resize _ _ _⟩ ?_
  intro w hw h l r hl hr i hi
  have hc := hw.consts
  have hext := reads_extended hc arithmetic hl hwide
  rw [hwidened] at hext
  have hsign : (arithmetic && signBit (extended arithmetic l count)) =
      (arithmetic && signBit l) := by
    cases arithmetic with
    | false => rfl
    | true => rw [signBit_extended]
  have hfillReads := look_sign hc arithmetic hext
  rw [hsign] at hfillReads
  have hmoved := h _ _ _ hfillReads hext hr
  rw [Nat.pow_zero, Nat.one_mul] at hmoved
  have hlen : (movedBy left (arithmetic && signBit l) (natOfBits r)
      (extended arithmetic l count)).length = count := by
    rw [length_movedBy, length_extended _ (by rw [← hl.length_eq]; exact hwide)]
  rw [getD_resize value hi, List.getD_eq_getElem _ _ (by omega),
    List.getD_eq_getElem _ _ (by omega)]
  exact (World.reads_iff_getElem.mp hmoved).2 i _ _

theorem shift_node (hm : m.Sound) {op : Op} (hop : op = .shl ∨ op = .shr ∨ op = .sar)
    (hcount : max a.length width ≤ 2 ^ 63) (ha : m.out.Has a) (hb : m.out.Has b) :
    MapsNode m op a b s width := by
  have hgates : wordGates op a b s width =
      shift a b (decide (op = .shl)) (decide (op = .sar)) width := by
    rcases hop with rfl | rfl | rfl <;> rfl
  have hshift := shift_maps hm (decide (op = .shl)) (decide (op = .sar)) hcount ha hb
  rw [← hgates] at hshift
  refine mapNode_of_network hshift ?_
  intro w value hw hlen h l r hl hr
  have hle : l.length ≤ max a.length width := by rw [← hl.length_eq]; exact le_max_left _ _
  have hlanes := h l r hl hr
  refine holds_resize hw ?_ (by omega)
  have hright : op = .shr ∨ op = .sar → w.Holds value (exactResult op l r) := by
    intro hop
    have hresult : exactResult op l r = integerResult op l r := by
      rcases hop with rfl | rfl <;> rfl
    rw [hresult]
    refine World.holds_of_shiftRight hop fun i hi => ?_
    rw [hlanes i (by omega), getD_movedBy_extended hle (by omega)]
    unfold shiftRightLane
    rcases hop with rfl | rfl <;> rfl
  rcases hop with rfl | hop
  · have hnum : w.Num value (natOfBits l * 2 ^ natOfBits r) := by
      intro i hi
      rw [hlanes i (by omega), getD_movedBy_extended hle (by omega), Nat.testBit_mul_two_pow,
        ← natOfBits_extended_false l (max a.length width), testBit_natOfBits]
      simp only [decide_true, if_true, reduceCtorEq, decide_false, Bool.false_and]
      by_cases hfar : natOfBits r ≤ i
      · rw [if_pos hfar, decide_eq_true hfar, Bool.true_and]
      · rw [if_neg hfar, decide_eq_false hfar, Bool.false_and]
    have hcast : exactResult .shl l r = ((natOfBits l * 2 ^ natOfBits r : Nat) : Int) := by
      simp only [exactResult, integerResult, Int.natCast_mul, Int.natCast_pow, Nat.cast_ofNat]
    rw [hcast]
    exact hnum.holds
  · exact hright hop

/-- The gates of every word operation hold its integer result. -/
theorem mapNode_maps (hm : m.Sound) {op : Op} (hop : op.arithmetic = true) (hwidth : 0 < width)
    (hcount : max a.length width ≤ 2 ^ 63) (ha : m.out.Has a) (hb : m.out.Has b) :
    MapsNode m op a b s width := by
  cases op <;> cases hop
  case add => exact addSub_node hm (.inl rfl) ha hb
  case sub => exact addSub_node hm (.inr rfl) ha hb
  case mul => exact mul_node hm hwidth ha hb
  case div => exact divide_node hm (.inl rfl) ha hb
  case mod => exact divide_node hm (.inr (.inl rfl)) ha hb
  case sdiv => exact divide_node hm (.inr (.inr (.inl rfl))) ha hb
  case smod => exact divide_node hm (.inr (.inr (.inr rfl))) ha hb
  case eq => exact eq_node hm ha hb
  case lt => exact less_node hm (.inl rfl) ha hb
  case slt => exact less_node hm (.inr rfl) ha hb
  case shl => exact shift_node hm (.inl rfl) hcount ha hb
  case shr => exact shift_node hm (.inr (.inl rfl)) hcount ha hb
  case sar => exact shift_node hm (.inr (.inr rfl)) hcount ha hb

/-! ## Machine words -/

/-- The operations that read both operands in two's complement. -/
def signedOp (op : Op) : Bool := decide (op = .sdiv ∨ op = .smod ∨ op = .slt)

theorem toUInt64_modEq (z : Int) : (toUInt64 z : Int) ≡ z [ZMOD 2 ^ 64] := by
  unfold toUInt64
  rw [Int.toNat_of_nonneg (Int.emod_nonneg _ (by decide))]
  exact Int.mod_modEq _ _

/-- Only a full word denotes the least machine integer. -/
theorem natOfBits_of_least {l : List Bool} (hl : l.length ≤ 64) (h : intOfBits l = -2 ^ 63) :
    natOfBits l = 2 ^ 63 := by
  have hlt := natOfBits_lt l
  have hpow := Nat.pow_le_pow_right (n := 2) (by omega) hl
  unfold intOfBits at h
  cases hsign : signBit l with
  | false =>
      rw [hsign] at h
      simp only [Bool.false_eq_true, if_false] at h
      omega
  | true =>
      rw [hsign, if_pos rfl] at h
      have hne : l ≠ [] := by
        rintro rfl
        cases hsign
      have hge := (two_pow_le_natOfBits_iff hne).mpr hsign
      have hsplit : 2 ^ l.length = 2 * 2 ^ (l.length - 1) := by
        rw [← Nat.pow_succ', Nat.succ_eq_add_one, Nat.sub_add_cancel (List.length_pos_iff.mpr hne)]
      have hcast : ((2 ^ l.length : Nat) : Int) = 2 ^ l.length := by push_cast; rfl
      rw [← hcast] at h
      omega

/-- Division of machine words. -/
theorem calculate_divided {sign remainder : Bool} {op : Op} {l r : List Bool}
    (hop : op = match sign, remainder with
      | false, false => .div
      | false, true => .mod
      | true, false => .sdiv
      | true, true => .smod)
    (hl : l.length ≤ 64) (hr : r.length ≤ 64) (hsigned : sign = true → l.length = r.length) :
    ∃ word, calculate op (natOfBits l) (natOfBits r) l.length = .ok word ∧
      (word : Int) ≡ divided sign remainder l r [ZMOD 2 ^ 64] := by
  have hlhs := signedNumber_natOfBits hl
  cases sign with
  | false =>
      have hdivisor : operandInt false r = 0 ↔ natOfBits r = 0 := Int.natCast_eq_zero
      unfold divided
      cases remainder <;>
      · subst hop
        refine ⟨_, rfl, ?_⟩
        simp only [hdivisor, ite_not, Bool.false_eq_true, if_true, if_false]
        split_ifs with hzero
        · rfl
        · exact Int.ModEq.refl _
  | true =>
      have hrhs : signedNumber (natOfBits r) l.length = intOfBits r := by
        rw [hsigned rfl]
        exact signedNumber_natOfBits hr
      have hx : operandInt true l = intOfBits l := rfl
      have hy : operandInt true r = intOfBits r := rfl
      unfold divided
      rw [hx, hy]
      cases remainder with
      | false =>
          subst hop
          simp only [calculate, hlhs, hrhs, Bool.false_eq_true, if_false]
          split_ifs with hzero hleast
          · exact ⟨0, rfl, Int.ModEq.refl _⟩
          · refine ⟨_, rfl, ?_⟩
            rw [natOfBits_of_least hl hleast.1, hleast.1, hleast.2]
            decide
          · exact ⟨_, rfl, toUInt64_modEq _⟩
      | true =>
          subst hop
          simp only [calculate, hlhs, hrhs, if_true]
          split_ifs with hzero hleast
          · exact ⟨0, rfl, Int.ModEq.refl _⟩
          · refine ⟨0, rfl, ?_⟩
            rw [hleast.1, hleast.2]
            decide
          · exact ⟨_, rfl, toUInt64_modEq _⟩

/-- The word `calculate` returns holds the integer result. -/
theorem calculate_exact {op : Op} (hop : op.arithmetic = true) {l r : List Bool} {width : Nat}
    (hl : l.length ≤ 64) (hr : r.length ≤ 64) (hwidth : width ≤ 64)
    (hsigned : signedOp op = true → l.length = r.length) :
    ∃ word, calculate op (natOfBits l) (natOfBits r) l.length = .ok word ∧
      ∀ w : World, w.Consts → w.Holds (constant word width) (exactResult op l r) := by
  have hlen : ∀ word, (constant word width).length = width := fun word => by simp [constant]
  have hword : ∀ z : Int, (∃ word, calculate op (natOfBits l) (natOfBits r) l.length = .ok word ∧
      (word : Int) ≡ z [ZMOD 2 ^ 64]) → ∃ word,
        calculate op (natOfBits l) (natOfBits r) l.length = .ok word ∧
          ∀ w : World, w.Consts → w.Holds (constant word width) z := by
    rintro z ⟨word, hcalc, hz⟩
    exact ⟨word, hcalc, fun w hw =>
      ⟨word, hw.num_constant hwidth, modEq_of_le hz (by rw [hlen]; exact hwidth)⟩⟩
  by_cases hinteger : op.integer = true
  · obtain ⟨word, hcalc⟩ : ∃ word,
        calculate op (natOfBits l) (natOfBits r) l.length = .ok word := by
      cases op <;> cases hop <;> first | exact ⟨_, rfl⟩ | cases hinteger
    have hexact : exactResult op l r = integerResult op l r := by
      cases op <;> cases hop <;> first | rfl | cases hinteger
    refine ⟨word, hcalc, fun w hw => ?_⟩
    rw [hexact]
    exact calculate_integer hinteger hl hr hcalc (by rw [hlen]; exact hwidth)
      (hw.num_constant hwidth)
  · rcases (by cases op <;> simp [Op.arithmetic, Op.integer] at hop hinteger ⊢ :
      op = .div ∨ op = .mod ∨ op = .sdiv ∨ op = .smod ∨ op = .slt)
      with rfl | rfl | rfl | rfl | rfl
    · exact hword _ (@calculate_divided false false _ l r rfl hl hr
        fun h => absurd h Bool.false_ne_true)
    · exact hword _ (@calculate_divided false true _ l r rfl hl hr
        fun h => absurd h Bool.false_ne_true)
    · exact hword _ (@calculate_divided true false _ l r rfl hl hr
        fun _ => hsigned rfl)
    · exact hword _ (@calculate_divided true true _ l r rfl hl hr
        fun _ => hsigned rfl)
    · refine hword _ ⟨_, rfl, ?_⟩
      have hrhs : signedNumber (natOfBits r) l.length = intOfBits r := by
        rw [hsigned rfl]
        exact signedNumber_natOfBits hr
      rw [signedNumber_natOfBits hl, hrhs, toNat_decide_eq_ite]
      exact Int.ModEq.refl _

end Mapper

/-! ## The networks are exact -/

/-- What the gates of a word operation evaluate to, on operands that evaluate:
the integer result modulo the width, and on machine words the word that
`calculate` returns. -/
structure ComputesWord (op : Op) (g h : Graph) (a b result : Value) (width : Nat) : Prop where
  length : result.length = width
  integer : ∀ (P : Primitives) (env : Env) (l r : List Bool),
    a.mapM (g.value P env) = some l → b.mapM (g.value P env) = some r →
      result.mapM (h.value P env) =
        some (bitsOfNat width (Mapper.exactResult op l r % 2 ^ width).toNat)
  word : a.length ≤ 64 → b.length ≤ 64 → width ≤ 64 →
    (Mapper.signedOp op = true → a.length = b.length) →
      ∀ (P : Primitives) (env : Env) (l r : List Bool),
        a.mapM (g.value P env) = some l → b.mapM (g.value P env) = some r →
          ∃ word, calculate op (natOfBits l) (natOfBits r) a.length = .ok word ∧
            result.mapM (h.value P env) = some (bitsOfNat width word)

/-- In every state of the mapper the networks of the word operations are built
and evaluate to the result of the operation, whatever the widths. The bounds
are those of `unsigned` and of a vector of bits. -/
theorem mapNode_exact {m : Mapper} (hm : m.Reachable) {op : Op} (hop : op.arithmetic = true)
    {a b : Value} {width : Nat} (h₀ : 0 < width) (hwidth : width < 2 ^ 32)
    (hlength : a.length < 2 ^ 60) (ha : m.out.Has a) (hb : m.out.Has b) :
    ∃ result n, Ok (Mapper.mapNode op a b [] width) m result n ∧
      ComputesWord op m.out n.out a b result width := by
  have hcount : max a.length width ≤ 2 ^ 63 := by omega
  obtain ⟨result, n, hrun, hn, hgrows, ⟨-, hlen⟩, hholds⟩ :=
    Mapper.mapNode_maps hm.sound hop h₀ hcount ha hb
  have hreads : ∀ (P : Primitives) (env : Env) (l r : List Bool),
      a.mapM (m.out.value P env) = some l → b.mapM (m.out.value P env) = some r →
        (n.out.world P env).Consts ∧ (n.out.world P env).Reads a l ∧
          (n.out.world P env).Holds result (Mapper.exactResult op l r) := by
    intro P env l r hl hr
    have hrespects := hn.closed.wf.respects_world P env
    have hbelow := hgrows.value_below hn.closed.wf P env
    have hla := World.mapM_eq_some_iff.mp (hbelow.mapM hl)
    have hrb := World.mapM_eq_some_iff.mp (hbelow.mapM hr)
    exact ⟨hrespects.consts, hla, hholds _ ⟨hrespects, fun _ h => h⟩ l r hla hrb⟩
  refine ⟨result, n, hrun, ⟨hlen, fun P env l r hl hr => ?_, ?_⟩⟩
  · have := (hreads P env l r hl hr).2.2.mapM_eq
    rwa [hlen] at this
  · intro hla hlb hw hsigned P env l r hl hr
    obtain ⟨hconsts, hread, hresult⟩ := hreads P env l r hl hr
    have hal : a.length = l.length := hread.length_eq
    have hbr : b.length = r.length := (World.mapM_eq_some_iff.mp hr).length_eq
    obtain ⟨word, hcalc, hword⟩ := Mapper.calculate_exact hop (by omega : l.length ≤ 64)
      (by omega : r.length ≤ 64) hw fun h => by rw [← hal, ← hbr]; exact hsigned h
    rw [← hal] at hcalc
    refine ⟨word, hcalc, ?_⟩
    have hlenWord : (constant word width).length = width := by simp [constant]
    have hnum : (n.out.world P env).Num (constant word width) word := hconsts.num_constant hw
    have hbits := World.mapM_eq_some_iff.mpr (World.num_iff_reads.mp hnum)
    have hexact := (hword _ hconsts).mapM_eq
    rw [hbits, hlenWord] at hexact
    have hsame := hresult.mapM_eq
    rw [hlen, ← Option.some.inj hexact] at hsame
    exact hsame

/-- A signed quotient of two halves of an input. -/
theorem mapNode_exact_halves :
    let g : Graph := { nodes := #[⟨.input, 4, [], [], [], "a", ""⟩] }
    ∃ result n, Ok (Mapper.mapNode .sdiv [66, 67] [68, 69] [] 2) ⟨g, fun _ => none⟩ result n ∧
      ComputesWord .sdiv g n.out [66, 67] [68, 69] result 2 := by
  intro g
  have hg : g.Closed := Graph.closed_of_no_aliases rfl
  have hhas : ∀ v : Value, (∀ b ∈ v, b < 130) → g.Has v := fun v hv => hv
  exact mapNode_exact (.start hg) rfl (by omega) (by omega) (by decide)
    (hhas [66, 67] (by decide)) (hhas [68, 69] (by decide))

end CppHdl
