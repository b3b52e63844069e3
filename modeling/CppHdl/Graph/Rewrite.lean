import CppHdl.Graph.Resolve
import CppHdl.Graph.Word

/-!
# The local rewrites of a node

Soundness of `expandPower` and of every redirection: under a valuation that
reads the constants as constants, a redirected lane has at least the value the
node computes for it. Nothing here looks at aliases or at the rest of the
graph; `simplifyNode` has resolved the operands already.
-/

namespace CppHdl

/-- A valuation reads the two constant bits as constants. -/
structure World.Consts (w : World) : Prop where
  zero : w.look 0 = some false
  one : w.look 1 = some true

theorem Respects.consts {g : Graph} {w : World} (h : Respects g w) : w.Consts :=
  ⟨h.zero, h.one⟩

/-! ## Constants -/

namespace World.Consts

variable {w : World}

theorem look_of_lt_two (hw : w.Consts) {b : Nat} (hb : b < 2) : w.look b = some (b == 1) := by
  have : b = 0 ∨ b = 1 := by omega
  rcases this with rfl | rfl
  · exact hw.zero
  · exact hw.one

theorem look_toNat (hw : w.Consts) (b : Bool) : w.look b.toNat = some b := by
  cases b with
  | false => exact hw.zero
  | true => exact hw.one

theorem reads_number (hw : w.Consts) {v : Value} {k : Nat} (h : number v = some k) :
    v.length ≤ 64 ∧ ∃ bits, w.Reads v bits ∧ natOfBits bits = k := by
  unfold number at h
  split_ifs at h with hlen hany
  refine ⟨by omega, _, ?_, Option.some.inj h⟩
  rw [List.any_eq_true] at hany
  push Not at hany
  rw [World.Reads, List.forall₂_map_right_iff, List.forall₂_same]
  intro b hb
  have := hany b hb
  exact hw.look_of_lt_two (by simp at this; omega)

/-- The number of a value that reads as `bits` can only be theirs. -/
theorem number_eq (hw : w.Consts) {v : Value} {k : Nat} {bits : List Bool}
    (h : number v = some k) (hv : w.Reads v bits) : k = natOfBits bits := by
  obtain ⟨-, bits', hbits', rfl⟩ := hw.reads_number h
  rw [hbits'.unique hv]

theorem look_constant (hw : w.Consts) {k width i : Nat} (hi : i < width) (h64 : i < 64) :
    w.look ((constant k width).getD i 0) = some (k.testBit i) := by
  unfold constant
  rw [List.getD_eq_getElem?_getD, List.getElem?_map, List.getElem?_range hi]
  simp only [Option.map_some, Option.getD_some, if_pos h64]
  have hbit : (k >>> i) &&& 1 = (k.testBit i).toNat := by
    rw [Nat.and_one_is_mod, Nat.testBit_eq_decide_div_mod_eq, Nat.shiftRight_eq_div_pow]
    have := Nat.mod_two_eq_zero_or_one (k / 2 ^ i)
    rcases this with h | h <;> simp [h]
  rw [hbit]
  exact hw.look_toNat _

/-- Past the end of a value reads 0. -/
theorem look_getD (hw : w.Consts) {v : Value} {bits : List Bool} (h : w.Reads v bits) (i : Nat) :
    w.look (v.getD i 0) = some (bits.getD i false) := by
  have hi := h.getElem? i
  rw [List.getD_eq_getElem?_getD, List.getD_eq_getElem?_getD, ← hi]
  cases hv : v[i]? with
  | none => exact hw.zero
  | some b =>
      obtain ⟨hlt, rfl⟩ := List.getElem?_eq_some_iff.mp hv
      simp [h.getElem hlt]

theorem look_getLastD (hw : w.Consts) {v : Value} {bits : List Bool} (h : w.Reads v bits) :
    w.look (v.getLastD 0) = some (signBit bits) := by
  have hlast := hw.look_getD h (v.length - 1)
  unfold signBit
  rw [List.getLastD_eq_getLast?, List.getLastD_eq_getLast?, List.getLast?_eq_getElem?,
    List.getLast?_eq_getElem?, ← h.length_eq]
  simpa only [List.getD_eq_getElem?_getD] using hlast

end World.Consts

/-! ## Lanes of word operations -/

/-- Operations that work lane by lane. -/
def Op.bitwise : Op → Bool
  | .mux | .and | .or | .xor => true
  | _ => false

variable {w : World} {n : Node}

theorem World.laneValue_word (hop : n.op.bitwise = false) {i : Nat} {v : Bool} :
    w.laneValue n i = some v ↔ ∃ l r s word, w.Reads n.left l ∧ w.Reads n.right r ∧
      w.Reads n.select s ∧ n.wordValue w.prims w.memories w.env l r s = some word ∧
      word.testBit i = v := by
  have hlane : w.laneValue n i = (do
      let l ← n.left.mapM w.look
      let r ← n.right.mapM w.look
      let s ← n.select.mapM w.look
      (n.wordValue w.prims w.memories w.env l r s).map (·.testBit i)) := by
    unfold World.laneValue Node.laneValue
    split <;> simp_all [Op.bitwise]
  rw [hlane]
  simp only [Option.bind_eq_bind, Option.bind_eq_some_iff, Option.map_eq_some_iff,
    World.mapM_eq_some_iff]
  constructor
  · rintro ⟨l, hl, r, hr, s, hs, word, hword, hv⟩
    exact ⟨l, r, s, word, hl, hr, hs, hword, hv⟩
  · rintro ⟨l, r, s, word, hl, hr, hs, hword, hv⟩
    exact ⟨l, hl, r, hr, s, hs, word, hword, hv⟩

/-- Operations `calculate` knows. -/
def Op.arithmetic : Op → Bool
  | .add | .sub | .mul | .div | .mod | .sdiv | .smod
  | .eq | .lt | .slt | .shl | .shr | .sar => true
  | _ => false

theorem Op.bitwise_of_arithmetic {op : Op} (h : op.arithmetic = true) : op.bitwise = false := by
  cases op <;> first | rfl | cases h

theorem calculate_ok_arithmetic {op : Op} {l r width k : Nat}
    (h : calculate op l r width = .ok k) : op.arithmetic = true := by
  cases op <;> first | rfl | cases h

theorem Node.wordValue_arithmetic (hop : n.op.arithmetic = true) {P : Primitives}
    {memories : List Memory} {env : Env} {l r s : List Bool} {word : Nat} :
    n.wordValue P memories env l r s = some word ↔ l.length ≤ 64 ∧ r.length ≤ 64 ∧
      calculate n.op (natOfBits l) (natOfBits r) l.length = .ok word := by
  have hval : n.wordValue P memories env l r s =
      if l.length ≤ 64 ∧ r.length ≤ 64 then
        (calculate n.op (natOfBits l) (natOfBits r) l.length).toOption
      else none := by
    unfold Node.wordValue
    split <;> simp_all [Op.arithmetic]
  rw [hval]
  split_ifs with hlen
  · cases hc : calculate n.op (natOfBits l) (natOfBits r) l.length with
    | ok k => simp [hlen, Except.toOption]
    | error e => simp [Except.toOption]
  · exact ⟨nofun, fun h => absurd ⟨h.1, h.2.1⟩ hlen⟩

theorem World.laneValue_arithmetic (hop : n.op.arithmetic = true) {i : Nat} {v : Bool} :
    w.laneValue n i = some v ↔ ∃ l r s word, w.Reads n.left l ∧ w.Reads n.right r ∧
      w.Reads n.select s ∧ l.length ≤ 64 ∧ r.length ≤ 64 ∧
      calculate n.op (natOfBits l) (natOfBits r) l.length = .ok word ∧ word.testBit i = v := by
  rw [World.laneValue_word (Op.bitwise_of_arithmetic hop)]
  simp only [Node.wordValue_arithmetic hop, and_assoc]

/-! ## Powers of two -/

theorem powerOf_spec {v : Value} {shift enable : Nat} (h : powerOf v = some (shift, enable)) :
    v[shift]? = some enable ∧ enable ≠ 0 ∧ ∀ i, i ≠ shift → v.getD i 0 = 0 := by
  unfold powerOf at h
  split at h
  case h_2 => cases h
  case h_1 enable' shift' hfilter =>
    obtain ⟨rfl, rfl⟩ := Prod.mk.inj (Option.some.inj h)
    have hmem : ∀ b i, v[i]? = some b → b ≠ 0 → (b, i) = (enable', shift') := by
      intro b i hb hb0
      have : (b, i) ∈ v.zipIdx.filter fun p => p.1 ≠ 0 := by
        simp [List.mem_zipIdx_iff_getElem?, hb, hb0]
      rw [hfilter] at this
      exact List.mem_singleton.mp this
    have hself : (enable', shift') ∈ v.zipIdx.filter fun p => p.1 ≠ 0 := by
      rw [hfilter]; exact List.mem_singleton_self _
    obtain ⟨hzip, hne⟩ := List.mem_filter.mp hself
    refine ⟨List.mem_zipIdx_iff_getElem?.mp hzip, by simpa using hne, fun i hi => ?_⟩
    rw [List.getD_eq_getElem?_getD]
    cases hb : v[i]? with
    | none => rfl
    | some b =>
        by_contra hb0
        exact hi (congrArg Prod.snd (hmem b i hb hb0))

theorem World.Consts.reads_powerOf (hw : w.Consts) {v : Value} {shift enable : Nat}
    (h : powerOf v = some (shift, enable)) {bits : List Bool} (hv : w.Reads v bits) :
    ∃ e, w.look enable = some e ∧ natOfBits bits = if e then 2 ^ shift else 0 := by
  obtain ⟨henable, -, hzero⟩ := powerOf_spec h
  have hlook : ∀ i, w.look (v.getD i 0) = some (bits.getD i false) := hw.look_getD hv
  refine ⟨bits.getD shift false, ?_, ?_⟩
  · have := hlook shift
    rwa [List.getD_eq_getElem?_getD, henable] at this
  · apply Nat.eq_of_testBit_eq
    intro i
    rw [testBit_natOfBits]
    by_cases hi : i = shift
    · subst hi
      cases bits.getD i false <;> simp
    · have := hlook i
      rw [hzero i hi, hw.zero] at this
      rw [← Option.some.inj this]
      cases bits.getD shift false <;> simp [Ne.symm hi]

/-- What dividing by, reducing by or multiplying with `2 ^ shift` computes. -/
def powerWord (op : Op) (x shift : Nat) : Nat :=
  match op with
  | .div => x / 2 ^ shift
  | .mod => x % 2 ^ shift
  | _ => x * 2 ^ shift

theorem World.Consts.look_powerLane (hw : w.Consts) (op : Op) {v : Value} {bits : List Bool}
    (hv : w.Reads v bits) (shift offset : Nat) :
    w.look (powerLane op v shift offset) =
      some ((powerWord op (natOfBits bits) shift).testBit offset) := by
  have hlook : ∀ i, w.look (v.getD i 0) = some (bits.getD i false) := hw.look_getD hv
  have hlen := hv.length_eq
  have hpast : ∀ i, v.length ≤ i → bits.getD i false = false := by
    intro i hi
    rw [List.getD_eq_getElem?_getD, List.getElem?_eq_none (by omega)]
    rfl
  unfold powerLane
  split
  · unfold powerWord
    rw [Nat.testBit_div_two_pow, testBit_natOfBits]
    split_ifs with h
    · exact hlook _
    · rw [hpast _ (by omega), hw.zero]
  · unfold powerWord
    rw [Nat.testBit_mod_two_pow, testBit_natOfBits]
    split_ifs with h
    · rw [hlook, decide_eq_true h.1, Bool.true_and]
    · rw [hw.zero]
      by_cases hs : offset < shift
      · rw [hpast _ (by omega), Bool.and_false]
      · simp [hs]
  · rename_i hdiv hmod
    have hmul : powerWord op (natOfBits bits) shift = natOfBits bits * 2 ^ shift := by
      unfold powerWord
      split <;> first | rfl | contradiction
    rw [hmul, Nat.testBit_mul_two_pow, testBit_natOfBits]
    split_ifs with h
    · rw [hlook, decide_eq_true h.1, Bool.true_and]
    · rw [hw.zero]
      by_cases hs : shift ≤ offset
      · rw [hpast _ (by omega), Bool.and_false]
      · simp [hs]

theorem kleeneAnd_some (a b : Bool) : kleeneAnd (some a) (some b) = some (a && b) := by
  cases a <;> cases b <;> rfl

/-- The word of a division, remainder or product by a guarded power of two. -/
theorem calculate_power {op : Op} (hop : op = .div ∨ op = .mod ∨ op = .mul) {x shift : Nat}
    {e : Bool} (width : Nat) {word : Nat}
    (h : calculate op x (if e then 2 ^ shift else 0) width = .ok word) {i : Nat} (hi : i < 64) :
    word.testBit i = ((powerWord op x shift).testBit i && e) := by
  have hpos : 2 ^ shift ≠ 0 := pow_ne_zero shift (by omega)
  rcases hop with rfl | rfl | rfl <;> cases e <;>
    simp only [calculate, Except.ok.injEq, if_true, Bool.false_eq_true, if_false, ne_eq, hpos,
      not_true_eq_false, not_false_eq_true, -Nat.reducePow] at h <;>
    subst h <;> simp [powerWord, Nat.testBit_mod_two_pow, hi, -Nat.reducePow]

/-- Wiring and a guard compute what the word operation computed. -/
theorem Node.expandPower_sound (hw : w.Consts) {i : Nat} (hi : i < n.width) (h64 : i < 64)
    {v : Bool} (h : w.laneValue n i = some v) : w.laneValue n.expandPower i = some v := by
  unfold Node.expandPower
  split_ifs with hop
  case neg => exact h
  cases hpower : n.powerOperand with
  | none => exact h
  | some p =>
      obtain ⟨shift, enable, operand⟩ := p
      have harith : n.op.arithmetic = true := by rcases hop with h | h | h <;> rw [h] <;> rfl
      obtain ⟨l, r, -, word, hl, hr, -, -, -, hcalc, rfl⟩ := (World.laneValue_arithmetic harith).mp h
      -- the guarded operand and the one that becomes wiring
      obtain ⟨bits, e, hbits, he, hword⟩ : ∃ bits e, w.Reads operand bits ∧
          w.look enable = some e ∧
          word.testBit i = ((powerWord n.op (natOfBits bits) shift).testBit i && e) := by
        unfold Node.powerOperand at hpower
        split at hpower
        · rename_i shift' enable' hright
          simp only [Option.some.injEq, Prod.mk.injEq] at hpower
          obtain ⟨rfl, rfl, rfl⟩ := hpower
          obtain ⟨e, he, hr'⟩ := hw.reads_powerOf hright hr
          rw [hr'] at hcalc
          exact ⟨l, e, hl, he, calculate_power hop _ hcalc h64⟩
        · split_ifs at hpower with hmul
          simp only [Option.map_eq_some_iff, Prod.mk.injEq] at hpower
          obtain ⟨⟨shift', enable'⟩, hleft, rfl, rfl, rfl⟩ := hpower
          obtain ⟨e, he, hl'⟩ := hw.reads_powerOf hleft hl
          refine ⟨r, e, hr, he, ?_⟩
          rw [hmul] at hcalc ⊢
          refine calculate_power (.inr (.inr rfl)) l.length ?_ h64
          rw [← hl', ← hcalc]
          simp only [calculate, Nat.mul_comm]
      simp only [World.laneValue, Node.laneValue]
      rw [List.getElem?_map, List.getElem?_range hi, List.getElem?_replicate, if_pos hi]
      simp only [Option.map_some, Option.bind_some]
      rw [hw.look_powerLane n.op hbits, he, kleeneAnd_some, hword]

/-! ## Bitwise lanes and multiplexers -/

theorem World.look_getElem?_getD {v : Value} {i : Nat} {x : Bool}
    (h : v[i]?.bind w.look = some x) : w.look (v.getD i 0) = some x := by
  rw [List.getD_eq_getElem?_getD]
  cases hv : v[i]? with
  | none => rw [hv] at h; cases h
  | some b => rwa [hv] at h

theorem World.Consts.laneRedirect_sound (hw : w.Consts) (hop : n.op.bitwise = true) {i t : Nat}
    {v : Bool} (hv : w.laneValue n i = some v)
    (ht : Node.laneRedirect n.op (n.left.getD i 0) (n.right.getD i 0) (n.select.headD 0) = some t) :
    w.look t = some v := by
  have hleft : ∀ x, n.left[i]?.bind w.look = some x → w.look (n.left.getD i 0) = some x :=
    fun _ => World.look_getElem?_getD
  have hright : ∀ x, n.right[i]?.bind w.look = some x → w.look (n.right.getD i 0) = some x :=
    fun _ => World.look_getElem?_getD
  have hselect : ∀ x, n.select.head?.bind w.look = some x →
      w.look (n.select.headD 0) = some x := by
    intro x hx
    rw [List.head?_eq_getElem?] at hx
    rw [List.headD_eq_head?_getD, List.head?_eq_getElem?, ← List.getD_eq_getElem?_getD]
    exact World.look_getElem?_getD hx
  generalize n.left.getD i 0 = l at ht hleft
  generalize n.right.getD i 0 = r at ht hright
  generalize n.select.headD 0 = s at ht hselect
  unfold World.laneValue Node.laneValue at hv
  have h0 := hw.zero
  have h1 := hw.one
  split at hv
  case h_5 hmux hand hor hxor =>
    exact absurd hop (by cases hn : n.op <;> simp_all [Op.bitwise])
  case h_1 hmux =>
    rw [hmux] at ht
    obtain ⟨c, hc, hv⟩ := Option.bind_eq_some_iff.mp hv
    have hs := hselect c hc
    simp only [Node.laneRedirect] at ht
    split_ifs at ht with h2 hs0 heq hsel
    · -- a constant select of 1
      obtain rfl : s = 1 := by omega
      obtain rfl : c = true := by rw [h1] at hs; exact (Option.some.inj hs).symm
      obtain rfl := Option.some.inj ht
      exact hleft v hv
    · obtain rfl : s = 0 := by omega
      obtain rfl : c = false := by rw [h0] at hs; exact (Option.some.inj hs).symm
      obtain rfl := Option.some.inj ht
      exact hright v hv
    · obtain rfl := Option.some.inj ht
      cases c with
      | true => exact hleft v hv
      | false => rw [heq]; exact hright v hv
    · obtain rfl := Option.some.inj ht
      obtain ⟨rfl, rfl⟩ := hsel
      cases c with
      | true =>
          have := hleft v hv
          rw [h1] at this
          rw [hs, this]
      | false =>
          have := hright v hv
          rw [h0] at this
          rw [hs, this]
  case h_2 hand =>
    rw [hand] at ht
    replace hv := kleeneAnd_mono hleft hright hv
    simp only [Node.laneRedirect] at ht
    split_ifs at ht with hzero hone hone' <;> obtain rfl := Option.some.inj ht
    · rcases hzero with rfl | rfl <;> rw [h0] at hv <;> cases v <;> simp_all
    · rcases hone with rfl | rfl
      · rw [h1] at hv; cases v <;> simp_all
      · cases v <;> simp_all
    · subst hone'
      rw [h1] at hv; cases v <;> simp_all
  case h_3 hor =>
    rw [hor] at ht
    replace hv := kleeneOr_mono hleft hright hv
    simp only [Node.laneRedirect] at ht
    split_ifs at ht with hone hzero hzero' <;> obtain rfl := Option.some.inj ht
    · rcases hone with rfl | rfl <;> rw [h1] at hv <;> cases v <;> simp_all
    · rcases hzero with rfl | rfl
      · rw [h0] at hv; cases v <;> simp_all
      · cases v <;> simp_all
    · subst hzero'
      rw [h0] at hv; cases v <;> simp_all
  case h_4 hxor =>
    rw [hxor] at ht
    obtain ⟨x, y, hx, hy, rfl⟩ := kleeneXor_eq_some.mp hv
    replace hx := hleft x hx
    replace hy := hright y hy
    simp only [Node.laneRedirect] at ht
    split_ifs at ht with heq hzero hzero' <;> obtain rfl := Option.some.inj ht
    · subst heq
      obtain rfl : x = y := by rw [hx] at hy; exact Option.some.inj hy
      simp [h0]
    · subst hzero
      obtain rfl : x = false := by rw [h0] at hx; exact (Option.some.inj hx).symm
      simp [hy]
    · subst hzero'
      obtain rfl : y = false := by rw [h0] at hy; exact (Option.some.inj hy).symm
      simp [hx]

/-! ## Reductions -/

/-- What a reduction computes of the bits it reads. -/
def reduction (op : Op) (bits : List Bool) : Bool :=
  match op with
  | .any => bits.any id
  | .all => bits.all id
  | _ => bits.foldl xor false

def Op.reduces : Op → Bool
  | .any | .all | .parity => true
  | _ => false

theorem testBit_toNat_zero (b : Bool) : b.toNat.testBit 0 = b := by cases b <;> rfl

theorem World.laneValue_reduction (hop : n.op.reduces = true) {v : Bool}
    (h : w.laneValue n 0 = some v) :
    ∃ bits, w.Reads n.left bits ∧ v = reduction n.op bits := by
  have hbitwise : n.op.bitwise = false := by cases hn : n.op <;> simp_all [Op.reduces, Op.bitwise]
  obtain ⟨l, r, s, word, hl, -, -, hword, rfl⟩ := (World.laneValue_word hbitwise).mp h
  refine ⟨l, hl, ?_⟩
  have hcases : n.op = .any ∨ n.op = .all ∨ n.op = .parity := by
    cases hn : n.op <;> rw [hn] at hop <;> cases hop <;> simp
  unfold Node.wordValue at hword
  rcases hcases with hn | hn | hn <;> rw [hn] at hword <;>
    rw [← Option.some.inj hword, hn, testBit_toNat_zero] <;> rfl

theorem natOfBits_eq_mask_iff {bits : List Bool} (h : bits.length ≤ 64) :
    natOfBits bits = mask bits.length ↔ bits.all id = true := by
  have hmask : mask bits.length = natOfBits (List.replicate bits.length true) := by
    rw [natOfBits_replicate_true]
    unfold mask
    split_ifs with hlen
    · rw [show bits.length = 64 by omega]
    · rfl
  rw [hmask]
  constructor
  · intro heq
    have := natOfBits_inj (by simp) heq
    rw [this]
    simp
  · intro hall
    congr 1
    rw [List.eq_replicate_iff]
    exact ⟨rfl, fun b hb => by simpa using List.all_eq_true.mp hall b hb⟩

theorem bitsOfNat_eq_append {bits : List Bool} {width : Nat} (h : bits.length ≤ width) :
    bitsOfNat width (natOfBits bits) = bits ++ List.replicate (width - bits.length) false := by
  symm
  apply eq_bitsOfNat
  · simp [h]
  · rw [natOfBits_append]
    simp only [natOfBits_replicate_false, Nat.mul_zero, Nat.add_zero]
    exact (Nat.mod_eq_of_lt (Nat.lt_of_lt_of_le (natOfBits_lt bits)
      (Nat.pow_le_pow_right (by omega) h))).symm

theorem foldl_xor_replicate_false (b : Bool) (k : Nat) :
    (List.replicate k false).foldl xor b = b := by
  induction k with
  | zero => rfl
  | succ k ih => rw [List.replicate_succ, List.foldl_cons, Bool.xor_false, ih]

/-- The parity of a machine word is that of the bits it was made of. -/
theorem parity_natOfBits {bits : List Bool} (h : bits.length ≤ 64) :
    (bitsOfNat 64 (natOfBits bits)).foldl xor false = bits.foldl xor false := by
  rw [bitsOfNat_eq_append h, List.foldl_append, foldl_xor_replicate_false]

/-- One constant decides a disjunction or a conjunction; without it the other
constant is the result. -/
theorem exists_dominant {op : Op} (hop : op.reduces = true) (hparity : op ≠ .parity) :
    ∃ d : Bool, (if op = .any then 1 else 0) = d.toNat ∧
      (∀ {bits}, d ∈ bits → reduction op bits = d) ∧
      (∀ {bits}, d ∉ bits → reduction op bits = !d) := by
  cases op <;> cases hop
  · refine ⟨true, rfl, fun h => by simpa [reduction] using h, fun h => ?_⟩
    simpa [reduction] using fun hx => h hx
  · refine ⟨false, rfl, fun h => by simpa [reduction] using h, fun h => ?_⟩
    simpa [reduction] using fun hx => h hx
  · exact absurd rfl hparity

theorem World.Consts.reductionRedirect_sound (hw : w.Consts) {op : Op}
    (hop : op.reduces = true) {value : Value} {bits : List Bool} (hv : w.Reads value bits)
    {t : Nat} (ht : Node.reductionRedirect op value = some t) :
    w.look t = some (reduction op bits) := by
  have hmem : ∀ b ∈ value, ∃ x ∈ bits, w.look b = some x := by
    intro b hb
    obtain ⟨i, hi, rfl⟩ := List.mem_iff_getElem.mp hb
    exact ⟨_, List.getElem_mem _, hv.getElem hi⟩
  have hmem' : ∀ x ∈ bits, ∃ b ∈ value, w.look b = some x := by
    intro x hx
    obtain ⟨i, hi, rfl⟩ := List.mem_iff_getElem.mp hx
    exact ⟨_, List.getElem_mem _, hv.getElem (by rw [hv.length_eq]; exact hi)⟩
  have hconst : ∀ (b : Nat) (c x : Bool), w.look b = some x → b = c.toNat → x = c := by
    rintro b c x hb rfl
    rw [hw.look_toNat] at hb
    exact (Option.some.inj hb).symm
  unfold Node.reductionRedirect at ht
  cases hnum : number value with
  | some known =>
      obtain ⟨hlen, bits', hbits', rfl⟩ := hw.reads_number hnum
      obtain rfl := hbits'.unique hv
      rw [hnum] at ht
      obtain rfl := Option.some.inj ht
      have hlen' : bits'.length ≤ 64 := by rw [← hv.length_eq]; exact hlen
      cases op <;> cases hop <;> simp only [hw.look_toNat, Option.some.injEq, reduction]
      · rw [Bool.eq_iff_iff, bne_iff_ne, ne_eq, natOfBits_eq_zero_iff]
        simp
      · rw [Bool.eq_iff_iff, beq_iff_eq, hv.length_eq, natOfBits_eq_mask_iff hlen']
      · exact parity_natOfBits hlen'
  | none =>
      rw [hnum] at ht
      by_cases hparity : op = .parity
      · simp [hparity] at ht
      simp only [if_neg hparity] at ht
      obtain ⟨d, hd, hmem_d, hnot_d⟩ := exists_dominant hop hparity
      rw [hd] at ht
      split_ifs at ht with hdominant
      · -- one dominant constant decides
        obtain rfl := Option.some.inj ht
        obtain ⟨x, hx, hb⟩ := hmem _ (List.contains_iff_mem.mp hdominant)
        obtain rfl := hconst _ d x hb rfl
        rw [hmem_d hx, hb]
      · -- every bit is the neutral constant or one and the same bit
        split at ht
        · cases ht
        · rename_i bit rest hfilter
          split_ifs at ht with hrest
          obtain rfl := Option.some.inj ht
          have hsame : ∀ b ∈ value, b = bit ∨ b = (!d).toNat := by
            intro b hb
            by_cases hneutral : b = 1 - d.toNat
            · right; cases d <;> exact hneutral
            · have : b ∈ bit :: rest := by
                rw [← hfilter]; simp [hb, hneutral]
              rcases List.mem_cons.mp this with h | h
              · exact .inl h
              · exact .inl (by simpa using List.all_eq_true.mp hrest b h)
          have hbit : bit ∈ value :=
            List.mem_of_mem_filter (by rw [hfilter]; exact List.mem_cons_self)
          obtain ⟨x, hx, hb⟩ := hmem _ hbit
          by_cases hxd : x = d
          · rw [hb, hmem_d (hxd ▸ hx), hxd]
          · have hneg : x = !d := by cases x <;> cases d <;> simp_all
            rw [hb, hnot_d, hneg]
            intro hdbits
            obtain ⟨b, hbv, hby⟩ := hmem' d hdbits
            rcases hsame b hbv with rfl | rfl
            · rw [hb] at hby; exact hxd (Option.some.inj hby)
            · have := hconst _ (!d) d hby rfl
              cases d <;> cases this

/-! ## Constant shifts -/

theorem calculate_shift {op : Op} {l : List Bool} (hl : l.length ≤ 64) {shift word : Nat}
    (h : calculate op (natOfBits l) shift l.length = .ok word) {i : Nat} (hi : i < 64) :
    (op = .shl → word.testBit i = (decide (shift ≤ i) && l.getD (i - shift) false)) ∧
    (op = .shr → word.testBit i = l.getD (shift + i) false) ∧
    (op = .sar → word.testBit i =
      if shift + i < l.length then l.getD (shift + i) false else signBit l) := by
  have hpast : ∀ j, l.length ≤ j → l.getD j false = false := fun j hj => by
    rw [List.getD_eq_getElem?_getD, List.getElem?_eq_none hj]; rfl
  refine ⟨?_, ?_, ?_⟩ <;> rintro rfl <;> simp only [calculate, Except.ok.injEq] at h <;> subst h
  · split_ifs with hs
    · rw [Nat.testBit_mod_two_pow, Nat.testBit_shiftLeft, testBit_natOfBits]
      simp [hi]
    · rw [Nat.zero_testBit, decide_eq_false (by omega), Bool.false_and]
  · split_ifs with hs
    · rw [Nat.testBit_shiftRight, testBit_natOfBits]
    · rw [Nat.zero_testBit, hpast _ (by omega)]
  · rw [signedNumber_natOfBits hl, testBit_sar hl shift i hi]

theorem World.Consts.shiftLane_sound (hw : w.Consts) {op : Op}
    (hop : op = .shl ∨ op = .shr ∨ op = .sar) {value : Value} {l : List Bool}
    (hv : w.Reads value l) (hl : l.length ≤ 64) {shift word : Nat}
    (h : calculate op (natOfBits l) shift l.length = .ok word) {i : Nat} (hi : i < 64) :
    w.look (Node.shiftLane op value shift i) = some (word.testBit i) := by
  obtain ⟨hshl, hshr, hsar⟩ := calculate_shift hl h hi
  have hlen := hv.length_eq
  have hpast : ∀ j, l.length ≤ j → l.getD j false = false := fun j hj => by
    rw [List.getD_eq_getElem?_getD, List.getElem?_eq_none hj]; rfl
  unfold Node.shiftLane
  rcases hop with rfl | rfl | rfl
  · simp only [hshl rfl, if_true, reduceCtorEq, if_false]
    split_ifs with hs
    · rw [hw.look_getD hv, decide_eq_true hs.1, Bool.true_and]
    · rw [hw.zero]
      by_cases hle : shift ≤ i
      · rw [hpast _ (by omega), Bool.and_false]
      · rw [decide_eq_false hle, Bool.false_and]
  · simp only [hshr rfl, reduceCtorEq, if_false]
    split_ifs with hs
    · rw [hw.look_getD hv, Nat.add_comm]
    · rw [hpast _ (by omega)]; exact hw.zero
  · simp only [hsar rfl, reduceCtorEq, if_true, if_false]
    by_cases hs : shift + i < l.length
    · rw [if_pos hs, if_pos (by omega), hw.look_getD hv, Nat.add_comm]
    · rw [if_neg hs, if_neg (by omega)]
      exact hw.look_getLastD hv

/-! ## All redirections -/

/-- Operations whose lanes are computed from their operands. -/
def Op.computes (op : Op) : Bool :=
  !(op.isLeaf || decide (op = .wire ∨ op = .assertFailure ∨ op = .hostDebugOutput))

theorem Node.bitValue_of_computes (P : Primitives) (memories : List Memory) (env : Env)
    (look : Nat → Option Bool) (hop : n.op.computes = true) (bit : Nat) :
    n.bitValue P memories env look bit = n.laneValue P memories env look (lane bit) := by
  unfold Node.bitValue
  cases hn : n.op <;> rw [hn] at hop <;> simp_all [Op.computes, Op.isLeaf]

theorem Node.bitValue_of_leaf (P : Primitives) (memories : List Memory) (env : Env)
    (look : Nat → Option Bool) (hop : n.op.isLeaf = true) (bit : Nat) :
    n.bitValue P memories env look bit = some (env.leaf bit) := by
  unfold Node.bitValue
  cases hn : n.op <;> rw [hn] at hop <;> first | rfl | cases hop

theorem World.Consts.foldRedirects_sound (hw : w.Consts) {rs : List (Nat × Nat)}
    (h : n.foldRedirects = .ok rs) {o t : Nat} (hm : (o, t) ∈ rs) (h64 : o < 64) {v : Bool}
    (hv : w.laneValue n o = some v) : w.look t = some v := by
  unfold Node.foldRedirects at h
  split at h
  · rename_i left right hleft hright
    cases hcalc : calculate n.op left right n.left.length with
    | error e => rw [hcalc] at h; cases h
    | ok result =>
        rw [hcalc] at h
        obtain rfl := Except.ok.inj h
        obtain ⟨offset, hoffset, heq⟩ := List.mem_map.mp hm
        obtain ⟨rfl, rfl⟩ := Prod.mk.inj heq
        rw [List.mem_range] at hoffset
        obtain ⟨l, r, s, word, hl, hr, -, -, -, hword, rfl⟩ :=
          (World.laneValue_arithmetic (calculate_ok_arithmetic hcalc)).mp hv
        rw [← hw.number_eq hleft hl, ← hw.number_eq hright hr, ← hl.length_eq, hcalc] at hword
        rw [hw.look_constant hoffset h64, Except.ok.inj hword]
  · obtain rfl := Except.ok.inj h
    cases hm

theorem World.laneValue_eq_self (hop : n.op = .eq) (heq : n.left = n.right) {v : Bool}
    (h : w.laneValue n 0 = some v) : v = true := by
  obtain ⟨l, r, s, word, hl, hr, -, -, -, hword, rfl⟩ :=
    (World.laneValue_arithmetic (by rw [hop]; rfl)).mp h
  rw [heq] at hl
  obtain rfl := hl.unique hr
  rw [hop] at hword
  simp only [calculate, BEq.rfl, Bool.toNat_true, Except.ok.injEq] at hword
  rw [← hword]
  rfl

theorem World.Consts.wordSlice_sound (hw : w.Consts) (hop : n.op = .wordSlice) {start : Nat}
    (hstart : number n.right = some start) (hwidth : n.width ≤ n.left.length) {i : Nat} {v : Bool}
    (hv : w.laneValue n i = some v) :
    w.look (if start ≤ n.left.length - n.width then n.left.getD (start + i) 0 else 0) =
      some v := by
  obtain ⟨l, r, s, word, hl, hr, -, hword, rfl⟩ :=
    (World.laneValue_word (by rw [hop]; rfl)).mp hv
  obtain rfl := hw.number_eq hstart hr
  unfold Node.wordValue at hword
  rw [hop] at hword
  simp only [hl.length_eq] at hwidth ⊢
  rw [← Option.some.inj ((if_pos hwidth).symm.trans hword)]
  split_ifs
  · rw [hw.look_getD hl, testBit_natOfBits]
    simp only [List.getD_eq_getElem?_getD, List.getElem?_drop]
  · rw [hw.zero, Nat.zero_testBit]

/-- Every redirection a node reports gives a lane the value computed for it. -/
theorem Node.redirects_sound (hw : w.Consts) {rs : List (Nat × Nat)}
    (h : n.redirects = .ok rs) {o t : Nat} (hm : (o, t) ∈ rs) (h64 : o < 64) {v : Bool}
    (hv : w.laneValue n o = some v) : w.look t = some v := by
  unfold Node.redirects at h
  split at h
  case h_1 hop =>
    split at h
    · rename_i start hstart
      by_cases hwidth : n.width ≤ n.left.length
      · rw [if_pos hwidth] at h
        obtain rfl := Except.ok.inj h
        obtain ⟨offset, hoffset, heq⟩ := List.mem_map.mp hm
        obtain ⟨rfl, rfl⟩ := Prod.mk.inj heq
        exact hw.wordSlice_sound hop hstart hwidth hv
      · rw [if_neg hwidth] at h
        exact absurd hm (not_mem_of_ok_nil h)
    · exact absurd hm (not_mem_of_ok_nil h)
  case h_9 hop | h_10 hop | h_11 hop | h_12 hop =>
    obtain rfl := Except.ok.inj h
    obtain ⟨offset, -, hbit⟩ := List.mem_filterMap.mp hm
    obtain ⟨t', ht', heq⟩ := Option.map_eq_some_iff.mp hbit
    obtain ⟨rfl, rfl⟩ := Prod.mk.inj heq
    exact hw.laneRedirect_sound (by rw [hop]; rfl) hv ht'
  case h_13 hop | h_14 hop | h_15 hop =>
    obtain rfl := Except.ok.inj h
    rw [Option.mem_toList, Option.map_eq_some_iff] at hm
    obtain ⟨t', ht', heq⟩ := hm
    obtain ⟨rfl, rfl⟩ := Prod.mk.inj heq
    have hreduces : n.op.reduces = true := by rw [hop]; rfl
    obtain ⟨bits, hbits, rfl⟩ := World.laneValue_reduction hreduces hv
    exact hw.reductionRedirect_sound hreduces hbits ht'
  case h_16 hop | h_17 hop | h_18 hop =>
    split at h
    · rename_i shift hshift
      obtain rfl := Except.ok.inj h
      obtain ⟨offset, -, heq⟩ := List.mem_map.mp hm
      obtain ⟨rfl, rfl⟩ := Prod.mk.inj heq
      obtain ⟨l, r, s, word, hl, hr, -, hlen, -, hword, rfl⟩ :=
        (World.laneValue_arithmetic (by rw [hop]; rfl)).mp hv
      rw [← hw.number_eq hshift hr] at hword
      exact hw.shiftLane_sound (by rw [hop]; simp) hl hlen hword h64
    · exact absurd hm (not_mem_of_ok_nil h)
  case h_19 =>
    by_cases hright : n.right.isEmpty
    · rw [if_pos hright] at h
      exact absurd hm (not_mem_of_ok_nil h)
    · rw [if_neg hright] at h
      cases hfold : n.foldRedirects with
      | error e => rw [hfold] at h; cases h
      | ok folded =>
          rw [hfold] at h
          obtain rfl := Except.ok.inj h
          rcases List.mem_append.mp hm with hm | hm
          · exact hw.foldRedirects_sound hfold hm h64 hv
          · split_ifs at hm with heq
            · obtain ⟨rfl, rfl⟩ := Prod.mk.inj (List.mem_singleton.mp hm)
              rw [World.laneValue_eq_self heq.1 heq.2 hv]
              exact hw.one
            · cases hm
  all_goals exact absurd hm (not_mem_of_ok_nil h)

theorem Node.computes_of_redirect {rs : List (Nat × Nat)} (h : n.redirects = .ok rs)
    {p : Nat × Nat} (hm : p ∈ rs) : n.op.computes = true := by
  have hfold : ∀ {rs}, n.foldRedirects = .ok rs → p ∈ rs → n.op.computes = true := by
    intro rs hrs hp
    unfold Node.foldRedirects at hrs
    split at hrs
    · split at hrs
      · cases hrs
      · rename_i hcalc
        have := calculate_ok_arithmetic hcalc
        cases hn : n.op <;> rw [hn] at this <;> first | rfl | cases this
    · obtain rfl := Except.ok.inj hrs
      cases hp
  unfold Node.redirects at h
  split at h
  case h_19 =>
    by_cases hright : n.right.isEmpty
    · rw [if_pos hright] at h
      obtain rfl := Except.ok.inj h
      cases hm
    · rw [if_neg hright] at h
      split at h
      · cases h
      · rename_i folded hfolded
        obtain rfl := Except.ok.inj h
        rcases List.mem_append.mp hm with hm | hm
        · exact hfold hfolded hm
        · split_ifs at hm with heq
          · rw [heq.1]; rfl
          · cases hm
  all_goals
    rename_i hop
    first
    | rw [hop]; rfl
    | obtain rfl := Except.ok.inj h
      cases hm

end CppHdl
