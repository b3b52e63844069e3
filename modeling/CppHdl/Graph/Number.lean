import CppHdl.Graph.Allocate

/-!
# Values as numbers

`w.Num v x` says that the bits of `v` read as the low bits of `x`. Wiring is
arithmetic on such numbers: slicing divides, concatenation adds a multiple of a
power of two, widening keeps the number. On top of that come the specifications
of the builders that stay within one machine word per node.
-/

namespace CppHdl

open Failing

namespace World

variable {w : World}

/-- The bits of `v` are the low bits of `x`. -/
def Num (w : World) (v : Value) (x : Nat) : Prop :=
  ∀ i < v.length, w.look (v.getD i 0) = some (x.testBit i)

theorem testBit_eq_of_mod_eq {x y k i : Nat} (h : x % 2 ^ k = y % 2 ^ k) (hi : i < k) :
    x.testBit i = y.testBit i := by
  have hx := Nat.testBit_mod_two_pow x k i
  have hy := Nat.testBit_mod_two_pow y k i
  rw [h] at hx
  simpa [hi] using hx.symm.trans hy

theorem Num.congr {v : Value} {x y : Nat} (h : w.Num v x)
    (hxy : x % 2 ^ v.length = y % 2 ^ v.length) : w.Num v y := by
  intro i hi
  rw [h i hi, testBit_eq_of_mod_eq hxy hi]

theorem num_iff_reads {v : Value} {x : Nat} :
    w.Num v x ↔ w.Reads v (bitsOfNat v.length x) := by
  rw [reads_iff_getElem]
  simp only [length_bitsOfNat, getElem_bitsOfNat, true_and]
  constructor
  · intro h i hi _
    have := h i hi
    rwa [List.getD_eq_getElem v 0 hi] at this
  · intro h i hi
    rw [List.getD_eq_getElem v 0 hi]
    exact h i hi hi

theorem Reads.num {v : Value} {bits : List Bool} (h : w.Reads v bits) :
    w.Num v (natOfBits bits) := by
  rw [num_iff_reads, h.length_eq, bitsOfNat_natOfBits]
  exact h

theorem Reads.num_lt {v : Value} {bits : List Bool} (h : w.Reads v bits) :
    natOfBits bits < 2 ^ v.length := by
  rw [h.length_eq]
  exact natOfBits_lt bits

theorem num_nil {x : Nat} : w.Num [] x := fun i hi => absurd hi (Nat.not_lt_zero i)

theorem num_singleton {b x : Nat} : w.Num [b] x ↔ w.look b = some (x.testBit 0) := by
  constructor
  · intro h
    exact h 0 (by simp)
  · intro h i hi
    obtain rfl : i = 0 := by simpa using hi
    exact h

namespace Consts

variable (hw : w.Consts)
include hw

/-- Beyond the end of a value its number has no bits either. -/
theorem look_num {v : Value} {x : Nat} (h : w.Num v x) (hx : x < 2 ^ v.length) (i : Nat) :
    w.look (v.getD i 0) = some (x.testBit i) := by
  by_cases hi : i < v.length
  · exact h i hi
  · rw [List.getD_eq_getElem?_getD, List.getElem?_eq_none (by omega), Option.getD_none, hw.zero,
      Nat.testBit_lt_two_pow (Nat.lt_of_lt_of_le hx (Nat.pow_le_pow_right (by omega) (by omega)))]

theorem num_replicate_zero (n : Nat) : w.Num (List.replicate n 0) 0 := by
  intro i hi
  rw [List.length_replicate] at hi
  rw [List.getD_eq_getElem?_getD, List.getElem?_replicate, if_pos hi, Option.getD_some, hw.zero,
    Nat.zero_testBit]

theorem num_constant {x width : Nat} (hwidth : width ≤ 64) : w.Num (constant x width) x := by
  intro i hi
  have hi' : i < width := by simpa [constant] using hi
  exact hw.look_constant hi' (by omega)

end Consts

end World

/-! ## Wiring -/

theorem length_resize (v : Value) (width : Nat) (sign : Bool) :
    (resize v width sign).length = width := by
  unfold resize
  simp only [List.length_append, List.length_take, List.length_replicate]
  omega

theorem length_padTo (v : Value) (width fill : Nat) : (padTo v width fill).length = width := by
  unfold padTo
  simp only [List.length_append, List.length_take, List.length_replicate]
  omega

theorem length_slice (v : Value) (offset : Int) (width : Nat) :
    (slice v offset width).length = width := by
  simp [slice]

theorem getD_padTo (v : Value) {width : Nat} (fill : Nat) {i : Nat} (hi : i < width) :
    (padTo v width fill).getD i 0 = if i < v.length then v.getD i 0 else fill := by
  unfold padTo
  simp only [List.getD_eq_getElem?_getD, List.getElem?_append, List.length_take]
  split_ifs with h₁ h₂ h₂
  · rw [List.getElem?_take_of_lt hi]
  · omega
  · omega
  · rw [List.getElem?_replicate, if_pos (by omega), Option.getD_some]

theorem getD_resize (v : Value) {width i : Nat} (hi : i < width) :
    (resize v width).getD i 0 = v.getD i 0 := by
  have := getD_padTo v 0 hi
  change (resize v width).getD i 0 = _ at this
  rw [this]
  split_ifs with h
  · rfl
  · rw [List.getD_eq_getElem?_getD, List.getElem?_eq_none (by omega), Option.getD_none]

theorem getD_slice (v : Value) (offset : Nat) {width i : Nat} (hi : i < width) :
    (slice v offset width).getD i 0 = v.getD (offset + i) 0 := by
  unfold slice
  rw [List.getD_eq_getElem?_getD, List.getElem?_map, List.getElem?_range hi]
  simp only [Option.map_some, Option.getD_some]
  rw [if_pos (by omega)]
  congr 1

namespace World.Consts

variable {w : World} (hw : w.Consts)
include hw

theorem num_resize {v : Value} {x : Nat} (h : w.Num v x) (hx : x < 2 ^ v.length) (width : Nat) :
    w.Num (resize v width) x := by
  intro i hi
  rw [length_resize] at hi
  rw [getD_resize v hi]
  exact hw.look_num h hx i

theorem num_slice {v : Value} {x : Nat} (h : w.Num v x) (hx : x < 2 ^ v.length)
    (offset width : Nat) : w.Num (slice v offset width) (x / 2 ^ offset) := by
  intro i hi
  rw [length_slice] at hi
  rw [getD_slice v offset hi, hw.look_num h hx, Nat.testBit_div_two_pow, Nat.add_comm]

omit hw in
theorem num_append {u v : Value} {x y : Nat} (hu : w.Num u x) (hv : w.Num v y) :
    w.Num (u ++ v) (x % 2 ^ u.length + 2 ^ u.length * y) := by
  intro i hi
  have hlt : x % 2 ^ u.length < 2 ^ u.length := Nat.mod_lt _ (Nat.two_pow_pos _)
  rw [Nat.add_comm, Nat.testBit_two_pow_mul_add _ hlt]
  rw [List.length_append] at hi
  rw [List.getD_eq_getElem?_getD, List.getElem?_append]
  split_ifs with h
  · have := hu i h
    rw [List.getD_eq_getElem?_getD] at this
    rw [this, Nat.testBit_mod_two_pow, decide_eq_true h, Bool.true_and]
  · have := hv (i - u.length) (by omega)
    rwa [List.getD_eq_getElem?_getD] at this

end World.Consts

theorem getElem?_slice {v : Value} {offset width i : Nat} (hi : i < width)
    (hv : offset + i < v.length) : (slice v offset width)[i]? = v[offset + i]? := by
  rw [List.getElem?_eq_getElem (by rw [length_slice]; exact hi), List.getElem?_eq_getElem hv,
    ← List.getD_eq_getElem _ 0, getD_slice v offset hi, List.getD_eq_getElem _ 0 hv]

theorem getD_append (u v : Value) (i : Nat) :
    (u ++ v).getD i 0 = if i < u.length then u.getD i 0 else v.getD (i - u.length) 0 := by
  rw [List.getD_eq_getElem?_getD, List.getElem?_append]
  split_ifs <;> rw [List.getD_eq_getElem?_getD]

/-! ## Loops over words -/

/-- The word a loop over `count` bits is at, from the words it has done. -/
theorem chunks_prefix {step count : Nat} (hstep : 0 < step) {done : List Nat} {offset : Nat}
    (h : done ++ [offset] <+: chunks step count) :
    offset = done.length * step ∧ offset < count := by
  have hchunk : (chunks step count)[done.length]? =
      if done.length < (count + step - 1) / step then some (done.length * step) else none := by
    unfold chunks
    by_cases hi : done.length < (count + step - 1) / step <;> simp [hi]
  obtain ⟨rest, hrest⟩ := h
  rw [← hrest, List.append_assoc, List.getElem?_append_right (Nat.le_refl _),
    Nat.sub_self] at hchunk
  have hlt : done.length < (count + step - 1) / step := by
    by_contra hge
    rw [if_neg hge] at hchunk
    cases hchunk
  rw [if_pos hlt] at hchunk
  obtain rfl : offset = done.length * step := by simpa using hchunk
  have := (Nat.lt_div_iff_mul_lt hstep).mp hlt
  exact ⟨rfl, by omega⟩

theorem chunks_cover {step : Nat} (hstep : 0 < step) (count : Nat) :
    min ((chunks step count).length * step) count = count := by
  have := Nat.lt_div_mul_add (a := count + step - 1) hstep
  have hlength : (chunks step count).length = (count + step - 1) / step := by simp [chunks]
  rw [hlength]
  omega

/-- A loop over the words of `count` bits keeps an invariant on the number of
bits done. -/
theorem builds_chunks {β : Type} {step count : Nat} (hstep : 0 < step)
    {f : β → Nat → GraphM β} {b : β} (I : Nat → World → β → Prop) (h₀ : ∀ w, I 0 w b)
    (h : ∀ offset b, offset < count →
      GraphBuilds (f b offset) fun w c => I offset w b → I (min (offset + step) count) w c) :
    GraphBuilds ((chunks step count).foldlM f b) (I count) := by
  refine (Builds.foldlM (fun done w b => I (min (done.length * step) count) w b) ?_ ?_).mono ?_
  · intro w
    simpa using h₀ w
  · intro done offset b hinitial
    obtain ⟨rfl, hlt⟩ := chunks_prefix hstep hinitial
    refine (h _ b hlt).mono fun w c hc hb => ?_
    rw [Nat.min_eq_left hlt.le] at hb
    rw [List.length_append, List.length_singleton, Nat.succ_mul]
    exact hc hb
  · intro w c hc
    rwa [chunks_cover hstep] at hc

/-! ## Bitwise builders -/

theorem Op.computes_of_bitwise {op : Op} (h : op.bitwise = true) : op.computes = true := by
  cases op <;> first | rfl | cases h

theorem Op.computes_of_arithmetic {op : Op} (h : op.arithmetic = true) : op.computes = true := by
  cases op <;> first | rfl | cases h

theorem Op.computes_of_reduces {op : Op} (h : op.reduces = true) : op.computes = true := by
  cases op <;> first | rfl | cases h

/-- A lane of a bitwise operation reads only its own lane of the operands. -/
theorem World.laneValue_bitwise_congr {w : World} {op : Op} (hop : op.bitwise = true)
    {u v : Nat} {left right left' right' select : Value} {i j : Nat}
    (hl : left[i]? = left'[j]?) (hr : right[i]? = right'[j]?) :
    w.laneValue ⟨op, u, left, right, select, "", ""⟩ i =
      w.laneValue ⟨op, v, left', right', select, "", ""⟩ j := by
  unfold World.laneValue Node.laneValue
  cases op <;> cases hop <;> simp only [hl, hr]

/-- `bitwise` is one wide node, cut into words. -/
theorem bitwise_builds {op : Op} (hop : op.bitwise = true) (left right : Value) (width : Nat) :
    GraphBuilds (bitwise op left right width) fun w result =>
      result.length = width ∧ ∀ i < width, ∀ v,
        w.laneValue ⟨op, width, resize left width, resize right width, [], "", ""⟩ i = some v →
          w.look (result.getD i 0) = some v := by
  unfold bitwise
  refine builds_chunks (by omega) (fun offset w (result : Value) => result.length = offset ∧
    ∀ i < offset, ∀ v,
      w.laneValue ⟨op, width, resize left width, resize right width, [], "", ""⟩ i = some v →
        w.look (result.getD i 0) = some v) ?_ ?_
  · exact fun w => ⟨rfl, fun i hi => absurd hi (Nat.not_lt_zero i)⟩
  · intro offset result hoffset
    refine (add_builds op (Op.computes_of_bitwise hop) _ _ _ _ _).bind fun part =>
      Builds.pure ?_
    rintro w ⟨hpart, hlanes⟩ ⟨hlen, hdone⟩
    refine ⟨by rw [List.length_append, hlen, hpart]; omega, fun i hi v hv => ?_⟩
    rw [getD_append, hlen]
    split_ifs with hlt
    · exact hdone i hlt v hv
    · refine hlanes (i - offset) (by omega) v ?_
      rw [← hv]
      refine World.laneValue_bitwise_congr hop ?_ ?_
      · rw [getElem?_slice (by omega) (by rw [length_resize]; omega), Nat.add_sub_cancel' (by omega)]
      · rw [getElem?_slice (by omega) (by rw [length_resize]; omega), Nat.add_sub_cancel' (by omega)]

/-- The number-level function of a bitwise operation. -/
def bitwiseNat : Op → Nat → Nat → Nat
  | .and, x, y => x &&& y
  | .or, x, y => x ||| y
  | _, x, y => x ^^^ y

theorem kleeneOr_some (a b : Bool) : kleeneOr (some a) (some b) = some (a || b) := by
  cases a <;> cases b <;> rfl

theorem bitwise_num {op : Op} (hop : op = .and ∨ op = .or ∨ op = .xor) (left right : Value)
    (width : Nat) :
    GraphBuilds (bitwise op left right width) fun w result =>
      result.length = width ∧ ∀ x y, w.Consts → w.Num left x → x < 2 ^ left.length →
        w.Num right y → y < 2 ^ right.length → w.Num result (bitwiseNat op x y) := by
  have hbitwise : op.bitwise = true := by rcases hop with rfl | rfl | rfl <;> rfl
  refine (bitwise_builds hbitwise left right width).mono ?_
  rintro w result ⟨hlen, hlanes⟩
  refine ⟨hlen, fun x y hw hl hx hr hy i hi => ?_⟩
  rw [hlen] at hi
  have hleft := (hw.num_resize hl hx width) i (by rw [length_resize]; exact hi)
  have hright := (hw.num_resize hr hy width) i (by rw [length_resize]; exact hi)
  have hget : ∀ v : Value, v.length = width → v[i]?.bind w.look = w.look (v.getD i 0) := by
    intro v hv
    rw [List.getElem?_eq_getElem (by omega), Option.bind_some, List.getD_eq_getElem _ 0 (by omega)]
  refine hlanes i hi _ ?_
  rcases hop with rfl | rfl | rfl <;>
    simp only [World.laneValue, Node.laneValue, hget _ (length_resize _ _ _), hleft, hright,
      bitwiseNat, Nat.testBit_and, Nat.testBit_or, Nat.testBit_xor]
  · exact kleeneAnd_some _ _
  · exact kleeneOr_some _ _
  · rfl

theorem unaryNot_num (value : Value) :
    GraphBuilds (unaryNot value) fun w result => result.length = value.length ∧
      ∀ x, w.Consts → w.Num value x → x < 2 ^ value.length →
        w.Num result (2 ^ value.length - (x + 1)) := by
  unfold unaryNot
  refine (bitwise_num (.inr (.inr rfl)) value _ _).mono ?_
  rintro w result ⟨hlen, hnum⟩
  refine ⟨hlen, fun x hw hx hlt => ?_⟩
  have hones : w.Num (List.replicate value.length 1) (2 ^ value.length - 1) := by
    intro i hi
    rw [List.length_replicate] at hi
    rw [List.getD_eq_getElem?_getD, List.getElem?_replicate, if_pos hi, Option.getD_some, hw.one,
      Nat.testBit_two_pow_sub_one, decide_eq_true hi]
  have hpos := Nat.two_pow_pos value.length
  have := hnum x _ hw hx hlt hones (by rw [List.length_replicate]; omega)
  intro i hi
  rw [this i hi]
  rw [hlen] at hi
  simp [bitwiseNat, Nat.testBit_two_pow_sub_succ hlt, hi]

/-! ## Reductions and multiplexers -/

/-- How the reductions of two parts combine. -/
def combineReduction : Op → Bool → Bool → Bool
  | .all, x, y => x && y
  | .parity, x, y => x ^^ y
  | _, x, y => x || y

theorem foldl_xor_eq (b : Bool) (bits : List Bool) :
    bits.foldl xor b = (b ^^ bits.foldl xor false) := by
  induction bits generalizing b with
  | nil => simp
  | cons a bits ih =>
      rw [List.foldl_cons, List.foldl_cons, ih (b ^^ a), ih (false ^^ a), Bool.false_xor,
        Bool.xor_assoc]

theorem reduction_append {op : Op} (hop : op.reduces = true) (xs ys : List Bool) :
    reduction op (xs ++ ys) = combineReduction op (reduction op xs) (reduction op ys) := by
  cases op <;> cases hop
  · exact List.any_append
  · exact List.all_append
  · change (xs ++ ys).foldl xor false = (xs.foldl xor false ^^ ys.foldl xor false)
    rw [List.foldl_append, foldl_xor_eq]

theorem reduceWord_builds {op : Op} (hop : op.reduces = true) {part : Value}
    (hlen : part.length ≤ 64) :
    GraphBuilds (reduceWord op part) fun w result => result.length = 1 ∧
      ∀ bits, w.Consts → w.Reads part bits →
        w.look (result.getD 0 0) = some (reduction op bits) := by
  unfold reduceWord
  split
  · rename_i known hknown
    refine Builds.pure fun w => ⟨by simp [constant], fun bits hw hbits => ?_⟩
    obtain rfl := hw.number_eq hknown hbits
    have hlen' : bits.length ≤ 64 := by rw [← hbits.length_eq]; exact hlen
    rw [hw.look_constant (by omega) (by omega), testBit_toNat_zero, Option.some.injEq]
    cases op <;> cases hop
    · rw [Bool.eq_iff_iff, bne_iff_ne, ne_eq, natOfBits_eq_zero_iff, Bool.not_eq_false]
      rfl
    · have := natOfBits_eq_mask_iff hlen'
      rw [hbits.length_eq, Bool.eq_iff_iff, beq_iff_eq]
      exact this
    · exact parity_natOfBits hlen'
  · refine (add_builds op (Op.computes_of_reduces hop) 1 _ _ _ _).mono ?_
    rintro w result ⟨hlen, hlanes⟩
    refine ⟨hlen, fun bits _ hbits => hlanes 0 (by omega) _ ?_⟩
    have hbitwise : op.bitwise = false := by cases op <;> first | rfl | cases hop
    rw [World.laneValue_word hbitwise]
    refine ⟨bits, [], [], (reduction op bits).toNat, hbits, .nil, .nil, ?_,
      testBit_toNat_zero _⟩
    cases op <;> cases hop <;> rfl

theorem World.Reads.sliced {w : World} {v : Value} {bits : List Bool} (h : w.Reads v bits)
    {offset width : Nat} (hle : offset + width ≤ v.length) :
    w.Reads (slice v offset width) ((bits.drop offset).take width) := by
  have hslice : slice v offset width = (v.drop offset).take width := by
    apply List.ext_getElem?
    intro i
    rw [List.getElem?_take]
    by_cases hi : i < width
    · rw [if_pos hi, List.getElem?_drop, getElem?_slice hi (by omega)]
    · rw [if_neg hi, List.getElem?_eq_none (by rw [length_slice]; omega)]
  rw [hslice]
  exact (h.drop offset).take width

theorem unary_builds {op : Op} (hop : op.reduces = true) (value : Value) :
    GraphBuilds (unary op value) fun w result => result.length = 1 ∧
      ∀ bits, w.Consts → w.Reads value bits →
        w.look (result.getD 0 0) = some (reduction op bits) := by
  unfold unary
  refine (builds_chunks (by omega) (fun offset w (result : Value) => result.length = 1 ∧
    ∀ bits, w.Consts → w.Reads value bits →
      w.look (result.getD 0 0) = some (reduction op (bits.take offset))) ?_ ?_).mono ?_
  · refine fun w => ⟨rfl, fun bits hw _ => ?_⟩
    cases op <;> cases hop
    · exact hw.zero
    · exact hw.one
    · exact hw.zero
  · intro offset result hoffset
    refine (reduceWord_builds hop (by rw [length_slice]; omega)).bind fun reduced =>
      (bitwise_builds (by cases op <;> rfl) result reduced 1).mono ?_
    rintro w combined ⟨hlen, hlanes⟩ ⟨hreduced, hpart⟩ ⟨hresult, hdone⟩
    refine ⟨hlen, fun bits hw hbits => ?_⟩
    have hsplit : bits.take (min (offset + 64) value.length) =
        bits.take offset ++ (bits.drop offset).take (min 64 (value.length - offset)) := by
      rw [← List.take_add]
      congr 1
      omega
    rw [hsplit, reduction_append hop]
    refine hlanes 0 (by omega) _ ?_
    have hleft := hdone bits hw hbits
    have hright := hpart _ hw (hbits.sliced (by omega))
    have hget : ∀ v : Value, v.length = 1 →
        (resize v 1)[0]?.bind w.look = w.look (v.getD 0 0) := by
      intro v hv
      rw [List.getElem?_eq_getElem (by rw [length_resize]; omega), Option.bind_some,
        ← List.getD_eq_getElem _ 0, getD_resize v (by omega)]
    cases op <;> cases hop <;>
      simp only [World.laneValue, Node.laneValue, hget _ hresult, hget _ hreduced, hleft, hright,
        combineReduction]
    · exact kleeneOr_some _ _
    · exact kleeneAnd_some _ _
    · rfl
  · rintro w result ⟨hlen, hread⟩
    refine ⟨hlen, fun bits hw hbits => ?_⟩
    have := hread bits hw hbits
    rwa [hbits.length_eq, List.take_length] at this

/-- `res` has at least the bits of `src`. -/
def World.Follows (w : World) (res src : Value) : Prop :=
  res.length = src.length ∧
    ∀ i < src.length, ∀ v, w.look (src.getD i 0) = some v → w.look (res.getD i 0) = some v

theorem World.Follows.refl (w : World) (v : Value) : w.Follows v v := ⟨rfl, fun _ _ _ h => h⟩

theorem World.Follows.num {w : World} {res src : Value} (h : w.Follows res src) {x : Nat}
    (hx : w.Num src x) : w.Num res x := by
  intro i hi
  rw [h.1] at hi
  exact h.2 i hi _ (hx i hi)

/-- A multiplexer follows the operand its condition selects; the other one
need not have a value. -/
theorem mux_builds (condition yes no : Value) :
    GraphBuilds (mux condition yes no) fun w result =>
      result.length = yes.length ∧ yes.length = no.length ∧
        ∀ bits, w.Consts → w.Reads condition bits →
          w.Follows result (if bits.any id then yes else no) := by
  unfold mux
  refine (unary_builds (rfl : Op.reduces .any = true) condition).bind fun any => ?_
  refine Builds.ite (fun _ => Builds.throw_bind _ _) fun hlen => ?_
  simp only [ne_eq, Decidable.not_not] at hlen
  have hbit : any.headD 0 = any.getD 0 0 := by cases any <;> rfl
  rw [hbit]
  refine Builds.ite (fun hconst => ?_) fun _ => Builds.ite (fun heq => ?_) fun _ => ?_
  · refine Builds.pure fun w hany => ⟨?_, hlen, fun bits hw hbits => ?_⟩
    · split_ifs <;> simp [hlen]
    · have := hany.2 bits hw hbits
      rw [hw.look_of_lt_two hconst, Option.some.injEq] at this
      have hdec : (any.getD 0 0 ≠ 0) ↔ bits.any id = true := by
        rw [show bits.any id = reduction .any bits from rfl, ← this, beq_iff_eq]
        omega
      simp only [hdec]
      exact World.Follows.refl w _
  · refine Builds.pure fun w _ => ⟨rfl, hlen, fun bits _ _ => ?_⟩
    rw [← heq, ite_self]
    exact World.Follows.refl w _
  · refine (builds_chunks (by omega) (fun offset w (result : Value) => result.length = offset ∧
      ∀ c, w.look (any.getD 0 0) = some c → any.length = 1 → ∀ i < offset, ∀ v,
        w.look ((if c then yes else no).getD i 0) = some v → w.look (result.getD i 0) = some v)
      ?_ ?_).mono ?_
    · exact fun w => ⟨rfl, fun _ _ _ i hi => absurd hi (Nat.not_lt_zero i)⟩
    · intro offset result hoffset
      refine (add_builds .mux rfl _ _ _ _ _).bind fun part => Builds.pure ?_
      rintro w ⟨hpart, hlanes⟩ ⟨hres, hdone⟩
      refine ⟨by rw [List.length_append, hres, hpart]; omega, fun c hc hone i hi v hv => ?_⟩
      rw [getD_append, hres]
      split_ifs with hlt
      · exact hdone c hc hone i hlt v hv
      · refine hlanes (i - offset) (by omega) v ?_
        have hhead : any.head?.bind w.look = some c := by
          rw [List.head?_eq_getElem?, List.getElem?_eq_getElem (by omega), Option.bind_some,
            ← List.getD_eq_getElem _ 0]
          exact hc
        have hlane : ∀ u : Value, u.length = yes.length → w.look (u.getD i 0) = some v →
            (slice u offset (min 64 (yes.length - offset)))[i - offset]?.bind w.look = some v := by
          intro u hu hlook
          rw [getElem?_slice (by omega) (by omega), Nat.add_sub_cancel' (by omega),
            List.getElem?_eq_getElem (by omega), Option.bind_some, ← List.getD_eq_getElem _ 0]
          exact hlook
        simp only [World.laneValue, Node.laneValue, hhead, Option.bind_eq_bind, Option.bind_some]
        cases c with
        | true => exact hlane yes rfl hv
        | false => exact hlane no hlen.symm hv
    · rintro w result ⟨hres, hread⟩ hany
      refine ⟨hres, hlen, fun bits hw hbits => ⟨?_, ?_⟩⟩
      · split_ifs <;> simp [hres, hlen]
      · intro i hi v hv
        refine hread _ (hany.2 bits hw hbits) hany.1 i ?_ v hv
        split_ifs at hi <;> omega

/-! ## Word arithmetic -/

/-- Results of `calculate` on machine words are machine words, so a folded
result and a computed one have the same lanes. -/
theorem wordBinary_builds {op : Op} (hop : op.arithmetic = true) (left right : Value)
    {width : Nat} (hwidth : width ≤ 64) :
    GraphBuilds (wordBinary op left right width) fun w result => result.length = width ∧
      ∀ x y word, w.Consts → w.Num left x → x < 2 ^ left.length → left.length ≤ 64 →
        w.Num right y → y < 2 ^ right.length → right.length ≤ 64 →
        calculate op x y left.length = .ok word → w.Num result word := by
  have hbits : ∀ (w : World) (v : Value) (x : Nat), w.Num v x → x < 2 ^ v.length →
      ∃ bits, w.Reads v bits ∧ natOfBits bits = x ∧ bits.length = v.length := by
    intro w v x h hx
    refine ⟨_, World.num_iff_reads.mp h, ?_, by simp⟩
    rw [natOfBits_bitsOfNat, Nat.mod_eq_of_lt hx]
  unfold wordBinary
  split
  · rename_i lhs rhs hlhs hrhs
    split
    · exact Builds.throw _
    · rename_i result hresult
      refine Builds.pure fun w => ⟨by simp [constant], ?_⟩
      intro x y word hw hl hx _ hr hy _ hword
      obtain ⟨l, hl', rfl, hlen⟩ := hbits w left x hl hx
      obtain ⟨r, hr', rfl, -⟩ := hbits w right y hr hy
      rw [← hw.number_eq hlhs hl', ← hw.number_eq hrhs hr', hresult] at hword
      rw [← Except.ok.inj hword]
      exact hw.num_constant hwidth
  · refine (add_builds op (Op.computes_of_arithmetic hop) width left right _ _).mono ?_
    rintro w result ⟨hlen, hlanes⟩
    refine ⟨hlen, fun x y word hw hl hx hl64 hr hy hr64 hword i hi => ?_⟩
    obtain ⟨l, hl', rfl, hllen⟩ := hbits w left x hl hx
    obtain ⟨r, hr', rfl, hrlen⟩ := hbits w right y hr hy
    rw [hlen] at hi
    refine hlanes i hi _ ?_
    rw [World.laneValue_arithmetic hop]
    refine ⟨l, r, [], word, hl', hr', .nil, by omega, by omega, ?_, rfl⟩
    rw [hllen]
    exact hword

end CppHdl
