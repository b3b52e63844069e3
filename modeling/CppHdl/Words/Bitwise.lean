import CppHdl.Words.Assign

/-!
# Bitwise operators and shifts of logic vectors

`&`, `|` and `^` work through the storage in place, block by block. `~` inverts
every byte and clears the padding. The shifts compute each 64-bit block of the
result from two neighbouring blocks of the source; `<<` moves bits of the vector
into the padding, up to the end of the storage.
-/

namespace CppHdl.Words

/-- `apply_binary`: `dst` is overwritten. -/
def applyBinary (op : UInt64 → UInt64 → UInt64) (dst rhs : List UInt8) : List UInt8 :=
  blocks dst.length
    (fun d i => store64 d (8 * i) (op (load64 d (8 * i)) (load64 rhs (8 * i))))
    (fun d i => writeBytes d i [(op (d.getD i 0).toUInt64 (rhs.getD i 0).toUInt64).toUInt8])
    dst

/-- An operation on words that works on each bit alone. -/
def Bitwise (op : UInt64 → UInt64 → UInt64) (f : Bool → Bool → Bool) : Prop :=
  ∀ x y i, (op x y).toNat.testBit i = f (x.toNat.testBit i) (y.toNat.testBit i)

theorem bitwise_and : Bitwise (· &&& ·) and := fun x y i => by
  rw [UInt64.toNat_and, Nat.testBit_land]

theorem bitwise_or : Bitwise (· ||| ·) or := fun x y i => by
  rw [UInt64.toNat_or, Nat.testBit_lor]

theorem bitwise_xor : Bitwise (· ^^^ ·) xor := fun x y i => by
  rw [UInt64.toNat_xor, Nat.testBit_xor]

theorem testBit_load64 (bytes : List UInt8) (offset i : Nat) :
    (load64 bytes offset).toNat.testBit i =
      (decide (i < 64) && (natOfBytes bytes).testBit (8 * offset + i)) := by
  rw [toNat_load64, Nat.testBit_mod_two_pow, Nat.testBit_div_two_pow, Nat.add_comm i]

theorem testBit_store64 {bytes : List UInt8} {offset : Nat} (h : offset + 8 ≤ bytes.length)
    (word : UInt64) (i : Nat) :
    (natOfBytes (store64 bytes offset word)).testBit i =
      if 8 * offset ≤ i ∧ i < 8 * offset + 64 then word.toNat.testBit (i - 8 * offset)
      else (natOfBytes bytes).testBit i := by
  unfold store64
  rw [testBit_writeBytes (by rwa [length_bytesOfNat]), length_bytesOfNat, natOfBytes_word]
  rfl

theorem testBit_writeByte {bytes : List UInt8} {i : Nat} (h : i < bytes.length) (byte : UInt8)
    (j : Nat) :
    (natOfBytes (writeBytes bytes i [byte])).testBit j =
      if 8 * i ≤ j ∧ j < 8 * i + 8 then byte.toNat.testBit (j - 8 * i)
      else (natOfBytes bytes).testBit j := by
  rw [@testBit_writeBytes bytes [byte] i h, natOfBytes_cons, natOfBytes_nil, Nat.mul_zero,
    Nat.add_zero]
  rfl

section

variable {op : UInt64 → UInt64 → UInt64} {f : Bool → Bool → Bool} {dst rhs : List UInt8}

/-- What the loop of `apply_binary` knows at bit `p`. -/
structure Combining (f : Bool → Bool → Bool) (dst rhs : List UInt8) (p : Nat)
    (d : List UInt8) : Prop where
  length : d.length = dst.length
  bits : ∀ j, (natOfBytes d).testBit j =
    if j < p then f ((natOfBytes dst).testBit j) ((natOfBytes rhs).testBit j)
    else (natOfBytes dst).testBit j

/-- Overwriting the next bits by the combined ones. -/
theorem Combining.step {p q : Nat} {d d' : List UInt8} (h : Combining f dst rhs p d)
    (hlen : d'.length = d.length) (hpq : p ≤ q)
    (hbits : ∀ j, (natOfBytes d').testBit j = if p ≤ j ∧ j < q then
      f ((natOfBytes d).testBit j) ((natOfBytes rhs).testBit j)
      else (natOfBytes d).testBit j) : Combining f dst rhs q d' where
  length := hlen.trans h.length
  bits j := by
    rw [hbits, h.bits]
    by_cases hlow : j < p
    · rw [if_neg (by omega), if_pos hlow, if_pos (by omega)]
    · rw [if_neg hlow]
      by_cases hnew : j < q
      · rw [if_pos (by omega), if_pos hnew]
      · rw [if_neg (by omega), if_neg hnew]

theorem combining (hop : Bitwise op f) :
    Combining f dst rhs (8 * dst.length) (applyBinary op dst rhs) := by
  refine blocks_induction ⟨rfl, fun j => rfl⟩ ?_ ?_
  · intro i d hi h
    have hfit : 8 * i + 8 ≤ d.length := by rw [h.length]; omega
    refine h.step (length_store64 hfit _) (by omega) fun j => ?_
    rw [testBit_store64 hfit, show 8 * (8 * i) = 64 * i by omega]
    split_ifs with hj
    · rw [hop, testBit_load64, testBit_load64, show 8 * (8 * i) + (j - 64 * i) = j by omega,
        decide_eq_true (by omega), Bool.true_and, Bool.true_and]
    · rfl
  · intro i d hi h
    have hfit : i < d.length := by rwa [h.length]
    refine h.step (length_writeBytes hfit) (by omega) fun j => ?_
    rw [testBit_writeByte hfit]
    split_ifs with hj
    · rw [UInt64.toNat_toUInt8, Nat.testBit_mod_two_pow, hop, UInt8.toNat_toUInt64,
        UInt8.toNat_toUInt64, testBit_getD _ _ _ (by omega), testBit_getD _ _ _ (by omega),
        show 8 * i + (j - 8 * i) = j by omega, decide_eq_true (by omega), Bool.true_and]
    · rfl

theorem length_applyBinary : (applyBinary op dst rhs).length = dst.length :=
  (blocks_induction (P := fun _ (d : List UInt8) => d.length = dst.length) rfl
    (fun i d hi h => (length_store64 (by rw [h]; omega) _).trans h)
    (fun i d hi h => (length_writeBytes (by rw [h]; exact hi)).trans h))

end

namespace Logic

variable {width : Nat}

def binary (op : UInt64 → UInt64 → UInt64) (x y : Logic width) : Logic width :=
  ⟨applyBinary op x.bytes y.bytes, length_applyBinary.trans x.length_eq⟩

def and (x y : Logic width) : Logic width := binary (· &&& ·) x y

def or (x y : Logic width) : Logic width := binary (· ||| ·) x y

def xor (x y : Logic width) : Logic width := binary (· ^^^ ·) x y

theorem testBit_toNat_of_le (x : Logic width) {i : Nat} (h : 8 * size width ≤ i) :
    x.toNat.testBit i = false :=
  testBit_natOfBytes_of_le (by rwa [x.length_eq])

theorem testBit_binary {op : UInt64 → UInt64 → UInt64} {f : Bool → Bool → Bool}
    (hop : Bitwise op f) (hf : f false false = false) (x y : Logic width) (i : Nat) :
    (binary op x y).toNat.testBit i = f (x.toNat.testBit i) (y.toNat.testBit i) := by
  refine ((combining hop).bits i).trans ?_
  split_ifs with hi
  · rfl
  · rw [x.length_eq] at hi
    change x.toNat.testBit i = _
    rw [testBit_toNat_of_le x (by omega), testBit_toNat_of_le y (by omega), hf]

/-- `operator~`. -/
def complement (x : Logic width) : Logic width :=
  masked width (x.bytes.map (~~~ ·)) ((List.length_map ..).trans x.length_eq)

theorem testBit_complement (x : Logic width) (i : Nat) :
    x.complement.toNat.testBit i = (decide (i < width) && !x.toNat.testBit i) := by
  unfold complement
  rw [toNat_masked, Nat.testBit_mod_two_pow]
  by_cases hi : i < width
  · have hsize := le_size width
    have hlen : i / 8 < x.bytes.length := by rw [x.length_eq]; omega
    have hbyte := (x.bytes[i / 8]).toNat_lt
    rw [decide_eq_true hi, Bool.true_and, Bool.true_and, testBit_natOfBytes, toNat,
      testBit_natOfBytes, List.getD_eq_getElem _ _ (by rwa [List.length_map]),
      List.getD_eq_getElem _ _ hlen, List.getElem_map, UInt8.toNat_not]
    have hnot := Nat.testBit_two_pow_sub_succ hbyte (i % 8)
    rw [decide_eq_true (by omega), Bool.true_and] at hnot
    rwa [show UInt8.size - 1 - (x.bytes[i / 8]).toNat =
      2 ^ 8 - ((x.bytes[i / 8]).toNat + 1) by simp only [UInt8.size]; omega]
  · rw [decide_eq_false hi, Bool.false_and, Bool.false_and]

/-! ## Shifts -/

/-- The 64-bit blocks of the storage, the last one possibly shorter. -/
def totalWords (n : Nat) : Nat := n / 8 + if n % 8 = 0 then 0 else 1

/-- Store block `i`, as far as the storage goes. -/
def storeBlock (n : Nat) (dst : List UInt8) (i : Nat) (word : UInt64) : List UInt8 :=
  writeBytes dst (8 * i) (bytesOfNat (min 8 (n - 8 * i)) word.toNat)

/-- Block `i` of `source << shift`. A load clears what lies behind the storage. -/
def shlBlock (source : List UInt8) (wordShift bitShift i : Nat) : UInt64 :=
  let cur := if wordShift ≤ i then load64 source (8 * (i - wordShift)) else 0
  let prev :=
    if bitShift ≠ 0 ∧ wordShift < i then load64 source (8 * (i - wordShift - 1)) else 0
  let shifted := cur <<< UInt64.ofNat bitShift
  if bitShift ≠ 0 then shifted ||| (prev >>> UInt64.ofNat (64 - bitShift)) else shifted

def shrBlock (source : List UInt8) (wordShift bitShift i : Nat) : UInt64 :=
  let cur := load64 source (8 * (i + wordShift))
  let next := if bitShift ≠ 0 then load64 source (8 * (i + wordShift + 1)) else 0
  let shifted := cur >>> UInt64.ofNat bitShift
  if bitShift ≠ 0 then shifted ||| (next <<< UInt64.ofNat (64 - bitShift)) else shifted

/-- Store the blocks of a list of indices into a cleared result. -/
def storeBlocks (n : Nat) (block : Nat → UInt64) (order : List Nat) : List UInt8 :=
  order.foldl (fun dst i => storeBlock n dst i (block i)) (List.replicate n 0)

theorem length_storeBlocks {n : Nat} {block : Nat → UInt64} {order : List Nat}
    (h : ∀ i ∈ order, i < totalWords n) : (storeBlocks n block order).length = n := by
  unfold storeBlocks
  refine List.foldlRecOn (motive := fun (dst : List UInt8) => dst.length = n) order _
    (List.length_replicate ..) fun dst hdst i hi => ?_
  have hlt := h i hi
  unfold storeBlock
  rw [length_writeBytes, hdst]
  rw [length_bytesOfNat, hdst]
  unfold totalWords at hlt
  split_ifs at hlt <;> omega

theorem mem_range_reverse {n i : Nat} (h : i ∈ (List.range n).reverse) : i < n :=
  List.mem_range.mp (List.mem_reverse.mp h)

/-- `operator<<`. The blocks are stored from the top. -/
def shl (x : Logic width) (shift : Nat) : Logic width :=
  if 8 * size width ≤ shift then zero width
  else
    ⟨storeBlocks (size width) (shlBlock x.bytes (shift / 64) (shift % 64))
      (List.range (totalWords (size width))).reverse,
      length_storeBlocks fun _ h => mem_range_reverse h⟩

/-- `operator>>`. -/
def shr (x : Logic width) (shift : Nat) : Logic width :=
  if 8 * size width ≤ shift then zero width
  else
    ⟨storeBlocks (size width) (shrBlock x.bytes (shift / 64) (shift % 64))
      (List.range (totalWords (size width))),
      length_storeBlocks fun _ h => List.mem_range.mp h⟩

theorem testBit_storeBlock {n i : Nat} {dst : List UInt8} (hlen : dst.length = n)
    (hi : i < totalWords n) (word : UInt64) (j : Nat) :
    (natOfBytes (storeBlock n dst i word)).testBit j =
      if j / 64 = i ∧ j < 8 * n then word.toNat.testBit (j % 64)
      else (natOfBytes dst).testBit j := by
  have hblock : 8 * i < n := by
    unfold totalWords at hi
    split_ifs at hi <;> omega
  unfold storeBlock
  rw [testBit_writeBytes (by rw [length_bytesOfNat, hlen]; omega), length_bytesOfNat,
    testBit_bytesOfNat]
  by_cases hj : j / 64 = i ∧ j < 8 * n
  · obtain ⟨rfl, hj⟩ := hj
    rw [if_pos (by omega), if_pos ⟨rfl, hj⟩, decide_eq_true (by omega), Bool.true_and]
    congr 1
    omega
  · rw [if_neg (by omega), if_neg hj]

theorem testBit_storeBlocks {n : Nat} (block : Nat → UInt64) {order : List Nat}
    (h : ∀ i ∈ order, i < totalWords n) (j : Nat) :
    (natOfBytes (storeBlocks n block order)).testBit j =
      (decide (j / 64 ∈ order ∧ j < 8 * n) && (block (j / 64)).toNat.testBit (j % 64)) := by
  induction order using List.reverseRecOn with
  | nil => simp [storeBlocks]
  | append_singleton order i ih =>
      have horder : ∀ i ∈ order, i < totalWords n := fun k hk => h k (List.mem_append_left _ hk)
      have hfold : storeBlocks n block (order ++ [i]) =
          storeBlock n (storeBlocks n block order) i (block i) := by
        unfold storeBlocks
        rw [List.foldl_append]
        rfl
      rw [hfold, testBit_storeBlock (length_storeBlocks horder) (h i (by simp)), ih horder]
      simp only [List.mem_append, List.mem_singleton]
      split_ifs with hj
      · rw [decide_eq_true ⟨.inr hj.1, hj.2⟩, Bool.true_and, hj.1]
      · congr 1
        exact decide_eq_decide.mpr ⟨fun hin => ⟨.inl hin.1, hin.2⟩,
          fun hin => ⟨hin.1.resolve_right fun heq => hj ⟨heq, hin.2⟩, hin.2⟩⟩

/-- Every bit of the storage lies in a block. -/
theorem div_lt_totalWords {n j : Nat} (h : j < 8 * n) : j / 64 < totalWords n := by
  unfold totalWords
  split_ifs <;> omega

/-- A word that is loaded only under a condition. -/
theorem testBit_load64_ite (bytes : List UInt8) (offset : Nat) (c : Prop) [Decidable c] (i : Nat) :
    (if c then load64 bytes offset else 0).toNat.testBit i =
      (decide (c ∧ i < 64) && (natOfBytes bytes).testBit (8 * offset + i)) := by
  by_cases hc : c
  · rw [if_pos hc, testBit_load64]
    simp only [hc, true_and]
  · rw [if_neg hc, decide_eq_false fun h => hc h.1, Bool.false_and]
    exact Nat.zero_testBit i

theorem testBit_shlBlock (source : List UInt8) {wordShift bitShift : Nat} (hbit : bitShift < 64)
    (j : Nat) : (shlBlock source wordShift bitShift (j / 64)).toNat.testBit (j % 64) =
      (decide (64 * wordShift + bitShift ≤ j) &&
        (natOfBytes source).testBit (j - (64 * wordShift + bitShift))) := by
  have hmod := Nat.mod_lt j (by decide : 0 < 64)
  unfold shlBlock
  dsimp only
  by_cases hzero : bitShift ≠ 0
  · rw [if_pos hzero, UInt64.toNat_or, Nat.testBit_lor, testBit_shiftLeft64 _ hbit,
      testBit_shiftRight64 _ (by omega), testBit_load64_ite, testBit_load64_ite,
      decide_eq_true hmod, Bool.true_and, ← Bool.and_assoc, ← Bool.decide_and]
    -- a bit comes from its own block or from the one below
    refine or_reads (fun h => ?_) (fun h => ?_) ?_
    · congr 1
      omega
    · congr 1
      omega
    · omega
  · obtain rfl : bitShift = 0 := by omega
    rw [if_neg hzero, testBit_shiftLeft64 _ hbit, testBit_load64_ite, decide_eq_true hmod, Bool.true_and,
      ← Bool.and_assoc, ← Bool.decide_and]
    by_cases hj : 64 * wordShift ≤ j
    · rw [decide_eq_true (by omega), decide_eq_true (by omega)]
      congr 2
      omega
    · rw [decide_eq_false (by omega), decide_eq_false (by omega)]
      rfl

theorem testBit_shrBlock (source : List UInt8) {wordShift bitShift : Nat} (hbit : bitShift < 64)
    (j : Nat) : (shrBlock source wordShift bitShift (j / 64)).toNat.testBit (j % 64) =
      (natOfBytes source).testBit (j + (64 * wordShift + bitShift)) := by
  have hmod := Nat.mod_lt j (by decide : 0 < 64)
  unfold shrBlock
  dsimp only
  by_cases hzero : bitShift ≠ 0
  · rw [if_pos hzero, if_pos hzero, UInt64.toNat_or, Nat.testBit_lor, testBit_shiftRight64 _ hbit,
      testBit_shiftLeft64 _ (by omega), testBit_load64, testBit_load64,
      decide_eq_true hmod, Bool.true_and, ← Bool.and_assoc, ← Bool.decide_and]
    refine (or_reads (r := True)
      (c := (natOfBytes source).testBit (j + (64 * wordShift + bitShift)))
      (fun h => ?_) (fun h => ?_) ?_).trans (by rw [decide_true, Bool.true_and])
    · congr 1
      omega
    · congr 1
      omega
    · exact ⟨fun _ => by omega, fun _ => trivial⟩
  · obtain rfl : bitShift = 0 := by omega
    rw [if_neg hzero, testBit_shiftRight64 _ hbit, testBit_load64, decide_eq_true (by omega),
      Bool.true_and]
    congr 1
    omega

/-- A left shift fills the padding before it drops bits. -/
theorem toNat_shl (x : Logic width) (shift : Nat) :
    (x.shl shift).toNat = x.toNat * 2 ^ shift % 2 ^ (8 * size width) := by
  unfold shl
  apply Nat.eq_of_testBit_eq
  intro j
  rw [Nat.testBit_mod_two_pow, Nat.testBit_mul_two_pow]
  split_ifs with hlarge
  · rw [toNat_zero, Nat.zero_testBit]
    by_cases hj : j < 8 * size width
    · rw [decide_eq_false (by omega : ¬ shift ≤ j), Bool.false_and, Bool.and_false]
    · rw [decide_eq_false hj, Bool.false_and]
  · unfold toNat
    rw [testBit_storeBlocks _ fun _ h => mem_range_reverse h,
      testBit_shlBlock _ (Nat.mod_lt _ (by decide)), Nat.div_add_mod]
    congr 1
    exact decide_eq_decide.mpr ⟨fun h => h.2, fun h =>
      ⟨List.mem_reverse.mpr (List.mem_range.mpr (div_lt_totalWords h)), h⟩⟩

theorem toNat_shr (x : Logic width) (shift : Nat) :
    (x.shr shift).toNat = x.toNat / 2 ^ shift := by
  unfold shr
  apply Nat.eq_of_testBit_eq
  intro j
  rw [Nat.testBit_div_two_pow]
  split_ifs with hlarge
  · rw [toNat_zero, Nat.zero_testBit, testBit_toNat_of_le x (by omega)]
  · change (natOfBytes _).testBit j = _
    rw [testBit_storeBlocks _ fun _ h => List.mem_range.mp h,
      testBit_shrBlock _ (Nat.mod_lt _ (by decide)), Nat.div_add_mod]
    by_cases hj : j < 8 * size width
    · rw [decide_eq_true ⟨List.mem_range.mpr (div_lt_totalWords hj), hj⟩, Bool.true_and]
      rfl
    · rw [decide_eq_false fun h => hj h.2, Bool.false_and, testBit_toNat_of_le x (by omega)]

end Logic

end CppHdl.Words
