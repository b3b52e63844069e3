import CppHdl.Words.Bitwise

/-!
# The bounds and the numbers of shifts

The shift operators load the storage in blocks of eight bytes; the last block is
loaded with the bytes that remain. Here every load and store is checked against
the ends of the storage: `shlChecked` and `shrChecked` are the operators with
these checks, and they never fail.

A left shift is exact modulo the storage, so it is exact modulo the vector where
nothing moves into the padding. A right shift is exact where nothing moves out of
the padding.
-/

namespace CppHdl.Words

/-- `std::memcpy` of `n` bytes into a cleared word; none outside the storage. -/
def memcpyWord (bytes : List UInt8) (offset n : Nat) : Option UInt64 :=
  if offset + n ≤ bytes.length then some (UInt64.ofNat (natOfBytes (readBytes bytes offset n)))
  else none

/-- The load of a block: whole, with the bytes that remain, or none at all. -/
def loadBlock (bytes : List UInt8) (index : Nat) : Option UInt64 :=
  let wordCount := bytes.length / 8
  let remainder := bytes.length % 8
  if index < wordCount then memcpyWord bytes (8 * index) 8
  else if index = wordCount ∧ remainder ≠ 0 then memcpyWord bytes (8 * wordCount) remainder
  else some 0

/-- `std::memcpy` of `n` bytes of a word to the storage. -/
def memcpyBytes (dst : List UInt8) (offset n : Nat) (word : UInt64) : Option (List UInt8) :=
  if offset + n ≤ dst.length then some (writeBytes dst offset (bytesOfNat n word.toNat)) else none

def storeBlockChecked (dst : List UInt8) (i : Nat) (word : UInt64) : Option (List UInt8) :=
  let wordCount := dst.length / 8
  let remainder := dst.length % 8
  if i < wordCount then memcpyBytes dst (8 * i) 8 word
  else if i = wordCount ∧ remainder ≠ 0 then memcpyBytes dst (8 * wordCount) remainder word
  else some dst

def shlBlockChecked (source : List UInt8) (wordShift bitShift i : Nat) : Option UInt64 :=
  (if wordShift ≤ i then loadBlock source (i - wordShift) else some 0).bind fun cur =>
    (if bitShift ≠ 0 ∧ wordShift < i then loadBlock source (i - wordShift - 1)
      else some 0).map fun prev =>
        let value := cur <<< UInt64.ofNat bitShift
        if bitShift ≠ 0 then value ||| (prev >>> UInt64.ofNat (64 - bitShift)) else value

def shrBlockChecked (source : List UInt8) (wordShift bitShift i : Nat) : Option UInt64 :=
  (loadBlock source (i + wordShift)).bind fun cur =>
    (if bitShift ≠ 0 then loadBlock source (i + wordShift + 1) else some 0).map fun next =>
      let value := cur >>> UInt64.ofNat bitShift
      if bitShift ≠ 0 then value ||| (next <<< UInt64.ofNat (64 - bitShift)) else value

/-- Compute and store the blocks of a list of indices. -/
def storeBlocksChecked (block : Nat → Option UInt64) (order : List Nat) (dst : List UInt8) :
    Option (List UInt8) :=
  order.foldlM (fun dst i => (block i).bind (storeBlockChecked dst i)) dst

namespace Logic

variable {width : Nat}

/-- `operator<<` with its bounds. -/
def shlChecked (x : Logic width) (shift : Nat) : Option (List UInt8) :=
  let start := List.replicate (size width) 0
  if 8 * size width ≤ shift then some start
  else storeBlocksChecked (shlBlockChecked x.bytes (shift / 64) (shift % 64))
    (List.range (totalWords (size width))).reverse start

/-- `operator>>` with its bounds. -/
def shrChecked (x : Logic width) (shift : Nat) : Option (List UInt8) :=
  let start := List.replicate (size width) 0
  if 8 * size width ≤ shift then some start
  else storeBlocksChecked (shrBlockChecked x.bytes (shift / 64) (shift % 64))
    (List.range (totalWords (size width))) start

end Logic

/-! ## Bounds -/

open Logic

/-- A load past the bytes that are left loads those. -/
theorem readBytes_of_le {bytes : List UInt8} {offset n m : Nat} (hn : bytes.length ≤ offset + n)
    (hm : bytes.length ≤ offset + m) : readBytes bytes offset n = readBytes bytes offset m := by
  have hlen : (bytes.drop offset).length = bytes.length - offset := List.length_drop ..
  unfold readBytes
  rw [List.take_of_length_le (by omega), List.take_of_length_le (by omega)]

/-- Every load of a block stays inside the storage. -/
theorem loadBlock_eq (bytes : List UInt8) (index : Nat) :
    loadBlock bytes index = some (load64 bytes (8 * index)) := by
  unfold loadBlock memcpyWord load64
  dsimp only
  split_ifs with hwhole hfit hlast hrest
  · rfl
  · omega
  · rw [hlast.1, readBytes_of_le (n := 8) (m := bytes.length % 8) (by omega) (by omega)]
  · omega
  · -- nothing is left behind the last block
    rw [readBytes_of_le (n := 8) (m := 0) (by omega) (by omega)]
    rfl

/-- Every store of a block stays inside the storage. -/
theorem storeBlockChecked_eq {n i : Nat} {dst : List UInt8} (hlen : dst.length = n)
    (hi : i < totalWords n) (word : UInt64) :
    storeBlockChecked dst i word = some (storeBlock n dst i word) := by
  unfold totalWords at hi
  subst hlen
  unfold storeBlockChecked memcpyBytes storeBlock
  dsimp only
  by_cases hwhole : i < dst.length / 8
  · rw [if_pos hwhole, if_pos (by omega), Nat.min_eq_left (by omega)]
  · have hlast : i = dst.length / 8 ∧ dst.length % 8 ≠ 0 := by
      split_ifs at hi <;> omega
    rw [if_neg hwhole, if_pos hlast, if_pos (by omega), hlast.1, Nat.min_eq_right (by omega)]
    congr 3
    omega

theorem shlBlockChecked_eq (source : List UInt8) (wordShift bitShift i : Nat) :
    shlBlockChecked source wordShift bitShift i =
      some (shlBlock source wordShift bitShift i) := by
  have hif : ∀ (c : Prop) [Decidable c] (index : Nat),
      (if c then loadBlock source index else some 0) =
        some (if c then load64 source (8 * index) else 0) := fun c _ index => by
    rw [loadBlock_eq]
    exact (apply_ite some c _ _).symm
  unfold shlBlockChecked shlBlock
  rw [hif, hif]
  rfl

theorem shrBlockChecked_eq (source : List UInt8) (wordShift bitShift i : Nat) :
    shrBlockChecked source wordShift bitShift i =
      some (shrBlock source wordShift bitShift i) := by
  unfold shrBlockChecked shrBlock
  rw [loadBlock_eq, loadBlock_eq, ← apply_ite some]
  rfl

theorem storeBlocksChecked_eq {n : Nat} {block : Nat → Option UInt64} {block' : Nat → UInt64}
    (hblock : ∀ i, block i = some (block' i)) {order : List Nat} {dst : List UInt8}
    (hlen : dst.length = n) (horder : ∀ i ∈ order, i < totalWords n) :
    storeBlocksChecked block order dst =
      some (order.foldl (fun dst i => storeBlock n dst i (block' i)) dst) := by
  unfold storeBlocksChecked
  induction order generalizing dst with
  | nil => rfl
  | cons i order ih =>
      have hi := horder i (List.mem_cons_self ..)
      have hnext : (storeBlock n dst i (block' i)).length = n := by
        unfold totalWords at hi
        unfold storeBlock
        rw [length_writeBytes, hlen]
        rw [length_bytesOfNat, hlen]
        split_ifs at hi <;> omega
      rw [List.foldlM_cons, hblock, List.foldl_cons]
      change (storeBlockChecked dst i (block' i)).bind _ = _
      rw [storeBlockChecked_eq hlen hi]
      exact ih hnext fun k hk => horder k (List.mem_cons_of_mem _ hk)

namespace Logic

variable {width : Nat}

theorem shlChecked_eq (x : Logic width) (shift : Nat) :
    x.shlChecked shift = some (x.shl shift).bytes := by
  unfold shlChecked shl
  dsimp only
  split_ifs with hlarge
  · rfl
  · exact storeBlocksChecked_eq (shlBlockChecked_eq _ _ _) (List.length_replicate ..)
      fun _ h => mem_range_reverse h

theorem shrChecked_eq (x : Logic width) (shift : Nat) :
    x.shrChecked shift = some (x.shr shift).bytes := by
  unfold shrChecked shr
  dsimp only
  split_ifs with hlarge
  · rfl
  · exact storeBlocksChecked_eq (shrBlockChecked_eq _ _ _) (List.length_replicate ..)
      fun _ h => List.mem_range.mp h

/-! ## Numbers -/

/-- A left shift is always right on the bits of the vector. -/
theorem value_shl (x : Logic width) (shift : Nat) :
    (x.shl shift).value = x.value * 2 ^ shift % 2 ^ width := by
  unfold value
  rw [toNat_shl, Nat.mod_mod_of_dvd _ (Nat.pow_dvd_pow 2 (le_size width)), Nat.mod_mul_mod]

/-- The result of a left shift is the shifted value exactly where nothing moves
into the padding. -/
theorem toNat_shl_iff (x : Logic width) (shift : Nat) :
    (x.shl shift).toNat = x.value * 2 ^ shift % 2 ^ width ↔
      x.toNat * 2 ^ shift % 2 ^ (8 * size width) < 2 ^ width := by
  rw [← value_shl, ← toNat_shl]
  exact ⟨fun h => h ▸ Nat.mod_lt _ (Nat.two_pow_pos _), fun h => (Nat.mod_eq_of_lt h).symm⟩

/-- The padding bits a right shift moves into the vector are zero. -/
def ShiftsZeros (x : Logic width) (shift : Nat) : Prop :=
  ∀ i < width, width ≤ i + shift → x.toNat.testBit (i + shift) = false

theorem value_shr_iff (x : Logic width) (shift : Nat) :
    (x.shr shift).value = x.value / 2 ^ shift ↔ x.ShiftsZeros shift := by
  have hbit : ∀ i, (x.shr shift).value.testBit i =
      (decide (i < width) && x.toNat.testBit (i + shift)) := fun i => by
    rw [value, toNat_shr, Nat.testBit_mod_two_pow, Nat.testBit_div_two_pow]
  have hgoal : ∀ i, (x.value / 2 ^ shift).testBit i =
      (decide (i + shift < width) && x.toNat.testBit (i + shift)) := fun i => by
    rw [Nat.testBit_div_two_pow, value, Nat.testBit_mod_two_pow]
  constructor
  · intro h i hi hpad
    have := congrArg (Nat.testBit · i) h
    rwa [hbit, hgoal, decide_eq_true hi, decide_eq_false (by omega), Bool.true_and,
      Bool.false_and] at this
  · intro h
    apply Nat.eq_of_testBit_eq
    intro i
    rw [hbit, hgoal]
    by_cases hin : i + shift < width
    · rw [decide_eq_true hin, decide_eq_true (by omega)]
    · rw [decide_eq_false hin, Bool.false_and]
      by_cases hi : i < width
      · rw [h i hi (by omega), Bool.and_false]
      · rw [decide_eq_false hi, Bool.false_and]

structure ShiftsExactly (x : Logic width) (shift : Nat) : Prop where
  left : (x.shl shift).toNat = x.value * 2 ^ shift % 2 ^ width
  right : (x.shr shift).value = x.value / 2 ^ shift
  left_inside : x.shlChecked shift = some (x.shl shift).bytes
  right_inside : x.shrChecked shift = some (x.shr shift).bytes

/-- The shifts are exact where no set bit moves into the padding or out of it, and
nowhere else. -/
theorem shifts_exactly (x : Logic width) (shift : Nat) :
    ShiftsExactly x shift ↔
      x.toNat * 2 ^ shift % 2 ^ (8 * size width) < 2 ^ width ∧ x.ShiftsZeros shift := by
  rw [← toNat_shl_iff, ← value_shr_iff]
  exact ⟨fun h => ⟨h.left, h.right⟩,
    fun h => ⟨h.1, h.2, x.shlChecked_eq shift, x.shrChecked_eq shift⟩⟩

/-- `31 << 1` in five bits leaves 62 in the storage, where 30 is right. -/
theorem shift_fills_padding :
    ¬ ShiftsExactly (ofNat 5 31) 1 ∧ ((ofNat 5 31).shl 1).toUInt64 = 62 := by
  refine ⟨fun h => ?_, by decide +kernel⟩
  have hleft := h.left
  revert hleft
  decide +kernel

end Logic

end CppHdl.Words
