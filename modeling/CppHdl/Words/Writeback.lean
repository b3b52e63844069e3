import CppHdl.Words.Slices

/-!
# Writing a slice back

`updateParent` writes the low bits of a snapshot over a range of its parent. A
parent of up to 64 bits is loaded, masked and stored as one word. In a wider one
the range is written in pieces that end at a byte boundary plus 64 bits at most,
each loaded and stored with the fewest bytes that hold it.
-/

namespace CppHdl.Words

/-- `std::memcpy` of `n` bytes into a cleared word. -/
def loadWord (bytes : List UInt8) (offset n : Nat) : UInt64 :=
  UInt64.ofNat (natOfBytes (readBytes bytes offset n))

/-- `load_writeback_word`: up to eight bytes, as pieces of 4, 2 and 1. -/
def loadWritebackWord (source : List UInt8) (offset bytes : Nat) : UInt64 :=
  if bytes = 8 then loadWord source offset 8
  else
    let (result, offset, bytes, shift) :=
      if 4 ≤ bytes then (loadWord source offset 4, offset + 4, bytes - 4, 32)
      else (0, offset, bytes, 0)
    let (result, offset, bytes, shift) :=
      if 2 ≤ bytes then
        (result ||| loadWord source offset 2 <<< UInt64.ofNat shift, offset + 2, bytes - 2,
          shift + 16)
      else (result, offset, bytes, shift)
    if bytes ≠ 0 then result ||| loadWord source offset 1 <<< UInt64.ofNat shift else result

def storeWritebackWord (destination : List UInt8) (offset : Nat) (value : UInt64) (bytes : Nat) :
    List UInt8 :=
  if bytes = 8 then writeBytes destination offset (bytesOfNat 8 value.toNat)
  else
    let (destination, offset, bytes, value) :=
      if 4 ≤ bytes then
        (writeBytes destination offset (bytesOfNat 4 value.toNat), offset + 4, bytes - 4,
          value >>> UInt64.ofNat 32)
      else (destination, offset, bytes, value)
    let (destination, offset, bytes, value) :=
      if 2 ≤ bytes then
        (writeBytes destination offset (bytesOfNat 2 value.toNat), offset + 2, bytes - 2,
          value >>> UInt64.ofNat 16)
      else (destination, offset, bytes, value)
    if bytes ≠ 0 then writeBytes destination offset (bytesOfNat 1 value.toNat) else destination

/-- `count` ones from bit `first` on. -/
def rangeMask (count first : Nat) : UInt64 :=
  (~~~0 >>> UInt64.ofNat (64 - count)) <<< UInt64.ofNat first

/-- Replace the bits under the mask. -/
def merge (previous incoming : UInt64) (count first : Nat) : UInt64 :=
  (previous &&& ~~~(rangeMask count first)) |||
    ((incoming <<< UInt64.ofNat first) &&& rangeMask count first)

def writebackPiece (source parent : List UInt8) (destinationFirst sourceFirst chunk : Nat) :
    List UInt8 :=
  let destinationShift := destinationFirst % 8
  let sourceShift := sourceFirst % 8
  let sourceBytes := (sourceShift + chunk + 7) / 8
  let destinationBytes := (destinationShift + chunk + 7) / 8
  let loaded := loadWritebackWord source (sourceFirst / 8) (min sourceBytes 8) >>>
    UInt64.ofNat sourceShift
  let incoming :=
    if 8 < sourceBytes then
      loaded ||| (source.getD (sourceFirst / 8 + 8) 0).toUInt64 <<< UInt64.ofNat (64 - sourceShift)
    else loaded
  let previous :=
    if rangeMask chunk destinationShift ≠ ~~~0 then
      loadWritebackWord parent (destinationFirst / 8) destinationBytes
    else 0
  storeWritebackWord parent (destinationFirst / 8)
    (merge previous incoming chunk destinationShift) destinationBytes

def writeback (source parent : List UInt8) (destinationFirst sourceFirst count : Nat) :
    List UInt8 :=
  if count = 0 then parent
  else
    let chunk := min count (64 - destinationFirst % 8)
    writeback source (writebackPiece source parent destinationFirst sourceFirst chunk)
      (destinationFirst + chunk) (sourceFirst + chunk) (count - chunk)
termination_by count
decreasing_by omega

def updateParent (width : Nat) (parent source : List UInt8) (last first : Nat) : List UInt8 :=
  if 0 < width ∧ width ≤ 64 then
    writeBytes parent 0 (bytesOfNat (size width)
      (merge (loadWord parent 0 (size width)) (loadWord source 0 (size width))
        (last - first + 1) first).toNat)
  else writeback source parent first 0 (last - first + 1)

/-! ## Words in pieces -/

theorem testBit_loadWord (bytes : List UInt8) (offset : Nat) {n : Nat} (hn : n ≤ 8) (i : Nat) :
    (loadWord bytes offset n).toNat.testBit i =
      (decide (i < 8 * n) && (natOfBytes bytes).testBit (8 * offset + i)) := by
  have hlt : natOfBytes (readBytes bytes offset n) < 2 ^ 64 := by
    rw [natOfBytes_readBytes]
    exact Nat.lt_of_lt_of_le (Nat.mod_lt _ (Nat.two_pow_pos _))
      (Nat.pow_le_pow_right (by decide) (by omega))
  unfold loadWord
  rw [UInt64.toNat_ofNat', Nat.mod_eq_of_lt hlt, testBit_readBytes]

/-- A word that holds the first `k` bytes from an offset on. -/
def Loaded (bytes : List UInt8) (offset k : Nat) (word : UInt64) : Prop :=
  ∀ i, word.toNat.testBit i =
    (decide (i < 8 * k) && (natOfBytes bytes).testBit (8 * offset + i))

theorem Loaded.zero (bytes : List UInt8) (offset : Nat) : Loaded bytes offset 0 0 := fun i => by
  rw [decide_eq_false (by omega), Bool.false_and]
  exact Nat.zero_testBit i

theorem Loaded.piece {bytes : List UInt8} {offset k : Nat} {word : UInt64}
    (h : Loaded bytes offset k word) (n : Nat) (hn : 0 < n) (hfit : k + n ≤ 8) :
    Loaded bytes offset (k + n)
      (word ||| loadWord bytes (offset + k) n <<< UInt64.ofNat (8 * k)) := by
  intro i
  rw [UInt64.toNat_or, Nat.testBit_lor, h, testBit_shiftLeft64 _ (by omega),
    testBit_loadWord _ _ (by omega), ← Bool.and_assoc, ← Bool.and_assoc, ← Bool.decide_and,
    ← Bool.decide_and]
  refine or_reads (fun _ => rfl) (fun hi => ?_) ?_
  · congr 1
    omega
  · omega

theorem loaded_loadWritebackWord (source : List UInt8) (offset : Nat) {bytes : Nat}
    (h : bytes ≤ 8) : Loaded source offset bytes (loadWritebackWord source offset bytes) := by
  have hfirst : ∀ n ≤ 8, Loaded source offset n (loadWord source offset n) := fun n hn i =>
    testBit_loadWord source offset hn i
  have hzero := Loaded.zero source offset
  obtain rfl | rfl | rfl | rfl | rfl | rfl | rfl | rfl | rfl : bytes = 0 ∨ bytes = 1 ∨ bytes = 2 ∨
    bytes = 3 ∨ bytes = 4 ∨ bytes = 5 ∨ bytes = 6 ∨ bytes = 7 ∨ bytes = 8 := by omega
  · exact hzero
  · exact hzero.piece 1 (by decide) (by decide)
  · exact hzero.piece 2 (by decide) (by decide)
  · exact (hzero.piece 2 (by decide) (by decide)).piece 1 (by decide) (by decide)
  · exact hfirst 4 (by decide)
  · exact (hfirst 4 (by decide)).piece 1 (by decide) (by decide)
  · exact (hfirst 4 (by decide)).piece 2 (by decide) (by decide)
  · exact ((hfirst 4 (by decide)).piece 2 (by decide) (by decide)).piece 1 (by decide) (by decide)
  · exact hfirst 8 (by decide)

/-- The first `k` bytes of a word stand at an offset, the other bytes are old. -/
structure Stored (old : List UInt8) (offset : Nat) (value : UInt64) (k : Nat)
    (bytes : List UInt8) : Prop where
  length : bytes.length = old.length
  bits : ∀ i, (natOfBytes bytes).testBit i =
    if 8 * offset ≤ i ∧ i < 8 * (offset + k) then value.toNat.testBit (i - 8 * offset)
    else (natOfBytes old).testBit i

theorem Stored.zero (old : List UInt8) (offset : Nat) (value : UInt64) :
    Stored old offset value 0 old := ⟨rfl, fun i => by rw [if_neg (by omega)]⟩

theorem Stored.piece {old bytes : List UInt8} {offset k : Nat} {value rest : UInt64}
    (h : Stored old offset value k bytes)
    (hrest : ∀ i, i < 64 - 8 * k → rest.toNat.testBit i = value.toNat.testBit (8 * k + i))
    (n : Nat) (hn : k + n ≤ 8) (hfit : offset + k + n ≤ old.length) :
    Stored old offset value (k + n) (writeBytes bytes (offset + k) (bytesOfNat n rest.toNat)) := by
  have hroom : offset + k + (bytesOfNat n rest.toNat).length ≤ bytes.length := by
    rwa [length_bytesOfNat, h.length]
  refine ⟨(length_writeBytes hroom).trans h.length, fun i => ?_⟩
  rw [testBit_writeBytes hroom, length_bytesOfNat, testBit_bytesOfNat, h.bits]
  by_cases hnew : 8 * (offset + k) ≤ i ∧ i < 8 * (offset + k + n)
  · rw [if_pos hnew, if_pos (by omega), decide_eq_true (by omega), Bool.true_and,
      hrest _ (by omega)]
    congr 1
    omega
  · rw [if_neg hnew]
    by_cases hold : 8 * offset ≤ i ∧ i < 8 * (offset + k)
    · rw [if_pos hold, if_pos (by omega)]
    · rw [if_neg hold, if_neg (by omega)]

theorem stored_storeWritebackWord {old : List UInt8} {offset : Nat} (value : UInt64) {bytes : Nat}
    (h : bytes ≤ 8) (hfit : offset + bytes ≤ old.length) :
    Stored old offset value bytes (storeWritebackWord old offset value bytes) := by
  have hzero := Stored.zero old offset value
  have hall : ∀ i, i < 64 - 8 * 0 → value.toNat.testBit i = value.toNat.testBit (8 * 0 + i) :=
    fun i _ => by rw [Nat.mul_zero, Nat.zero_add]
  have hfour : ∀ i, i < 64 - 8 * 4 →
      (value >>> UInt64.ofNat 32).toNat.testBit i = value.toNat.testBit (8 * 4 + i) := fun i _ => by
    rw [testBit_shiftRight64 _ (by decide)]
  have htwo : ∀ i, i < 64 - 8 * 2 →
      (value >>> UInt64.ofNat 16).toNat.testBit i = value.toNat.testBit (8 * 2 + i) := fun i _ => by
    rw [testBit_shiftRight64 _ (by decide)]
  have hsix : ∀ i, i < 64 - 8 * 6 →
      (value >>> UInt64.ofNat 32 >>> UInt64.ofNat 16).toNat.testBit i =
        value.toNat.testBit (8 * 6 + i) := fun i _ => by
    rw [testBit_shiftRight64 _ (by decide), testBit_shiftRight64 _ (by decide), ← Nat.add_assoc]
  obtain rfl | rfl | rfl | rfl | rfl | rfl | rfl | rfl | rfl : bytes = 0 ∨ bytes = 1 ∨ bytes = 2 ∨
    bytes = 3 ∨ bytes = 4 ∨ bytes = 5 ∨ bytes = 6 ∨ bytes = 7 ∨ bytes = 8 := by omega
  · exact hzero
  · exact hzero.piece hall 1 (by decide) (by omega)
  · exact hzero.piece hall 2 (by decide) (by omega)
  · exact (hzero.piece hall 2 (by decide) (by omega)).piece htwo 1 (by decide) (by omega)
  · exact hzero.piece hall 4 (by decide) (by omega)
  · exact (hzero.piece hall 4 (by decide) (by omega)).piece hfour 1 (by decide) (by omega)
  · exact (hzero.piece hall 4 (by decide) (by omega)).piece hfour 2 (by decide) (by omega)
  · exact ((hzero.piece hall 4 (by decide) (by omega)).piece hfour 2 (by decide)
      (by omega)).piece hsix 1 (by decide) (by omega)
  · exact hzero.piece hall 8 (by decide) (by omega)

/-! ## Pieces -/

theorem testBit_not64 (x : UInt64) (i : Nat) :
    (~~~x).toNat.testBit i = (decide (i < 64) && !x.toNat.testBit i) := by
  have := x.toNat_lt
  rw [UInt64.toNat_not, show UInt64.size - 1 - x.toNat = 2 ^ 64 - (x.toNat + 1) by
    simp only [UInt64.size]; omega]
  exact Nat.testBit_two_pow_sub_succ x.toNat_lt i

theorem testBit_rangeMask {count first : Nat} (hcount : 0 < count) (hfit : first + count ≤ 64)
    (i : Nat) :
    (rangeMask count first).toNat.testBit i = decide (first ≤ i ∧ i < first + count) := by
  have hones : ∀ k, (~~~(0 : UInt64)).toNat.testBit k = decide (k < 64) := fun k => by
    rw [testBit_not64, show (0 : UInt64).toNat.testBit k = false from Nat.zero_testBit k]
    exact Bool.and_true _
  unfold rangeMask
  rw [testBit_shiftLeft64 _ (by omega), testBit_shiftRight64 _ (by omega), hones,
    ← Bool.decide_and, ← Bool.decide_and]
  exact decide_eq_decide.mpr (by omega)

theorem testBit_merge {count first : Nat} (hcount : 0 < count) (hfit : first + count ≤ 64)
    (previous incoming : UInt64) {i : Nat} (hi : i < 64) :
    (merge previous incoming count first).toNat.testBit i =
      if first ≤ i ∧ i < first + count then incoming.toNat.testBit (i - first)
      else previous.toNat.testBit i := by
  unfold merge
  rw [UInt64.toNat_or, Nat.testBit_lor, UInt64.toNat_and, Nat.testBit_land, UInt64.toNat_and,
    Nat.testBit_land, testBit_not64, testBit_rangeMask hcount hfit,
    testBit_shiftLeft64 _ (by omega), decide_eq_true hi]
  by_cases hin : first ≤ i ∧ i < first + count
  · rw [if_pos hin, decide_eq_true hin, decide_eq_true hin.1]
    simp
  · rw [if_neg hin, decide_eq_false hin]
    simp

/-- The bits of a piece replace the bits of the parent from `destinationFirst` on. -/
theorem stored_writebackPiece {source parent : List UInt8} {destinationFirst sourceFirst chunk : Nat}
    (hchunk : 0 < chunk) (hshift : destinationFirst % 8 + chunk ≤ 64)
    (hfit : destinationFirst + chunk ≤ 8 * parent.length) :
    let bytes := writebackPiece source parent destinationFirst sourceFirst chunk
    bytes.length = parent.length ∧ ∀ i, (natOfBytes bytes).testBit i =
      if destinationFirst ≤ i ∧ i < destinationFirst + chunk then
        (natOfBytes source).testBit (sourceFirst + (i - destinationFirst))
      else (natOfBytes parent).testBit i := by
  intro bytes
  have hmod := Nat.mod_lt destinationFirst (by decide : 0 < 8)
  have hsmod := Nat.mod_lt sourceFirst (by decide : 0 < 8)
  -- the bits that come in
  have hincoming : ∀ loaded : UInt64, loaded = loadWritebackWord source (sourceFirst / 8)
        (min ((sourceFirst % 8 + chunk + 7) / 8) 8) >>> UInt64.ofNat (sourceFirst % 8) →
      ∀ k < chunk, (if 8 < (sourceFirst % 8 + chunk + 7) / 8 then
          loaded ||| (source.getD (sourceFirst / 8 + 8) 0).toUInt64 <<<
            UInt64.ofNat (64 - sourceFirst % 8)
        else loaded).toNat.testBit k = (natOfBytes source).testBit (sourceFirst + k) := by
    rintro loaded rfl k hk
    have hloaded := loaded_loadWritebackWord source (sourceFirst / 8)
      (Nat.min_le_right ((sourceFirst % 8 + chunk + 7) / 8) 8)
    have hindex : 8 * (sourceFirst / 8) + (sourceFirst % 8 + k) = sourceFirst + k := by omega
    split_ifs with hwide
    · -- the last bits of a piece that spans nine bytes are in the ninth
      rw [UInt64.toNat_or, Nat.testBit_lor, testBit_shiftRight64 _ (by omega), hloaded, hindex,
        testBit_shiftLeft64 _ (by omega), UInt8.toNat_toUInt64, ← Bool.and_assoc,
        ← Bool.decide_and]
      refine (or_reads (r := True) (c := (natOfBytes source).testBit (sourceFirst + k))
        (fun _ => rfl) (fun h => ?_) ?_).trans (by rw [decide_true, Bool.true_and])
      · rw [testBit_getD _ _ _ (by omega)]
        congr 1
        omega
      · exact ⟨fun _ => by omega, fun _ => trivial⟩
    · rw [testBit_shiftRight64 _ (by omega), hloaded, hindex, decide_eq_true (by omega),
        Bool.true_and]
  -- the bits that stay; a mask of all ones leaves none
  have hprevious : ∀ k, ¬ (destinationFirst % 8 ≤ k ∧ k < destinationFirst % 8 + chunk) →
      k < 8 * ((destinationFirst % 8 + chunk + 7) / 8) →
      (if rangeMask chunk (destinationFirst % 8) ≠ ~~~0 then
          loadWritebackWord parent (destinationFirst / 8)
            ((destinationFirst % 8 + chunk + 7) / 8)
        else 0).toNat.testBit k =
        (natOfBytes parent).testBit (8 * (destinationFirst / 8) + k) := by
    intro k hout hk
    rw [if_pos, loaded_loadWritebackWord parent _ (by omega), decide_eq_true hk, Bool.true_and]
    intro hones
    have hbit := testBit_rangeMask hchunk hshift k
    rw [hones, testBit_not64, show (0 : UInt64).toNat.testBit k = false from Nat.zero_testBit k,
      decide_eq_true (by omega), decide_eq_false hout] at hbit
    cases hbit
  have hstored : Stored parent (destinationFirst / 8) _
      ((destinationFirst % 8 + chunk + 7) / 8) bytes :=
    stored_storeWritebackWord _ (by omega) (by omega)
  refine ⟨hstored.length, fun i => (hstored.bits i).trans ?_⟩
  by_cases hin : 8 * (destinationFirst / 8) ≤ i ∧
      i < 8 * (destinationFirst / 8 + (destinationFirst % 8 + chunk + 7) / 8)
  · rw [if_pos hin, testBit_merge hchunk hshift _ _ (by omega)]
    by_cases hrange : destinationFirst ≤ i ∧ i < destinationFirst + chunk
    · rw [if_pos hrange, if_pos (by omega), hincoming _ rfl _ (by omega)]
      congr 1
      omega
    · rw [if_neg hrange, if_neg (by omega), hprevious _ (by omega) (by omega)]
      congr 1
      omega
  · rw [if_neg hin, if_neg (by omega)]

theorem writeback_spec {source parent : List UInt8} {destinationFirst sourceFirst count : Nat}
    (hfit : destinationFirst + count ≤ 8 * parent.length) :
    (writeback source parent destinationFirst sourceFirst count).length = parent.length ∧
      ∀ i, (natOfBytes (writeback source parent destinationFirst sourceFirst count)).testBit i =
        if destinationFirst ≤ i ∧ i < destinationFirst + count then
          (natOfBytes source).testBit (sourceFirst + (i - destinationFirst))
        else (natOfBytes parent).testBit i := by
  induction count using Nat.strong_induction_on generalizing parent destinationFirst sourceFirst with
  | _ count ih =>
      rw [writeback]
      split_ifs with hzero
      · exact ⟨rfl, fun i => by rw [if_neg (by omega)]⟩
      · dsimp only
        have hmod := Nat.mod_lt destinationFirst (by decide : 0 < 8)
        generalize hchunk : min count (64 - destinationFirst % 8) = chunk
        obtain ⟨hlen, hbits⟩ := @stored_writebackPiece source parent destinationFirst sourceFirst
          chunk (by omega) (by omega) (by omega)
        obtain ⟨hlen', hbits'⟩ := @ih (count - chunk) (by omega)
          (writebackPiece source parent destinationFirst sourceFirst chunk)
          (destinationFirst + chunk) (sourceFirst + chunk) (by rw [hlen]; omega)
        refine ⟨hlen'.trans hlen, fun i => ?_⟩
        rw [hbits', hbits]
        by_cases hlater : destinationFirst + chunk ≤ i ∧
            i < destinationFirst + chunk + (count - chunk)
        · rw [if_pos hlater, if_pos (by omega)]
          congr 1
          omega
        · rw [if_neg hlater]
          by_cases hnow : destinationFirst ≤ i ∧ i < destinationFirst + chunk
          · rw [if_pos hnow, if_pos (by omega)]
          · rw [if_neg hnow, if_neg (by omega)]

theorem updateParent_spec {width last first : Nat} {parent source : List UInt8}
    (hparent : parent.length = size width) (h : first ≤ last ∧ last < width) :
    (updateParent width parent source last first).length = size width ∧
      ∀ i, (natOfBytes (updateParent width parent source last first)).testBit i =
        if first ≤ i ∧ i ≤ last then (natOfBytes source).testBit (i - first)
        else (natOfBytes parent).testBit i := by
  have hsize := le_size width
  unfold updateParent
  split_ifs with hword
  · have hle : size width ≤ 8 := by unfold size; omega
    have hroom (value : UInt64) :
        0 + (bytesOfNat (size width) value.toNat).length ≤ parent.length := by
      rw [length_bytesOfNat, hparent, Nat.zero_add]
    refine ⟨(length_writeBytes (hroom _)).trans hparent, fun i => ?_⟩
    rw [testBit_writeBytes (hroom _), length_bytesOfNat, testBit_bytesOfNat, Nat.mul_zero,
      Nat.zero_add, Nat.sub_zero]
    by_cases hi : i < 8 * size width
    · rw [if_pos ⟨Nat.zero_le i, hi⟩, decide_eq_true hi, Bool.true_and,
        testBit_merge (by omega) (by omega) _ _ (by omega), testBit_loadWord _ _ hle,
        testBit_loadWord _ _ hle, Nat.mul_zero, Nat.zero_add, Nat.zero_add,
        decide_eq_true (by omega), decide_eq_true hi, Bool.true_and, Bool.true_and]
      by_cases hin : first ≤ i ∧ i ≤ last
      · rw [if_pos hin, if_pos (by omega)]
      · rw [if_neg hin, if_neg (by omega)]
    · rw [if_neg (fun h => hi h.2), if_neg (by omega)]
  · obtain ⟨hlen, hbits⟩ := @writeback_spec source parent first 0 (last - first + 1)
      (by rw [hparent]; omega)
    refine ⟨hlen.trans hparent, fun i => (hbits i).trans ?_⟩
    rw [Nat.zero_add]
    by_cases hin : first ≤ i ∧ i ≤ last
    · rw [if_pos hin, if_pos (by omega)]
    · rw [if_neg hin, if_neg (by omega)]

namespace Logic

variable {width : Nat}

/-- `parent.bits(last, first) = value`. -/
def writeBits {other : Nat} (parent : Logic width) (last first : Nat)
    (h : first ≤ last ∧ last < width) (value : Logic other) : Logic width :=
  ⟨updateParent width parent.bytes (convert width value).bytes last first,
    (updateParent_spec parent.length_eq h).1⟩

theorem testBit_writeBits {other : Nat} (parent : Logic width) {last first : Nat}
    (h : first ≤ last ∧ last < width) (value : Logic other) (i : Nat) :
    (parent.writeBits last first h value).toNat.testBit i =
      if first ≤ i ∧ i ≤ last then (convert width value).toNat.testBit (i - first)
      else parent.toNat.testBit i :=
  (updateParent_spec parent.length_eq h).2 i

end Logic

end CppHdl.Words
