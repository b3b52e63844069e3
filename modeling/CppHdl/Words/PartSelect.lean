import CppHdl.Words.Arrays
import Mathlib.Data.List.Pairwise

/-!
# The three ways to write a slice back

`updateParent` has a way for parents of one machine word, a way in pieces of up
to 64 bits and, where bytes are not little-endian, a way bit by bit to the next
byte, byte by byte, and bit by bit again. All three put the low bits of the proxy
into the range and keep every other bit of the storage.

The proxy holds a snapshot of its own, so a value that comes from a slice of the
same object is read before anything is written. Assigning a proxy writes twice.
-/

namespace CppHdl.Words

open Logic

/-! ## Bit by bit and byte by byte -/

/-- The parent and the positions a loop has come to. -/
structure Copying where
  parent : List UInt8
  destination : Nat
  source : Nat

section

variable {width : Nat} (proxy : Logic width) (last : Nat)

/-- `parent->set(destination++, this->get(source++))`. -/
def Copying.bit (s : Copying) : Copying :=
  ⟨setBit s.parent s.destination (proxy.get s.source), s.destination + 1, s.source + 1⟩

/-- The bits before the first whole byte. -/
def alignBits (s : Copying) : Copying :=
  if s.destination ≤ last ∧ s.destination % 8 ≠ 0 then alignBits (s.bit proxy) else s
termination_by last + 1 - s.destination
decreasing_by simp only [Copying.bit]; omega

/-- The byte of the proxy that starts at bit `source`. -/
def proxyByte (source : Nat) : UInt8 :=
  let sourceByte := source / 8
  let shift := source % 8
  let low := (proxy.bytes.getD sourceByte 0).toUInt16
  let pair :=
    if shift ≠ 0 ∧ sourceByte + 1 < size width then
      low ||| (proxy.bytes.getD (sourceByte + 1) 0).toUInt16 <<< 8
    else low
  (pair >>> UInt16.ofNat shift).toUInt8

def wholeBytes (s : Copying) : Copying :=
  if s.destination + 7 ≤ last then
    wholeBytes ⟨writeBytes s.parent (s.destination / 8) [proxyByte proxy s.source],
      s.destination + 8, s.source + 8⟩
  else s
termination_by last + 1 - s.destination

/-- The bits behind the last whole byte. -/
def tailBits (s : Copying) : Copying :=
  if s.destination ≤ last then tailBits (s.bit proxy) else s
termination_by last + 1 - s.destination
decreasing_by simp only [Copying.bit]; omega

/-- `updateParent` without little-endian loads. -/
def updateParentBytes (parent : List UInt8) (first : Nat) : List UInt8 :=
  (tailBits proxy last (wholeBytes proxy last (alignBits proxy last ⟨parent, first, 0⟩))).parent

/-- What has been copied: the bits from `first` to the destination. -/
structure Copied (old : List UInt8) (first : Nat) (s : Copying) : Prop where
  length : s.parent.length = old.length
  position : s.destination = first + s.source
  bits : ∀ i, (natOfBytes s.parent).testBit i =
    if first ≤ i ∧ i < s.destination then proxy.toNat.testBit (i - first)
    else (natOfBytes old).testBit i

variable {proxy} {last} {old : List UInt8} {first : Nat} {s : Copying}

theorem Copied.start : Copied proxy old first ⟨old, first, 0⟩ :=
  ⟨rfl, rfl, fun _ => (if_neg fun h => Nat.not_lt.mpr h.1 h.2).symm⟩

theorem Copied.step (h : Copied proxy old first s) {n : Nat} {parent : List UInt8}
    (hlen : parent.length = s.parent.length)
    (hbits : ∀ i, (natOfBytes parent).testBit i =
      if s.destination ≤ i ∧ i < s.destination + n then
        proxy.toNat.testBit (s.source + (i - s.destination))
      else (natOfBytes s.parent).testBit i) :
    Copied proxy old first ⟨parent, s.destination + n, s.source + n⟩ where
  length := hlen.trans h.length
  position := by
    have := h.position
    show s.destination + n = first + (s.source + n)
    omega
  bits i := by
    have := h.position
    rw [hbits, h.bits]
    show _ = if first ≤ i ∧ i < s.destination + n then _ else _
    by_cases hnew : s.destination ≤ i ∧ i < s.destination + n
    · rw [if_pos hnew, if_pos (by omega)]
      congr 1
      omega
    · rw [if_neg hnew]
      by_cases hold : first ≤ i ∧ i < s.destination
      · rw [if_pos hold, if_pos (by omega)]
      · rw [if_neg hold, if_neg (by omega)]

variable (hfit : last < 8 * old.length)

include hfit

theorem Copied.bit (h : Copied proxy old first s) (hle : s.destination ≤ last) :
    Copied proxy old first (s.bit proxy) := by
  have hroom : s.destination < 8 * s.parent.length := by rw [h.length]; omega
  refine h.step (length_setBit hroom _) fun i => (testBit_setBit hroom _ i).trans ?_
  rw [toNat_get, Nat.testBit_bool_toNat]
  by_cases hi : i = s.destination
  · rw [if_pos hi, if_pos (by omega), hi, Nat.sub_self, decide_eq_true rfl, Bool.true_and]
    rfl
  · rw [if_neg hi, if_neg (by omega)]

theorem Copied.alignBits (h : Copied proxy old first s) (hle : s.destination ≤ last + 1) :
    let t := alignBits proxy last s
    Copied proxy old first t ∧ t.destination ≤ last + 1 ∧
      (t.destination ≤ last → t.destination % 8 = 0) := by
  fun_induction Words.alignBits proxy last s with
  | case1 s hmore ih => exact ih (h.bit hfit hmore.1) (Nat.succ_le_succ hmore.1)
  | case2 s hdone =>
      refine ⟨h, hle, fun hin => ?_⟩
      by_contra hpart
      exact hdone ⟨hin, hpart⟩

omit hfit in
theorem testBit_proxyByte (source : Nat) {i : Nat} (hi : i < 8) :
    (proxyByte proxy source).toNat.testBit i = proxy.toNat.testBit (source + i) := by
  have hpair := testBit_pairByte proxy.bytes (source / 8) (Nat.mod_lt source (by decide : 0 < 8)) hi
  rw [Nat.div_add_mod] at hpair
  refine Eq.trans ?_ hpair
  unfold proxyByte pairByte
  dsimp only
  rw [proxy.length_eq]
  by_cases hshift : source % 8 ≠ 0
  · simp only [hshift, ne_eq, not_false_eq_true, true_and]
  · -- an aligned byte does not see its neighbour
    have hzero : source % 8 = 0 := by omega
    have hhigh : ((proxy.bytes.getD (source / 8 + 1) 0).toUInt16 <<< 8).toNat.testBit i = false := by
      rw [show (8 : UInt16) = UInt16.ofNat 8 from rfl, testBit_shiftLeft16 _ (by decide), decide_eq_false (by omega : ¬ 8 ≤ i),
        Bool.false_and, Bool.and_false]
    rw [hzero, if_neg (fun h => h.1 rfl), UInt16.toNat_toUInt8, UInt16.toNat_toUInt8,
      Nat.testBit_mod_two_pow, Nat.testBit_mod_two_pow, testBit_shiftRight16 _ (by decide),
      testBit_shiftRight16 _ (by decide)]
    split_ifs with hnext
    · rw [UInt16.toNat_or, Nat.testBit_lor, Nat.zero_add, hhigh, Bool.or_false]
    · rfl

theorem Copied.wholeBytes (h : Copied proxy old first s) (hle : s.destination ≤ last + 1)
    (halign : s.destination ≤ last → s.destination % 8 = 0) :
    let t := wholeBytes proxy last s
    Copied proxy old first t ∧ t.destination ≤ last + 1 := by
  fun_induction Words.wholeBytes proxy last s with
  | case1 s hmore ih =>
      have hzero := halign (by omega)
      have hroom : s.destination / 8 < s.parent.length := by rw [h.length]; omega
      refine ih (h.step (length_writeBytes hroom) fun i =>
        (testBit_writeByte hroom _ i).trans ?_) (by show s.destination + 8 ≤ last + 1; omega)
        (fun _ => by show (s.destination + 8) % 8 = 0; omega)
      rw [show 8 * (s.destination / 8) = s.destination by omega]
      by_cases hi : s.destination ≤ i ∧ i < s.destination + 8
      · rw [if_pos hi, if_pos hi, testBit_proxyByte _ (by omega)]
      · rw [if_neg hi, if_neg hi]
  | case2 s hdone => exact ⟨h, hle⟩

theorem Copied.tailBits (h : Copied proxy old first s) (hle : s.destination ≤ last + 1) :
    let t := tailBits proxy last s
    Copied proxy old first t ∧ t.destination = last + 1 := by
  fun_induction Words.tailBits proxy last s with
  | case1 s hmore ih => exact ih (h.bit hfit hmore) (Nat.succ_le_succ hmore)
  | case2 s hdone => exact ⟨h, by omega⟩

theorem updateParentBytes_spec (hfirst : first ≤ last) :
    (updateParentBytes proxy last old first).length = old.length ∧
      ∀ i, (natOfBytes (updateParentBytes proxy last old first)).testBit i =
        if first ≤ i ∧ i ≤ last then proxy.toNat.testBit (i - first)
        else (natOfBytes old).testBit i := by
  have hstart : Copied proxy old first ⟨old, first, 0⟩ := Copied.start
  obtain ⟨haligned, hle, hzero⟩ := hstart.alignBits hfit (Nat.le_succ_of_le hfirst)
  obtain ⟨hwhole, hle⟩ := haligned.wholeBytes hfit hle hzero
  obtain ⟨hdone, hend⟩ := hwhole.tailBits hfit hle
  refine ⟨hdone.length, fun i => (hdone.bits i).trans ?_⟩
  rw [hend]
  by_cases hi : first ≤ i ∧ i ≤ last
  · rw [if_pos hi, if_pos (by omega)]
  · rw [if_neg hi, if_neg (by omega)]

end

/-! ## The assignments -/

theorem bytes_ext {a b : List UInt8} (hlen : a.length = b.length)
    (hbits : ∀ i, (natOfBytes a).testBit i = (natOfBytes b).testBit i) : a = b :=
  natOfBytes_inj hlen (Nat.eq_of_testBit_eq hbits)

/-- The number an operand holds: of a vector, all its storage. -/
def Operand.number : Operand → Nat
  | .integer v => v.toNat
  | .vector v => v.toNat
  | .proxy v _ => v.toNat

namespace Logic

variable {width : Nat}

/-- `x.bits(last, first) = v`. A proxy is copied into a vector of its width, and
the inner assignment writes it back before the outer one does. -/
def assignBits (x : Logic width) (last first : Nat) (h : first ≤ last ∧ last < width) :
    Operand → Logic width
  | .integer v => x.writeBits last first h (assignUInt64 width v)
  | .vector v => x.writeBits last first h v
  | @Operand.proxy w v _ =>
      (x.writeBits last first h (assign w v)).writeBits last first h (assign w v)

variable {last first : Nat} (h : first ≤ last ∧ last < width)

theorem testBit_writeBits_of_le (x : Logic width) {other : Nat} (v : Logic other) (i : Nat) :
    (x.writeBits last first h v).toNat.testBit i =
      if first ≤ i ∧ i ≤ last then v.toNat.testBit (i - first) else x.toNat.testBit i := by
  rw [testBit_writeBits]
  split_ifs with hi
  · exact testBit_convert v (by omega)
  · rfl

theorem testBit_assignBits (x : Logic width) (v : Operand) (i : Nat) :
    (x.assignBits last first h v).toNat.testBit i =
      if first ≤ i ∧ i ≤ last then v.number.testBit (i - first) else x.toNat.testBit i := by
  cases v with
  | integer v =>
      refine (testBit_writeBits_of_le h x (assignUInt64 width v) i).trans ?_
      rw [toNat_assignUInt64]
      split_ifs with hi
      · rw [Nat.testBit_mod_two_pow, decide_eq_true (by omega), Bool.true_and]
        rfl
      · rfl
  | vector v => exact testBit_writeBits_of_le h x v i
  | @proxy w v hclean =>
      have hcopy : (assign w v).toNat = v.toNat := by
        rw [toNat_assign]
        exact Nat.mod_eq_of_lt hclean
      refine (testBit_writeBits_of_le h _ (assign w v) i).trans ?_
      rw [testBit_writeBits_of_le h, hcopy]
      split_ifs <;> rfl

/-- A slice of an object is a proxy with nothing above its range. -/
def sliceOperand (x : Logic width) (last first : Nat) (h : first ≤ last ∧ last < width) : Operand :=
  .proxy (x.snapshot last first h) ((toNat_snapshot x last first h).trans_lt (mod_field_lt h))

include h in
/-- All ways of `updateParent` write the same bytes. -/
theorem updateParent_ways (x proxy : Logic width) :
    updateParent width x.bytes proxy.bytes last first =
        writeback proxy.bytes x.bytes first 0 (last - first + 1) ∧
      updateParent width x.bytes proxy.bytes last first =
        updateParentBytes proxy last x.bytes first := by
  have hsize := le_size width
  have hfit : last < 8 * x.bytes.length := by rw [x.length_eq]; omega
  obtain ⟨hlen, hbits⟩ := @updateParent_spec width last first x.bytes proxy.bytes x.length_eq h
  obtain ⟨hlenPieces, hpieces⟩ := @writeback_spec proxy.bytes x.bytes first 0 (last - first + 1)
    (by omega)
  obtain ⟨hlenBytes, hbytes⟩ := @updateParentBytes_spec width proxy last x.bytes first hfit h.1
  refine ⟨bytes_ext (by rw [hlen, hlenPieces, x.length_eq]) fun i => ?_,
    bytes_ext (by rw [hlen, hlenBytes, x.length_eq]) fun i => (hbits i).trans (hbytes i).symm⟩
  rw [hbits, hpieces, Nat.zero_add]
  by_cases hi : first ≤ i ∧ i ≤ last
  · rw [if_pos hi, if_pos (by omega)]
  · rw [if_neg hi, if_neg (by omega)]

/-- Assigning to `bits(last, first)` puts the low bits of the value there and keeps
the rest of the storage, whatever the width, the range and the value are and
whichever way the range is written; a slice of the object itself is taken as it
was before. -/
theorem partSelect_exact (x : Logic width) :
    (∀ (v : Operand) (i : Nat), (x.assignBits last first h v).toNat.testBit i =
        if first ≤ i ∧ i ≤ last then v.number.testBit (i - first) else x.toNat.testBit i) ∧
      (∀ (last' first' : Nat) (h' : first' ≤ last' ∧ last' < width) (i : Nat),
        (x.assignBits last first h (x.sliceOperand last' first' h')).toNat.testBit i =
          if first ≤ i ∧ i ≤ last then
            decide (first' + (i - first) ≤ last') && x.toNat.testBit (first' + (i - first))
          else x.toNat.testBit i) ∧
      ∀ proxy : Logic width,
        updateParent width x.bytes proxy.bytes last first =
            writeback proxy.bytes x.bytes first 0 (last - first + 1) ∧
          updateParent width x.bytes proxy.bytes last first =
            updateParentBytes proxy last x.bytes first := by
  refine ⟨testBit_assignBits h x, fun last' first' h' i => ?_, updateParent_ways h x⟩
  rw [testBit_assignBits h]
  split_ifs with hi
  · change (x.snapshot last' first' h').toNat.testBit _ = _
    rw [toNat_snapshot, Nat.testBit_mod_two_pow, Nat.testBit_div_two_pow, Nat.add_comm first']
    congr 1
    exact decide_eq_decide.mpr (by omega)
  · rfl

/-- Ten bits across two words, taken from the low bits of the same vector. -/
theorem partSelect_exact_overlap :
    ((ofNat 70 1023).assignBits 66 57 (by decide)
      ((ofNat 70 1023).sliceOperand 9 0 (by decide))).toNat.testBit 66 = true := by
  rw [(partSelect_exact (by decide) (ofNat 70 1023)).2.1]
  decide +kernel

end Logic

/-! ## Writes to different slices -/

/-- A write `bits(last, first) = value`. -/
structure SliceWrite (width : Nat) where
  last : Nat
  first : Nat
  value : Operand
  inside : first ≤ last ∧ last < width

namespace SliceWrite

variable {width : Nat}

def write (x : Logic width) (w : SliceWrite width) : Logic width :=
  x.assignBits w.last w.first w.inside w.value

def Apart (v w : SliceWrite width) : Prop := v.last < w.first ∨ w.last < v.first

theorem write_comm {v w : SliceWrite width} (h : v.Apart w) (x : Logic width) :
    write (write x v) w = write (write x w) v := by
  refine Logic.toNat_inj (Nat.eq_of_testBit_eq fun i => ?_)
  unfold write
  rw [Logic.testBit_assignBits, Logic.testBit_assignBits, Logic.testBit_assignBits,
    Logic.testBit_assignBits]
  unfold Apart at h
  by_cases hv : v.first ≤ i ∧ i ≤ v.last
  · rw [if_neg (by omega), if_pos hv, if_pos hv]
  · rw [if_neg hv, if_neg hv]

/-- Writes to slices that are apart can be made in any order. -/
theorem writes_perm {ws ws' : List (SliceWrite width)} (hperm : ws.Perm ws')
    (hapart : ws.Pairwise Apart) (x : Logic width) : ws.foldl write x = ws'.foldl write x := by
  refine hperm.foldl_eq' (fun v hv w hw x => ?_) x
  have hsymm : Std.Symm fun v w : SliceWrite width => ∀ x, write (write x v) w = write (write x w) v :=
    ⟨fun v w h x => (h x).symm⟩
  exact List.Pairwise.forall_of_forall (fun v _ x => rfl) (hapart.imp write_comm) hv hw x

theorem writes_perm_two :
    let ws : List (SliceWrite 70) := [⟨66, 57, .integer 5, by decide⟩, ⟨3, 0, .integer 9, by decide⟩]
    ws.foldl write (Logic.ofNat 70 7) = ws.reverse.foldl write (Logic.ofNat 70 7) :=
  writes_perm (List.reverse_perm _).symm (by simp [Apart]) _

end SliceWrite

end CppHdl.Words
