import CppHdl.Lib.Queue
import Mathlib.Data.BitVec

/-!
# A FIFO between two clocks

`Fifo2clk` has 16 words of 8 bits and pointers of five bits. Each side knows the
other's pointer as a Gray code through two registers. An edge of either clock is
a step, and so are two at once.

The counts of words written and read since reset explain the pointers: what a
side knows of the other is an earlier count, so full and empty are safe.
-/

namespace CppHdl.Cdc

/-- `x ^ (x >> 1)`. -/
def gray (x : BitVec 5) : BitVec 5 := x ^^^ (x >>> 1)

structure Fifo2clk where
  dataMem : Nat → BitVec 8
  writeBin : BitVec 5
  writeGray : BitVec 5
  readGrayWrite1 : BitVec 5
  readGrayWrite2 : BitVec 5
  readBin : BitVec 5
  readGray : BitVec 5
  writeGrayRead1 : BitVec 5
  writeGrayRead2 : BitVec 5

namespace Fifo2clk

section

variable (s : Fifo2clk)

def writeReadyComb : Bool := s.writeGray != s.readGrayWrite2 ^^^ 24#5

def readValidComb : Bool := s.readGray != s.writeGrayRead2

def readDataComb : BitVec 8 := s.dataMem (s.readBin.toNat % 16)

/-- `_work_write_clk` on the registers `n`. -/
def workWriteClk (reset writeValidIn : Bool) (writeDataIn : BitVec 8) (n : Fifo2clk) : Fifo2clk :=
  let accepted := writeValidIn && s.writeReadyComb
  { n with
    dataMem := if accepted then Function.update n.dataMem (s.writeBin.toNat % 16) writeDataIn
      else n.dataMem
    readGrayWrite1 := if reset then 0 else s.readGray
    readGrayWrite2 := if reset then 0 else s.readGrayWrite1
    writeBin := if reset then 0 else if accepted then s.writeBin + 1 else n.writeBin
    writeGray := if reset then 0 else if accepted then gray (s.writeBin + 1) else n.writeGray }

/-- `_work_read_clk` on the registers `n`. -/
def workReadClk (reset readReadyIn : Bool) (n : Fifo2clk) : Fifo2clk :=
  let accepted := readReadyIn && s.readValidComb
  { n with
    writeGrayRead1 := if reset then 0 else s.writeGray
    writeGrayRead2 := if reset then 0 else s.writeGrayRead1
    readBin := if reset then 0 else if accepted then s.readBin + 1 else n.readBin
    readGray := if reset then 0 else if accepted then gray (s.readBin + 1) else n.readGray }

end

/-! ## Edges -/

/-- An edge of the write clock with its inputs, of the read clock, or of both. -/
inductive Edge
  | write (valid : Bool) (data : BitVec 8)
  | read (ready : Bool)
  | both (valid : Bool) (data : BitVec 8) (ready : Bool)

def clock (s : Fifo2clk) : Edge → Fifo2clk
  | .write valid data => s.workWriteClk false valid data s
  | .read ready => s.workReadClk false ready s
  | .both valid data ready => s.workReadClk false ready (s.workWriteClk false valid data s)

/-- What an edge takes in and gives out. -/
def transfer (s : Fifo2clk) : Edge → Transfer (BitVec 8)
  | .write valid data => ⟨false, if valid && s.writeReadyComb then some data else none, none⟩
  | .read ready => ⟨false, none, if ready && s.readValidComb then some s.readDataComb else none⟩
  | .both valid data ready => ⟨false, if valid && s.writeReadyComb then some data else none,
      if ready && s.readValidComb then some s.readDataComb else none⟩

/-- After the resets of both sides. -/
structure Cleared (s : Fifo2clk) : Prop where
  writeBin : s.writeBin = 0
  writeGray : s.writeGray = 0
  readGrayWrite1 : s.readGrayWrite1 = 0
  readGrayWrite2 : s.readGrayWrite2 = 0
  readBin : s.readBin = 0
  readGray : s.readGray = 0
  writeGrayRead1 : s.writeGrayRead1 = 0
  writeGrayRead2 : s.writeGrayRead2 = 0

/-- Edge by edge; the events are the transfers. -/
def system : Transitions Fifo2clk (Transfer (BitVec 8)) where
  init := Cleared
  step s e s' := ∃ edge, e = some (s.transfer edge) ∧ s' = s.clock edge

/-! ## Counts -/

/-- The words in the FIFO, oldest first. -/
def held (s : Fifo2clk) : List (BitVec 8) :=
  ring 16 s.dataMem (s.readBin.toNat % 16) (s.writeBin - s.readBin).toNat

/-- The pointers are the counts of words written and read; the read side knows the
earlier counts `w₁` and `w₂`, the write side `r₁` and `r₂`. -/
structure Counts (s : Fifo2clk) (w w₁ w₂ r r₁ r₂ : Nat) : Prop where
  writeBin : s.writeBin = BitVec.ofNat 5 w
  writeGray : s.writeGray = gray (BitVec.ofNat 5 w)
  readGrayWrite1 : s.readGrayWrite1 = gray (BitVec.ofNat 5 r₁)
  readGrayWrite2 : s.readGrayWrite2 = gray (BitVec.ofNat 5 r₂)
  readBin : s.readBin = BitVec.ofNat 5 r
  readGray : s.readGray = gray (BitVec.ofNat 5 r)
  writeGrayRead1 : s.writeGrayRead1 = gray (BitVec.ofNat 5 w₁)
  writeGrayRead2 : s.writeGrayRead2 = gray (BitVec.ofNat 5 w₂)
  written : w₂ ≤ w₁ ∧ w₁ ≤ w
  read : r₂ ≤ r₁ ∧ r₁ ≤ r
  behind : r ≤ w₂
  room : w ≤ r₂ + 16

def Inv (s : Fifo2clk) : Prop := ∃ w w₁ w₂ r r₁ r₂, s.Counts w w₁ w₂ r r₁ r₂

theorem gray_inj : ∀ x y : BitVec 5, gray x = gray y → x = y := by
  decide +kernel

/-- Sixteen words ahead, the two high bits of the code are the other way. -/
theorem gray_full : ∀ x : BitVec 5, gray (x + 16#5) = gray x ^^^ 24#5 := by
  decide +kernel

theorem gray_ofNat_eq_iff {m n : Nat} :
    gray (BitVec.ofNat 5 m) = gray (BitVec.ofNat 5 n) ↔ m % 32 = n % 32 := by
  constructor
  · intro h
    have := congrArg BitVec.toNat (gray_inj _ _ h)
    simpa using this
  · intro h
    congr 1
    apply BitVec.eq_of_toNat_eq
    simpa using h

section

variable {s : Fifo2clk} {w w₁ w₂ r r₁ r₂ : Nat} (h : s.Counts w w₁ w₂ r r₁ r₂)
include h

theorem Counts.writeReady : s.writeReadyComb = true ↔ w < r₂ + 16 := by
  have hroom := h.room
  have hwritten := h.written
  have hread := h.read
  have hbehind := h.behind
  have hfull : s.writeGray = s.readGrayWrite2 ^^^ 24#5 ↔ w % 32 = (r₂ + 16) % 32 := by
    rw [h.writeGray, h.readGrayWrite2, ← gray_full, ← gray_ofNat_eq_iff, BitVec.ofNat_add]
  unfold writeReadyComb
  rw [bne_iff_ne, ne_eq, hfull]
  omega

theorem Counts.readValid : s.readValidComb = true ↔ r < w₂ := by
  have hroom := h.room
  have hwritten := h.written
  have hread := h.read
  have hbehind := h.behind
  unfold readValidComb
  rw [bne_iff_ne, ne_eq, h.readGray, h.writeGrayRead2, gray_ofNat_eq_iff]
  omega

theorem Counts.length : s.held.length = w - r := by
  have hroom := h.room
  have hwritten := h.written
  have hread := h.read
  have hbehind := h.behind
  unfold held
  rw [length_ring, h.writeBin, h.readBin, BitVec.toNat_sub, BitVec.toNat_ofNat, BitVec.toNat_ofNat]
  omega

/-- The counts after an edge: `push` and `pop` say what it moves, `back` and
`forth` which synchronisers it clocks. -/
theorem Counts.step {push pop back forth : Bool} {s' : Fifo2clk}
    (hpush : push = true → w < r₂ + 16) (hpop : pop = true → r < w₂)
    (hwriteBin : s'.writeBin = if push then s.writeBin + 1 else s.writeBin)
    (hwriteGray : s'.writeGray = if push then gray (s.writeBin + 1) else s.writeGray)
    (hback₁ : s'.readGrayWrite1 = if back then s.readGray else s.readGrayWrite1)
    (hback₂ : s'.readGrayWrite2 = if back then s.readGrayWrite1 else s.readGrayWrite2)
    (hreadBin : s'.readBin = if pop then s.readBin + 1 else s.readBin)
    (hreadGray : s'.readGray = if pop then gray (s.readBin + 1) else s.readGray)
    (hforth₁ : s'.writeGrayRead1 = if forth then s.writeGray else s.writeGrayRead1)
    (hforth₂ : s'.writeGrayRead2 = if forth then s.writeGrayRead1 else s.writeGrayRead2) :
    s'.Counts (w + push.toNat) (if forth then w else w₁) (if forth then w₁ else w₂)
      (r + pop.toNat) (if back then r else r₁) (if back then r₁ else r₂) := by
  obtain ⟨hw₂, hw₁⟩ := h.written
  obtain ⟨hr₂, hr₁⟩ := h.read
  have hbehind := h.behind
  have hroom := h.room
  have hwrite : s'.writeBin = BitVec.ofNat 5 (w + push.toNat) ∧
      s'.writeGray = gray (BitVec.ofNat 5 (w + push.toNat)) := by
    rw [hwriteBin, hwriteGray, h.writeBin, h.writeGray]
    cases push with
    | false => exact ⟨rfl, rfl⟩
    | true => exact ⟨(BitVec.ofNat_add _ _).symm, congrArg gray (BitVec.ofNat_add _ _).symm⟩
  have hread : s'.readBin = BitVec.ofNat 5 (r + pop.toNat) ∧
      s'.readGray = gray (BitVec.ofNat 5 (r + pop.toNat)) := by
    rw [hreadBin, hreadGray, h.readBin, h.readGray]
    cases pop with
    | false => exact ⟨rfl, rfl⟩
    | true => exact ⟨(BitVec.ofNat_add _ _).symm, congrArg gray (BitVec.ofNat_add _ _).symm⟩
  have hpushed : w + push.toNat ≤ r₂ + 16 := by
    cases push with
    | false => exact hroom
    | true => exact hpush rfl
  have hpopped : r + pop.toNat ≤ w₂ := by
    cases pop with
    | false => exact hbehind
    | true => exact hpop rfl
  exact {
    writeBin := hwrite.1
    writeGray := hwrite.2
    readBin := hread.1
    readGray := hread.2
    readGrayWrite1 := by
      rw [hback₁, h.readGray, h.readGrayWrite1]
      cases back with
      | false => rfl
      | true => rfl
    readGrayWrite2 := by
      rw [hback₂, h.readGrayWrite1, h.readGrayWrite2]
      cases back with
      | false => rfl
      | true => rfl
    writeGrayRead1 := by
      rw [hforth₁, h.writeGray, h.writeGrayRead1]
      cases forth with
      | false => rfl
      | true => rfl
    writeGrayRead2 := by
      rw [hforth₂, h.writeGrayRead1, h.writeGrayRead2]
      cases forth with
      | false => rfl
      | true => rfl
    written := by split_ifs <;> omega
    read := by split_ifs <;> omega
    behind := by split_ifs <;> omega
    room := by split_ifs <;> omega }

/-- What an edge does to the words, from what it does to the registers. -/
theorem Counts.held_step {push pop : Bool} {x : BitVec 8} {s' : Fifo2clk}
    {v₁ v₂ q₁ q₂ : Nat} (h' : s'.Counts (w + push.toNat) v₁ v₂ (r + pop.toNat) q₁ q₂)
    (hpush : push = true → w < r₂ + 16) (hpop : pop = true → r < w₂)
    (hmem : s'.dataMem = if push then Function.update s.dataMem (s.writeBin.toNat % 16) x
      else s.dataMem) :
    s.held ++ (if push then some x else none).toList =
      (if pop then some s.readDataComb else none).toList ++ s'.held := by
  obtain ⟨hw₂, hw₁⟩ := h.written
  obtain ⟨hr₂, hr₁⟩ := h.read
  have hbehind := h.behind
  have hroom := h.room
  have hlength := h.length
  have hlength' := h'.length
  unfold held at hlength hlength' ⊢
  rw [length_ring] at hlength hlength'
  have hhead : s.readBin.toNat % 16 = r % 16 := by
    rw [h.readBin, BitVec.toNat_ofNat]
    omega
  have hhead' : s'.readBin.toNat % 16 = if pop then (r % 16 + 1) % 16 else r % 16 := by
    rw [h'.readBin, BitVec.toNat_ofNat]
    cases pop with
    | false =>
        rw [if_neg Bool.false_ne_true, Bool.toNat_false]
        omega
    | true =>
        rw [if_pos rfl, Bool.toNat_true]
        omega
  have htail : s.writeBin.toNat % 16 = (r % 16 + (w - r)) % 16 := by
    rw [h.writeBin, BitVec.toNat_ofNat]
    omega
  have hcount : w + push.toNat - (r + pop.toNat) = w - r - pop.toNat + push.toNat := by
    cases pop with
    | false =>
        rw [Bool.toNat_false]
        omega
    | true =>
        have := hpop rfl
        rw [Bool.toNat_true]
        omega
  rw [hlength, hlength', hhead, hhead', hmem, htail, hcount, readDataComb, hhead]
  have hnonempty : pop = true → 0 < w - r := fun hp => by
    have := hpop hp
    omega
  have hfits : push = true → w - r < 16 + pop.toNat := fun hp => by
    have := hpush hp
    omega
  have key := @ring_step _ 16 s.dataMem (r % 16) (w - r) pop push hnonempty hfits x
  rwa [Nat.mod_mod] at key

/-- The word that is shown is the oldest. -/
theorem Counts.front (hvalid : s.readValidComb = true) : ∃ rest, s.held = s.readDataComb :: rest := by
  obtain ⟨hw₂, hw₁⟩ := h.written
  have hlt := h.readValid.mp hvalid
  have hlength := h.length
  unfold held at hlength ⊢
  rw [length_ring] at hlength
  obtain ⟨n, hn⟩ : ∃ n, w - r = n + 1 := ⟨w - r - 1, by omega⟩
  refine ⟨ring 16 s.dataMem ((s.readBin.toNat % 16 + 1) % 16) n, ?_⟩
  rw [hlength, hn, ring_pop, Nat.mod_mod]
  rfl

end

/-! ## Runs -/

theorem inv_init {s : Fifo2clk} (h : s.Cleared) : s.Inv ∧ s.held = [] := by
  refine ⟨⟨0, 0, 0, 0, 0, 0, ?_⟩, ?_⟩
  · exact ⟨h.writeBin, h.writeGray, h.readGrayWrite1, h.readGrayWrite2, h.readBin, h.readGray,
      h.writeGrayRead1, h.writeGrayRead2, ⟨Nat.le_refl _, Nat.le_refl _⟩,
      ⟨Nat.le_refl _, Nat.le_refl _⟩, Nat.le_refl _, by decide⟩
  · unfold held
    rw [h.writeBin, h.readBin]
    rfl

theorem Inv.step {s : Fifo2clk} (h : s.Inv) (edge : Edge) :
    (s.clock edge).Inv ∧ (s.transfer edge).Moves s.held (s.clock edge).held := by
  obtain ⟨w, w₁, w₂, r, r₁, r₂, h⟩ := h
  have hpush : ∀ valid, (valid && s.writeReadyComb) = true → w < r₂ + 16 := fun valid hv =>
    h.writeReady.mp (Bool.and_eq_true_iff.mp hv).2
  have hpop : ∀ ready, (ready && s.readValidComb) = true → r < w₂ := fun ready hr =>
    h.readValid.mp (Bool.and_eq_true_iff.mp hr).2
  cases edge with
  | write valid data =>
      have h' : (s.clock (.write valid data)).Counts _ _ _ _ _ _ :=
        @Counts.step s w w₁ w₂ r r₁ r₂ h (valid && s.writeReadyComb) false true false _ (hpush valid)
          nofun rfl rfl rfl rfl rfl rfl rfl rfl
      refine ⟨⟨_, _, _, _, _, _, h'⟩, (Transfer.moves_step rfl).mpr ?_⟩
      exact h.held_step h' (hpush valid) nofun rfl
  | read ready =>
      have h' : (s.clock (.read ready)).Counts _ _ _ _ _ _ :=
        @Counts.step s w w₁ w₂ r r₁ r₂ h false (ready && s.readValidComb) false true _ nofun
          (hpop ready) rfl rfl rfl rfl rfl rfl rfl rfl
      refine ⟨⟨_, _, _, _, _, _, h'⟩, (Transfer.moves_step rfl).mpr ?_⟩
      exact @Counts.held_step s w w₁ w₂ r r₁ r₂ h false (ready && s.readValidComb) 0 _ _ _ _ _ h'
        nofun (hpop ready) rfl
  | both valid data ready =>
      have h' : (s.clock (.both valid data ready)).Counts _ _ _ _ _ _ :=
        @Counts.step s w w₁ w₂ r r₁ r₂ h (valid && s.writeReadyComb) (ready && s.readValidComb)
          true true _ (hpush valid) (hpop ready) rfl rfl rfl rfl rfl rfl rfl rfl
      refine ⟨⟨_, _, _, _, _, _, h'⟩, (Transfer.moves_step rfl).mpr ?_⟩
      exact h.held_step h' (hpush valid) (hpop ready) rfl

theorem system_step (s : Fifo2clk) (e : Option (Transfer (BitVec 8))) (s' : Fifo2clk)
    (h : s.Inv) (hstep : system.step s e s') :
    s'.Inv ∧ ∃ x, e = some x ∧ (id x).Moves s.held s'.held := by
  obtain ⟨edge, rfl, rfl⟩ := hstep
  exact ⟨(h.step edge).1, _, rfl, (h.step edge).2⟩

theorem traces_clock {es : List (Transfer (BitVec 8))} {s : Fifo2clk} (h : system.Traces es s)
    (edge : Edge) : system.Traces (es ++ [s.transfer edge]) (s.clock edge) := by
  obtain ⟨s₀, hinit, hrun⟩ := h
  exact ⟨s₀, hinit, hrun.shows ⟨edge, rfl, rfl⟩⟩

theorem popped_eq {s : Fifo2clk} {edge : Edge} {x : BitVec 8}
    (h : (s.transfer edge).popped = some x) : s.readValidComb = true ∧ x = s.readDataComb := by
  have key : ∀ ready : Bool, (if ready && s.readValidComb then some s.readDataComb else none) =
      some x → s.readValidComb = true ∧ x = s.readDataComb := fun ready hx => by
    split_ifs at hx with hr
    exact ⟨(Bool.and_eq_true_iff.mp hr).2, (Option.some.inj hx).symm⟩
  cases edge with
  | write valid data => cases h
  | read ready => exact key ready h
  | both valid data ready => exact key ready h

theorem pushed_ready {s : Fifo2clk} {edge : Edge} (h : (s.transfer edge).pushed.isSome = true) :
    s.writeReadyComb = true := by
  have key : ∀ (valid : Bool) (data : BitVec 8),
      (if valid && s.writeReadyComb then some data else none).isSome = true →
        s.writeReadyComb = true := fun valid data hx => by
    split_ifs at hx with hv
    · exact (Bool.and_eq_true_iff.mp hv).2
    · cases hx
  cases edge with
  | write valid data => exact key valid data h
  | read ready => cases h
  | both valid data ready => exact key valid data h

/-- In every order of edges: the words read are the words written, in order, and
those held, at most 16. No word is read that is not held, and none is written to
a FIFO of 16. -/
theorem fifo2clk_is_queue {es : List (Transfer (BitVec 8))} {s : Fifo2clk}
    (h : system.Traces es s) :
    (Transfer.log es).1 = (Transfer.log es).2 ++ s.held ∧ s.held.length ≤ 16 ∧
      ∀ edge, (∀ x, (s.transfer edge).popped = some x → ∃ rest, s.held = x :: rest) ∧
        ((s.transfer edge).pushed.isSome = true → s.held.length < 16) := by
  obtain ⟨hinv, hlog⟩ := Transitions.log_eq (fun s hs => inv_init hs) system_step h
  rw [List.map_id] at hlog
  obtain ⟨w, w₁, w₂, r, r₁, r₂, hcounts⟩ := hinv
  have hlength := hcounts.length
  obtain ⟨hr₂, hr₁⟩ := hcounts.read
  have hroom := hcounts.room
  refine ⟨hlog, by omega, fun edge => ⟨fun x hx => ?_, fun hpush => ?_⟩⟩
  · obtain ⟨hvalid, rfl⟩ := popped_eq hx
    exact hcounts.front hvalid
  · have := hcounts.writeReady.mp (pushed_ready hpush)
    omega

/-- A word goes in, and two edges of the read clock later it is shown. -/
theorem fifo2clk_is_queue_one :
    let s : Fifo2clk := ⟨fun _ => 0, 0, 0, 0, 0, 0, 0, 0, 0⟩
    let s₃ := ((s.clock (.write true 7#8)).clock (.read true)).clock (.both false 0 true)
    (s₃.transfer (.read true)).popped = some 7#8 ∧ [7#8] = [] ++ s₃.held := by
  intro s s₃
  have hstart : system.Traces [] s := ⟨s, ⟨rfl, rfl, rfl, rfl, rfl, rfl, rfl, rfl⟩, .refl s⟩
  have hrun := traces_clock (traces_clock (traces_clock hstart (.write true 7#8)) (.read true))
    (.both false 0 true)
  have hqueue := (fifo2clk_is_queue hrun).1
  exact ⟨by decide +kernel, (by decide +kernel : [7#8] = _).trans
    (hqueue.trans (congrArg (· ++ s₃.held) (by decide +kernel : _ = [])))⟩

end Fifo2clk

end CppHdl.Cdc
