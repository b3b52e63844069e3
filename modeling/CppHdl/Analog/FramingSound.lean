import CppHdl.Analog.FramingStep

/-!
# The framing of whole streams

The outputs of the decoder over any frames are the bytes that are decided for their symbols.
-/

namespace CppHdl.Analog

open ShiftRegister

/-! ## The times of symbols -/

theorem symbolsOf_cons (clock : DecoderInputs) (clocks : List DecoderInputs) :
    symbolsOf (clock :: clocks) =
      if clock.advanceIn then clock :: symbolsOf clocks else symbolsOf clocks := by
  unfold symbolsOf
  rw [List.filter_cons]

theorem timesOf_cons (time : Nat) (clock : DecoderInputs) (clocks : List DecoderInputs) :
    timesOf time (clock :: clocks) =
      if clock.advanceIn then time :: timesOf (time + 1) clocks else timesOf (time + 1) clocks := by
  unfold timesOf
  rw [List.zipIdx_cons, List.filter_cons]
  split <;> rfl

/-- A symbol is no earlier than the symbols before it allow, and in one of the clocks. -/
theorem timesOf_bounds (time : Nat) (clocks : List DecoderInputs) {i : Nat}
    (hi : i < (symbolsOf clocks).length) : time + i ≤ (timesOf time clocks).getD i 0 ∧
      (timesOf time clocks).getD i 0 < time + clocks.length := by
  induction clocks generalizing time i with
  | nil => simp [symbolsOf] at hi
  | cons clock clocks ih =>
    rw [timesOf_cons, List.length_cons]
    rw [symbolsOf_cons] at hi
    split at hi
    · rename_i hadvance
      rw [if_pos hadvance]
      cases i with
      | zero => simp
      | succ i =>
        rw [List.getD_cons_succ]
        have h := ih (time + 1) (Nat.lt_of_succ_lt_succ hi)
        omega
    · rename_i hadvance
      rw [if_neg hadvance]
      have h := ih (time + 1) hi
      omega

theorem timesOf_strictMono (time : Nat) (clocks : List DecoderInputs) {i j : Nat} (hij : i < j)
    (hj : j < (symbolsOf clocks).length) :
    (timesOf time clocks).getD i 0 < (timesOf time clocks).getD j 0 := by
  induction clocks generalizing time i j with
  | nil => simp [symbolsOf] at hj
  | cons clock clocks ih =>
    rw [timesOf_cons]
    rw [symbolsOf_cons] at hj
    split at hj
    · rename_i hadvance
      rw [if_pos hadvance]
      obtain ⟨j, rfl⟩ : ∃ m, j = m + 1 := ⟨j - 1, by omega⟩
      rw [List.getD_cons_succ]
      cases i with
      | zero =>
        have h := timesOf_bounds (time + 1) clocks (Nat.lt_of_succ_lt_succ hj)
        rw [List.getD_cons_zero]
        omega
      | succ i => exact ih (time + 1) (by omega) (Nat.lt_of_succ_lt_succ hj)
    · rename_i hadvance
      rw [if_neg hadvance]
      exact ih (time + 1) hij hj

namespace Frame

variable (time : Nat) (clocks : List DecoderInputs)

theorem le_emission {k : Nat} (hk : k < (symbolsOf clocks).length) :
    time + DEPTH + k ≤ emission (timesOf time clocks) (symbolsOf clocks).length k := by
  have hdepth : DEPTH = 32 := rfl
  have h := timesOf_bounds time clocks (i := min (k + (DEPTH - 1)) ((symbolsOf clocks).length - 1))
    (by omega)
  unfold emission
  omega

theorem emission_lt {k : Nat} (hk : k < (symbolsOf clocks).length) :
    emission (timesOf time clocks) (symbolsOf clocks).length k < time + clocks.length + DEPTH := by
  have hdepth : DEPTH = 32 := rfl
  have h := timesOf_bounds time clocks (i := min (k + (DEPTH - 1)) ((symbolsOf clocks).length - 1))
    (by omega)
  unfold emission
  omega

theorem emission_strictMono {k l : Nat} (hkl : k < l) (hl : l < (symbolsOf clocks).length) :
    emission (timesOf time clocks) (symbolsOf clocks).length k <
      emission (timesOf time clocks) (symbolsOf clocks).length l := by
  have hdepth : DEPTH = 32 := rfl
  unfold emission
  by_cases hlast : min (k + (DEPTH - 1)) ((symbolsOf clocks).length - 1) =
      min (l + (DEPTH - 1)) ((symbolsOf clocks).length - 1)
  · rw [hlast]
    omega
  · have h := timesOf_strictMono time clocks
      (i := min (k + (DEPTH - 1)) ((symbolsOf clocks).length - 1))
      (j := min (l + (DEPTH - 1)) ((symbolsOf clocks).length - 1)) (by omega) (by omega)
    omega

end Frame

namespace TrellisDecoder

variable {π : Type} (T : Trellis π)

theorem mem_schedule_cons (time : Nat) (frame : Frame) (frames : List Frame)
    (entry : Nat × BitVec 8) : entry ∈ schedule T time (frame :: frames) ↔
      (∃ k, k < frame.symbols.length ∧
        Frame.emission (timesOf (time + 1) frame.clocks) frame.symbols.length k = entry.1 ∧
        decided T frame.symbols k = entry.2) ∨
      entry ∈ schedule T (time + frame.all.length) frames := by
  rw [schedule, List.mem_append, List.mem_map]
  simp only [List.mem_range, Prod.ext_iff]

theorem le_of_mem_schedule {time : Nat} {frames : List Frame} {entry : Nat × BitVec 8}
    (h : entry ∈ schedule T time frames) : time + 1 + DEPTH ≤ entry.1 := by
  induction frames generalizing time with
  | nil => simp [schedule] at h
  | cons frame frames ih =>
    rw [mem_schedule_cons] at h
    rcases h with ⟨k, hk, htime, -⟩ | h
    · have hle := Frame.le_emission (time + 1) frame.clocks hk
      unfold Frame.symbols at htime
      omega
    · have hle := ih h
      omega

/-- The bytes go out one at a time and in order. -/
theorem schedule_pairwise (time : Nat) (frames : List Frame) :
    ((schedule T time frames).map (·.1)).Pairwise (· < ·) := by
  induction frames generalizing time with
  | nil => exact List.Pairwise.nil
  | cons frame frames ih =>
    rw [schedule, List.map_append, List.pairwise_append, List.map_map]
    refine ⟨?_, ih _, ?_⟩
    · rw [List.pairwise_map]
      refine List.pairwise_lt_range.imp_of_mem ?_
      intro k l _ hl hkl
      exact Frame.emission_strictMono _ _ hkl (List.mem_range.mp hl)
    · intro first hfirst second hsecond
      obtain ⟨k, hk, rfl⟩ := List.mem_map.mp hfirst
      obtain ⟨entry, hentry, rfl⟩ := List.mem_map.mp hsecond
      have hlt := Frame.emission_lt (time + 1) frame.clocks (List.mem_range.mp hk)
      have hle := le_of_mem_schedule T hentry
      have hlength : frame.all.length = frame.clocks.length + 1 := rfl
      change Frame.emission _ (symbolsOf frame.clocks).length k < entry.1
      omega

/-! ## The survivors of the registers -/

theorem decode_concat (symbols : List DecoderInputs) (symbol : DecoderInputs) :
    decode T (symbols ++ [symbol]) =
      ((T.select symbol (decode T symbols).1).path, fun destination =>
        (T.select symbol (decode T symbols).1).winningByte destination ::
          (decode T symbols).2 (predecessor destination
            ((T.select symbol (decode T symbols).1).winner destination))) := by
  unfold decode
  rw [List.foldl_append, List.foldl_cons, List.foldl_nil]

/-- Every byte along a path is the byte that was selected in the step of its symbol. -/
theorem decode_getD (symbols : List DecoderInputs) (state : Fin 8) {k : Nat}
    (hk : k < symbols.length) :
    ∃ destination, ((decode T symbols).2 state).getD (symbols.length - 1 - k) 0 =
      (T.select symbols[k] (decode T (symbols.take k)).1).winningByte destination := by
  induction symbols using List.reverseRecOn generalizing state with
  | nil => simp at hk
  | append_singleton symbols symbol ih =>
    rw [decode_concat]
    rw [List.length_append, List.length_singleton] at hk ⊢
    by_cases hlast : k = symbols.length
    · subst hlast
      refine ⟨state, ?_⟩
      rw [show symbols.length + 1 - 1 - symbols.length = 0 by omega, List.getD_cons_zero,
        List.take_left, List.getElem_concat_length]
      rfl
    · have hlt : k < symbols.length := by omega
      have hindex : symbols.length + 1 - 1 - k = symbols.length - 1 - k + 1 := by omega
      rw [hindex, List.getD_cons_succ, List.getElem_append_left hlt,
        List.take_append_of_le_length hlt.le]
      exact ih _ hlt

theorem decided_eq (symbols : List DecoderInputs) {k : Nat} (hk : k < symbols.length) :
    ∃ destination, decided T symbols k =
      (T.select symbols[k] (decode T (symbols.take k)).1).winningByte destination := by
  have hdepth : DEPTH = 32 := rfl
  unfold decided
  by_cases hlong : k + DEPTH < symbols.length
  · rw [if_pos hlong]
    have hlength : (symbols.take (k + DEPTH)).length = k + DEPTH := by
      rw [List.length_take]
      omega
    obtain ⟨destination, h⟩ := decode_getD T (symbols.take (k + DEPTH))
      (T.best (decode T (symbols.take (k + DEPTH))).1) (k := k) (by omega)
    refine ⟨destination, ?_⟩
    have hindex : (symbols.take (k + DEPTH)).length - 1 - k = DEPTH - 1 := by omega
    rw [hindex, List.getElem_take, List.take_take, min_eq_left (by omega)] at h
    exact h
  · rw [if_neg hlong]
    exact decode_getD T symbols 0 hk

/-- The registers after the symbols of a frame. -/
structure Tracks (s : TrellisDecoder π) (symbols : List DecoderInputs) : Prop where
  clean : s.decisions.Clean
  paths : s.paths = (decode T symbols).1
  followed : ∀ state, s.decisions.followed state = load ((decode T symbols).2 state)
  count : s.decisions.count = min symbols.length DEPTH
  pending : s.decisions.pendingAdvance = true →
    symbols ≠ [] ∧ s.decisions.pendingCount = min (symbols.length - 1) DEPTH

structure Open (s : TrellisDecoder π) (symbols : List DecoderInputs) : Prop
    extends Tracks T s symbols where
  left : s.decisions.drainLeft ≤ DEPTH - 1 - min symbols.length DEPTH
  running : ¬s.decisions.Ending

/-- What goes out after `j` more clocks for what the registers hold. -/
def coming (s : TrellisDecoder π) (j : Nat) : Option (BitVec 8) :=
  s.decisions.coming (T.best s.paths) j

def Enabled (clock : DecoderInputs) : Prop := clock.reset = false ∧ clock.symbolEnableIn = true

section

variable {s : TrellisDecoder π} {clock : DecoderInputs} (henabled : Enabled clock)

include henabled

theorem output_work (h : s.decisions.Clean) : (s.work T clock).output = s.coming T 0 :=
  h.output_work clock (s.choices T clock) henabled.1 henabled.2

theorem draining_work (h : s.decisions.Clean) (j : Nat) :
    (s.work T clock).decisions.draining j = s.coming T (j + 1) :=
  h.draining_work clock (s.choices T clock) henabled.1 henabled.2 j

/-- A clock without a symbol leaves the bytes as they are. -/
theorem coming_work (h : s.decisions.Clean)
    (hgap : clock.startIn = true ∨ clock.advanceIn = false) (j : Nat) :
    (s.work T clock).coming T j = s.coming T (j + 1) := by
  have hpending : (s.work T clock).decisions.pendingAdvance = false := by
    change (s.decisions.work clock (s.choices T clock)).pendingAdvance = false
    rw [Decisions.work_eq _ _ _ henabled.1 henabled.2]
    rcases hgap with hgap | hgap
    · simp [hgap]
    · simp [hgap]
  rw [← draining_work T henabled h]
  unfold coming
  cases j with
  | zero => exact if_neg fun hc => by simp [hpending] at hc
  | succ j => exact if_neg fun hc => by simp [hpending] at hc

theorem clean_work (h : s.decisions.Clean)
    (hgap : clock.startIn = true ∨ clock.advanceIn = false) :
    (s.work T clock).decisions.Clean := by
  refine h.work clock (s.choices T clock) henabled.1 henabled.2 fun hadvance hstart => ?_
  simp [hadvance, hstart] at hgap

theorem open_start (h : s.decisions.Clean) (hstart : clock.startIn = true) :
    Open T (s.work T clock) [] := by
  have hwork := Decisions.work_eq s.decisions clock (s.choices T clock) henabled.1 henabled.2
  have hpending : (s.work T clock).decisions.pendingAdvance = false := by
    change (s.decisions.work clock (s.choices T clock)).pendingAdvance = false
    rw [hwork, hstart, Bool.not_true, Bool.and_false]
  refine { clean := clean_work T henabled h (.inl hstart), paths := ?_, followed := ?_,
           count := ?_, pending := ?_, left := (clean_work T henabled h (.inl hstart)).left,
           running := ?_ }
  · change s.nextPaths T clock = T.start
    unfold nextPaths
    simp [henabled.1, henabled.2, hstart]
  · intro state
    unfold Decisions.followed
    rw [hpending]
    change (s.decisions.work clock (s.choices T clock)).survivors state = 0
    rw [hwork, hstart]
    rfl
  · change (s.decisions.work clock (s.choices T clock)).count = _
    rw [hwork, hstart]
    rfl
  · intro hadvance
    simp [hpending] at hadvance
  · intro hend
    simp [hend.1] at hpending

/-- A clock without a symbol leaves a frame as it is. -/
theorem open_gap {symbols : List DecoderInputs} (h : Open T s symbols)
    (hstart : clock.startIn = false) (hgap : clock.advanceIn = false) :
    Open T (s.work T clock) symbols := by
  have hwork := Decisions.work_eq s.decisions clock (s.choices T clock) henabled.1 henabled.2
  have hpending : (s.work T clock).decisions.pendingAdvance = false := by
    change (s.decisions.work clock (s.choices T clock)).pendingAdvance = false
    rw [hwork, hgap, Bool.false_and]
  refine { clean := clean_work T henabled h.clean (.inr hgap), paths := ?_, followed := ?_,
           count := ?_, pending := ?_, left := ?_, running := ?_ }
  · rw [← h.paths]
    change s.nextPaths T clock = s.paths
    unfold nextPaths
    simp [henabled.1, henabled.2, hstart, hgap]
  · intro state
    unfold Decisions.followed
    rw [hpending, ← h.followed state]
    change (s.decisions.work clock (s.choices T clock)).survivors state = _
    rw [hwork, hstart]
    rfl
  · rw [← h.count]
    change (s.decisions.work clock (s.choices T clock)).count = _
    rw [hwork, hstart, hgap]
    rfl
  · intro hadvance
    simp [hpending] at hadvance
  · change (s.decisions.work clock (s.choices T clock)).drainLeft ≤ _
    rw [hwork]
    dsimp only
    rw [if_neg h.running]
    exact (Nat.sub_le _ _).trans h.left
  · intro hend
    simp [hend.1] at hpending

/-- A symbol follows the paths of its frame. -/
theorem tracks_symbol {symbols : List DecoderInputs} (h : Open T s symbols)
    (hstart : clock.startIn = false) (hadvance : clock.advanceIn = true) :
    Tracks T (s.work T clock) (symbols ++ [clock]) ∧
      (s.work T clock).decisions.pendingAdvance = true ∧
      (s.work T clock).decisions.pendingEnd = clock.endIn ∧
      (s.work T clock).decisions.drainLeft ≤
        DEPTH - 1 - min (symbols ++ [clock]).length DEPTH := by
  have hdepth : DEPTH = 32 := rfl
  have hwork := Decisions.work_eq s.decisions clock (s.choices T clock) henabled.1 henabled.2
  have hleft : s.decisions.drainLeft - 1 ≤ DEPTH - 2 - s.decisions.count := by
    have hle := h.left
    rw [h.count]
    omega
  have hpending : (s.work T clock).decisions.pendingAdvance = true := by
    change (s.decisions.work clock (s.choices T clock)).pendingAdvance = true
    rw [hwork, hstart, hadvance]
    rfl
  refine ⟨{ clean := ?_, paths := ?_, followed := ?_, count := ?_, pending := ?_ }, hpending, ?_,
    ?_⟩
  · refine h.clean.work clock (s.choices T clock) henabled.1 henabled.2 fun _ _ => ?_
    rw [if_neg h.running]
    exact hleft
  · rw [decode_concat, ← h.paths]
    change s.nextPaths T clock = (T.select clock s.paths).path
    unfold nextPaths
    simp [henabled.1, henabled.2, hstart, hadvance]
  · intro state
    unfold Decisions.followed
    rw [hpending, if_pos rfl, decode_concat, load_cons, ← h.followed, ← h.paths]
    change (s.decisions.work clock (s.choices T clock)).nextSurvivor state = _
    unfold Decisions.nextSurvivor
    rw [hwork, hstart, hadvance]
    rfl
  · change (s.decisions.work clock (s.choices T clock)).count = _
    rw [hwork, hstart, hadvance, List.length_append, List.length_singleton]
    dsimp only
    rw [if_neg (by decide), if_pos rfl, h.count]
    split <;> omega
  · intro _
    refine ⟨by simp, ?_⟩
    change (s.decisions.work clock (s.choices T clock)).pendingCount = _
    rw [hwork, List.length_append, List.length_singleton, Nat.add_sub_cancel]
    exact h.count
  · change (s.decisions.work clock (s.choices T clock)).pendingEnd = _
    rw [hwork]
  · change (s.decisions.work clock (s.choices T clock)).drainLeft ≤ _
    rw [hwork, List.length_append, List.length_singleton]
    dsimp only
    rw [if_neg h.running]
    have hle := h.left
    omega

end

/-! ## The bytes of a symbol -/

section

variable {s : TrellisDecoder π} {symbols : List DecoderInputs} (h : Tracks T s symbols)
  (hpending : s.decisions.pendingAdvance = true)

include h hpending

theorem draining_of_room {j : Nat} (hj : DEPTH - 1 ≤ j + min (symbols.length - 1) DEPTH) :
    s.decisions.draining j = none := by
  have hroom := h.clean.room hpending
  have hcount := (h.pending hpending).2
  have hdepth : DEPTH = 32 := rfl
  exact h.clean.drained j (by omega)

/-- The byte that the last symbol of some symbols decides for. -/
theorem coming_symbol (hend : s.decisions.pendingEnd = false) (j : Nat) (byte : BitVec 8) :
    s.coming T j = some byte ↔ s.decisions.draining j = some byte ∨
      (j = 0 ∧ DEPTH ≤ symbols.length ∧
        ((decode T symbols).2 (T.best (decode T symbols).1)).getD (DEPTH - 1) 0 = byte) := by
  have hdepth : DEPTH = 32 := rfl
  have hcount := (h.pending hpending).2
  unfold coming
  cases j with
  | zero =>
    change (if _ then _ else _) = _ ↔ _
    rw [hpending, hend, hcount, oldest_eq, h.followed, h.paths, byteAt_load _ (by omega)]
    by_cases hlong : DEPTH ≤ symbols.length
    · rw [if_pos ⟨rfl, by omega⟩, draining_of_room T h hpending (by omega)]
      simp [hlong]
    · rw [if_neg (by omega)]
      simp [hlong]
  | succ j =>
    rw [Decisions.coming_of_not_ending _ _ (fun hc => by simp [hc.2] at hend)]
    simp

/-- The bytes that the last symbol of a frame decides for. -/
theorem coming_end (hend : s.decisions.pendingEnd = true) (j : Nat) (byte : BitVec 8) :
    s.coming T j = some byte ↔ s.decisions.draining j = some byte ∨
      ∃ k, k < symbols.length ∧ symbols.length ≤ k + DEPTH ∧ k + DEPTH - symbols.length = j ∧
        ((decode T symbols).2 0).getD (symbols.length - 1 - k) 0 = byte := by
  have hdepth : DEPTH = 32 := rfl
  obtain ⟨hsymbols, hcount⟩ := h.pending hpending
  have hlength : 0 < symbols.length := List.length_pos_iff.mpr hsymbols
  unfold coming
  cases j with
  | zero =>
    change (if _ then _ else _) = _ ↔ _
    rw [hpending, hend, hcount, if_pos rfl, oldest_eq, h.followed, byteAt_load _ (by omega)]
    by_cases hlong : DEPTH ≤ symbols.length
    · rw [if_pos ⟨rfl, by omega⟩, draining_of_room T h hpending (by omega)]
      simp only [Option.some.injEq, reduceCtorEq, false_or]
      constructor
      · intro hbyte
        refine ⟨symbols.length - DEPTH, by omega, by omega, by omega, ?_⟩
        rw [← hbyte]
        congr 1
        omega
      · rintro ⟨k, hk, hle, hzero, hbyte⟩
        rw [← hbyte]
        congr 1
        omega
    · rw [if_neg (by omega)]
      refine ⟨.inl, ?_⟩
      rintro (hbyte | ⟨k, hk, hle, hzero, -⟩)
      · exact hbyte
      · omega
  | succ j =>
    change (if _ then _ else _) = _ ↔ _
    rw [hpending, hend, hcount, h.followed]
    by_cases hsome : j < DEPTH - 1 ∧ DEPTH - 2 - j ≤ min (symbols.length - 1) DEPTH
    · rw [if_pos ⟨rfl, rfl, hsome⟩, byteAt_load _ (by omega),
        draining_of_room T h hpending (by omega)]
      simp only [Option.some.injEq, reduceCtorEq, false_or]
      constructor
      · intro hbyte
        refine ⟨symbols.length + (j + 1) - DEPTH, by omega, by omega, by omega, ?_⟩
        rw [← hbyte]
        congr 1
        omega
      · rintro ⟨k, hk, hle, hindex, hbyte⟩
        rw [← hbyte]
        congr 1
        omega
    · rw [if_neg fun hc => hsome hc.2.2]
      refine ⟨.inl, ?_⟩
      rintro (hbyte | ⟨k, hk, hle, hindex, -⟩)
      · exact hbyte
      · exact absurd ⟨by omega, by omega⟩ hsome

end

end TrellisDecoder

end CppHdl.Analog
