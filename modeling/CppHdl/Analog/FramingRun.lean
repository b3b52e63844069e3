import CppHdl.Analog.FramingSound

/-!
# Streams of frames

Every symbol of a frame yields one byte, in order and after the depth of the traceback, and a
frame that drains is not disturbed by the frames after it.
-/

namespace CppHdl.Analog

namespace TrellisDecoder

variable {π : Type} (T : Trellis π)

/-- The outputs of some clocks, and what is still to go out after them. -/
def observe (s : TrellisDecoder π) : List DecoderInputs → Nat → Option (BitVec 8)
  | [], j => s.coming T j
  | clock :: _, 0 => (s.work T clock).output
  | clock :: clocks, j + 1 => observe (s.work T clock) clocks j

def after (s : TrellisDecoder π) (clocks : List DecoderInputs) : TrellisDecoder π :=
  clocks.foldl (work T) s

theorem observe_append (s : TrellisDecoder π) (first second : List DecoderInputs) (j : Nat) :
    observe T s (first ++ second) j =
      if j < first.length then observe T s first j
      else observe T (after T s first) second (j - first.length) := by
  induction first generalizing s j with
  | nil => rfl
  | cons clock first ih =>
    cases j with
    | zero => rfl
    | succ j =>
      change observe T (s.work T clock) (first ++ second) j = _
      rw [ih, List.length_cons, Nat.add_sub_add_right]
      simp only [Nat.add_lt_add_iff_right]
      rfl

theorem observe_length_add (s : TrellisDecoder π) (clocks : List DecoderInputs) (j : Nat) :
    observe T s clocks (clocks.length + j) = (after T s clocks).coming T j := by
  induction clocks generalizing s with
  | nil =>
    rw [List.length_nil, Nat.zero_add]
    rfl
  | cons clock clocks ih =>
    rw [List.length_cons, Nat.add_right_comm]
    exact ih _

/-- Nothing but what is still to go out goes out between frames. -/
theorem observe_idle {clocks : List DecoderInputs} (hon : ∀ clock ∈ clocks, Enabled clock)
    (hidle : ∀ clock ∈ clocks, clock.advanceIn = false) {s : TrellisDecoder π}
    (h : s.decisions.Clean) :
    (after T s clocks).decisions.Clean ∧ ∀ j, observe T s clocks j = s.coming T j := by
  induction clocks generalizing s with
  | nil => exact ⟨h, fun j => rfl⟩
  | cons clock clocks ih =>
    have henabled := hon clock List.mem_cons_self
    have hgap := hidle clock List.mem_cons_self
    obtain ⟨hclean, hout⟩ := ih (fun c hc => hon c (List.mem_cons_of_mem _ hc))
      (fun c hc => hidle c (List.mem_cons_of_mem _ hc)) (clean_work T henabled h (.inr hgap))
    refine ⟨hclean, fun j => ?_⟩
    cases j with
    | zero => exact output_work T henabled h
    | succ j => exact (hout j).trans (coming_work T henabled h (.inr hgap) j)

/-- The bytes of the symbols that are still to come in a frame, with the clocks of all. -/
def Later (time : Nat) (symbols : List DecoderInputs) (clocks : List DecoderInputs) (moment : Nat)
    (byte : BitVec 8) : Prop :=
  ∃ k, k < symbols.length + (symbolsOf clocks).length ∧ symbols.length < k + DEPTH ∧
    (timesOf time clocks).getD
        (min (k + (DEPTH - 1)) (symbols.length + (symbolsOf clocks).length - 1) -
          symbols.length) 0 + 1 +
      (k + DEPTH - (symbols.length + (symbolsOf clocks).length)) = moment ∧
    decided T (symbols ++ symbolsOf clocks) k = byte

section

variable {clock : DecoderInputs} (hadvance : clock.advanceIn = true) (time : Nat)
  (symbols clocks : List DecoderInputs) (j : Nat) (byte : BitVec 8)

include hadvance

/-- The bytes that the last symbol of a frame decides for. -/
theorem later_last (hlast : symbolsOf clocks = []) :
    Later T time symbols (clock :: clocks) (time + (j + 1)) byte ↔
      ∃ k, k < (symbols ++ [clock]).length ∧ (symbols ++ [clock]).length ≤ k + DEPTH ∧
        k + DEPTH - (symbols ++ [clock]).length = j ∧
        ((decode T (symbols ++ [clock])).2 0).getD ((symbols ++ [clock]).length - 1 - k) 0 =
          byte := by
  have hdepth : DEPTH = 32 := rfl
  unfold Later
  rw [symbolsOf_cons, if_pos hadvance, hlast, timesOf_cons, if_pos hadvance]
  simp only [List.length_append, List.length_singleton]
  refine exists_congr fun k => ?_
  constructor
  · rintro ⟨hk, hlater, htime, hbyte⟩
    have hindex : min (k + (DEPTH - 1)) (symbols.length + 1 - 1) - symbols.length = 0 := by omega
    rw [hindex, List.getD_cons_zero] at htime
    refine ⟨hk, by omega, by omega, ?_⟩
    rw [← hbyte, decided, if_neg (by simp only [List.length_append, List.length_singleton]; omega)]
    simp only [List.length_append, List.length_singleton]
  · rintro ⟨hk, hlater, htime, hbyte⟩
    have hindex : min (k + (DEPTH - 1)) (symbols.length + 1 - 1) - symbols.length = 0 := by omega
    refine ⟨hk, by omega, ?_, ?_⟩
    · rw [hindex, List.getD_cons_zero]
      omega
    · rw [← hbyte, decided, if_neg (by simp only [List.length_append, List.length_singleton]; omega)]
      simp only [List.length_append, List.length_singleton]

/-- The byte that another symbol decides for, and those that are decided later. -/
theorem later_cons (hmore : symbolsOf clocks ≠ []) :
    Later T time symbols (clock :: clocks) (time + (j + 1)) byte ↔
      (j = 0 ∧ DEPTH ≤ (symbols ++ [clock]).length ∧
        ((decode T (symbols ++ [clock])).2 (T.best (decode T (symbols ++ [clock])).1)).getD
          (DEPTH - 1) 0 = byte) ∨
      Later T (time + 1) (symbols ++ [clock]) clocks (time + 1 + j) byte := by
  have hdepth : DEPTH = 32 := rfl
  have hlength : 0 < (symbolsOf clocks).length := List.length_pos_iff.mpr hmore
  have htake : (symbols ++ clock :: symbolsOf clocks).take (symbols.length + 1) =
      symbols ++ [clock] := by
    rw [List.take_append, List.take_of_length_le (by omega), Nat.add_sub_cancel_left]
    rfl
  unfold Later
  rw [symbolsOf_cons, if_pos hadvance, timesOf_cons, if_pos hadvance, List.append_assoc,
    List.singleton_append]
  simp only [List.length_append, List.length_cons, List.length_nil, Nat.zero_add]
  constructor
  · rintro ⟨k, hk, hlater, htime, hbyte⟩
    by_cases hfirst : k + (DEPTH - 1) = symbols.length
    · have hindex : min (k + (DEPTH - 1)) (symbols.length + ((symbolsOf clocks).length + 1) - 1) -
          symbols.length = 0 := by omega
      rw [hindex, List.getD_cons_zero] at htime
      refine .inl ⟨by omega, by omega, ?_⟩
      rw [← hbyte, decided, if_pos (by simp only [List.length_append, List.length_cons]; omega),
        show k + DEPTH = symbols.length + 1 by omega, htake]
    · obtain ⟨m, hm⟩ : ∃ m, min (k + (DEPTH - 1))
          (symbols.length + ((symbolsOf clocks).length + 1) - 1) - symbols.length = m + 1 :=
        ⟨_, (Nat.succ_pred_eq_of_pos (by omega)).symm⟩
      rw [hm, List.getD_cons_succ] at htime
      have hindex : min (k + (DEPTH - 1)) (symbols.length + 1 + (symbolsOf clocks).length - 1) -
          (symbols.length + 1) = m := by omega
      refine .inr ⟨k, by omega, by omega, ?_, hbyte⟩
      rw [hindex]
      omega
  · rintro (⟨rfl, hlong, hbyte⟩ | ⟨k, hk, hlater, htime, hbyte⟩)
    · refine ⟨symbols.length + 1 - DEPTH, by omega, by omega, ?_, ?_⟩
      · have hindex : min (symbols.length + 1 - DEPTH + (DEPTH - 1))
            (symbols.length + ((symbolsOf clocks).length + 1) - 1) - symbols.length = 0 := by omega
        rw [hindex, List.getD_cons_zero]
        omega
      · rw [← hbyte, decided, if_pos (by simp only [List.length_append, List.length_cons]; omega),
          show symbols.length + 1 - DEPTH + DEPTH = symbols.length + 1 by omega, htake]
    · refine ⟨k, by omega, by omega, ?_, hbyte⟩
      obtain ⟨m, hm⟩ : ∃ m, min (k + (DEPTH - 1))
          (symbols.length + ((symbolsOf clocks).length + 1) - 1) - symbols.length = m + 1 :=
        ⟨_, (Nat.succ_pred_eq_of_pos (by omega)).symm⟩
      have hindex : min (k + (DEPTH - 1)) (symbols.length + 1 + (symbolsOf clocks).length - 1) -
          (symbols.length + 1) = m := by omega
      rw [hindex] at htime
      rw [hm, List.getD_cons_succ]
      omega

end

theorem observe_rest {clocks : List DecoderInputs} (hon : ∀ clock ∈ clocks, Enabled clock)
    (hruns : ∀ clock ∈ clocks, clock.startIn = false)
    (hends : ∀ k (h : k < (symbolsOf clocks).length),
      (symbolsOf clocks)[k].endIn = decide (k + 1 = (symbolsOf clocks).length))
    {s : TrellisDecoder π} {symbols : List DecoderInputs} (h : Open T s symbols)
    (hmore : symbolsOf clocks = [] → symbols = []) (time : Nat) :
    (after T s clocks).decisions.Clean ∧ ∀ j byte, observe T s clocks j = some byte ↔
      s.coming T j = some byte ∨ Later T time symbols clocks (time + j) byte := by
  have hdepth : DEPTH = 32 := rfl
  induction clocks generalizing s symbols time with
  | nil =>
    refine ⟨h.clean, fun j byte => ⟨.inl, ?_⟩⟩
    rintro (hcoming | ⟨k, hk, -⟩)
    · exact hcoming
    · simp [hmore rfl, symbolsOf] at hk
  | cons clock clocks ih =>
    have henabled := hon clock List.mem_cons_self
    have hstart := hruns clock List.mem_cons_self
    have hon' := fun c hc => hon c (List.mem_cons_of_mem clock hc)
    have hruns' := fun c hc => hruns c (List.mem_cons_of_mem clock hc)
    -- Nothing of this frame goes out in the clock of a symbol that follows.
    have hzero : ∀ byte, ¬Later T time symbols (clock :: clocks) (time + 0) byte := by
      rintro byte ⟨k, hk, hlater, htime, -⟩
      have hle := timesOf_bounds time (clock :: clocks)
        (i := min (k + (DEPTH - 1)) (symbols.length + (symbolsOf (clock :: clocks)).length - 1) -
          symbols.length) (by
            have : symbolsOf (clock :: clocks) = [] → symbols = [] := hmore
            rcases hlist : symbolsOf (clock :: clocks) with _ | ⟨first, rest⟩
            · simp [this hlist, hlist] at hk
            · simp only [List.length_cons]
              omega)
      omega
    by_cases hadvance : clock.advanceIn = true
    · obtain ⟨htracks, hpending, hend, hleft⟩ := tracks_symbol T henabled h hstart hadvance
      have hdrain := draining_work T henabled h.clean
      rw [symbolsOf_cons, if_pos hadvance] at hends
      by_cases hlast : symbolsOf clocks = []
      · -- The frame ends, and everything that is left of it is scheduled.
        have hlastEnd : clock.endIn = true := by
          have hfirst := hends 0 (by simp)
          simpa [hlast] using hfirst
        have hidle : ∀ c ∈ clocks, c.advanceIn = false := by
          intro c hc
          simpa using List.filter_eq_nil_iff.mp hlast c hc
        obtain ⟨hclean, hout⟩ := observe_idle T hon' hidle htracks.clean
        refine ⟨hclean, fun j byte => ?_⟩
        cases j with
        | zero =>
          change (s.work T clock).output = some byte ↔ _
          rw [output_work T henabled h.clean, or_iff_left (hzero byte)]
        | succ j =>
          change observe T (s.work T clock) clocks j = some byte ↔ _
          rw [hout j, coming_end T htracks hpending (hend.trans hlastEnd), hdrain,
            later_last T hadvance _ _ _ _ _ hlast]
      · have hfirstEnd : clock.endIn = false := by
          have hfirst := hends 0 (by simp)
          simpa [hlast] using hfirst
        have hends' : ∀ k (h : k < (symbolsOf clocks).length),
            (symbolsOf clocks)[k].endIn = decide (k + 1 = (symbolsOf clocks).length) := by
          intro k hk
          have hnext := hends (k + 1) (by simpa using hk)
          simpa using hnext
        have hopen : Open T (s.work T clock) (symbols ++ [clock]) :=
          { htracks with
            left := hleft
            running := fun hc => by simp [hend, hfirstEnd, Decisions.Ending] at hc }
        obtain ⟨hclean, hout⟩ := ih hon' hruns' hends' hopen (fun hnil => absurd hnil hlast)
          (time + 1)
        refine ⟨hclean, fun j byte => ?_⟩
        cases j with
        | zero =>
          change (s.work T clock).output = some byte ↔ _
          rw [output_work T henabled h.clean, or_iff_left (hzero byte)]
        | succ j =>
          change observe T (s.work T clock) clocks j = some byte ↔ _
          rw [hout j byte, coming_symbol T htracks hpending (hend.trans hfirstEnd), hdrain,
            later_cons T hadvance _ _ _ _ _ hlast, or_assoc]
    · have hgap : clock.advanceIn = false := by simpa using hadvance
      rw [symbolsOf_cons, if_neg hadvance] at hmore
      have hends' : ∀ k (h : k < (symbolsOf clocks).length),
          (symbolsOf clocks)[k].endIn = decide (k + 1 = (symbolsOf clocks).length) := by
        simpa only [symbolsOf_cons, if_neg hadvance] using hends
      obtain ⟨hclean, hout⟩ := ih hon' hruns' hends' (open_gap T henabled h hstart hgap) hmore
        (time + 1)
      refine ⟨hclean, fun j byte => ?_⟩
      cases j with
      | zero =>
        change (s.work T clock).output = some byte ↔ _
        rw [output_work T henabled h.clean, or_iff_left (hzero byte)]
      | succ j =>
        change observe T (s.work T clock) clocks j = some byte ↔ _
        rw [hout j byte, coming_work T henabled h.clean (.inr hgap), Nat.add_right_comm]
        unfold Later
        rw [symbolsOf_cons, if_neg hadvance, timesOf_cons, if_neg hadvance, Nat.add_assoc time j 1]

/-! ## Streams -/

theorem observe_frame (frame : Frame) (hon : ∀ clock ∈ frame.all, Enabled clock)
    {s : TrellisDecoder π} (h : s.decisions.Clean) (time : Nat) :
    (after T s frame.all).decisions.Clean ∧ ∀ j byte, observe T s frame.all j = some byte ↔
      s.coming T j = some byte ∨ ∃ k, k < frame.symbols.length ∧
        Frame.emission (timesOf (time + 1) frame.clocks) frame.symbols.length k = time + j ∧
        decided T frame.symbols k = byte := by
  have hdepth : DEPTH = 32 := rfl
  have henabled := hon frame.start List.mem_cons_self
  have hopen := open_start T henabled h frame.starts
  obtain ⟨hclean, hout⟩ := observe_rest T (fun c hc => hon c (List.mem_cons_of_mem _ hc))
    frame.runs frame.ends hopen (fun _ => rfl) (time + 1)
  refine ⟨hclean, fun j byte => ?_⟩
  cases j with
  | zero =>
    change (s.work T frame.start).output = some byte ↔ _
    rw [output_work T henabled h, iff_self_or]
    rintro ⟨k, hk, htime, -⟩
    have hle := Frame.le_emission (time + 1) frame.clocks hk
    unfold Frame.symbols at htime
    omega
  | succ j =>
    change observe T (s.work T frame.start) frame.clocks j = some byte ↔ _
    rw [hout j byte, coming_work T henabled h (.inl frame.starts), Nat.add_right_comm]
    refine or_congr_right (exists_congr fun k => ?_)
    simp only [List.length_nil, Nat.zero_add, List.nil_append, Nat.sub_zero]
    exact ⟨fun ⟨hk, _, htime, hbyte⟩ => ⟨hk, htime, hbyte⟩,
      fun ⟨hk, htime, hbyte⟩ => ⟨hk, by omega, htime, hbyte⟩⟩

theorem observe_frames (frames : List Frame)
    (hon : ∀ clock ∈ frames.flatMap Frame.all, Enabled clock) {s : TrellisDecoder π}
    (h : s.decisions.Clean) (time j : Nat) (byte : BitVec 8) :
    observe T s (frames.flatMap Frame.all) j = some byte ↔
      s.coming T j = some byte ∨ (time + j, byte) ∈ schedule T time frames := by
  induction frames generalizing s time j with
  | nil => simp [observe, schedule]
  | cons frame frames ih =>
    rw [List.flatMap_cons] at hon ⊢
    obtain ⟨hclean, hout⟩ := observe_frame T frame
      (fun c hc => hon c (List.mem_append_left _ hc)) h time
    have hrest := ih (fun c hc => hon c (List.mem_append_right _ hc)) hclean
      (time + frame.all.length) (j - frame.all.length)
    rw [observe_append, mem_schedule_cons, ← or_assoc, ← hout j byte]
    by_cases hj : j < frame.all.length
    · rw [if_pos hj, iff_self_or]
      intro hmem
      have hle := le_of_mem_schedule T hmem
      dsimp only at hle
      omega
    · obtain ⟨m, rfl⟩ : ∃ m, j = frame.all.length + m := ⟨j - frame.all.length, by omega⟩
      rw [if_neg hj, hrest, Nat.add_sub_cancel_left, observe_length_add, Nat.add_assoc]

theorem outputs_filter {inputs : List DecoderInputs} (hreset : ∀ input ∈ inputs, input.reset = false)
    (s : TrellisDecoder π) :
    outputs T s inputs = outputs T s (inputs.filter (·.symbolEnableIn)) := by
  induction inputs generalizing s with
  | nil => rfl
  | cons input inputs ih =>
    have hrest := fun c hc => hreset c (List.mem_cons_of_mem input hc)
    by_cases henable : input.symbolEnableIn = true
    · rw [List.filter_cons_of_pos henable]
      simp only [outputs, henable, if_true]
      rw [ih hrest]
    · rw [List.filter_cons_of_neg henable]
      have hstays : s.work T input = s := by
        unfold work nextPaths Decisions.work
        simp [hreset input List.mem_cons_self, henable]
      simp only [outputs, henable, hstays]
      exact ih hrest s

theorem outputs_getElem {clocks : List DecoderInputs} (hon : ∀ clock ∈ clocks, Enabled clock)
    (s : TrellisDecoder π) (time : Nat) (byte : BitVec 8) :
    (outputs T s clocks)[time]? = some (some byte) ↔
      time < clocks.length ∧ observe T s clocks time = some byte := by
  induction clocks generalizing s time with
  | nil => simp [outputs]
  | cons clock clocks ih =>
    simp only [outputs, (hon clock List.mem_cons_self).2, if_true]
    cases time with
    | zero =>
      simp only [List.getElem?_cons_zero, Option.some.injEq, List.length_cons, Nat.zero_lt_succ,
        true_and]
      rfl
    | succ time =>
      rw [List.getElem?_cons_succ, ih (fun c hc => hon c (List.mem_cons_of_mem _ hc)),
        List.length_cons, Nat.add_lt_add_iff_right]
      rfl

/-- Nothing is to go out of a decoder that was switched on or reset. -/
theorem quiet_run (unreachable : π) {before : List DecoderInputs}
    (hbefore : before = [] ∨ ∃ clocks clock, before = clocks ++ [clock] ∧ clock.reset = true) :
    (run T unreachable before).decisions.Clean ∧
      ∀ j, (run T unreachable before).coming T j = none := by
  have hquiet : ∀ s : TrellisDecoder π, s.decisions.pendingAdvance = false →
      s.decisions.drainValid = 0 → s.decisions.drainLeft = 0 →
      s.decisions.Clean ∧ ∀ j, s.coming T j = none := by
    intro s hadvance hvalid hleft
    have hdraining : ∀ j, s.decisions.draining j = none := fun j =>
      if_neg fun hc => by simp [hvalid] at hc
    refine ⟨⟨by simp [hleft], fun j _ => hdraining j, fun _ => hadvance, by simp [hadvance]⟩, ?_⟩
    intro j
    unfold coming
    cases j with
    | zero => exact (if_neg fun hc => by simp [hadvance] at hc).trans (hdraining 0)
    | succ j => exact (if_neg fun hc => by simp [hadvance] at hc).trans (hdraining (j + 1))
  rcases hbefore with rfl | ⟨clocks, clock, rfl, hreset⟩
  · exact hquiet _ rfl rfl rfl
  · unfold run
    rw [List.foldl_append, List.foldl_cons, List.foldl_nil]
    refine hquiet _ ?_ ?_ ?_
    · simp [work, Decisions.work, hreset]
    · simp [work, Decisions.work, hreset]
    · simp [work, Decisions.work, hreset]

/-- The outputs over any frames: each symbol yields one byte, which was selected in its own
step, in order and after the depth of the traceback; nothing else goes out. -/
theorem framing (unreachable : π) (before inputs idle : List DecoderInputs) (frames : List Frame)
    (hbefore : before = [] ∨ ∃ clocks clock, before = clocks ++ [clock] ∧ clock.reset = true)
    (hreset : ∀ input ∈ inputs, input.reset = false)
    (hidle : ∀ clock ∈ idle, clock.advanceIn = false)
    (hinputs : inputs.filter (·.symbolEnableIn) = idle ++ frames.flatMap Frame.all) :
    (∀ time byte, (outputs T (run T unreachable before) inputs)[time]? = some (some byte) ↔
      time < (inputs.filter (·.symbolEnableIn)).length ∧
        (time, byte) ∈ schedule T idle.length frames) ∧
    ((schedule T idle.length frames).map (·.1)).Pairwise (· < ·) ∧
    ∀ frame ∈ frames, ∀ k (h : k < frame.symbols.length), ∃ destination,
      decided T frame.symbols k = (T.select frame.symbols[k]
        (decode T (frame.symbols.take k)).1).winningByte destination := by
  obtain ⟨hclean, hquiet⟩ := quiet_run T unreachable hbefore
  have hon : ∀ clock ∈ inputs.filter (·.symbolEnableIn), Enabled clock := fun clock hclock =>
    ⟨hreset clock (List.mem_of_mem_filter hclock), (List.mem_filter.mp hclock).2⟩
  refine ⟨fun time byte => ?_, schedule_pairwise T _ _, fun frame _ k hk => decided_eq T _ hk⟩
  rw [outputs_filter T hreset, outputs_getElem T hon]
  refine and_congr_right fun _ => ?_
  rw [hinputs] at hon ⊢
  obtain ⟨hafter, hout⟩ := observe_idle T (fun c hc => hon c (List.mem_append_left _ hc)) hidle
    hclean
  rw [observe_append]
  by_cases htime : time < idle.length
  · rw [if_pos htime, hout, hquiet]
    simp only [reduceCtorEq, false_iff]
    intro hmem
    have hle := le_of_mem_schedule T hmem
    dsimp only at hle
    omega
  · obtain ⟨m, rfl⟩ : ∃ m, time = idle.length + m := ⟨time - idle.length, by omega⟩
    rw [if_neg htime, Nat.add_sub_cancel_left,
      observe_frames T frames (fun c hc => hon c (List.mem_append_right _ hc)) hafter idle.length,
      ← observe_length_add, hout, hquiet]
    simp

def clockWith (advance start «end» : Bool) : DecoderInputs where
  reset := false
  symbolEnableIn := true
  metricIn _ := 0
  differenceIn _ := 0
  pointIn _ := 0
  advanceIn := advance
  startIn := start
  endIn := «end»

/-- A frame of one symbol with some clocks after it. -/
def oneSymbol (spacing : Nat) : Frame where
  start := clockWith false true false
  clocks := clockWith true false true :: List.replicate spacing (clockWith false false false)
  starts := rfl
  runs := by simp [clockWith]
  ends := by simp [symbolsOf, clockWith]

/-- The second frame starts while the first one drains. -/
theorem framing_back_to_back :
    let T := Circular.trellis false
    let outputs := outputs T (run T ⟨0, false⟩ []) ([oneSymbol 0, oneSymbol 40].flatMap Frame.all)
    outputs[33]? = some (some (decided T (oneSymbol 0).symbols 0)) ∧
      outputs[35]? = some (some (decided T (oneSymbol 40).symbols 0)) := by
  have h := framing (Circular.trellis false) ⟨0, false⟩ []
    ([oneSymbol 0, oneSymbol 40].flatMap Frame.all) [] [oneSymbol 0, oneSymbol 40] (.inl rfl)
    (by decide) (by decide) rfl
  exact ⟨(h.1 33 _).mpr ⟨by decide, .head _⟩, (h.1 35 _).mpr ⟨by decide, .tail _ (.head _)⟩⟩

end TrellisDecoder

end CppHdl.Analog
