import CppHdl.Analog.Framing

/-!
# One clock of the framing

What an enabled clock does to the registers, and to the bytes that are still to go out.
-/

namespace CppHdl.Analog

open ShiftRegister

namespace Decisions

variable (s : Decisions) (i : DecoderInputs) (choices : Choices) (n : Decisions)

/-! ## The registers after a clock -/

theorem drainOne_eq : s.drainOne i = { s with
    data := if s.drainLeft = 0 then s.data else oldest s.drain
    valid := if s.drainLeft = 0 then false else s.drainValid.getLsbD (DEPTH - 2)
    drain := if s.drainLeft = 0 then s.drain else s.drain <<< 8
    drainValid := if s.drainLeft = 0 then s.drainValid else s.drainValid <<< 1
    drainLeft := s.drainLeft - 1
    pendingAdvance := i.advanceIn && !i.startIn
    pendingStart := i.startIn
    pendingEnd := i.endIn
    pendingCount := s.count } := by
  unfold drainOne
  by_cases h : s.drainLeft = 0
  · simp [h]
  · simp [h]

theorem advance_eq : s.advance i choices n = { n with
    selectors := if i.advanceIn then choices.winner else n.selectors
    selectedBytes := if i.advanceIn then choices.winningByte else n.selectedBytes
    count := if i.advanceIn then (if s.count < DEPTH then s.count + 1 else s.count)
      else n.count } := by
  unfold advance
  by_cases h : i.advanceIn = true
  · simp [h]
  · simp [h]

theorem output_eq (survivor : BitVec (DEPTH * 8)) : s.output survivor n = { n with
    valid := if DEPTH - 1 ≤ s.pendingCount ∨ s.drainLeft = 0 then
      decide (DEPTH - 1 ≤ s.pendingCount) else n.valid
    data := if DEPTH - 1 ≤ s.pendingCount ∨ s.drainLeft = 0 then oldest survivor
      else n.data } := by
  unfold output
  by_cases h : DEPTH - 1 ≤ s.pendingCount ∨ s.drainLeft = 0
  · simp only [if_pos h]
  · simp only [if_neg h]

/-- Whether a frame ends with the symbol of the clock before. -/
def Ending : Prop := s.pendingAdvance = true ∧ s.pendingEnd = true

instance : Decidable s.Ending := inferInstanceAs (Decidable (_ ∧ _))

/-- Whether the oldest byte of a survivor goes out. -/
def Emits : Prop := s.pendingAdvance = true ∧ (DEPTH - 1 ≤ s.pendingCount ∨ s.drainLeft = 0)

instance : Decidable s.Emits := inferInstanceAs (Decidable (_ ∧ _))

theorem decision_eq : s.decision choices n = { n with
    survivors := if s.pendingAdvance then s.nextSurvivor else n.survivors
    valid := if s.Emits then decide (DEPTH - 1 ≤ s.pendingCount) else n.valid
    data := if s.Emits then
      oldest (s.nextSurvivor (if s.pendingEnd then 0 else choices.bestState)) else n.data
    state := if s.pendingAdvance then (if s.pendingEnd then 0 else choices.bestState) else n.state
    drain := if s.Ending then
      (schedule s.pendingCount (s.nextSurvivor 0) (s.drain <<< 8, s.drainValid <<< 1)).1
      else n.drain
    drainValid := if s.Ending then
      (schedule s.pendingCount (s.nextSurvivor 0) (s.drain <<< 8, s.drainValid <<< 1)).2
      else n.drainValid
    drainLeft := if s.Ending then DEPTH - 1 else n.drainLeft } := by
  unfold decision Emits Ending
  by_cases hadvance : s.pendingAdvance = true
  · by_cases hend : s.pendingEnd = true
    · by_cases hout : DEPTH - 1 ≤ s.pendingCount ∨ s.drainLeft = 0
      · simp only [hadvance, hend, output_eq, true_and, if_true, hout]
      · simp only [hadvance, hend, output_eq, true_and, if_true, hout, if_false]
    · simp [hadvance, hend, output_eq]
  · simp [hadvance]

theorem start_eq (hreset : i.reset = false) : s.start i n = { n with
    survivors := if i.startIn then fun _ => 0 else n.survivors
    selectors := if i.startIn then fun _ => 0 else n.selectors
    selectedBytes := if i.startIn then fun _ => 0 else n.selectedBytes
    count := if i.startIn then 0 else n.count
    state := if s.pendingStart then 0 else n.state
    data := if s.pendingStart = true ∧ s.drainLeft = 0 then 0 else n.data
    valid := if s.pendingStart = true ∧ s.drainLeft = 0 then false else n.valid } := by
  unfold start
  simp only [hreset, Bool.or_false, Bool.false_or, decide_eq_true_eq]
  by_cases hstart : i.startIn = true
  · by_cases hpending : s.pendingStart = true
    · by_cases hleft : s.drainLeft = 0
      · simp [hstart, hpending, hleft]
      · simp [hstart, hpending, hleft]
    · simp [hstart, hpending]
  · by_cases hpending : s.pendingStart = true
    · by_cases hleft : s.drainLeft = 0
      · simp [hstart, hpending, hleft]
      · simp [hstart, hpending, hleft]
    · simp [hstart, hpending]

theorem work_eq (hreset : i.reset = false) (henable : i.symbolEnableIn = true) :
    s.work i choices =
      { selectors := if i.startIn then fun _ => 0
          else if i.advanceIn then choices.winner else s.selectors
        selectedBytes := if i.startIn then fun _ => 0
          else if i.advanceIn then choices.winningByte else s.selectedBytes
        pendingAdvance := i.advanceIn && !i.startIn
        pendingStart := i.startIn
        pendingEnd := i.endIn
        pendingCount := s.count
        survivors := if i.startIn then fun _ => 0 else s.followed
        count := if i.startIn then 0
          else if i.advanceIn then (if s.count < DEPTH then s.count + 1 else s.count) else s.count
        data := if s.pendingStart = true ∧ s.drainLeft = 0 then 0
          else if s.Emits then
            oldest (s.nextSurvivor (if s.pendingEnd then 0 else choices.bestState))
          else if s.drainLeft = 0 then s.data else oldest s.drain
        state := if s.pendingStart then 0
          else if s.pendingAdvance then (if s.pendingEnd then 0 else choices.bestState)
          else s.state
        valid := if s.pendingStart = true ∧ s.drainLeft = 0 then false
          else if s.Emits then decide (DEPTH - 1 ≤ s.pendingCount)
          else if s.drainLeft = 0 then false else s.drainValid.getLsbD (DEPTH - 2)
        drain := if s.Ending then
            (schedule s.pendingCount (s.nextSurvivor 0) (s.drain <<< 8, s.drainValid <<< 1)).1
          else if s.drainLeft = 0 then s.drain else s.drain <<< 8
        drainLeft := if s.Ending then DEPTH - 1 else s.drainLeft - 1
        drainValid := if s.Ending then
            (schedule s.pendingCount (s.nextSurvivor 0) (s.drain <<< 8, s.drainValid <<< 1)).2
          else if s.drainLeft = 0 then s.drainValid else s.drainValid <<< 1 } := by
  unfold work
  simp only [hreset, henable, Bool.not_true, Bool.false_and, Bool.false_eq_true, if_false]
  rw [start_eq s i _ hreset, decision_eq, advance_eq, drainOne_eq]
  rfl

/-! ## The bytes that are still to go out -/

theorem draining_zero :
    s.draining 0 = if s.drainValid.getLsbD (DEPTH - 2) = true then some (oldest s.drain) else none := by
  unfold draining
  rw [oldest_eq]
  simp only [show 0 < DEPTH - 1 by decide, true_and]
  rfl

theorem draining_shift (j : Nat) :
    (if j < DEPTH - 1 ∧ (s.drainValid <<< 1).getLsbD (DEPTH - 2 - j) = true then
      some (byteAt (s.drain <<< 8) (DEPTH - 1 - j)) else none) = s.draining (j + 1) := by
  have hdepth : DEPTH = 32 := rfl
  unfold draining
  by_cases hj : j + 1 < DEPTH - 1
  · have hbit : DEPTH - 2 - j = DEPTH - 2 - (j + 1) + 1 := by omega
    have hbyte : DEPTH - 1 - j = DEPTH - 1 - (j + 1) + 1 := by omega
    have hvalid : (s.drainValid <<< 1).getLsbD (DEPTH - 2 - j) =
        s.drainValid.getLsbD (DEPTH - 2 - (j + 1)) := by
      rw [BitVec.getLsbD_shiftLeft, hbit, decide_eq_true (by omega), decide_eq_false (by omega)]
      rfl
    rw [hvalid, hbyte, byteAt_shiftLeft _ (by omega)]
    simp only [hj, show j < DEPTH - 1 by omega, true_and]
  · rw [if_neg (c := j + 1 < DEPTH - 1 ∧ _) (fun h => hj h.1)]
    by_cases hlast : j < DEPTH - 1
    · have hzero : DEPTH - 2 - j = 0 := by omega
      rw [hzero]
      simp
    · rw [if_neg (fun h => hlast h.1)]

theorem coming_of_not_ending (best : Fin 8) (hend : ¬s.Ending) (j : Nat) :
    s.coming best (j + 1) = s.draining (j + 1) :=
  if_neg fun hc => hend ⟨hc.1, hc.2.1⟩

theorem coming_of_ge (best : Fin 8) {j : Nat} (hj : DEPTH - 1 ≤ j) :
    s.coming best (j + 1) = none := by
  change (if _ then _ else if _ then _ else _) = _
  rw [if_neg fun hc => absurd hc.2.2.1 (by omega), if_neg fun hc => absurd hc.1 (by omega)]

namespace Clean

variable {s} (h : s.Clean)

include h

theorem output_work (hreset : i.reset = false) (henable : i.symbolEnableIn = true) :
    (if (s.work i choices).valid = true then some (s.work i choices).data else none) =
      s.coming choices.bestState 0 := by
  rw [work_eq s i choices hreset henable]
  dsimp only [coming]
  by_cases hleft : s.drainLeft = 0
  · have hnone : s.draining 0 = none := h.drained 0 (by omega)
    by_cases hadvance : s.pendingAdvance = true
    · have hstart : ¬s.pendingStart = true := fun hp => by simp [h.started hp] at hadvance
      simp [hleft, hadvance, hstart, hnone, Emits, followed]
    · simp [hleft, hadvance, hnone, Emits]
  · by_cases hadvance : s.pendingAdvance = true
    · simp [hleft, hadvance, Emits, followed, draining_zero]
      split_ifs <;> simp_all
    · simp [hleft, hadvance, Emits, draining_zero]

theorem draining_work (hreset : i.reset = false) (henable : i.symbolEnableIn = true) (j : Nat) :
    (s.work i choices).draining j = s.coming choices.bestState (j + 1) := by
  rw [work_eq s i choices hreset henable]
  by_cases hend : s.Ending
  · have hfollowed : s.followed = s.nextSurvivor := if_pos hend.1
    unfold draining
    dsimp only [coming]
    rw [if_pos hend, if_pos hend, hfollowed]
    by_cases hj : j < DEPTH - 1
    · obtain ⟨hbyte, hvalid⟩ := schedule_spec s.pendingCount (s.nextSurvivor 0)
        (s.drain <<< 8, s.drainValid <<< 1) hj
      rw [hbyte, hvalid]
      by_cases hcount : DEPTH - 2 - j ≤ s.pendingCount
      · simp only [hj, hcount, hend.1, hend.2, decide_true, Bool.true_or, and_self, if_true]
      · simp only [hj, hcount, decide_false, Bool.false_or, and_false, if_false, true_and]
        rw [← draining_shift]
        simp only [hj, true_and]
    · have hnone : s.draining (j + 1) = none := if_neg (fun h => hj (by omega))
      simp only [hj, false_and, and_false, if_false, hnone]
  · rw [s.coming_of_not_ending _ hend]
    by_cases hleft : s.drainLeft = 0
    · rw [h.drained (j + 1) (by omega), ← h.drained j (by omega)]
      unfold draining
      simp only [hend, hleft, if_true, if_false]
    · rw [← draining_shift]
      unfold draining
      simp only [hend, hleft, if_false]

theorem work (hreset : i.reset = false) (henable : i.symbolEnableIn = true)
    (hroom : i.advanceIn = true → i.startIn = false →
      (if s.Ending then DEPTH - 1 else s.drainLeft - 1) ≤ DEPTH - 2 - s.count) :
    (s.work i choices).Clean where
  left := by
    rw [work_eq s i choices hreset henable]
    dsimp only
    split
    · exact le_rfl
    · exact (Nat.sub_le _ _).trans h.left
  drained j hj := by
    rw [h.draining_work i choices hreset henable]
    rw [work_eq s i choices hreset henable] at hj
    dsimp only at hj
    by_cases hend : s.Ending
    · rw [if_pos hend] at hj
      exact s.coming_of_ge _ hj
    · rw [if_neg hend] at hj
      rw [s.coming_of_not_ending _ hend]
      exact h.drained _ (by omega)
  started hp := by
    rw [work_eq s i choices hreset henable] at hp ⊢
    dsimp only at hp ⊢
    rw [hp, Bool.not_true, Bool.and_false]
  room hp := by
    rw [work_eq s i choices hreset henable] at hp ⊢
    dsimp only at hp ⊢
    rw [Bool.and_eq_true, Bool.not_eq_true'] at hp
    exact hroom hp.1 hp.2

end Clean

end Decisions

end CppHdl.Analog
