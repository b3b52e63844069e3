import CppHdl.Cache.L1Cache

/-!
# The registers of the first-level cache after a clock edge

What `_work` leaves in each register, by the branch it takes. The branches that
serve a request are taken only when nothing is pending, invalidated or flushed.
-/

namespace CppHdl.Cache.L1Cache

open L1Geometry

variable {g : L1Geometry} {s : L1Cache} {i : L1Inputs}

/-! ## Branches -/

/-- No branch of higher priority than those of the states is taken. -/
structure Quiet (s : L1Cache) (i : L1Inputs) : Prop where
  pending : s.epochWrapPending = false
  conflict : s.invalidateConflict i = false
  invalidate : i.invalidate = false
  flush : i.flush = false

def Branch.Taken (s : L1Cache) (i : L1Inputs) : Branch → Prop
  | .wrap => s.epochWrapPending = true
  | .conflict => s.epochWrapPending = false ∧ s.invalidateConflict i = true
  | .invalidate => s.epochWrapPending = false ∧ s.invalidateConflict i = false ∧ i.invalidate = true
  | .flush => s.epochWrapPending = false ∧ s.invalidateConflict i = false ∧
      i.invalidate = false ∧ i.flush = true
  | .init => s.Quiet i ∧ s.state = .init
  | .idle => s.Quiet i ∧ s.state = .idle
  | .lookup => s.Quiet i ∧ s.state = .lookup ∧ s.req.read = true
  | .compare => s.Quiet i ∧ s.state = .compare ∧ s.req.read = true
  | .select => s.Quiet i ∧ s.state = .select ∧ s.req.read = true
  | .assemble => s.Quiet i ∧ s.state = .assemble ∧ s.req.read = true
  | .refill => s.Quiet i ∧ s.state = .refill ∧ s.req.read = true
  | .done => s.Quiet i ∧ s.state = .done ∧ i.stall = false
  | .hold => s.Quiet i ∧ (s.state = .done ∨
      s.state ∈ [.lookup, .compare, .select, .assemble, .refill] ∧ s.req.read = false)

theorem branch_taken (s : L1Cache) (i : L1Inputs) : (s.branch i).Taken s i := by
  unfold branch
  cases hpending : s.epochWrapPending with
  | true => exact hpending
  | false =>
      cases hconflict : s.invalidateConflict i with
      | true => exact ⟨hpending, hconflict⟩
      | false =>
          cases hinvalidate : i.invalidate with
          | true => exact ⟨hpending, hconflict, hinvalidate⟩
          | false =>
              cases hflush : i.flush with
              | true => exact ⟨hpending, hconflict, hinvalidate, hflush⟩
              | false =>
                  have hquiet : s.Quiet i := ⟨hpending, hconflict, hinvalidate, hflush⟩
                  cases hstate : s.state <;> cases hread : s.req.read <;>
                    cases hstall : i.stall <;>
                    simp [Branch.Taken, hquiet, hstate, hread, hstall]

theorem taken_of_branch {b : Branch} (h : s.branch i = b) : b.Taken s i := h ▸ branch_taken s i

/-! ## Registers -/

section

variable (g s i)

theorem clearRefill_eq (n : L1Cache) : s.clearRefill n =
    { n with refill := if s.state = .lookup ∧ s.req.read then
        { n.refill with beat := 0, reqDataValid := false } else n.refill } := by
  unfold clearRefill
  split_ifs <;> rfl

theorem advanceEpoch_eq (n : L1Cache) : s.advanceEpoch g i n =
    { n with
      tagSetEpoch := if i.invalidateLine then
          Function.update s.tagSetEpoch (g.setIndex i.invalidateAddr)
            (s.tagSetEpoch (g.setIndex i.invalidateAddr) + 1)
        else n.tagSetEpoch
      tagEpoch := if s.invalidateEpochWrap g i then !s.tagEpoch else n.tagEpoch
      epochWrapPending := s.invalidateEpochWrap g i || n.epochWrapPending } := by
  unfold advanceEpoch
  cases hline : i.invalidateLine with
  | false =>
      have hwrap : s.invalidateEpochWrap g i = false := by
        unfold invalidateEpochWrap
        rw [hline, Bool.false_and]
      rw [hwrap]
      rfl
  | true => cases s.invalidateEpochWrap g i <;> rfl

/-- The registers before the branches assign theirs. -/
def base : L1Cache := s.advanceEpoch g i (s.clearRefill s)

/-- What a branch reads of the registers it assigns. -/
theorem sequence_base (b : Branch) :
    (s.sequence g i (s.base g i) b).state = (s.sequence g i s b).state ∧
      (s.sequence g i (s.base g i) b).req = (s.sequence g i s b).req ∧
      (s.sequence g i (s.base g i) b).initSet = (s.sequence g i s b).initSet ∧
      (s.sequence g i (s.base g i) b).lookup = (s.sequence g i s b).lookup ∧
      (s.sequence g i (s.base g i) b).tagEntries = (s.sequence g i s b).tagEntries ∧
      (s.sequence g i (s.base g i) b).response = (s.sequence g i s b).response ∧
      (s.sequence g i (s.base g i) b).selectedLine = (s.sequence g i s b).selectedLine := by
  unfold base
  rw [clearRefill_eq, advanceEpoch_eq]
  cases b <;> first
    | exact ⟨rfl, rfl, rfl, rfl, rfl, rfl, rfl⟩
    | simp only [sequence, dropRequest, refillLine, finishRefill]
      split_ifs <;> exact ⟨rfl, rfl, rfl, rfl, rfl, rfl, rfl⟩

theorem sequence_tagSetEpoch (n : L1Cache) (b : Branch) :
    (s.sequence g i n b).tagSetEpoch = n.tagSetEpoch := by
  cases b <;> first
    | rfl
    | simp only [sequence, dropRequest, refillLine, finishRefill]
      split_ifs <;> rfl

theorem sequence_pending (n : L1Cache) (b : Branch) :
    (s.sequence g i n b).epochWrapPending = (!decide (b = .wrap) && n.epochWrapPending) := by
  cases b <;> first
    | rfl
    | simp only [sequence, dropRequest, refillLine, finishRefill]
      split_ifs <;> rfl

variable {g s i}

theorem work_reset (h : i.reset = true) : (s.work g i).state = .init ∧ (s.work g i).req = default ∧
    (s.work g i).epochWrapPending = false ∧ (s.work g i).initSet = 0 ∧
    (s.work g i).response = default ∧ (s.work g i).selectedLine = default := by
  unfold work
  rw [h]
  exact ⟨rfl, rfl, rfl, rfl, rfl, rfl⟩

variable (hreset : i.reset = false)
include hreset

theorem work_eq : s.work g i =
    s.ramWork g i (s.dropCopies g i (s.sequence g i (s.base g i) (s.branch i))) := by
  unfold work
  rw [hreset]
  rfl

theorem work_state : (s.work g i).state = (s.sequence g i s (s.branch i)).state := by
  rw [work_eq hreset]
  exact (sequence_base g s i _).1

theorem work_req : (s.work g i).req = (s.sequence g i s (s.branch i)).req := by
  rw [work_eq hreset]
  exact (sequence_base g s i _).2.1

theorem work_initSet : (s.work g i).initSet = (s.sequence g i s (s.branch i)).initSet := by
  rw [work_eq hreset]
  exact (sequence_base g s i _).2.2.1

theorem work_lookup : (s.work g i).lookup = (s.sequence g i s (s.branch i)).lookup := by
  rw [work_eq hreset]
  exact (sequence_base g s i _).2.2.2.1

theorem work_tagEntries :
    (s.work g i).tagEntries = (s.sequence g i s (s.branch i)).tagEntries := by
  rw [work_eq hreset]
  exact (sequence_base g s i _).2.2.2.2.1

theorem work_response :
    (s.work g i).response.addr = (s.sequence g i s (s.branch i)).response.addr ∧
      (s.work g i).response.data = (s.sequence g i s (s.branch i)).response.data ∧
      (s.work g i).response.valid =
        ((s.sequence g i s (s.branch i)).response.valid && !i.write) := by
  rw [work_eq hreset, ← (sequence_base g s i _).2.2.2.2.2.1]
  exact ⟨rfl, rfl, rfl⟩

/-- Stores and invalidations drop the selected line. -/
theorem work_selectedLine :
    (s.work g i).selectedLine.even = (s.sequence g i s (s.branch i)).selectedLine.even ∧
      (s.work g i).selectedLine.odd = (s.sequence g i s (s.branch i)).selectedLine.odd ∧
      (s.work g i).selectedLine.addr = (s.sequence g i s (s.branch i)).selectedLine.addr ∧
      (s.work g i).selectedLine.valid = ((s.sequence g i s (s.branch i)).selectedLine.valid &&
        !i.write && !(i.invalidate || s.epochWrapPending) &&
        !(i.invalidateLine && s.selectedLine.valid &&
          decide (g.setIndex s.selectedLine.addr = g.setIndex i.invalidateAddr))) := by
  rw [work_eq hreset, ← (sequence_base g s i _).2.2.2.2.2.2]
  exact ⟨rfl, rfl, rfl, rfl⟩

theorem work_refill : (s.work g i).refill = (s.sequence g i (s.base g i) (s.branch i)).refill := by
  rw [work_eq hreset]
  rfl

theorem work_pending : (s.work g i).epochWrapPending =
    (!s.epochWrapPending && s.invalidateEpochWrap g i) := by
  rw [work_eq hreset]
  change (s.sequence g i (s.base g i) (s.branch i)).epochWrapPending = _
  rw [sequence_pending]
  unfold base
  rw [advanceEpoch_eq, clearRefill_eq]
  change (!decide (s.branch i = .wrap) && (s.invalidateEpochWrap g i || s.epochWrapPending)) = _
  cases hpending : s.epochWrapPending with
  | true =>
      rw [show s.branch i = .wrap from if_pos hpending]
      rfl
  | false =>
      have hbranch : s.branch i ≠ .wrap := fun h =>
        Bool.false_ne_true (hpending.symm.trans (taken_of_branch h))
      rw [decide_eq_false hbranch, Bool.or_false]

/-- Only the set of an invalidated line moves to its next generation. -/
theorem work_tagSetEpoch (set : Nat) : (s.work g i).tagSetEpoch set =
    if i.invalidateLine ∧ set = g.setIndex i.invalidateAddr then s.tagSetEpoch set + 1
    else s.tagSetEpoch set := by
  rw [work_eq hreset]
  change (s.sequence g i (s.base g i) (s.branch i)).tagSetEpoch set = _
  rw [sequence_tagSetEpoch]
  unfold base
  rw [advanceEpoch_eq, clearRefill_eq]
  cases hline : i.invalidateLine with
  | false => exact (if_neg fun h => Bool.false_ne_true h.1).symm
  | true =>
      change Function.update s.tagSetEpoch _ _ set = _
      rw [Function.update_apply]
      by_cases h : set = g.setIndex i.invalidateAddr
      · rw [if_pos h, if_pos ⟨rfl, h⟩, h]
      · rw [if_neg h, if_neg fun hboth => h hboth.2]

theorem work_evenRam (way : Nat) : (s.work g i).evenRam way = (s.evenRam way).work false
    (s.installs g i && decide (s.victim = way)) (s.ramRead g i) (s.dataAddr g i)
    (s.refillLines g i).1 := by
  rw [work_eq hreset]
  change (s.evenRam way).work i.reset _ _ _ _ = _
  rw [hreset]

theorem work_oddRam (way : Nat) : (s.work g i).oddRam way = (s.oddRam way).work false
    (s.installs g i && decide (s.victim = way)) (s.ramRead g i) (s.dataAddr g i)
    (s.refillLines g i).2 := by
  rw [work_eq hreset]
  change (s.oddRam way).work i.reset _ _ _ _ = _
  rw [hreset]

theorem work_tagRam (way : Nat) : (s.work g i).tagRam way = (s.tagRam way).work false
    (s.tagWrite g i way) (s.ramRead g i) (s.tagAddr g i) (s.tagData g) := by
  rw [work_eq hreset]
  change (s.tagRam way).work i.reset _ _ _ _ = _
  rw [hreset]

end

/-! ## How a state is entered -/

def nextState (g : L1Geometry) (s : L1Cache) (i : L1Inputs) : Branch → L1CacheFsmState
  | .wrap | .invalidate => .init
  | .conflict | .flush => .idle
  | .init => if s.initSet = g.SETS - 1 then .idle else .init
  | .idle | .done => if s.start g i then .lookup else .idle
  | .lookup => .compare
  | .compare => .select
  | .select => if s.lookup.hit then .assemble else .refill
  | .assemble => .done
  | .refill =>
      if i.memWait = true ∨ s.req.cacheable = true ∧ s.refill.beat ≠ g.REFILL_BEATS - 1 then .refill
      else .done
  | .hold => s.state

section

variable (hreset : i.reset = false)
include hreset

theorem work_nextState : (s.work g i).state = s.nextState g i (s.branch i) := by
  rw [work_state hreset]
  have htaken := branch_taken s i
  cases hb : s.branch i with
  | init =>
      rw [hb] at htaken
      have hstate : s.state = .init := htaken.2
      simp only [sequence, nextState]
      split_ifs
      · rfl
      · exact hstate
  | idle =>
      rw [hb] at htaken
      have hstate : s.state = .idle := htaken.2
      simp only [sequence, nextState]
      split_ifs
      · rfl
      · exact hstate
  | refill =>
      rw [hb] at htaken
      have hstate : s.state = .refill := htaken.2.1
      simp only [sequence, refillLine, finishRefill, nextState]
      cases hwait : i.memWait with
      | true => exact hstate
      | false =>
          cases hcacheable : s.req.cacheable with
          | false => rfl
          | true =>
              by_cases hlast : s.refill.beat = g.REFILL_BEATS - 1
              · simp [hlast]
              · simp [hlast, hstate]
  | select =>
      simp only [sequence, nextState]
      split_ifs <;> rfl
  | done =>
      simp only [sequence, nextState]
      split_ifs <;> rfl
  | _ => rfl

end

def nextReq (g : L1Geometry) (s : L1Cache) (i : L1Inputs) : Branch → L1RequestState
  | .wrap | .conflict | .invalidate | .init => { s.req with read := false }
  | .flush => { s.req with read := false, cacheable := false }
  | .idle => if s.start g i then capture g i else s.req
  | .done =>
      if s.start g i then capture g i else { s.req with read := false, cacheable := false }
  | _ => s.req

theorem work_nextReq (hreset : i.reset = false) :
    (s.work g i).req = s.nextReq g i (s.branch i) := by
  rw [work_req hreset]
  cases s.branch i <;> first
    | rfl
    | simp only [sequence, dropRequest, refillLine, finishRefill, nextReq]
      split_ifs <;> rfl

section

variable (hreset : i.reset = false) (hread : (s.work g i).req.read = true)
include hreset

theorem enter_init (h : (s.work g i).state = .init) :
    (s.branch i = .wrap ∨ s.branch i = .invalidate) ∨
      (s.branch i = .init ∧ s.initSet ≠ g.SETS - 1) := by
  rw [work_nextState hreset] at h
  have htaken := branch_taken s i
  cases hb : s.branch i with
  | wrap => exact .inl (.inl rfl)
  | invalidate => exact .inl (.inr rfl)
  | init =>
      rw [hb] at h
      exact .inr ⟨rfl, fun hlast => L1CacheFsmState.noConfusion ((if_pos hlast).symm.trans h)⟩
  | hold =>
      rw [hb] at h htaken
      have hinit : s.state = .init := h
      have hhold := htaken.2
      rw [hinit] at hhold
      exact absurd hhold.symm (by simp)
  | _ =>
      rw [hb] at h
      simp only [nextState] at h
      first | cases h | split_ifs at h

include hread

/-- No state with a request is held but `DONE`. -/
theorem hold_done (hb : s.branch i = .hold) : s.state = .done := by
  rw [work_nextReq hreset, hb] at hread
  rcases (taken_of_branch hb).2 with hdone | ⟨-, hidle⟩
  · exact hdone
  · exact absurd (hidle.symm.trans hread) Bool.false_ne_true

theorem enter_lookup (h : (s.work g i).state = .lookup) :
    s.Quiet i ∧ s.start g i = true ∧ (s.work g i).req = capture g i := by
  rw [work_nextState hreset] at h
  have htaken := branch_taken s i
  rw [work_nextReq hreset]
  cases hb : s.branch i with
  | idle =>
      rw [hb] at h htaken
      have hstart : s.start g i = true := by
        by_contra hno
        exact L1CacheFsmState.noConfusion ((if_neg hno).symm.trans h)
      exact ⟨htaken.1, hstart, if_pos hstart⟩
  | done =>
      rw [hb] at h htaken
      have hstart : s.start g i = true := by
        by_contra hno
        exact L1CacheFsmState.noConfusion ((if_neg hno).symm.trans h)
      exact ⟨htaken.1, hstart, if_pos hstart⟩
  | hold =>
      rw [hb] at h
      cases (hold_done hreset hread hb).symm.trans h
  | _ =>
      rw [hb] at h
      simp only [nextState] at h
      first | cases h | split_ifs at h

theorem enter_compare (h : (s.work g i).state = .compare) :
    s.branch i = .lookup ∧ (s.work g i).req = s.req := by
  rw [work_nextState hreset] at h
  rw [work_nextReq hreset]
  cases hb : s.branch i with
  | lookup => exact ⟨rfl, rfl⟩
  | hold =>
      rw [hb] at h
      cases (hold_done hreset hread hb).symm.trans h
  | _ =>
      rw [hb] at h
      simp only [nextState] at h
      first | cases h | split_ifs at h

theorem enter_select (h : (s.work g i).state = .select) :
    s.branch i = .compare ∧ (s.work g i).req = s.req := by
  rw [work_nextState hreset] at h
  rw [work_nextReq hreset]
  cases hb : s.branch i with
  | compare => exact ⟨rfl, rfl⟩
  | hold =>
      rw [hb] at h
      cases (hold_done hreset hread hb).symm.trans h
  | _ =>
      rw [hb] at h
      simp only [nextState] at h
      first | cases h | split_ifs at h

theorem enter_assemble (h : (s.work g i).state = .assemble) :
    s.branch i = .select ∧ s.lookup.hit = true ∧ (s.work g i).req = s.req := by
  rw [work_nextState hreset] at h
  rw [work_nextReq hreset]
  cases hb : s.branch i with
  | select =>
      rw [hb] at h
      refine ⟨rfl, ?_, rfl⟩
      by_contra hno
      exact L1CacheFsmState.noConfusion ((if_neg hno).symm.trans h)
  | hold =>
      rw [hb] at h
      cases (hold_done hreset hread hb).symm.trans h
  | _ =>
      rw [hb] at h
      simp only [nextState] at h
      first | cases h | split_ifs at h

theorem enter_refill (h : (s.work g i).state = .refill) :
    (s.branch i = .select ∨
        s.branch i = .refill ∧ (i.memWait = true ∨
          s.req.cacheable = true ∧ s.refill.beat ≠ g.REFILL_BEATS - 1)) ∧
      (s.work g i).req = s.req := by
  rw [work_nextState hreset] at h
  rw [work_nextReq hreset]
  cases hb : s.branch i with
  | select => exact ⟨.inl rfl, rfl⟩
  | refill =>
      rw [hb] at h
      refine ⟨.inr ⟨rfl, ?_⟩, rfl⟩
      by_contra hno
      exact L1CacheFsmState.noConfusion ((if_neg hno).symm.trans h)
  | hold =>
      rw [hb] at h
      cases (hold_done hreset hread hb).symm.trans h
  | _ =>
      rw [hb] at h
      simp only [nextState] at h
      first | cases h | split_ifs at h

end

/-! ## The selected line and the response -/

section

variable (g s i)

/-- In a refill a last beat is one that installs the line. -/
theorem installs_of_refill (hbranch : s.branch i = .refill) : s.installs g i =
    (!i.memWait && s.req.cacheable && decide (s.refill.beat = g.REFILL_BEATS - 1)) := by
  obtain ⟨-, hstate, hread⟩ := taken_of_branch hbranch
  unfold installs accepts
  rw [hstate, hread]
  rfl

theorem sequence_selectedLine : (s.sequence g i s (s.branch i)).selectedLine =
    if s.branch i = .select ∧ s.lookup.hit = true then s.selectedLineComb g
    else if s.branch i = .refill ∧ s.installs g i = true then
      { even := (s.refillLines g i).1
        odd := (s.refillLines g i).2
        addr := lineBase s.req.addr
        valid := true }
    else s.selectedLine := by
  cases hbranch : s.branch i with
  | select =>
      cases hhit : s.lookup.hit with
      | true => simp only [sequence, hhit, if_true, and_self]
      | false => simp [sequence, hhit]
  | refill =>
      rw [installs_of_refill g s i hbranch]
      simp only [sequence, refillLine, finishRefill]
      cases i.memWait with
      | true => rfl
      | false =>
          cases s.req.cacheable with
          | false => rfl
          | true => by_cases hlast : s.refill.beat = g.REFILL_BEATS - 1 <;> simp [hlast]
  | _ =>
      rw [if_neg (by simp), if_neg (by simp)]
      first
        | rfl
        | simp only [sequence, dropRequest]
          split_ifs <;> rfl

theorem sequence_response_valid (h : (s.sequence g i s (s.branch i)).response.valid = true) :
    (s.branch i = .assemble ∧ (s.sequence g i s (s.branch i)).response =
        ⟨s.req.addr, s.lookupData, true⟩) ∨
      (s.branch i = .refill ∧ s.installs g i = true ∧
        (s.sequence g i s (s.branch i)).response = ⟨s.req.addr,
          if s.refill.beat = g.refillBeat s.req.addr then s.directData g i
          else if s.refill.reqDataValid then s.refill.reqData
          else s.refillData g i, true⟩) ∨
      (s.branch i = .refill ∧ s.accepts i = true ∧ s.req.cacheable = false ∧
        (s.sequence g i s (s.branch i)).response = ⟨s.req.addr, s.directData g i, true⟩) ∨
      (s.response.valid = true ∧ (s.branch i = .hold ∨ s.state ≠ .done) ∧
        (s.sequence g i s (s.branch i)).response = s.response) := by
  have htaken := branch_taken s i
  cases hbranch : s.branch i with
  | assemble => exact .inl ⟨rfl, rfl⟩
  | refill =>
      obtain ⟨-, hstate, hread⟩ := taken_of_branch hbranch
      rw [hbranch] at h
      rw [installs_of_refill g s i hbranch]
      have haccepts : s.accepts i = !i.memWait := by
        unfold accepts
        rw [hstate, hread]
        rfl
      rw [haccepts]
      simp only [sequence, refillLine, finishRefill] at h ⊢
      have hdone : s.state ≠ .done := by rw [hstate]; simp
      cases hwait : i.memWait with
      | true =>
          rw [hwait] at h
          exact .inr (.inr (.inr ⟨h, .inr hdone, rfl⟩))
      | false =>
          rw [hwait] at h
          cases hcacheable : s.req.cacheable with
          | false => exact .inr (.inr (.inl ⟨trivial, rfl, rfl, rfl⟩))
          | true =>
              rw [hcacheable] at h
              by_cases hlast : s.refill.beat = g.REFILL_BEATS - 1
              · exact .inr (.inl ⟨trivial, by simp [hlast], by simp [hlast]⟩)
              · refine .inr (.inr (.inr ⟨?_, .inr hdone, ?_⟩))
                · simpa [hlast] using h
                · simp [hlast]
  | hold =>
      rw [hbranch] at h
      exact .inr (.inr (.inr ⟨h, .inl rfl, rfl⟩))
  | select =>
      rw [hbranch] at h htaken
      refine .inr (.inr (.inr ⟨?_, .inr (by rw [htaken.2.1]; simp), ?_⟩)) <;>
        simp only [sequence] at h ⊢
      · split_ifs at h <;> exact h
      · split_ifs <;> rfl
  | lookup =>
      rw [hbranch] at h htaken
      exact .inr (.inr (.inr ⟨h, .inr (by rw [htaken.2.1]; simp), rfl⟩))
  | compare =>
      rw [hbranch] at h htaken
      exact .inr (.inr (.inr ⟨h, .inr (by rw [htaken.2.1]; simp), rfl⟩))
  | _ =>
      rw [hbranch] at h
      simp only [sequence, dropRequest] at h
      first | cases h | split_ifs at h

end

end CppHdl.Cache.L1Cache
