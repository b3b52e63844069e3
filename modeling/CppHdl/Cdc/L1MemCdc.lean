import CppHdl.Lib.Transition
import Mathlib.Data.BitVec
import Mathlib.Data.List.Pairwise

/-!
# The memory port of a cache between two clocks

`L1MemFastToSlowCdc` captures a request of the fast side, sends a toggle to the
slow side, which performs the request and sends the answer back with a second
toggle. A request that is withdrawn meanwhile is marked, and its answer dropped.
-/

namespace CppHdl.Cdc

structure L1MemRequest where
  read : Bool
  write : Bool
  addr : BitVec 32
  writeData : BitVec 32
  writeMask : BitVec 8
  cacheDisable : Bool
  deriving DecidableEq, Inhabited

def L1MemRequest.request (i : L1MemRequest) : Bool := i.read || i.write

/-- `fast` and `slow` are the captured requests of the two sides. -/
structure L1MemFastToSlowCdc (PORT_BITWIDTH : Nat) where
  fast : L1MemRequest
  requestFast : Bool
  requestActiveFast : Bool
  requestOrphanedFast : Bool
  responseFast1 : Bool
  responseFast2 : Bool
  responseAckFast : Bool
  readDataFast : BitVec PORT_BITWIDTH
  requestSlow1 : Bool
  requestSlow2 : Bool
  requestSeenSlow : Bool
  requestActiveSlow : Bool
  slow : L1MemRequest
  readDataSlow : BitVec PORT_BITWIDTH
  responseSlow : Bool

variable {PORT_BITWIDTH : Nat}

namespace L1MemFastToSlowCdc

section

variable (s : L1MemFastToSlowCdc PORT_BITWIDTH)

def waitOut (i : L1MemRequest) : Bool :=
  i.request && !(s.requestActiveFast && !s.requestOrphanedFast &&
    s.responseFast2 != s.responseAckFast)

def slowOut : L1MemRequest :=
  { s.slow with
    read := s.requestActiveSlow && s.slow.read
    write := s.requestActiveSlow && s.slow.write }

def answered : Bool := s.requestActiveFast && s.responseFast2 != s.responseAckFast

/-- Else a new request is captured. -/
def captures (fastIn : L1MemRequest) : Bool :=
  !s.answered && (!s.requestActiveFast && fastIn.request)

/-- Else the request is withdrawn. -/
def withdraws (fastIn : L1MemRequest) : Bool :=
  !s.answered && (s.requestActiveFast && !fastIn.request)

/-- `work_clk_func` on the registers `n`. -/
def workClk (reset : Bool) (fastIn : L1MemRequest) (n : L1MemFastToSlowCdc PORT_BITWIDTH) :
    L1MemFastToSlowCdc PORT_BITWIDTH :=
  let taken := s.captures fastIn
  let withdrawn := s.withdraws fastIn
  if reset then
    { n with
      fast := default
      requestFast := false
      requestActiveFast := false
      requestOrphanedFast := false
      responseFast1 := false
      responseFast2 := false
      responseAckFast := false
      readDataFast := 0 }
  else
    { n with
      fast := if taken then fastIn else n.fast
      requestFast := if taken then !s.requestFast else n.requestFast
      requestActiveFast := if s.answered then false else if taken then true else n.requestActiveFast
      requestOrphanedFast := if s.answered then false else if taken then false
        else if withdrawn then true else n.requestOrphanedFast
      responseFast1 := s.responseSlow
      responseFast2 := s.responseFast1
      responseAckFast := if s.answered then s.responseFast2 else n.responseAckFast
      readDataFast := if s.responseFast1 != s.responseFast2 then s.readDataSlow else n.readDataFast }

/-- `_work_l2_clock` on the registers `n`. -/
def workL2Clock (reset slowWait : Bool) (slowData : BitVec PORT_BITWIDTH)
    (n : L1MemFastToSlowCdc PORT_BITWIDTH) : L1MemFastToSlowCdc PORT_BITWIDTH :=
  let taken := !s.requestActiveSlow && s.requestSlow2 != s.requestSeenSlow
  let done := s.requestActiveSlow && !slowWait
  if reset then
    { n with
      requestSlow1 := false
      requestSlow2 := false
      requestSeenSlow := false
      requestActiveSlow := false
      slow := default
      readDataSlow := 0
      responseSlow := false }
  else
    { n with
      requestSlow1 := s.requestFast
      requestSlow2 := s.requestSlow1
      requestSeenSlow := if taken then s.requestSlow2 else n.requestSeenSlow
      slow := if taken then s.fast else n.slow
      requestActiveSlow := if taken then true else if done then false else n.requestActiveSlow
      readDataSlow := if done then slowData else n.readDataSlow
      responseSlow := if done then !s.responseSlow else n.responseSlow }

end

/-! ## Edges -/

/-- Edges of the fast clock with a request, of the slow clock with `wait_out` and
`read_data_out` of the memory, or of both. -/
structure Edges (PORT_BITWIDTH : Nat) where
  fast : Option L1MemRequest
  slow : Option (Bool × BitVec PORT_BITWIDTH)

def clock (s : L1MemFastToSlowCdc PORT_BITWIDTH) (e : Edges PORT_BITWIDTH) :
    L1MemFastToSlowCdc PORT_BITWIDTH :=
  let n := match e.fast with
    | some i => s.workClk false i s
    | none => s
  match e.slow with
  | some (wait, data) => s.workL2Clock false wait data n
  | none => n

/-- After the resets of both sides. -/
structure Cleared (s : L1MemFastToSlowCdc PORT_BITWIDTH) : Prop where
  requestFast : s.requestFast = false
  requestActiveFast : s.requestActiveFast = false
  requestOrphanedFast : s.requestOrphanedFast = false
  responseFast1 : s.responseFast1 = false
  responseFast2 : s.responseFast2 = false
  responseAckFast : s.responseAckFast = false
  requestSlow1 : s.requestSlow1 = false
  requestSlow2 : s.requestSlow2 = false
  requestSeenSlow : s.requestSeenSlow = false
  requestActiveSlow : s.requestActiveSlow = false
  responseSlow : s.responseSlow = false

end L1MemFastToSlowCdc

/-! ## Requests and answers -/

/-- The bridge with what it did: the requests captured, those the memory performed
with its answers, and the numbers of those that were answered to the requester.
`waiting` is the request the requester waits for, `withdrawn` says that it was away
since the last capture. -/
structure CdcWorld (PORT_BITWIDTH : Nat) where
  dev : L1MemFastToSlowCdc PORT_BITWIDTH
  captured : List L1MemRequest
  executed : List (L1MemRequest × BitVec PORT_BITWIDTH)
  completions : List Nat
  waiting : Option L1MemRequest
  withdrawn : Bool

namespace CdcWorld

variable (w : CdcWorld PORT_BITWIDTH)

/-- The requester sees its answer. -/
def completes (i : L1MemRequest) : Bool := i.request && !w.dev.waitOut i

/-- The fast side's part of the record. -/
def recordFast (i : L1MemRequest) (n : CdcWorld PORT_BITWIDTH) : CdcWorld PORT_BITWIDTH :=
  { n with
    captured := if w.dev.captures i then w.captured ++ [i] else n.captured
    completions := if w.completes i then w.completions ++ [w.captured.length] else n.completions
    waiting := if w.dev.waitOut i then some i else none
    withdrawn := if w.dev.captures i then false else w.withdrawn || !i.request }

/-- The slow side's part: the memory performs the request it sees. -/
def recordSlow (wait : Bool) (data : BitVec PORT_BITWIDTH) (n : CdcWorld PORT_BITWIDTH) :
    CdcWorld PORT_BITWIDTH :=
  { n with
    executed := if w.dev.slowOut.request && !wait then w.executed ++ [(w.dev.slowOut, data)]
      else n.executed }

def next (e : L1MemFastToSlowCdc.Edges PORT_BITWIDTH) : CdcWorld PORT_BITWIDTH :=
  let n := match e.fast with
    | some i => w.recordFast i w
    | none => w
  let n := match e.slow with
    | some (wait, data) => w.recordSlow wait data n
    | none => n
  { n with dev := w.dev.clock e }

/-- A requester that waits holds its request or withdraws it. -/
def Holds (e : L1MemFastToSlowCdc.Edges PORT_BITWIDTH) : Prop :=
  ∀ i p, e.fast = some i → w.waiting = some p → i = p ∨ i.request = false

def system (PORT_BITWIDTH : Nat) :
    Transitions (CdcWorld PORT_BITWIDTH) (L1MemFastToSlowCdc.Edges PORT_BITWIDTH) where
  init w := w.dev.Cleared ∧ w.captured = [] ∧ w.executed = [] ∧ w.completions = [] ∧
    w.waiting = none
  step
    | w, some e, w' => w.Holds e ∧ w' = w.next e
    | _, none, _ => False

/-! ## What a step does -/

section

variable (e : L1MemFastToSlowCdc.Edges PORT_BITWIDTH)

def takes : Bool := e.fast.any w.dev.captures

/-- The answer is consumed or dropped. -/
def acks : Bool := e.fast.isSome && w.dev.answered

/-- The request that is under way is withdrawn. -/
def withdraws : Bool := e.fast.any w.dev.withdraws

/-- The slow side takes the request over. -/
def fetches : Bool :=
  e.slow.isSome && (!w.dev.requestActiveSlow && w.dev.requestSlow2 != w.dev.requestSeenSlow)

/-- The memory answers. -/
def performs : Bool := e.slow.any fun x => w.dev.requestActiveSlow && !x.1

/-- The registers after a step. -/
structure Stepped (d : L1MemFastToSlowCdc PORT_BITWIDTH) : Prop where
  requestFast : d.requestFast = (w.dev.requestFast != w.takes e)
  active : d.requestActiveFast =
    if w.acks e then false else if w.takes e then true else w.dev.requestActiveFast
  orphaned : d.requestOrphanedFast = if w.acks e then false else if w.takes e then false
    else if w.withdraws e then true else w.dev.requestOrphanedFast
  response1 : d.responseFast1 = if e.fast.isSome then w.dev.responseSlow else w.dev.responseFast1
  response2 : d.responseFast2 = if e.fast.isSome then w.dev.responseFast1 else w.dev.responseFast2
  ack : d.responseAckFast = if w.acks e then w.dev.responseFast2 else w.dev.responseAckFast
  readDataFast : d.readDataFast = if e.fast.isSome && w.dev.responseFast1 != w.dev.responseFast2
    then w.dev.readDataSlow else w.dev.readDataFast
  fast : w.takes e = false → d.fast = w.dev.fast
  request1 : d.requestSlow1 = if e.slow.isSome then w.dev.requestFast else w.dev.requestSlow1
  request2 : d.requestSlow2 = if e.slow.isSome then w.dev.requestSlow1 else w.dev.requestSlow2
  seen : d.requestSeenSlow = if w.fetches e then w.dev.requestSlow2 else w.dev.requestSeenSlow
  activeSlow : d.requestActiveSlow = if w.fetches e then true else if w.performs e then false
    else w.dev.requestActiveSlow
  slow : d.slow = if w.fetches e then w.dev.fast else w.dev.slow
  response : d.responseSlow = (w.dev.responseSlow != w.performs e)
  readDataSlow : w.performs e = false → d.readDataSlow = w.dev.readDataSlow

theorem ite_not_eq (b x : Bool) : (if b then !x else x) = (x != b) := by
  cases b <;> cases x <;> rfl

theorem stepped : w.Stepped e (w.next e).dev := by
  obtain ⟨_ | i, _ | ⟨wait, data⟩⟩ := e
  · exact ⟨(Bool.bne_false _).symm, rfl, rfl, rfl, rfl, rfl, rfl, fun _ => rfl, rfl, rfl, rfl, rfl, rfl,
      (Bool.bne_false _).symm, fun _ => rfl⟩
  · exact ⟨(Bool.bne_false _).symm, rfl, rfl, rfl, rfl, rfl, rfl, fun _ => rfl, rfl, rfl, rfl, rfl, rfl,
      ite_not_eq _ _, fun h => if_neg (Bool.eq_false_iff.mp h)⟩
  · exact ⟨ite_not_eq _ _, rfl, rfl, rfl, rfl, rfl, rfl, fun h => if_neg (Bool.eq_false_iff.mp h), rfl,
      rfl, rfl, rfl, rfl, (Bool.bne_false _).symm, fun _ => rfl⟩
  · exact ⟨ite_not_eq _ _, rfl, rfl, rfl, rfl, rfl, rfl, fun h => if_neg (Bool.eq_false_iff.mp h), rfl,
      rfl, rfl, rfl, rfl, ite_not_eq _ _, fun h => if_neg (Bool.eq_false_iff.mp h)⟩

variable {w} {e}

theorem waitOut_of_not_answered (h : w.dev.answered = false) (i : L1MemRequest) :
    w.dev.waitOut i = i.request := by
  unfold L1MemFastToSlowCdc.answered at h
  unfold L1MemFastToSlowCdc.waitOut
  rw [Bool.and_assoc, Bool.and_left_comm, h, Bool.and_false, Bool.not_false, Bool.and_true]

theorem completes_of_not_answered (h : w.dev.answered = false) (i : L1MemRequest) :
    w.completes i = false := by
  unfold completes
  rw [waitOut_of_not_answered h]
  exact Bool.and_not_self _

theorem takes_true (h : w.takes e = true) :
    ∃ i, e.fast = some i ∧ i.request = true ∧ w.dev.requestActiveFast = false ∧
      (w.next e).captured = w.captured ++ [i] ∧ (w.next e).dev.fast = i ∧
      (w.next e).waiting = some i ∧ (w.next e).withdrawn = false ∧
      (w.next e).completions = w.completions := by
  obtain ⟨_ | i, slow⟩ := e
  · cases h
  change w.dev.captures i = true at h
  have hcaptures := h
  unfold L1MemFastToSlowCdc.captures at hcaptures
  simp only [Bool.and_eq_true, Bool.not_eq_true'] at hcaptures
  obtain ⟨hans, hactive, hrequest⟩ := hcaptures
  have hcompletes := completes_of_not_answered hans i
  have hwait : w.dev.waitOut i = true := (waitOut_of_not_answered hans i).trans hrequest
  refine ⟨i, rfl, hrequest, hactive, ?_⟩
  cases slow with
  | none =>
      exact ⟨if_pos h, if_pos h, if_pos hwait, if_pos h, if_neg (Bool.eq_false_iff.mp hcompletes)⟩
  | some x =>
      exact ⟨if_pos h, if_pos h, if_pos hwait, if_pos h, if_neg (Bool.eq_false_iff.mp hcompletes)⟩

theorem takes_false (h : w.takes e = false) : (w.next e).captured = w.captured := by
  obtain ⟨_ | i, _ | x⟩ := e
  · rfl
  · rfl
  · exact if_neg (Bool.eq_false_iff.mp h)
  · exact if_neg (Bool.eq_false_iff.mp h)

theorem performs_false (h : w.performs e = false) : (w.next e).executed = w.executed := by
  have key : ∀ x : Bool × BitVec PORT_BITWIDTH, (w.dev.requestActiveSlow && !x.1) = false →
      ¬ (w.dev.slowOut.request && !x.1) = true := by
    intro x hx hrequest
    unfold L1MemFastToSlowCdc.slowOut L1MemRequest.request at hrequest
    revert hx hrequest
    cases w.dev.requestActiveSlow <;> cases x.1 <;> simp
  obtain ⟨_ | i, _ | x⟩ := e
  · rfl
  · exact if_neg (key x h)
  · rfl
  · exact if_neg (key x h)

theorem performs_true (h : w.performs e = true) (hrequest : w.dev.slow.request = true) :
    (w.next e).executed = w.executed ++ [(w.dev.slow, (w.next e).dev.readDataSlow)] := by
  have key : ∀ x : Bool × BitVec PORT_BITWIDTH, (w.dev.requestActiveSlow && !x.1) = true →
      w.dev.slowOut = w.dev.slow ∧ (w.dev.slowOut.request && !x.1) = true := by
    intro x hx
    obtain ⟨hactive, hwait⟩ := Bool.and_eq_true_iff.mp hx
    have hslow : w.dev.slowOut = w.dev.slow := by
      unfold L1MemFastToSlowCdc.slowOut
      rw [hactive]
      rfl
    rw [hslow, hrequest, hwait]
    exact ⟨rfl, rfl⟩
  obtain ⟨_ | i, _ | x⟩ := e
  · cases h
  · obtain ⟨hslow, hcond⟩ := key x h
    have hdata : (w.next ⟨none, some x⟩).dev.readDataSlow = x.2 := if_pos h
    rw [hdata, ← hslow]
    exact if_pos hcond
  · cases h
  · obtain ⟨hslow, hcond⟩ := key x h
    have hdata : (w.next ⟨some i, some x⟩).dev.readDataSlow = x.2 := if_pos h
    rw [hdata, ← hslow]
    exact if_pos hcond

end

/-! ## Phases -/

/-- No request is under way. -/
structure Idle (w : CdcWorld PORT_BITWIDTH) : Prop where
  active : w.dev.requestActiveFast = false
  activeSlow : w.dev.requestActiveSlow = false
  request : w.dev.requestFast = w.dev.requestSeenSlow
  request1 : w.dev.requestSlow1 = w.dev.requestSeenSlow
  request2 : w.dev.requestSlow2 = w.dev.requestSeenSlow
  response : w.dev.responseSlow = w.dev.responseAckFast
  response1 : w.dev.responseFast1 = w.dev.responseAckFast
  response2 : w.dev.responseFast2 = w.dev.responseAckFast
  captured : w.captured = w.executed.map Prod.fst

/-- The last request captured is under way. -/
structure Busy (w : CdcWorld PORT_BITWIDTH) : Prop where
  active : w.dev.requestActiveFast = true
  request : w.dev.fast.request = true
  waiting : w.dev.requestOrphanedFast = false → w.waiting = some w.dev.fast ∧ w.withdrawn = false
  completions : ∀ n ∈ w.completions, n < w.captured.length

/-- Its toggle is on the way to the slow side. -/
structure Sent (w : CdcWorld PORT_BITWIDTH) : Prop extends Busy w where
  activeSlow : w.dev.requestActiveSlow = false
  toggle : w.dev.requestFast ≠ w.dev.requestSeenSlow
  order : w.dev.requestSlow2 ≠ w.dev.requestSeenSlow → w.dev.requestSlow1 ≠ w.dev.requestSeenSlow
  response : w.dev.responseSlow = w.dev.responseAckFast
  response1 : w.dev.responseFast1 = w.dev.responseAckFast
  response2 : w.dev.responseFast2 = w.dev.responseAckFast
  captured : w.captured = w.executed.map Prod.fst ++ [w.dev.fast]

structure Running (w : CdcWorld PORT_BITWIDTH) : Prop extends Busy w where
  activeSlow : w.dev.requestActiveSlow = true
  slow : w.dev.slow = w.dev.fast
  requestFast : w.dev.requestFast = w.dev.requestSeenSlow
  request1 : w.dev.requestSlow1 = w.dev.requestSeenSlow
  request2 : w.dev.requestSlow2 = w.dev.requestSeenSlow
  response : w.dev.responseSlow = w.dev.responseAckFast
  response1 : w.dev.responseFast1 = w.dev.responseAckFast
  response2 : w.dev.responseFast2 = w.dev.responseAckFast
  captured : w.captured = w.executed.map Prod.fst ++ [w.dev.fast]

/-- Its answer is on the way back. -/
structure Answered (w : CdcWorld PORT_BITWIDTH) : Prop extends Busy w where
  activeSlow : w.dev.requestActiveSlow = false
  requestFast : w.dev.requestFast = w.dev.requestSeenSlow
  request1 : w.dev.requestSlow1 = w.dev.requestSeenSlow
  request2 : w.dev.requestSlow2 = w.dev.requestSeenSlow
  toggle : w.dev.responseSlow ≠ w.dev.responseAckFast
  order : w.dev.responseFast2 ≠ w.dev.responseAckFast → w.dev.responseFast1 ≠ w.dev.responseAckFast
  executed : ∃ earlier, w.executed = earlier ++ [(w.dev.fast, w.dev.readDataSlow)]
  captured : w.captured = w.executed.map Prod.fst
  data : w.dev.responseFast2 ≠ w.dev.responseAckFast → w.dev.readDataFast = w.dev.readDataSlow

inductive Phase (w : CdcWorld PORT_BITWIDTH) : Prop
  | idle (h : w.Idle)
  | sent (h : w.Sent)
  | running (h : w.Running)
  | answered (h : w.Answered)

/-- What holds in every state reached. -/
structure Inv (w : CdcWorld PORT_BITWIDTH) : Prop where
  phase : w.Phase
  completions : ∀ n ∈ w.completions, n ≤ w.captured.length
  increasing : w.completions.Pairwise (· < ·)

section

variable {w : CdcWorld PORT_BITWIDTH} {e : L1MemFastToSlowCdc.Edges PORT_BITWIDTH}

theorem Busy.takes (h : w.Busy) : w.takes e = false := by
  refine Bool.eq_false_iff.mpr fun htakes => ?_
  obtain ⟨i, -, -, hactive, -⟩ := takes_true htakes
  rw [h.active] at hactive
  cases hactive

/-- A requester that was not marked as withdrawn still holds its request. -/
theorem Busy.held (h : w.Busy) (hholds : w.Holds e) {i : L1MemRequest} (hi : e.fast = some i)
    (horphaned : w.dev.requestOrphanedFast = false) (hrequest : i.request = true) :
    i = w.dev.fast := by
  rcases hholds i w.dev.fast hi (h.waiting horphaned).1 with heq | hlow
  · exact heq
  · rw [hrequest] at hlow
    cases hlow

/-- Without an answer the request stays under way. -/
theorem Busy.step (h : w.Busy) (hholds : w.Holds e) (hans : w.acks e = false) :
    (w.next e).Busy := by
  have hstep := w.stepped e
  have htakes := @Busy.takes _ w e h
  have hfast := hstep.fast htakes
  have hcaptured := takes_false htakes
  have hactive : (w.next e).dev.requestActiveFast = true := by
    rw [hstep.active, hans, htakes]
    exact h.active
  have horphaned : (w.next e).dev.requestOrphanedFast =
      if w.withdraws e then true else w.dev.requestOrphanedFast := by
    rw [hstep.orphaned, hans, htakes]
    rfl
  refine ⟨hactive, hfast ▸ h.request, fun hkept => ?_, ?_⟩
  · rw [horphaned] at hkept
    split_ifs at hkept with hwithdraws
    obtain ⟨hwaiting, hwithdrawn⟩ := h.waiting hkept
    rw [hfast]
    obtain ⟨_ | i, slow⟩ := e
    · cases slow with
      | none => exact ⟨hwaiting, hwithdrawn⟩
      | some x => exact ⟨hwaiting, hwithdrawn⟩
    · have hrequest : i.request = true := by
        change ¬ w.dev.withdraws i = true at hwithdraws
        change w.dev.answered = false at hans
        unfold L1MemFastToSlowCdc.withdraws at hwithdraws
        rw [hans, h.active] at hwithdraws
        simpa using hwithdraws
      have hheld := h.held hholds rfl hkept hrequest
      have hwait : w.dev.waitOut i = true := (waitOut_of_not_answered hans i).trans hrequest
      have hcaptures : w.dev.captures i = false := htakes
      have hwaiting' : (if w.dev.waitOut i then some i else none) = some w.dev.fast := by
        rw [if_pos hwait, hheld]
      have hwithdrawn' : (if w.dev.captures i then false else w.withdrawn || !i.request) = false := by
        rw [hcaptures, hwithdrawn, hrequest]
        rfl
      cases slow with
      | none => exact ⟨hwaiting', hwithdrawn'⟩
      | some x => exact ⟨hwaiting', hwithdrawn'⟩
  · have hcompletions : (w.next e).completions = w.completions := by
      obtain ⟨_ | i, _ | x⟩ := e
      · rfl
      · rfl
      · exact if_neg (Bool.eq_false_iff.mp (completes_of_not_answered hans i))
      · exact if_neg (Bool.eq_false_iff.mp (completes_of_not_answered hans i))
    rw [hcompletions, hcaptured]
    exact h.completions

theorem acks_of_response (h : w.dev.responseFast2 = w.dev.responseAckFast) : w.acks e = false := by
  unfold acks L1MemFastToSlowCdc.answered
  rw [h, bne_self_eq_false, Bool.and_false, Bool.and_false]

theorem fetches_of_active (h : w.dev.requestActiveSlow = true) : w.fetches e = false := by
  unfold fetches
  rw [h, Bool.not_true, Bool.false_and, Bool.and_false]

theorem fetches_of_seen (h : w.dev.requestSlow2 = w.dev.requestSeenSlow) : w.fetches e = false := by
  unfold fetches
  rw [h, bne_self_eq_false, Bool.and_false, Bool.and_false]

theorem performs_of_idle (h : w.dev.requestActiveSlow = false) : w.performs e = false := by
  unfold performs
  rw [h]
  cases e.slow with
  | none => rfl
  | some x => rfl

theorem ite_same {α : Type} {b : Bool} {x y z : α} (hx : x = z) (hy : y = z) :
    (if b then x else y) = z := by
  cases b with
  | false => exact hy
  | true => exact hx

theorem Idle.step (h : w.Idle) (hc : ∀ n ∈ w.completions, n ≤ w.captured.length) :
    (w.next e).Phase := by
  have hstep := w.stepped e
  have hacks := acks_of_response h.response2 (e := e)
  have hfetches := fetches_of_seen h.request2 (e := e)
  have hperforms := performs_of_idle h.activeSlow (e := e)
  have hexecuted := performs_false hperforms
  have hseen : (w.next e).dev.requestSeenSlow = w.dev.requestSeenSlow := by
    rw [hstep.seen, hfetches]
    rfl
  have hack : (w.next e).dev.responseAckFast = w.dev.responseAckFast := by
    rw [hstep.ack, hacks]
    rfl
  have hactiveSlow : (w.next e).dev.requestActiveSlow = false := by
    rw [hstep.activeSlow, hfetches, hperforms]
    exact h.activeSlow
  have hrequest1 : (w.next e).dev.requestSlow1 = (w.next e).dev.requestSeenSlow := by
    rw [hstep.request1, hseen]
    exact ite_same h.request h.request1
  have hrequest2 : (w.next e).dev.requestSlow2 = (w.next e).dev.requestSeenSlow := by
    rw [hstep.request2, hseen]
    exact ite_same h.request1 h.request2
  have hresponse : (w.next e).dev.responseSlow = (w.next e).dev.responseAckFast := by
    rw [hstep.response, hperforms, hack, Bool.bne_false]
    exact h.response
  have hresponse1 : (w.next e).dev.responseFast1 = (w.next e).dev.responseAckFast := by
    rw [hstep.response1, hack]
    exact ite_same h.response h.response1
  have hresponse2 : (w.next e).dev.responseFast2 = (w.next e).dev.responseAckFast := by
    rw [hstep.response2, hack]
    exact ite_same h.response1 h.response2
  cases htakes : w.takes e with
  | false =>
      refine .idle ⟨?_, hactiveSlow, ?_, hrequest1, hrequest2, hresponse, hresponse1, hresponse2, ?_⟩
      · rw [hstep.active, hacks, htakes]
        exact h.active
      · rw [hstep.requestFast, htakes, hseen, Bool.bne_false]
        exact h.request
      · rw [takes_false htakes, hexecuted]
        exact h.captured
  | true =>
      obtain ⟨i, hi, hireq, -, hcaptured, hfast, hwaiting, hwithdrawn, hcompletions⟩ :=
        takes_true htakes
      have hbusy : (w.next e).Busy := by
        refine ⟨?_, hfast ▸ hireq, fun _ => ?_, ?_⟩
        · rw [hstep.active, hacks, htakes]
          rfl
        · rw [hfast]
          exact ⟨hwaiting, hwithdrawn⟩
        · rw [hcompletions, hcaptured, List.length_append]
          exact fun n hn => Nat.lt_succ_of_le (hc n hn)
      refine .sent { hbusy with
        activeSlow := hactiveSlow
        toggle := ?_
        order := fun hne => (hne hrequest2).elim
        response := hresponse
        response1 := hresponse1
        response2 := hresponse2
        captured := ?_ }
      · rw [hstep.requestFast, htakes, hseen, h.request]
        cases w.dev.requestSeenSlow <;> decide
      · rw [hcaptured, hfast, hexecuted, h.captured]

/-- Sent until the slow side takes it over. -/
theorem Sent.step (h : w.Sent) (hholds : w.Holds e) : (w.next e).Phase := by
  have hstep := w.stepped e
  have hacks := acks_of_response h.response2 (e := e)
  have htakes := @Busy.takes _ w e h.toBusy
  have hperforms := performs_of_idle h.activeSlow (e := e)
  have hbusy := h.toBusy.step hholds hacks
  have hcaptured : (w.next e).captured =
      (w.next e).executed.map Prod.fst ++ [(w.next e).dev.fast] := by
    rw [takes_false htakes, performs_false hperforms, hstep.fast htakes]
    exact h.captured
  have hrequest : (w.next e).dev.requestFast = w.dev.requestFast := by
    rw [hstep.requestFast, htakes, Bool.bne_false]
  have hack : (w.next e).dev.responseAckFast = w.dev.responseAckFast := by
    rw [hstep.ack, hacks]
    rfl
  have hresponse : (w.next e).dev.responseSlow = (w.next e).dev.responseAckFast := by
    rw [hstep.response, hperforms, hack, Bool.bne_false]
    exact h.response
  have hresponse1 : (w.next e).dev.responseFast1 = (w.next e).dev.responseAckFast := by
    rw [hstep.response1, hack]
    exact ite_same h.response h.response1
  have hresponse2 : (w.next e).dev.responseFast2 = (w.next e).dev.responseAckFast := by
    rw [hstep.response2, hack]
    exact ite_same h.response1 h.response2
  cases hfetches : w.fetches e with
  | false =>
      have hseen : (w.next e).dev.requestSeenSlow = w.dev.requestSeenSlow := by
        rw [hstep.seen, hfetches]
        rfl
      refine .sent { hbusy with
        activeSlow := ?_
        toggle := by rw [hrequest, hseen]; exact h.toggle
        order := ?_
        response := hresponse
        response1 := hresponse1
        response2 := hresponse2
        captured := hcaptured }
      · rw [hstep.activeSlow, hfetches, hperforms]
        exact h.activeSlow
      · rw [hstep.request1, hstep.request2, hseen]
        split_ifs
        · exact fun _ => h.toggle
        · exact h.order
  | true =>
      obtain ⟨hclocked, hready⟩ := Bool.and_eq_true_iff.mp hfetches
      have hne : w.dev.requestSlow2 ≠ w.dev.requestSeenSlow :=
        bne_iff_ne.mp (Bool.and_eq_true_iff.mp hready).2
      have hne1 := h.order hne
      have htoggle := h.toggle
      -- two bits that differ from a third are equal
      have heq : ∀ a b c : Bool, a ≠ c → b ≠ c → a = b := by decide
      have hseen : (w.next e).dev.requestSeenSlow = w.dev.requestSlow2 := by
        rw [hstep.seen, hfetches]
        rfl
      exact .running { hbusy with
        activeSlow := by rw [hstep.activeSlow, hfetches]; rfl
        slow := by rw [hstep.slow, hfetches, hstep.fast htakes]; rfl
        requestFast := by rw [hrequest, hseen]; exact heq _ _ _ htoggle hne
        request1 := by rw [hstep.request1, hclocked, hseen]; exact heq _ _ _ htoggle hne
        request2 := by rw [hstep.request2, hclocked, hseen]; exact heq _ _ _ hne1 hne
        response := hresponse
        response1 := hresponse1
        response2 := hresponse2
        captured := hcaptured }

/-- Under way until the memory answers. -/
theorem Running.step (h : w.Running) (hholds : w.Holds e) : (w.next e).Phase := by
  have hstep := w.stepped e
  have hacks := acks_of_response h.response2 (e := e)
  have htakes := @Busy.takes _ w e h.toBusy
  have hfetches := fetches_of_active h.activeSlow (e := e)
  have hbusy := h.toBusy.step hholds hacks
  have hfast := hstep.fast htakes
  have hack : (w.next e).dev.responseAckFast = w.dev.responseAckFast := by
    rw [hstep.ack, hacks]
    rfl
  have hseen : (w.next e).dev.requestSeenSlow = w.dev.requestSeenSlow := by
    rw [hstep.seen, hfetches]
    rfl
  have hrequest : (w.next e).dev.requestFast = (w.next e).dev.requestSeenSlow := by
    rw [hstep.requestFast, htakes, Bool.bne_false, hseen]
    exact h.requestFast
  have hrequest1 : (w.next e).dev.requestSlow1 = (w.next e).dev.requestSeenSlow := by
    rw [hstep.request1, hseen]
    exact ite_same h.requestFast h.request1
  have hrequest2 : (w.next e).dev.requestSlow2 = (w.next e).dev.requestSeenSlow := by
    rw [hstep.request2, hseen]
    exact ite_same h.request1 h.request2
  have hresponse1 : (w.next e).dev.responseFast1 = (w.next e).dev.responseAckFast := by
    rw [hstep.response1, hack]
    exact ite_same h.response h.response1
  have hresponse2 : (w.next e).dev.responseFast2 = (w.next e).dev.responseAckFast := by
    rw [hstep.response2, hack]
    exact ite_same h.response1 h.response2
  cases hperforms : w.performs e with
  | false =>
      exact .running { hbusy with
        activeSlow := by rw [hstep.activeSlow, hfetches, hperforms]; exact h.activeSlow
        slow := by rw [hstep.slow, hfetches, hfast]; exact h.slow
        requestFast := hrequest
        request1 := hrequest1
        request2 := hrequest2
        response := by rw [hstep.response, hperforms, hack, Bool.bne_false]; exact h.response
        response1 := hresponse1
        response2 := hresponse2
        captured := by rw [takes_false htakes, performs_false hperforms, hfast]; exact h.captured }
  | true =>
      have hexecuted := performs_true hperforms (h.slow ▸ h.request)
      rw [h.slow] at hexecuted
      exact .answered { hbusy with
        activeSlow := by rw [hstep.activeSlow, hfetches, hperforms]; rfl
        requestFast := hrequest
        request1 := hrequest1
        request2 := hrequest2
        toggle := by
          rw [hstep.response, hperforms, hack, h.response]
          cases w.dev.responseAckFast <;> decide
        order := fun hne => (hne hresponse2).elim
        executed := ⟨w.executed, by rw [hexecuted, hfast]⟩
        captured := by
          rw [takes_false htakes, hexecuted, List.map_append, h.captured]
          rfl
        data := fun hne => (hne hresponse2).elim }

/-- On its way back until the requester's side has the answer. -/
theorem Answered.step (h : w.Answered) (hholds : w.Holds e) : (w.next e).Phase := by
  have hstep := w.stepped e
  have htakes := @Busy.takes _ w e h.toBusy
  have hfetches := fetches_of_seen h.request2 (e := e)
  have hperforms := performs_of_idle h.activeSlow (e := e)
  have hexecuted := performs_false hperforms
  have hfast := hstep.fast htakes
  have hdata := hstep.readDataSlow hperforms
  have hactiveSlow : (w.next e).dev.requestActiveSlow = false := by
    rw [hstep.activeSlow, hfetches, hperforms]
    exact h.activeSlow
  have hseen : (w.next e).dev.requestSeenSlow = w.dev.requestSeenSlow := by
    rw [hstep.seen, hfetches]
    rfl
  have hrequest : (w.next e).dev.requestFast = (w.next e).dev.requestSeenSlow := by
    rw [hstep.requestFast, htakes, Bool.bne_false, hseen]
    exact h.requestFast
  have hrequest1 : (w.next e).dev.requestSlow1 = (w.next e).dev.requestSeenSlow := by
    rw [hstep.request1, hseen]
    exact ite_same h.requestFast h.request1
  have hrequest2 : (w.next e).dev.requestSlow2 = (w.next e).dev.requestSeenSlow := by
    rw [hstep.request2, hseen]
    exact ite_same h.request1 h.request2
  have hresponse : (w.next e).dev.responseSlow = w.dev.responseSlow := by
    rw [hstep.response, hperforms, Bool.bne_false]
  have hcaptured : (w.next e).captured = (w.next e).executed.map Prod.fst := by
    rw [takes_false htakes, hexecuted]
    exact h.captured
  cases hacks : w.acks e with
  | false =>
      have hbusy := h.toBusy.step hholds hacks
      have hack : (w.next e).dev.responseAckFast = w.dev.responseAckFast := by
        rw [hstep.ack, hacks]
        rfl
      refine .answered { hbusy with
        activeSlow := hactiveSlow
        requestFast := hrequest
        request1 := hrequest1
        request2 := hrequest2
        toggle := by rw [hresponse, hack]; exact h.toggle
        order := ?_
        executed := by rw [hexecuted, hfast, hdata]; exact h.executed
        captured := hcaptured
        data := ?_ }
      · rw [hstep.response1, hstep.response2, hack]
        split_ifs
        · exact fun _ => h.toggle
        · exact h.order
      · rw [hstep.response2, hack, hstep.readDataFast, hdata]
        cases e.fast.isSome with
        | false => exact h.data
        | true =>
            intro hne
            cases hmoved : w.dev.responseFast1 != w.dev.responseFast2 with
            | true => rfl
            | false =>
                have heq : w.dev.responseFast1 = w.dev.responseFast2 := by simpa using hmoved
                exact h.data (heq ▸ hne)
  | true =>
      obtain ⟨hclocked, hans⟩ := Bool.and_eq_true_iff.mp hacks
      have hne : w.dev.responseFast2 ≠ w.dev.responseAckFast :=
        bne_iff_ne.mp (Bool.and_eq_true_iff.mp hans).2
      have hne1 := h.order hne
      have htoggle := h.toggle
      have heq : ∀ a b c : Bool, a ≠ c → b ≠ c → a = b := by decide
      have hack : (w.next e).dev.responseAckFast = w.dev.responseFast2 := by
        rw [hstep.ack, hacks]
        rfl
      exact .idle {
        active := by rw [hstep.active, hacks]; rfl
        activeSlow := hactiveSlow
        request := hrequest
        request1 := hrequest1
        request2 := hrequest2
        response := by rw [hresponse, hack]; exact heq _ _ _ htoggle hne
        response1 := by rw [hstep.response1, hclocked, hack]; exact heq _ _ _ htoggle hne
        response2 := by rw [hstep.response2, hclocked, hack]; exact heq _ _ _ hne1 hne
        captured := hcaptured }

/-- The requester sees an answer: it is that of the last request captured, the one
the requester holds, with the memory's data. -/
theorem Phase.completed (h : w.Phase) (hholds : w.Holds e) {i : L1MemRequest} (hi : e.fast = some i)
    (hcompletes : w.completes i = true) :
    w.captured = w.executed.map Prod.fst ∧ w.withdrawn = false ∧
      (∀ n ∈ w.completions, n < w.captured.length) ∧
      ∃ earlier, w.executed = earlier ++ [(i, w.dev.readDataFast)] := by
  have hans : w.dev.answered = true := by
    by_contra hnot
    rw [completes_of_not_answered (Bool.eq_false_iff.mpr hnot)] at hcompletes
    cases hcompletes
  have hne : w.dev.responseFast2 ≠ w.dev.responseAckFast :=
    bne_iff_ne.mp (Bool.and_eq_true_iff.mp hans).2
  rcases h with h | h | h | h
  · exact (hne h.response2).elim
  · exact (hne h.response2).elim
  · exact (hne h.response2).elim
  · obtain ⟨hrequest, hwait⟩ := Bool.and_eq_true_iff.mp hcompletes
    have horphaned : w.dev.requestOrphanedFast = false := by
      unfold L1MemFastToSlowCdc.waitOut at hwait
      rw [hrequest] at hwait
      revert hwait
      cases w.dev.requestOrphanedFast with
      | false => exact fun _ => rfl
      | true => simp
    obtain ⟨earlier, hexecuted⟩ := h.executed
    refine ⟨h.captured, (h.waiting horphaned).2, h.completions, earlier, ?_⟩
    rw [h.held hholds hi horphaned hrequest, h.data hne]
    exact hexecuted

theorem captured_length : w.captured.length ≤ (w.next e).captured.length := by
  cases htakes : w.takes e with
  | false => rw [takes_false htakes]
  | true =>
      obtain ⟨i, -, -, -, hcaptured, -⟩ := takes_true htakes
      rw [hcaptured, List.length_append]
      exact Nat.le_add_right _ _

theorem completions_cases : (w.next e).completions = w.completions ∨
    ∃ i, e.fast = some i ∧ w.completes i = true ∧
      (w.next e).completions = w.completions ++ [w.captured.length] := by
  obtain ⟨_ | i, slow⟩ := e
  · cases slow with
    | none => exact .inl rfl
    | some x => exact .inl rfl
  · cases hcompletes : w.completes i with
    | false =>
        cases slow with
        | none => exact .inl (if_neg (Bool.eq_false_iff.mp hcompletes))
        | some x => exact .inl (if_neg (Bool.eq_false_iff.mp hcompletes))
    | true =>
        refine .inr ⟨i, rfl, hcompletes, ?_⟩
        cases slow with
        | none => exact if_pos hcompletes
        | some x => exact if_pos hcompletes

theorem Inv.step (h : w.Inv) (hholds : w.Holds e) : (w.next e).Inv := by
  have hlength := @captured_length _ w e
  refine ⟨?_, ?_, ?_⟩
  · rcases h.phase with hp | hp | hp | hp
    · exact hp.step h.completions
    · exact hp.step hholds
    · exact hp.step hholds
    · exact hp.step hholds
  · rcases @completions_cases _ w e with hsame | ⟨i, -, -, hmore⟩
    · rw [hsame]
      exact fun n hn => (h.completions n hn).trans hlength
    · rw [hmore]
      intro n hn
      rcases List.mem_append.mp hn with hn | hn
      · exact (h.completions n hn).trans hlength
      · exact (List.mem_singleton.mp hn).trans_le hlength
  · rcases @completions_cases _ w e with hsame | ⟨i, hi, hcompletes, hmore⟩
    · rw [hsame]
      exact h.increasing
    · obtain ⟨-, -, hlt, -⟩ := h.phase.completed hholds hi hcompletes
      rw [hmore, List.pairwise_append]
      refine ⟨h.increasing, List.pairwise_singleton _ _, fun n hn m hm => ?_⟩
      rw [List.mem_singleton.mp hm]
      exact hlt n hn

theorem inv {es : List (L1MemFastToSlowCdc.Edges PORT_BITWIDTH)}
    (h : (system PORT_BITWIDTH).Traces es w) : w.Inv := by
  obtain ⟨w₀, ⟨hc, hcaptured, hexecuted, hcompletions, -⟩, hrun⟩ := h
  have hidle : w₀.Idle := by
    refine ⟨hc.requestActiveFast, hc.requestActiveSlow, ?_, ?_, ?_, ?_, ?_, ?_, ?_⟩
    · rw [hc.requestFast, hc.requestSeenSlow]
    · rw [hc.requestSlow1, hc.requestSeenSlow]
    · rw [hc.requestSlow2, hc.requestSeenSlow]
    · rw [hc.responseSlow, hc.responseAckFast]
    · rw [hc.responseFast1, hc.responseAckFast]
    · rw [hc.responseFast2, hc.responseAckFast]
    · rw [hcaptured, hexecuted]
      rfl
  refine hrun.invariant (fun _ => Inv) ⟨.idle hidle, ?_, ?_⟩ ?_
  · rw [hcompletions]
    exact nofun
  · rw [hcompletions]
    exact List.Pairwise.nil
  · intro _ w e w' hinv hstep
    cases e with
    | none => exact hstep.elim
    | some e =>
        obtain ⟨hholds, rfl⟩ := hstep
        exact hinv.step hholds

/-- The captured requests are performed, once each and in order, but for the one
under way. -/
theorem Phase.inFlight (h : w.Phase) :
    ∃ inFlight, w.captured = w.executed.map Prod.fst ++ inFlight ∧ inFlight.length ≤ 1 := by
  rcases h with h | h | h | h
  · exact ⟨[], by rw [h.captured, List.append_nil], Nat.zero_le _⟩
  · exact ⟨_, h.captured, Nat.le_refl _⟩
  · exact ⟨_, h.captured, Nat.le_refl _⟩
  · exact ⟨[], by rw [h.captured, List.append_nil], Nat.zero_le _⟩

/-- In every order of edges: every captured request is performed once, and an answer
that the requester sees is that of the request it holds, which it did not
withdraw since, with the data of this very transaction; no transaction is answered
twice. -/
theorem l1MemCdc_exactly_once {es : List (L1MemFastToSlowCdc.Edges PORT_BITWIDTH)}
    (h : (system PORT_BITWIDTH).Traces es w) :
    (∃ inFlight, w.captured = w.executed.map Prod.fst ++ inFlight ∧ inFlight.length ≤ 1) ∧
      w.completions.Pairwise (· < ·) ∧
      ∀ i e, e.fast = some i → w.Holds e → i.request = true → w.dev.waitOut i = false →
        w.withdrawn = false ∧ w.captured = w.executed.map Prod.fst ∧
          (∃ earlier, w.executed = earlier ++ [(i, w.dev.readDataFast)]) ∧
          (∀ n ∈ w.completions, n < w.captured.length) ∧
          (w.next e).completions = w.completions ++ [w.captured.length] := by
  have hinv := inv h
  refine ⟨hinv.phase.inFlight, hinv.increasing, fun i e hi hholds hrequest hwait => ?_⟩
  have hcompletes : w.completes i = true := by
    unfold completes
    rw [hrequest, hwait]
    rfl
  obtain ⟨hcaptured, hwithdrawn, hlt, hexecuted⟩ := hinv.phase.completed hholds hi hcompletes
  refine ⟨hwithdrawn, hcaptured, hexecuted, hlt, ?_⟩
  obtain ⟨fast, slow⟩ := e
  cases hi
  cases slow with
  | none => exact if_pos hcompletes
  | some x => exact if_pos hcompletes

/-- A requester that presents what it waits for, or nothing while no edge of its
clock comes. -/
theorem holds_of_eq (h : e.fast = none ∨ w.waiting = none ∨ e.fast = w.waiting) : w.Holds e := by
  intro i p hi hp
  rcases h with h | h | h
  · cases h.symm.trans hi
  · cases h.symm.trans hp
  · exact .inl (Option.some.inj (hi.symm.trans (h.trans hp)))

theorem traces_next {es : List (L1MemFastToSlowCdc.Edges PORT_BITWIDTH)}
    (h : (system PORT_BITWIDTH).Traces es w) (hholds : w.Holds e) :
    (system PORT_BITWIDTH).Traces (es ++ [e]) (w.next e) := by
  obtain ⟨w₀, hinit, hrun⟩ := h
  exact ⟨w₀, hinit, hrun.shows ⟨hholds, rfl⟩⟩

end

/-- A read of address 4 that the memory answers with 7. -/
theorem l1MemCdc_exactly_once_read :
    let i : L1MemRequest := ⟨true, false, 4, 0, 0, false⟩
    let w : CdcWorld 32 := ⟨⟨default, false, false, false, false, false, false, 0, false, false, false,
      false, default, 0, false⟩, [], [], [], none, false⟩
    let sent := (((w.next ⟨some i, none⟩).next ⟨none, some (true, 0)⟩).next ⟨none, some (true, 0)⟩).next
      ⟨none, some (true, 0)⟩
    let back := ((sent.next ⟨none, some (false, 7)⟩).next ⟨some i, none⟩).next ⟨some i, none⟩
    back.dev.waitOut i = false ∧ ∃ earlier, back.executed = earlier ++ [(i, back.dev.readDataFast)] := by
  intro i w sent back
  have hstart : (system 32).Traces [] w :=
    ⟨w, ⟨⟨rfl, rfl, rfl, rfl, rfl, rfl, rfl, rfl, rfl, rfl, rfl⟩, rfl, rfl, rfl, rfl⟩, .refl w⟩
  have hsent := traces_next (traces_next (traces_next (traces_next hstart
    (e := ⟨some i, none⟩) (holds_of_eq (.inr (.inl rfl)))) (e := ⟨none, some (true, 0)⟩)
    (holds_of_eq (.inl rfl))) (e := ⟨none, some (true, 0)⟩) (holds_of_eq (.inl rfl)))
    (e := ⟨none, some (true, 0)⟩) (holds_of_eq (.inl rfl))
  have hback := traces_next (traces_next (traces_next hsent (e := ⟨none, some (false, 7)⟩)
    (holds_of_eq (.inl rfl))) (e := ⟨some i, none⟩) (holds_of_eq (.inr (.inr (by decide +kernel)))))
    (e := ⟨some i, none⟩) (holds_of_eq (.inr (.inr (by decide +kernel))))
  have hwait : back.dev.waitOut i = false := by decide +kernel
  have hanswer := (l1MemCdc_exactly_once hback).2.2 i ⟨some i, none⟩ rfl
    (holds_of_eq (.inr (.inr (by decide +kernel)))) rfl hwait
  exact ⟨hwait, hanswer.2.2.1⟩

end CdcWorld

end CppHdl.Cdc
