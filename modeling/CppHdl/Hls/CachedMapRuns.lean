import CppHdl.Hls.CachedBinaryMap
import CppHdl.Lib.Bus
import CppHdl.Lib.Queue
import CppHdl.Lib.Window

/-!
# Runs of the cached binary map

The map with its surroundings: a memory whose reads are answered in order, at any
time from the clock of the request on, and a compute pipeline that returns its
results in order, likewise. Writes are done when they are accepted.

`map_sound`: when the map responds without an error, the destination holds the
results for the memory as it was when the command was taken.
-/

namespace CppHdl.Hls

structure MapOperands where
  operation : UInt32
  a : UInt32
  b : UInt32

/-- A command and the memory it found. -/
structure MapJob where
  command : MapCommand
  start : Nat → UInt8

/-- The map, the memory, the addresses of the reads and the operands without an
answer, and the last command. -/
structure MapWorld where
  dev : CachedBinaryMap
  mem : Nat → UInt8
  reads : List Nat
  pipe : List MapOperands
  job : MapJob

structure MapCompute where
  value : MapOperands → UInt32
  fault : MapOperands → Bool

abbrev BusAnswers (w : MapWorld) (i : MapInputs) (answered : Option Nat) (reads : List Nat) : Prop :=
  BusClock w.mem w.reads (if w.dev.mRead && !i.waitrequest then some w.dev.mAddress else none)
    i.readdatavalid i.readdataerror i.readdata answered reads

structure PipeAnswers (F : MapCompute) (w : MapWorld) (i : MapInputs) (answered : Option MapOperands)
    (pipe : List MapOperands) : Prop where
  valid : w.dev.finish i = answered.isSome
  order : w.pipe ++ (if w.dev.issue i then
    some ⟨UInt32.ofNat w.dev.operation, w.dev.aIn, w.dev.bIn⟩ else none).toList =
      answered.toList ++ pipe
  value : ∀ x, answered = some x → i.value = F.value x ∧ i.computeFault = F.fault x

structure MapClock (F : MapCompute) (w : MapWorld) (i : MapInputs) (w' : MapWorld) : Prop where
  dev : w'.dev = w.dev.work i
  mem : w'.mem = if w.dev.drain i then
    storeMasked w.mem w.dev.mAddress w.dev.output 64 w.dev.mByteenable else w.mem
  job : w'.job = if w.dev.state = .idle ∧ i.commandValid then ⟨i.command, w.mem⟩ else w.job
  flushed : i.reset = true → w'.reads = [] ∧ w'.pipe = []
  reads : i.reset = false → ∃ answered, BusAnswers w i answered w'.reads
  pipe : i.reset = false → ∃ answered, PipeAnswers F w i answered w'.pipe

/-- Clock by clock, from a reset on. -/
def mapSystem (F : MapCompute) : Transitions MapWorld MapInputs where
  init w := w.dev = w.dev.cleared ∧ w.reads = [] ∧ w.pipe = []
  step
    | w, some i, w' => MapClock F w i w'
    | _, none, _ => False

/-! ## Phase by phase -/

namespace CachedBinaryMap

variable {s : CachedBinaryMap} {i : MapInputs}

theorem feed_of_ne (h : s.state ≠ .compute) (n : CachedBinaryMap) : s.feed i n = n := by
  have hfetch : s.fetch i = false := by simp [fetch, h]
  have hissue : s.issue i = false := by simp [issue, computeValidIn, h]
  simp only [feed, hfetch, hissue, Bool.false_eq_true, if_false]

theorem drain_of_ne (h : s.state ≠ .compute) : s.drain i = false := by
  simp [drain, mWrite, h]

theorem finish_of_ne (h : s.state ≠ .compute) : s.finish i = false := by
  simp [finish, computeReadyIn, h]

theorem collect_of_ne (h : s.state ≠ .compute) (n : CachedBinaryMap) : s.collect i n = n := by
  simp only [collect, drain_of_ne h, finish_of_ne h, Bool.false_and, Bool.false_eq_true, false_and,
    if_false]

theorem load_of_ne (h : s.state ≠ .load) (n : CachedBinaryMap) : s.load i n = n := if_neg h

theorem acceptCommand_of_ne (h : s.state ≠ .idle) (n : CachedBinaryMap) :
    s.acceptCommand i n = n := if_neg fun h' => h h'.1

theorem mRead_of_ne (h : s.state ≠ .load) : s.mRead = false := by
  simp [mRead, h]

theorem banks_of_idle (h : s.state ≠ .load) (h' : s.state ≠ .compute) : s.banks i s = s := by
  simp [banks, loadReturn, fetch, h, h', SynchronousRam.work]

theorem leave_of_ne (h : s.state ≠ .response) (h' : s.state ≠ .compute) (n : CachedBinaryMap) :
    s.leave i n = n := by
  simp [leave, h, h']

theorem work_idle (h : s.state = .idle) (hreset : i.reset = false) :
    s.work i = s.acceptCommand i s := by
  rw [work, if_neg (by simp [hreset]), banks_of_idle (by simp [h]) (by simp [h]),
    load_of_ne (by simp [h]), feed_of_ne (by simp [h]), collect_of_ne (by simp [h]),
    leave_of_ne (by simp [h]) (by simp [h])]

theorem work_load (h : s.state = .load) (hreset : i.reset = false) :
    s.work i = s.load i (s.banks i s) := by
  rw [work, if_neg (by simp [hreset]), acceptCommand_of_ne (by simp [h]),
    feed_of_ne (by simp [h]), collect_of_ne (by simp [h]), leave_of_ne (by simp [h]) (by simp [h])]

theorem work_compute (h : s.state = .compute) (hreset : i.reset = false) :
    s.work i = s.leave i (s.collect i (s.feed i (s.banks i s))) := by
  rw [work, if_neg (by simp [hreset]), acceptCommand_of_ne (by simp [h]), load_of_ne (by simp [h])]

theorem work_response (h : s.state = .response) (hreset : i.reset = false) :
    s.work i = s.leave i s := by
  rw [work, if_neg (by simp [hreset]), banks_of_idle (by simp [h]) (by simp [h]),
    acceptCommand_of_ne (by simp [h]), load_of_ne (by simp [h]), feed_of_ne (by simp [h]),
    collect_of_ne (by simp [h])]

end CachedBinaryMap

/-! ## What holds -/

namespace MapJob

/-- Element `k` of the first and of the second source, as the command found them. -/
def a (j : MapJob) (k : Nat) : UInt32 := loadWord j.start (j.command.source.toNat + 4 * k)

def b (j : MapJob) (k : Nat) : UInt32 := loadWord j.start (j.command.second.toNat + 4 * k)

def operands (j : MapJob) (k : Nat) : MapOperands := ⟨j.command.operation, j.a k, j.b k⟩

/-- The memory after the first `n` results. -/
def written (F : MapCompute) (j : MapJob) (n : Nat) : Nat → UInt8 := fun p =>
  let d := j.command.destination.toNat
  if d ≤ p ∧ p < d + 4 * n then byteOf (F.value (j.operands ((p - d) / 4))) ((p - d) % 4)
  else j.start p

def beats (j : MapJob) : Nat := (j.command.count.toNat + 15) / 16

/-- The address of read `k`: the first source, then the second. -/
def readAddress (j : MapJob) (k : Nat) : Nat :=
  if k < j.beats then j.command.source.toNat + 64 * k
  else j.command.second.toNat + 64 * (k - j.beats)

end MapJob

namespace MapWorld

/-- The registers hold a valid command. -/
structure Taken (w : MapWorld) : Prop where
  valid : w.job.command.valid = true
  source : w.dev.source = w.job.command.source.toNat
  other : w.dev.other = w.job.command.second.toNat
  destination : w.dev.destination = w.job.command.destination.toNat
  count : w.dev.count = w.job.command.count.toNat
  operation : w.dev.operation = w.job.command.operation.toNat

/-- The banks hold the first `n` beats. -/
def Cached (w : MapWorld) (n : Nat) : Prop :=
  ∀ k < n, ∀ l < 16, (k < w.job.beats → w.dev.first.words k l = w.job.a (16 * k + l)) ∧
    (w.job.beats ≤ k → w.dev.second.words (k - w.job.beats) l = w.job.b (16 * (k - w.job.beats) + l))

structure Loading (w : MapWorld) : Prop extends Taken w where
  state : w.dev.state = .load
  mem : w.mem = w.job.start
  pipe : w.pipe = []
  reads : w.reads = window w.job.readAddress w.dev.returned w.dev.requested
  returned : w.dev.returned ≤ w.dev.requested
  requested : w.dev.requested ≤ 2 * w.job.beats
  held : w.dev.held = true → w.dev.requested < 2 * w.job.beats
  cached : w.dev.error = 0 → w.Cached w.dev.returned
  short : w.dev.error = 0 → w.dev.returned < 2 * w.job.beats
  readIndex : w.dev.readIndex = 0
  issued : w.dev.issued = 0
  completed : w.dev.completed = 0
  writeIndex : w.dev.writeIndex = 0
  fill : w.dev.fill = 0
  readValid : w.dev.readValid = false

/-- Without an error so far. -/
structure Collected (F : MapCompute) (w : MapWorld) : Prop where
  readIndex : w.dev.readIndex = w.dev.issued + w.dev.readValid.toNat
  readTag : w.dev.readValid = true → w.dev.readTag = w.dev.issued ∧ w.dev.issued < w.dev.count ∧
    w.dev.aIn = w.job.a w.dev.issued ∧ w.dev.bIn = w.job.b w.dev.issued
  completed : w.dev.completed = w.dev.writeIndex + w.dev.fill
  fill : w.dev.fill ≤ 16
  aligned : w.dev.writeIndex % 16 = 0
  short : w.dev.writeIndex < w.dev.count
  output : ∀ j < w.dev.fill, w.dev.output j = F.value (w.job.operands (w.dev.writeIndex + j))
  faults : ∀ k < w.dev.completed, F.fault (w.job.operands k) = false
  mem : w.mem = w.job.written F w.dev.writeIndex

structure Computing (F : MapCompute) (w : MapWorld) : Prop extends Taken w where
  state : w.dev.state = .compute
  reads : w.reads = []
  cached : w.Cached (2 * w.job.beats)
  pipe : w.pipe = window w.job.operands w.dev.completed w.dev.issued
  completed : w.dev.completed ≤ w.dev.issued
  issued : w.dev.issued ≤ w.dev.count
  collected : w.dev.error = 0 → w.Collected F

structure Done (F : MapCompute) (w : MapWorld) : Prop where
  state : w.dev.state = .response
  reads : w.reads = []
  pipe : w.pipe = []
  mem : w.dev.error = 0 → w.mem = w.job.written F w.job.command.count.toNat ∧
    ∀ k < w.job.command.count.toNat, F.fault (w.job.operands k) = false

structure Idle (w : MapWorld) : Prop where
  state : w.dev.state = .idle
  reads : w.reads = []
  pipe : w.pipe = []

/-- What holds in every state reached. -/
inductive Inv (F : MapCompute) (w : MapWorld) : Prop
  | idle (h : w.Idle)
  | load (h : w.Loading)
  | compute (h : w.Computing F)
  | done (h : w.Done F)

/-! ## Facts about a command that is worked on -/

theorem Taken.bounds {w : MapWorld} (h : w.Taken) :
    0 < w.job.command.count.toNat ∧ w.job.command.count.toNat ≤ 8192 ∧
      w.job.command.source.toNat + w.job.beats * 64 ≤ 2 ^ 32 ∧
      w.job.command.second.toNat + w.job.beats * 64 ≤ 2 ^ 32 ∧
      w.job.command.destination.toNat + w.job.command.count.toNat * 4 ≤ 2 ^ 32 := by
  have hvalid := h.valid
  unfold MapCommand.valid at hvalid
  simp only [Bool.and_eq_true, decide_eq_true_iff] at hvalid
  obtain ⟨⟨⟨⟨⟨hpos, hle⟩, -⟩, hsource⟩, hsecond⟩, hdestination⟩ := hvalid
  exact ⟨hpos, hle, hsource, hsecond, hdestination⟩

theorem Taken.beats_eq {w : MapWorld} (h : w.Taken) : w.dev.beats = w.job.beats := by
  have hbounds := h.bounds
  unfold CachedBinaryMap.beats MapJob.beats u32
  rw [h.count]
  omega

theorem Taken.mAddress_load {w : MapWorld} (h : w.Taken) (hstate : w.dev.state = .load)
    (hrequested : w.dev.requested < 2 * w.job.beats) :
    w.dev.mAddress = w.job.readAddress w.dev.requested := by
  obtain ⟨-, hle, hsource, hsecond, -⟩ := h.bounds
  unfold CachedBinaryMap.mAddress MapJob.readAddress u32 sub32
  rw [if_pos hstate, h.beats_eq, h.source, h.other]
  split_ifs
  · omega
  · omega

theorem Taken.mAddress_write {w : MapWorld} (h : w.Taken) (hstate : w.dev.state = .compute)
    (hshort : w.dev.writeIndex < w.dev.count) :
    w.dev.mAddress = w.job.command.destination.toNat + 4 * w.dev.writeIndex := by
  obtain ⟨-, -, -, -, hdestination⟩ := h.bounds
  have hcount := h.count
  unfold CachedBinaryMap.mAddress u32
  rw [if_neg (by rw [hstate]; decide), h.destination]
  omega

/-! ## Quiet queues -/

/-- Nothing is requested and nothing was: nothing is answered. -/
theorem quiet {α : Type} {answered : Option α} {rest : List α}
    (h : [] ++ (none : Option α).toList = answered.toList ++ rest) : rest = [] :=
  (List.append_eq_nil_iff.mp h.symm).2

theorem reads_quiet {F : MapCompute} {w w' : MapWorld} {i : MapInputs} (hclock : MapClock F w i w')
    (hreset : i.reset = false) (hstate : w.dev.state ≠ .load) (hreads : w.reads = []) :
    w'.reads = [] := by
  obtain ⟨answered, hanswers⟩ := hclock.reads hreset
  have horder := hanswers.order
  rw [hreads, CachedBinaryMap.mRead_of_ne hstate] at horder
  exact quiet horder

theorem pipe_quiet {F : MapCompute} {w w' : MapWorld} {i : MapInputs} (hclock : MapClock F w i w')
    (hreset : i.reset = false) (hissue : w.dev.issue i = false) (hpipe : w.pipe = []) :
    w'.pipe = [] := by
  obtain ⟨answered, hanswers⟩ := hclock.pipe hreset
  have horder := hanswers.order
  rw [hpipe, hissue] at horder
  exact quiet horder

theorem issue_of_ne {s : CachedBinaryMap} {i : MapInputs} (h : s.state ≠ .compute) :
    s.issue i = false := by
  simp [CachedBinaryMap.issue, CachedBinaryMap.computeValidIn, h]

theorem mem_of_ne {F : MapCompute} {w w' : MapWorld} {i : MapInputs} (hclock : MapClock F w i w')
    (hstate : w.dev.state ≠ .compute) : w'.mem = w.mem := by
  rw [hclock.mem, CachedBinaryMap.drain_of_ne hstate]
  rfl

theorem job_of_ne {F : MapCompute} {w w' : MapWorld} {i : MapInputs} (hclock : MapClock F w i w')
    (hstate : w.dev.state ≠ .idle) : w'.job = w.job := by
  rw [hclock.job, if_neg fun h => hstate h.1]

/-! ## Idle and response -/

section

variable {F : MapCompute} {w w' : MapWorld} {i : MapInputs} (hclock : MapClock F w i w')
  (hreset : i.reset = false)
include hclock hreset

theorem Idle.step (h : w.Idle) : Inv F w' := by
  have hne : w.dev.state ≠ .compute := by rw [h.state]; decide
  have hreads := reads_quiet hclock hreset (by rw [h.state]; decide) h.reads
  have hpipe := pipe_quiet hclock hreset (issue_of_ne hne) h.pipe
  have hmem := mem_of_ne hclock hne
  have hdev := hclock.dev
  rw [CachedBinaryMap.work_idle h.state hreset] at hdev
  by_cases hcommand : i.commandValid = true
  · have hcond : w.dev.state = .idle ∧ i.commandValid = true := ⟨h.state, hcommand⟩
    have hjob := hclock.job
    rw [if_pos hcond] at hjob
    rw [CachedBinaryMap.acceptCommand, if_pos hcond] at hdev
    cases hvalid : i.command.valid with
    | true =>
        have hbounds : 0 < w'.job.beats := by
          unfold MapCommand.valid at hvalid
          simp only [Bool.and_eq_true, decide_eq_true_iff] at hvalid
          unfold MapJob.beats
          rw [hjob]
          dsimp only
          omega
        rw [hvalid] at hdev
        refine .load {
          valid := by rw [hjob]; exact hvalid
          source := by rw [hdev, hjob]
          other := by rw [hdev, hjob]
          destination := by rw [hdev, hjob]
          count := by rw [hdev, hjob]
          operation := by rw [hdev, hjob]
          state := by rw [hdev]; rfl
          mem := by rw [hmem, hjob]
          pipe := hpipe
          reads := by rw [hreads, hdev]; exact window_self.symm
          returned := by rw [hdev]
          requested := by rw [hdev]; exact Nat.zero_le _
          held := by rw [hdev]; exact fun h => (Bool.false_ne_true h).elim
          cached := fun _ => by rw [hdev]; exact fun k hk => absurd hk (Nat.not_lt_zero k)
          short := fun _ => by rw [hdev]; change 0 < _; omega
          readIndex := by rw [hdev]
          issued := by rw [hdev]
          completed := by rw [hdev]
          writeIndex := by rw [hdev]
          fill := by rw [hdev]
          readValid := by rw [hdev] }
    | false =>
        rw [hvalid] at hdev
        refine .done ⟨by rw [hdev]; rfl, hreads, hpipe, fun herror => ?_⟩
        rw [hdev] at herror
        cases herror
  · rw [CachedBinaryMap.acceptCommand, if_neg fun hc => hcommand hc.2] at hdev
    exact .idle ⟨hdev ▸ h.state, hreads, hpipe⟩

theorem Done.step (h : w.Done F) : Inv F w' := by
  have hne : w.dev.state ≠ .compute := by rw [h.state]; decide
  have hreads := reads_quiet hclock hreset (by rw [h.state]; decide) h.reads
  have hpipe := pipe_quiet hclock hreset (issue_of_ne hne) h.pipe
  have hmem := mem_of_ne hclock hne
  have hjob := job_of_ne hclock (by rw [h.state]; decide)
  have hdev := hclock.dev
  rw [CachedBinaryMap.work_response h.state hreset, CachedBinaryMap.leave] at hdev
  by_cases hready : i.responseReady = true
  · refine .idle ⟨?_, hreads, hpipe⟩
    rw [hdev]
    exact if_pos ⟨h.state, hready⟩
  · rw [if_neg fun hc => hready hc.2, if_neg fun hc => hne hc.1] at hdev
    change w'.dev = w.dev at hdev
    refine .done ⟨hdev ▸ h.state, hreads, hpipe, fun herror => ?_⟩
    rw [hmem, hjob]
    exact h.mem (hdev ▸ herror)

end

/-! ## Loading -/

/-- While loading the counters advance with the bus. -/
structure LoadStep (w w' : MapWorld) (i : MapInputs) (accepted answered : Bool) : Prop where
  requested : w'.dev.requested = w.dev.requested + accepted.toNat
  returned : w'.dev.returned = w.dev.returned + answered.toNat
  held : w'.dev.held = if w.dev.mRead then i.waitrequest else w.dev.held
  error : w'.dev.error = if answered && i.readdataerror then 2 else w.dev.error
  first : w'.dev.first.words = if answered && w.dev.error == 0 && !i.readdataerror &&
    w.dev.returned < w.job.beats then Function.update w.dev.first.words w.dev.returned i.readdata
    else w.dev.first.words
  second : w'.dev.second.words = if answered && w.dev.error == 0 && !i.readdataerror &&
    w.job.beats ≤ w.dev.returned then
      Function.update w.dev.second.words (w.dev.returned - w.job.beats) i.readdata
    else w.dev.second.words
  state : w'.dev.state =
    if w.dev.error ≠ 0 ∧ w.dev.returned + answered.toNat = w.dev.requested + accepted.toNat ∧
      ¬ (w.dev.mRead && i.waitrequest) then .response
    else if w.dev.error = 0 ∧ ¬ i.readdataerror ∧
      w.dev.returned + answered.toNat = 2 * w.job.beats then .compute
    else .load
  kept : w'.dev = { w.dev with
    requested := w'.dev.requested, returned := w'.dev.returned, held := w'.dev.held,
    error := w'.dev.error, first := w'.dev.first, second := w'.dev.second, state := w'.dev.state }

theorem mRead_short {w : MapWorld} (h : w.Loading) (hread : w.dev.mRead = true) :
    w.dev.requested < 2 * w.job.beats := by
  have hbounds := h.bounds
  unfold CachedBinaryMap.mRead u32 at hread
  rw [h.beats_eq] at hread
  simp only [Bool.and_eq_true, Bool.or_eq_true, decide_eq_true_iff] at hread
  rcases hread.2 with hheld | ⟨⟨-, hlt⟩, -⟩
  · exact h.held hheld
  · omega

/-- Every response while loading answers a request. -/
theorem loadReturn_eq {w : MapWorld} {i : MapInputs} {answered : Option Nat} {reads : List Nat}
    (h : w.Loading) (hanswers : BusAnswers w i answered reads)
    (hcounts : w.dev.returned + answered.isSome.toNat ≤
      w.dev.requested + (w.dev.mRead && !i.waitrequest).toNat) :
    w.dev.loadReturn i = answered.isSome := by
  unfold CachedBinaryMap.loadReturn
  rw [h.state, hanswers.valid]
  cases answered with
  | none => rfl
  | some a =>
      cases haccepted : w.dev.mRead && !i.waitrequest with
      | true => simp
      | false =>
          rw [haccepted] at hcounts
          have hlt : w.dev.returned < w.dev.requested := hcounts
          simp [hlt]

/-- The requests after the clock, and the answer to the first of them. -/
theorem Loading.answers {w : MapWorld} {i : MapInputs} {answered : Option Nat} {reads : List Nat}
    (h : w.Loading) (hanswers : BusAnswers w i answered reads) :
    reads = window w.job.readAddress (w.dev.returned + answered.isSome.toNat)
        (w.dev.requested + (w.dev.mRead && !i.waitrequest).toNat) ∧
      w.dev.returned + answered.isSome.toNat ≤
        w.dev.requested + (w.dev.mRead && !i.waitrequest).toNat ∧
      ∀ a, answered = some a → a = w.job.readAddress w.dev.returned := by
  refine window_step h.returned ?_
  rw [← h.reads, ← hanswers.order]
  cases hread : w.dev.mRead with
  | false => rfl
  | true => rw [h.mAddress_load h.state (mRead_short h hread)]

theorem Loading.clock {F : MapCompute} {w w' : MapWorld} {i : MapInputs} (h : w.Loading)
    (hclock : MapClock F w i w') (hreset : i.reset = false) :
    ∃ answered, BusAnswers w i answered w'.reads ∧
      LoadStep w w' i (w.dev.mRead && !i.waitrequest) answered.isSome := by
  obtain ⟨answered, hanswers⟩ := hclock.reads hreset
  refine ⟨answered, hanswers, ?_⟩
  obtain ⟨-, hcounts, -⟩ := h.answers hanswers
  have hreturn := loadReturn_eq h hanswers hcounts
  have hbounds := h.bounds
  have hbeats : w.job.beats ≤ 512 := by
    unfold MapJob.beats
    omega
  have hfetch : w.dev.fetch i = false := by simp [CachedBinaryMap.fetch, h.state]
  have hreturned := h.returned
  have hrequested := h.requested
  have hdev := hclock.dev
  rw [CachedBinaryMap.work_load h.state hreset, CachedBinaryMap.load, if_pos h.state] at hdev
  dsimp only [CachedBinaryMap.banks, SynchronousRam.work] at hdev
  rw [hreturn, hfetch, h.beats_eq] at hdev
  generalize haccepted : (w.dev.mRead && !i.waitrequest) = accepted at *
  have htwice : u32 (2 * w.job.beats) = 2 * w.job.beats := by unfold u32; omega
  have hanswer : u32 (w.dev.returned + answered.isSome.toNat) =
      w.dev.returned + answered.isSome.toNat := by
    have := Bool.toNat_le answered.isSome
    unfold u32
    omega
  have haccept : u32 (w.dev.requested + accepted.toNat) = w.dev.requested + accepted.toNat := by
    have := Bool.toNat_le accepted
    unfold u32
    omega
  rw [htwice, hanswer, haccept] at hdev
  exact {
    requested := by
      rw [hdev, ← haccept]
      cases accepted with
      | true => rfl
      | false => exact (haccept : _).symm
    returned := by
      rw [hdev, ← hanswer]
      cases answered with
      | some a => rfl
      | none => exact hanswer.symm
    held := by rw [hdev]
    error := by rw [hdev]
    first := by rw [hdev]
    second := by
      rw [hdev]
      dsimp only
      split_ifs with hstored
      · have hle : w.job.beats ≤ w.dev.returned := by
          simp only [Bool.and_eq_true, decide_eq_true_iff] at hstored
          exact hstored.2
        rw [show sub32 w.dev.returned w.job.beats = w.dev.returned - w.job.beats by
          unfold sub32; omega]
      · rfl
    state := by
      rw [hdev]
      dsimp only
      rw [h.state]
    kept := by rw [hdev] }

theorem Taken.congr {w w' : MapWorld} (h : w.Taken) (hjob : w'.job = w.job)
    (hsource : w'.dev.source = w.dev.source) (hother : w'.dev.other = w.dev.other)
    (hdestination : w'.dev.destination = w.dev.destination) (hcount : w'.dev.count = w.dev.count)
    (hoperation : w'.dev.operation = w.dev.operation) : w'.Taken where
  valid := by rw [hjob]; exact h.valid
  source := by rw [hjob, hsource]; exact h.source
  other := by rw [hjob, hother]; exact h.other
  destination := by rw [hjob, hdestination]; exact h.destination
  count := by rw [hjob, hcount]; exact h.count
  operation := by rw [hjob, hoperation]; exact h.operation

theorem Cached.next {w w' : MapWorld} {n : Nat} {beat : Beat} (h : w.Cached n)
    (hjob : w'.job = w.job)
    (hfirst : w'.dev.first.words = if n < w.job.beats then
      Function.update w.dev.first.words n beat else w.dev.first.words)
    (hsecond : w'.dev.second.words = if w.job.beats ≤ n then
      Function.update w.dev.second.words (n - w.job.beats) beat else w.dev.second.words)
    (hbeat : ∀ l < 16, beat l = loadWord w.job.start (w.job.readAddress n + 4 * l)) :
    w'.Cached (n + 1) := by
  intro k hk l hl
  rw [hjob, hfirst, hsecond]
  rcases Nat.lt_succ_iff_lt_or_eq.mp hk with hlt | rfl
  · obtain ⟨ha, hb⟩ := h k hlt l hl
    refine ⟨fun hfst => ?_, fun hsnd => ?_⟩
    · split_ifs
      · rw [Function.update_of_ne (by omega)]
        exact ha hfst
      · exact ha hfst
    · rw [if_pos (by omega), Function.update_of_ne (by omega)]
      exact hb hsnd
  · refine ⟨fun hfst => ?_, fun hsnd => ?_⟩
    · rw [if_pos hfst, Function.update_self, hbeat l hl, MapJob.readAddress, if_pos hfst, MapJob.a]
      congr 1
      omega
    · rw [if_pos hsnd, Function.update_self, hbeat l hl, MapJob.readAddress,
        if_neg (Nat.not_lt.mpr hsnd), MapJob.b]
      congr 1
      omega

theorem Cached.congr {w w' : MapWorld} {n : Nat} (h : w.Cached n) (hjob : w'.job = w.job)
    (hfirst : w'.dev.first.words = w.dev.first.words)
    (hsecond : w'.dev.second.words = w.dev.second.words) : w'.Cached n := by
  intro k hk l hl
  rw [hjob, hfirst, hsecond]
  exact h k hk l hl

/-- The banks after a clock without an error. -/
theorem Loading.cached_step {w w' : MapWorld} {i : MapInputs} {answered : Option Nat}
    {accepted : Bool} (h : w.Loading) (hanswers : BusAnswers w i answered w'.reads)
    (hstep : LoadStep w w' i accepted answered.isSome) (hjob : w'.job = w.job)
    (herror : w'.dev.error = 0) : w'.Cached w'.dev.returned := by
  obtain ⟨-, -, haddress⟩ := h.answers hanswers
  have herrors := hstep.error
  have hreturned := hstep.returned
  have hfirst := hstep.first
  have hsecond := hstep.second
  rw [herror] at herrors
  cases answered with
  | none =>
      have hzero : w.dev.error = 0 := herrors.symm
      simp only [Option.isSome_none, Bool.false_and, Bool.false_eq_true, if_false] at hfirst hsecond
      rw [show w'.dev.returned = w.dev.returned from hreturned]
      exact (h.cached hzero).congr hjob hfirst hsecond
  | some a =>
      cases hdataerror : i.readdataerror with
      | true =>
          rw [hdataerror] at herrors
          cases herrors
      | false =>
          rw [hdataerror] at herrors
          have hzero : w.dev.error = 0 := herrors.symm
          rw [hdataerror, hzero] at hfirst hsecond
          simp only [Option.isSome_some, Bool.true_and, BEq.rfl, Bool.not_false,
            decide_eq_true_iff] at hfirst hsecond
          rw [show w'.dev.returned = w.dev.returned + 1 from hreturned]
          refine (h.cached hzero).next hjob hfirst hsecond fun l hl => ?_
          rw [hanswers.data a rfl hdataerror l hl, haddress a rfl, h.mem]

theorem Loading.step {F : MapCompute} {w w' : MapWorld} {i : MapInputs} (h : w.Loading)
    (hclock : MapClock F w i w') (hreset : i.reset = false) : Inv F w' := by
  obtain ⟨answered, hanswers, hstep⟩ := h.clock hclock hreset
  obtain ⟨hreads, hcounts, -⟩ := h.answers hanswers
  have hne : w.dev.state ≠ .compute := by rw [h.state]; decide
  have hjob := job_of_ne hclock (by rw [h.state]; decide)
  have hpipe := pipe_quiet hclock hreset (issue_of_ne hne) h.pipe
  have hmem : w'.mem = w'.job.start := by rw [mem_of_ne hclock hne, hjob, h.mem]
  have hkept := hstep.kept
  have htaken : w'.Taken := h.congr hjob (by rw [hkept]) (by rw [hkept]) (by rw [hkept])
    (by rw [hkept]) (by rw [hkept])
  have hcached := h.cached_step hanswers hstep hjob
  have hrequested : w'.dev.requested ≤ 2 * w.job.beats := by
    rw [hstep.requested]
    cases haccepted : w.dev.mRead && !i.waitrequest with
    | false => exact h.requested
    | true => exact mRead_short h (Bool.and_eq_true_iff.mp haccepted).1
  rw [← hstep.returned, ← hstep.requested] at hreads hcounts
  have hstate := hstep.state
  rw [← hstep.returned, ← hstep.requested] at hstate
  have herrors := hstep.error
  split_ifs at hstate with hleave hloaded
  · -- after an error, with every response there
    refine .done ⟨hstate, ?_, hpipe, fun herror => ?_⟩
    · rw [hreads, hleave.2.1, window_self]
    · rw [herror] at herrors
      split at herrors
      · cases herrors
      · exact (hleave.1 herrors.symm).elim
  · have hall : w'.dev.returned = w'.dev.requested := by omega
    have herror : w'.dev.error = 0 := by
      rw [herrors, if_neg (by simp [hloaded.2.1]), hloaded.1]
    refine .compute { htaken with
      state := hstate
      reads := by rw [hreads, hall, window_self]
      cached := by rw [hjob, ← hloaded.2.2]; exact hcached herror
      pipe := by rw [hpipe, hkept]; dsimp only; rw [h.completed, h.issued, window_self]
      completed := by rw [hkept]; dsimp only; rw [h.completed, h.issued]
      issued := by rw [hkept]; dsimp only; rw [h.issued]; exact Nat.zero_le _
      collected := fun _ => ?_ }
    have hpositive := h.bounds.1
    exact {
      readIndex := by rw [hkept]; dsimp only; rw [h.readIndex, h.issued, h.readValid]; rfl
      readTag := fun hvalid => by
        rw [hkept] at hvalid
        exact (Bool.false_ne_true (h.readValid.symm.trans hvalid)).elim
      completed := by rw [hkept]; dsimp only; rw [h.completed, h.writeIndex, h.fill]
      fill := by rw [hkept]; dsimp only; rw [h.fill]; exact Nat.zero_le _
      aligned := by rw [hkept]; dsimp only; rw [h.writeIndex]
      short := by rw [hkept]; dsimp only; rw [h.writeIndex, h.count]; exact hpositive
      output := fun j hj => by
        rw [hkept] at hj
        exact absurd (h.fill ▸ hj : j < 0) (Nat.not_lt_zero j)
      faults := fun k hk => by
        rw [hkept] at hk
        exact absurd (h.completed ▸ hk : k < 0) (Nat.not_lt_zero k)
      mem := by
        rw [hmem, hkept]
        dsimp only
        rw [h.writeIndex]
        funext p
        exact (if_neg (by omega)).symm }
  · have hheld := hstep.held
    exact .load { htaken with
      state := hstate
      mem := hmem
      pipe := hpipe
      reads := by rw [hjob]; exact hreads
      returned := hcounts
      requested := by rw [hjob]; exact hrequested
      held := fun hheld' => by
        rw [hjob, hstep.requested]
        rw [hheld'] at hheld
        cases hread : w.dev.mRead with
        | false =>
            rw [hread] at hheld
            exact h.held hheld.symm
        | true =>
            rw [hread] at hheld
            rw [← show true = i.waitrequest from hheld]
            exact mRead_short h hread
      cached := hcached
      short := fun herror => by
        rw [herror] at herrors
        rw [hjob]
        cases hsome : answered.isSome with
        | false =>
            rw [hsome] at herrors
            rw [hstep.returned, hsome]
            exact h.short herrors.symm
        | true =>
            cases hdataerror : i.readdataerror with
            | true =>
                rw [hsome, hdataerror] at herrors
                cases herrors
            | false =>
                rw [hsome, hdataerror] at herrors
                have hnot : w'.dev.returned ≠ 2 * w.job.beats := fun hall =>
                  hloaded ⟨herrors.symm, by simp [hdataerror], hall⟩
                omega
      readIndex := by rw [hkept]; exact h.readIndex
      issued := by rw [hkept]; exact h.issued
      completed := by rw [hkept]; exact h.completed
      writeIndex := by rw [hkept]; exact h.writeIndex
      fill := by rw [hkept]; exact h.fill
      readValid := by rw [hkept]; exact h.readValid }

/-! ## Computing -/

/-- The byte enables of a partial beat. -/
theorem mByteenable_testBit {s : CachedBinaryMap} (h : s.fill ≤ 16) {b : Nat} (hb : b < 64) :
    s.mByteenable.testBit b = decide (b < 4 * s.fill) := by
  unfold CachedBinaryMap.mByteenable
  split_ifs with hfull
  · rw [Nat.testBit_two_pow_sub_one]
    grind
  · rw [Nat.testBit_two_pow_sub_one]
    congr 1
    rw [Nat.mod_eq_of_lt (by omega), Nat.mul_comm]

/-- The results of a beat, over those before. -/
theorem storeMasked_written {F : MapCompute} {s : CachedBinaryMap} {j : MapJob} {n : Nat}
    (hfill : s.fill ≤ 16)
    (houtput : ∀ k < s.fill, s.output k = F.value (j.operands (n + k))) :
    storeMasked (j.written F n) (j.command.destination.toNat + 4 * n) s.output 64 s.mByteenable =
      j.written F (n + s.fill) := by
  funext p
  unfold storeMasked MapJob.written
  dsimp only
  generalize j.command.destination.toNat = d
  by_cases hwithin : d + 4 * n ≤ p ∧ p < d + 4 * (n + s.fill)
  · obtain ⟨hlo, hhi⟩ := hwithin
    have hbit : s.mByteenable.testBit (p - (d + 4 * n)) = true := by
      rw [mByteenable_testBit hfill (by omega)]
      exact decide_eq_true (by omega)
    rw [if_pos ⟨hlo, by omega, hbit⟩, if_pos ⟨by omega, hhi⟩, houtput _ (by omega),
      show n + (p - (d + 4 * n)) / 4 = (p - d) / 4 by omega,
      show (p - (d + 4 * n)) % 4 = (p - d) % 4 by omega]
  · have hbit : ¬ (d + 4 * n ≤ p ∧ p < d + 4 * n + 64 ∧
        s.mByteenable.testBit (p - (d + 4 * n)) = true) := by
      rintro ⟨hlo, hhi, hbit⟩
      rw [mByteenable_testBit hfill (by omega)] at hbit
      have := of_decide_eq_true hbit
      exact hwithin ⟨hlo, by omega⟩
    have hiff : (d ≤ p ∧ p < d + 4 * n) ↔ (d ≤ p ∧ p < d + 4 * (n + s.fill)) := by omega
    rw [if_neg hbit]
    exact if_congr hiff rfl rfl

/-- While computing the counters advance with the pipeline and the bus. -/
structure ComputeStep (w w' : MapWorld) (i : MapInputs) : Prop where
  readValid : w'.dev.readValid = if w.dev.fetch i then true else if w.dev.issue i then false
    else w.dev.readValid
  issued : w'.dev.issued = w.dev.issued + (w.dev.issue i).toNat
  readTag : w'.dev.readTag = if w.dev.fetch i then w.dev.readIndex else w.dev.readTag
  readIndex : w'.dev.readIndex = w.dev.readIndex + (w.dev.fetch i).toNat
  writeIndex : w'.dev.writeIndex = if w.dev.drain i then w.dev.writeIndex + w.dev.fill
    else w.dev.writeIndex
  completed : w'.dev.completed = w.dev.completed + (w.dev.finish i).toNat
  output : w'.dev.output = if w.dev.finish i && w.dev.error == 0 then
    Function.update w.dev.output (if w.dev.drain i then 0 else w.dev.fill) i.value else w.dev.output
  fill : w'.dev.fill = (if w.dev.drain i then 0 else w.dev.fill) +
    (w.dev.finish i && w.dev.error == 0).toNat
  error : w'.dev.error = if w.dev.finish i && i.computeFault then 3 else w.dev.error
  state : w'.dev.state = if w.dev.error ≠ 0 ∧ w.dev.completed = w.dev.issued then .response
    else if w.dev.drain i ∧ w.dev.writeIndex + w.dev.fill = w.dev.count then .response else .compute
  first : w'.dev.first = ⟨w.dev.first.words, if w.dev.fetch i then
    w.dev.first.words (w.dev.readIndex / 16) else w.dev.first.data⟩
  second : w'.dev.second = ⟨w.dev.second.words, if w.dev.fetch i then
    w.dev.second.words (w.dev.readIndex / 16) else w.dev.second.data⟩
  kept : w'.dev = { w.dev with
    readValid := w'.dev.readValid, issued := w'.dev.issued, readTag := w'.dev.readTag,
    readIndex := w'.dev.readIndex, writeIndex := w'.dev.writeIndex,
    completed := w'.dev.completed, output := w'.dev.output, fill := w'.dev.fill,
    error := w'.dev.error, state := w'.dev.state, first := w'.dev.first, second := w'.dev.second }

section

variable {F : MapCompute} {w w' : MapWorld} {i : MapInputs}

theorem issue_error (h : w.dev.issue i = true) : w.dev.error = 0 := by
  unfold CachedBinaryMap.issue CachedBinaryMap.computeValidIn at h
  simp only [Bool.and_eq_true, beq_iff_eq] at h
  exact h.1.2

theorem drain_error (h : w.dev.drain i = true) : w.dev.error = 0 := by
  unfold CachedBinaryMap.drain CachedBinaryMap.mWrite at h
  simp only [Bool.and_eq_true, beq_iff_eq] at h
  exact h.1.2

theorem fetch_error (h : w.dev.fetch i = true) : w.dev.error = 0 := by
  unfold CachedBinaryMap.fetch at h
  simp only [Bool.and_eq_true, beq_iff_eq] at h
  exact h.1.1.2

theorem Computing.issue_eq (h : w.Computing F) (herror : w.dev.error = 0) :
    w.dev.issue i = (w.dev.readValid && i.computeReady) := by
  simp [CachedBinaryMap.issue, CachedBinaryMap.computeValidIn, h.state, herror]

theorem Computing.fetch_eq (h : w.Computing F) (herror : w.dev.error = 0) :
    w.dev.fetch i =
      (decide (w.dev.readIndex < w.dev.count) && (!w.dev.readValid || i.computeReady)) := by
  simp [CachedBinaryMap.fetch, h.state, herror]

theorem Computing.issue_short (h : w.Computing F) (hissue : w.dev.issue i = true) :
    w.dev.issued < w.dev.count ∧ (⟨UInt32.ofNat w.dev.operation, w.dev.aIn, w.dev.bIn⟩ :
      MapOperands) = w.job.operands w.dev.issued := by
  have herror := issue_error hissue
  rw [h.issue_eq herror, Bool.and_eq_true] at hissue
  obtain ⟨-, hlt, ha, hb⟩ := (h.collected herror).readTag hissue.1
  refine ⟨hlt, ?_⟩
  rw [ha, hb, h.operation, UInt32.ofNat_toNat]
  rfl

/-- The pairs in the pipeline after the clock, and the result of the first of them. -/
theorem Computing.answers {answered : Option MapOperands} {pipe : List MapOperands}
    (h : w.Computing F) (hanswers : PipeAnswers F w i answered pipe) :
    pipe = window w.job.operands (w.dev.completed + (w.dev.finish i).toNat)
        (w.dev.issued + (w.dev.issue i).toNat) ∧
      w.dev.completed + (w.dev.finish i).toNat ≤ w.dev.issued + (w.dev.issue i).toNat ∧
      ∀ x, answered = some x → x = w.job.operands w.dev.completed := by
  rw [hanswers.valid]
  apply window_step h.completed
  rw [← h.pipe, ← hanswers.order]
  cases hissue : w.dev.issue i with
  | false => rfl
  | true => rw [(h.issue_short hissue).2]

theorem Computing.issued_le (h : w.Computing F) :
    w.dev.issued + (w.dev.issue i).toNat ≤ w.dev.count := by
  cases hissue : w.dev.issue i with
  | false => exact h.issued
  | true => exact (h.issue_short hissue).1

theorem Computing.drain_le (h : w.Computing F) (hdrain : w.dev.drain i = true) :
    w.dev.writeIndex + w.dev.fill ≤ w.dev.count := by
  rw [← (h.collected (drain_error hdrain)).completed]
  exact h.completed.trans h.issued

theorem u32_toNat {n : Nat} {b : Bool} (h : n + b.toNat < 2 ^ 32) :
    (if b then u32 (n + 1) else n) = n + b.toNat := by
  cases b with
  | false => rfl
  | true => exact Nat.mod_eq_of_lt h

theorem Computing.clock (h : w.Computing F) (hclock : MapClock F w i w')
    (hreset : i.reset = false)
    (hcounts : w.dev.completed + (w.dev.finish i).toNat ≤ w.dev.issued + (w.dev.issue i).toNat) :
    ComputeStep w w' i := by
  have hbounds := h.bounds
  have hcount : w.dev.count ≤ 8192 := h.count ▸ hbounds.2.1
  have hissued := @Computing.issued_le F w i h
  have hreturn : w.dev.loadReturn i = false := by simp [CachedBinaryMap.loadReturn, h.state]
  have hissue' := @u32_toNat w.dev.issued (w.dev.issue i) (by omega)
  have hfinish' := @u32_toNat w.dev.completed (w.dev.finish i) (by omega)
  have hfetch' : (if w.dev.fetch i then u32 (w.dev.readIndex + 1) else w.dev.readIndex) =
      w.dev.readIndex + (w.dev.fetch i).toNat := by
    cases hfetch : w.dev.fetch i with
    | false => rfl
    | true =>
        rw [h.fetch_eq (fetch_error hfetch), Bool.and_eq_true, decide_eq_true_iff] at hfetch
        exact Nat.mod_eq_of_lt (by omega)
  have hdrain' : w.dev.drain i = true →
      u32 (w.dev.writeIndex + w.dev.fill) = w.dev.writeIndex + w.dev.fill := fun hdrain => by
    have := h.drain_le hdrain
    exact Nat.mod_eq_of_lt (by omega)
  have hdev := hclock.dev
  rw [CachedBinaryMap.work_compute h.state hreset] at hdev
  dsimp only [CachedBinaryMap.leave, CachedBinaryMap.collect, CachedBinaryMap.feed,
    CachedBinaryMap.banks, SynchronousRam.work] at hdev
  rw [hissue', hfinish', hfetch', hreturn] at hdev
  exact {
    readValid := by rw [hdev]
    issued := by rw [hdev]
    readTag := by rw [hdev]
    readIndex := by rw [hdev]
    writeIndex := by
      rw [hdev]
      dsimp only
      split_ifs with hdrain
      · exact hdrain' hdrain
      · rfl
    completed := by rw [hdev]
    output := by rw [hdev]
    fill := by
      rw [hdev]
      dsimp only
      cases hstored : w.dev.finish i && w.dev.error == 0 with
      | false =>
          rw [if_neg Bool.false_ne_true]
          rfl
      | true =>
          rw [Bool.and_eq_true, beq_iff_eq] at hstored
          have hslot : (if w.dev.drain i then 0 else w.dev.fill) ≤ 16 := by
            have hfill := (h.collected hstored.2).fill
            split_ifs
            · exact Nat.zero_le _
            · exact hfill
          rw [if_pos rfl]
          exact Nat.mod_eq_of_lt (by omega)
    error := by rw [hdev]
    state := by
      rw [hdev]
      dsimp only
      rw [h.state]
      simp only [reduceCtorEq, false_and, if_false, true_and]
      refine if_congr Iff.rfl rfl ?_
      cases hdrain : w.dev.drain i with
      | false => rfl
      | true => rw [hdrain' hdrain]
    first := by rw [hdev]; rfl
    second := by rw [hdev]; rfl
    kept := by rw [hdev] }

theorem Computing.result {answered : Option MapOperands} {pipe : List MapOperands}
    (h : w.Computing F) (hanswers : PipeAnswers F w i answered pipe)
    (hfinish : w.dev.finish i = true) :
    i.value = F.value (w.job.operands w.dev.completed) ∧
      i.computeFault = F.fault (w.job.operands w.dev.completed) := by
  obtain ⟨-, -, hfirst⟩ := h.answers hanswers
  rw [hanswers.valid] at hfinish
  obtain ⟨x, hx⟩ := Option.isSome_iff_exists.mp hfinish
  rw [← hfirst x hx]
  exact hanswers.value x hx

/-- Without an error after the clock, there was none before, nor a fault. -/
theorem ComputeStep.error_zero (hstep : ComputeStep w w' i) (herror : w'.dev.error = 0) :
    w.dev.error = 0 ∧ (w.dev.finish i = true → i.computeFault = false) := by
  have herrors := hstep.error
  rw [herror] at herrors
  split_ifs at herrors with hfault
  refine ⟨herrors.symm, fun hfinish => ?_⟩
  rw [hfinish, Bool.true_and] at hfault
  exact Bool.eq_false_iff.mpr hfault

theorem Computing.fetched (h : w.Computing F) (hstep : ComputeStep w w' i)
    (hfetch : w.dev.fetch i = true) :
    w'.dev.aIn = w.job.a w.dev.readIndex ∧ w'.dev.bIn = w.job.b w.dev.readIndex := by
  have hlt := hfetch
  rw [h.fetch_eq (fetch_error hfetch), Bool.and_eq_true, decide_eq_true_iff, h.count] at hlt
  have hbeat : w.dev.readIndex / 16 < w.job.beats := by
    unfold MapJob.beats
    omega
  have hlane : 16 * (w.dev.readIndex / 16) + w.dev.readIndex % 16 = w.dev.readIndex :=
    Nat.div_add_mod _ _
  have ha := (h.cached (w.dev.readIndex / 16) (by omega) (w.dev.readIndex % 16)
    (Nat.mod_lt _ (by decide))).1 hbeat
  have hb := (h.cached (w.job.beats + w.dev.readIndex / 16) (by omega) (w.dev.readIndex % 16)
    (Nat.mod_lt _ (by decide))).2 (Nat.le_add_right _ _)
  rw [Nat.add_sub_cancel_left] at hb
  unfold CachedBinaryMap.aIn CachedBinaryMap.bIn
  rw [hstep.first, hstep.second, hstep.readTag]
  simp only [hfetch, if_true]
  rw [ha, hb, hlane]
  exact ⟨rfl, rfl⟩

/-- The pair that waits for the pipeline, after the clock. -/
theorem Collected.next_pair (hc : w.Collected F) (h : w.Computing F) (hstep : ComputeStep w w' i)
    (herror : w.dev.error = 0) :
    w'.dev.readIndex = w'.dev.issued + w'.dev.readValid.toNat ∧
      (w'.dev.readValid = true → w'.dev.readTag = w'.dev.issued ∧ w'.dev.issued < w.dev.count ∧
        w'.dev.aIn = w.job.a w'.dev.issued ∧ w'.dev.bIn = w.job.b w'.dev.issued) := by
  have hissue := @Computing.issue_eq F w i h herror
  have hindex := hc.readIndex
  rw [hstep.readIndex, hstep.issued, hstep.readValid]
  cases hfetch : w.dev.fetch i with
  | true =>
      have hfetched := h.fetched hstep hfetch
      have hready := hfetch
      rw [h.fetch_eq herror, Bool.and_eq_true, decide_eq_true_iff] at hready
      have htaken : w.dev.issue i = w.dev.readValid := by
        rw [hissue]
        cases hvalid : w.dev.readValid with
        | false => rfl
        | true => simpa [hvalid] using hready.2
      have htag : w'.dev.readTag = w.dev.readIndex := by rw [hstep.readTag, hfetch]; rfl
      rw [htaken, htag, ← hindex]
      exact ⟨rfl, fun _ => ⟨rfl, hready.1, hfetched⟩⟩
  | false =>
      have htag : w'.dev.readTag = w.dev.readTag := by rw [hstep.readTag, hfetch]; rfl
      have ha : w'.dev.aIn = w.dev.aIn := by
        unfold CachedBinaryMap.aIn
        rw [htag, hstep.first, hfetch]
        rfl
      have hb : w'.dev.bIn = w.dev.bIn := by
        unfold CachedBinaryMap.bIn
        rw [htag, hstep.second, hfetch]
        rfl
      rw [htag, ha, hb]
      cases htaken : w.dev.issue i with
      | true =>
          rw [htaken] at hissue
          have hvalid := (Bool.and_eq_true_iff.mp hissue.symm).1
          rw [hvalid] at hindex
          exact ⟨hindex, nofun⟩
      | false => exact ⟨hindex, hc.readTag⟩

/-- The beat of results that is collected, after the clock. -/
theorem Collected.next_beat {answered : Option MapOperands} {pipe : List MapOperands}
    (hc : w.Collected F) (h : w.Computing F) (hstep : ComputeStep w w' i)
    (hanswers : PipeAnswers F w i answered pipe) (herror : w.dev.error = 0) :
    w'.dev.completed = w'.dev.writeIndex + w'.dev.fill ∧ w'.dev.fill ≤ 16 ∧
      ∀ j < w'.dev.fill, w'.dev.output j = F.value (w.job.operands (w'.dev.writeIndex + j)) := by
  have hcompleted := hc.completed
  have hfill := hc.fill
  have houtput := hc.output
  rw [hstep.completed, hstep.writeIndex, hstep.fill, hstep.output, herror]
  simp only [BEq.rfl, Bool.and_true]
  cases hdrain : w.dev.drain i with
  | true =>
      simp only [if_true]
      cases hfinish : w.dev.finish i with
      | false => exact ⟨hcompleted, by decide, nofun⟩
      | true =>
          have hvalue := (h.result hanswers hfinish).1
          refine ⟨by rw [hcompleted]; rfl, by decide, fun j hj => ?_⟩
          obtain rfl : j = 0 := Nat.lt_one_iff.mp hj
          rw [if_pos rfl, Function.update_self, hvalue, hcompleted]
          rfl
  | false =>
      simp only [Bool.false_eq_true, if_false]
      cases hfinish : w.dev.finish i with
      | false => exact ⟨hcompleted, hfill, houtput⟩
      | true =>
          have hvalue := (h.result hanswers hfinish).1
          have hroom : w.dev.fill < 16 := by
            -- a full beat that is not written keeps the results out
            refine Nat.lt_of_le_of_ne hfill fun hfull => ?_
            simp [CachedBinaryMap.finish, CachedBinaryMap.computeReadyIn, CachedBinaryMap.full,
              h.state, herror, hfull] at hfinish
            simp [CachedBinaryMap.drain, CachedBinaryMap.mWrite, CachedBinaryMap.full,
              h.state, herror, hfull, hfinish.2] at hdrain
          refine ⟨by rw [hcompleted]; rfl, hroom, fun j hj => ?_⟩
          rw [if_pos rfl]
          rcases Nat.lt_succ_iff_lt_or_eq.mp hj with hlt | rfl
          · rw [Function.update_of_ne hlt.ne]
            exact houtput j hlt
          · rw [Function.update_self, hvalue, hcompleted]

theorem Computing.mem_step (h : w.Computing F) (hclock : MapClock F w i w')
    (hstep : ComputeStep w w' i) (herror : w.dev.error = 0) :
    w'.mem = w.job.written F w'.dev.writeIndex := by
  have hc := h.collected herror
  rw [hclock.mem, hstep.writeIndex]
  cases hdrain : w.dev.drain i with
  | false => exact hc.mem
  | true =>
      rw [if_pos rfl, if_pos rfl, h.mAddress_write h.state hc.short, hc.mem]
      exact storeMasked_written hc.fill hc.output

theorem Collected.next_faults {answered : Option MapOperands} {pipe : List MapOperands}
    (hc : w.Collected F) (h : w.Computing F) (hstep : ComputeStep w w' i)
    (hanswers : PipeAnswers F w i answered pipe) (herror : w'.dev.error = 0) :
    ∀ k < w'.dev.completed, F.fault (w.job.operands k) = false := by
  intro k hk
  obtain ⟨-, hfault⟩ := hstep.error_zero herror
  rw [hstep.completed] at hk
  cases hfinish : w.dev.finish i with
  | false =>
      rw [hfinish] at hk
      exact hc.faults k hk
  | true =>
      rw [hfinish] at hk
      rcases Nat.lt_succ_iff_lt_or_eq.mp hk with hlt | rfl
      · exact hc.faults k hlt
      · rw [← (h.result hanswers hfinish).2]
        exact hfault hfinish

/-- A beat that is written is full or the last. -/
theorem Collected.next_write (hc : w.Collected F) (h : w.Computing F) (hstep : ComputeStep w w' i)
    (hstay : ¬ (w.dev.drain i = true ∧ w.dev.writeIndex + w.dev.fill = w.dev.count)) :
    w'.dev.writeIndex < w.dev.count ∧ w'.dev.writeIndex % 16 = 0 := by
  rw [hstep.writeIndex]
  split_ifs with hdrain
  · have hmore : w.dev.writeIndex + w.dev.fill ≠ w.dev.count := fun hall => hstay ⟨hdrain, hall⟩
    have hfull : w.dev.fill = 16 := by
      unfold CachedBinaryMap.drain CachedBinaryMap.mWrite CachedBinaryMap.full at hdrain
      simp only [Bool.and_eq_true, Bool.or_eq_true, beq_iff_eq] at hdrain
      rcases hdrain.1.1.2 with hfull | ⟨hlast, -⟩
      · exact hfull
      · exact (hmore (hc.completed.symm.trans hlast)).elim
    refine ⟨Nat.lt_of_le_of_ne (h.drain_le hdrain) hmore, ?_⟩
    rw [hfull, Nat.add_mod_right]
    exact hc.aligned
  · exact ⟨hc.short, hc.aligned⟩

theorem Collected.step {answered : Option MapOperands} {pipe : List MapOperands}
    (hc : w.Collected F) (h : w.Computing F) (hclock : MapClock F w i w')
    (hstep : ComputeStep w w' i) (hanswers : PipeAnswers F w i answered pipe)
    (hjob : w'.job = w.job) (hcount : w'.dev.count = w.dev.count) (herror : w'.dev.error = 0)
    (hstay : ¬ (w.dev.drain i = true ∧ w.dev.writeIndex + w.dev.fill = w.dev.count)) :
    w'.Collected F := by
  have hzero := (hstep.error_zero herror).1
  obtain ⟨hindex, hpair⟩ := hc.next_pair h hstep hzero
  obtain ⟨hcompleted, hfill, houtput⟩ := hc.next_beat h hstep hanswers hzero
  obtain ⟨hshort, haligned⟩ := hc.next_write h hstep hstay
  exact {
    readIndex := hindex
    readTag := by rw [hjob, hcount]; exact hpair
    completed := hcompleted
    fill := hfill
    aligned := haligned
    short := hcount ▸ hshort
    output := by rw [hjob]; exact houtput
    faults := by rw [hjob]; exact hc.next_faults h hstep hanswers herror
    mem := by rw [hjob]; exact h.mem_step hclock hstep hzero }

theorem Computing.step (h : w.Computing F) (hclock : MapClock F w i w') (hreset : i.reset = false) :
    Inv F w' := by
  obtain ⟨answered, hanswers⟩ := hclock.pipe hreset
  obtain ⟨hpipe, hcounts, -⟩ := h.answers hanswers
  have hissued := @Computing.issued_le F w i h
  have hstep := h.clock hclock hreset hcounts
  have hreads := reads_quiet hclock hreset (by rw [h.state]; decide) h.reads
  have hjob := job_of_ne hclock (by rw [h.state]; decide)
  have hkept := hstep.kept
  have hcount : w'.dev.count = w.dev.count := by rw [hkept]
  have htaken : w'.Taken := h.congr hjob (by rw [hkept]) (by rw [hkept]) (by rw [hkept]) hcount
    (by rw [hkept])
  rw [← hstep.completed, ← hstep.issued] at hpipe hcounts
  have hstate := hstep.state
  split_ifs at hstate with hfaulted hlast
  · -- after a fault, with every result there: nothing was taken
    have hissue : w.dev.issue i = false := by
      refine Bool.eq_false_iff.mpr fun hissue => hfaulted.1 (issue_error hissue)
    have hall : w'.dev.completed = w'.dev.issued := by
      have hissued' := hstep.issued
      have hcompleted' := hstep.completed
      rw [hissue, Bool.toNat_false] at hissued'
      omega
    refine .done ⟨hstate, hreads, by rw [hpipe, hall, window_self], fun herror => ?_⟩
    exact (hfaulted.1 (hstep.error_zero herror).1).elim
  · -- with the last results written there is nothing in the pipeline
    have hzero := drain_error hlast.1
    have hc := h.collected hzero
    have hcompleted : w.dev.completed = w.dev.count := hc.completed.trans hlast.2
    have hall : w'.dev.completed = w'.dev.issued := by
      have hissued' := hstep.issued
      have hcompleted' := hstep.completed
      omega
    refine .done ⟨hstate, hreads, by rw [hpipe, hall, window_self], fun herror => ?_⟩
    have hwritten : w'.dev.writeIndex = w.job.command.count.toNat := by
      rw [hstep.writeIndex, if_pos hlast.1, hlast.2, h.count]
    have hmem := h.mem_step hclock hstep hzero
    rw [hwritten] at hmem
    rw [hjob]
    refine ⟨hmem, fun k hk => hc.faults k ?_⟩
    rw [hcompleted, h.count]
    exact hk
  · exact .compute { htaken with
      state := hstate
      reads := hreads
      cached := by
        rw [hjob]
        exact h.cached.congr hjob (by rw [hstep.first]) (by rw [hstep.second])
      pipe := by rw [hjob]; exact hpipe
      completed := hcounts
      issued := by rw [hstep.issued, hcount]; exact hissued
      collected := fun herror => (h.collected (hstep.error_zero herror).1).step h hclock hstep
        hanswers hjob hcount herror hlast }

end

/-! ## Runs -/

/-- The destination holds the results, and nothing else has changed. -/
structure Mapped (F : MapCompute) (w : MapWorld) : Prop where
  results : ∀ k < w.job.command.count.toNat,
    loadWord w.mem (w.job.command.destination.toNat + 4 * k) = F.value (w.job.operands k)
  faults : ∀ k < w.job.command.count.toNat, F.fault (w.job.operands k) = false
  rest : ∀ p, ¬ (w.job.command.destination.toNat ≤ p ∧
    p < w.job.command.destination.toNat + 4 * w.job.command.count.toNat) → w.mem p = w.job.start p

/-- The signals of a stalled transfer stay. -/
structure Stable (w w' : MapWorld) : Prop where
  read : w.dev.mRead = true → w'.dev.mRead = true ∧ w'.dev.mAddress = w.dev.mAddress
  write : w.dev.mWrite = true → w'.dev.mWrite = true ∧ w'.dev.mAddress = w.dev.mAddress ∧
    w'.dev.output = w.dev.output ∧ w'.dev.mByteenable = w.dev.mByteenable

section

variable {F : MapCompute} {w w' : MapWorld} {i : MapInputs}

theorem mRead_state (h : w.dev.mRead = true) : w.dev.state = .load := by
  by_contra hne
  rw [CachedBinaryMap.mRead_of_ne hne] at h
  exact Bool.false_ne_true h

theorem mWrite_state (h : w.dev.mWrite = true) : w.dev.state = .compute := by
  unfold CachedBinaryMap.mWrite at h
  simp only [Bool.and_eq_true, beq_iff_eq] at h
  exact h.1.1

theorem Inv.loading (h : w.Inv F) (hstate : w.dev.state = .load) : w.Loading := by
  rcases h with h | h | h | h
  · cases h.state.symm.trans hstate
  · exact h
  · cases h.state.symm.trans hstate
  · cases h.state.symm.trans hstate

theorem Inv.computing (h : w.Inv F) (hstate : w.dev.state = .compute) : w.Computing F := by
  rcases h with h | h | h | h
  · cases h.state.symm.trans hstate
  · cases h.state.symm.trans hstate
  · exact h
  · cases h.state.symm.trans hstate

theorem Inv.response (h : w.Inv F) (hstate : w.dev.state = .response) : w.Done F := by
  rcases h with h | h | h | h
  · cases h.state.symm.trans hstate
  · cases h.state.symm.trans hstate
  · cases h.state.symm.trans hstate
  · exact h

theorem Inv.step (h : w.Inv F) (hclock : MapClock F w i w') : w'.Inv F := by
  cases hreset : i.reset with
  | true =>
      obtain ⟨hreads, hpipe⟩ := hclock.flushed hreset
      refine .idle ⟨?_, hreads, hpipe⟩
      rw [hclock.dev, CachedBinaryMap.work, if_pos hreset]
      rfl
  | false =>
      cases h with
      | idle h => exact h.step hclock hreset
      | load h => exact h.step hclock hreset
      | compute h => exact h.step hclock hreset
      | done h => exact h.step hclock hreset

theorem inv {es : List MapInputs} (h : (mapSystem F).Traces es w) : w.Inv F := by
  obtain ⟨w₀, ⟨hdev, hreads, hpipe⟩, hrun⟩ := h
  refine hrun.invariant (fun _ => Inv F) (.idle ⟨by rw [hdev]; rfl, hreads, hpipe⟩) ?_
  intro _ w e w' hinv hstep
  cases e with
  | none => exact hstep.elim
  | some i => exact hinv.step hstep

theorem Done.mapped (h : w.Done F) (herror : w.dev.error = 0) : w.Mapped F := by
  obtain ⟨hmem, hfaults⟩ := h.mem herror
  refine ⟨fun k hk => loadWord_bytes fun b hb => ?_, hfaults, fun p hp => ?_⟩
  · rw [hmem, MapJob.written]
    rw [if_pos ⟨by omega, by omega⟩]
    congr 3
    · omega
    · omega
  · rw [hmem, MapJob.written]
    exact if_neg hp

theorem Loading.stable (h : w.Loading) (hclock : MapClock F w i w') (hreset : i.reset = false)
    (hwait : i.waitrequest = true) (hread : w.dev.mRead = true) :
    w'.dev.mRead = true ∧ w'.dev.mAddress = w.dev.mAddress := by
  obtain ⟨answered, hanswers, hstep⟩ := h.clock hclock hreset
  obtain ⟨-, hcounts, -⟩ := h.answers hanswers
  have hshort := mRead_short h hread
  rw [hread, hwait] at hstep hcounts
  have hheld : w'.dev.held = true := by rw [hstep.held, hread, hwait]; rfl
  have hrequested : w'.dev.requested = w.dev.requested := hstep.requested
  have hstate : w'.dev.state = .load := by
    rw [hstep.state, hread, hwait]
    change w.dev.returned + answered.isSome.toNat ≤ w.dev.requested at hcounts
    rw [if_neg (by simp), if_neg (by omega)]
  have hkept := hstep.kept
  constructor
  · simp [CachedBinaryMap.mRead, hstate, hheld]
  · unfold CachedBinaryMap.mAddress CachedBinaryMap.beats
    rw [hstate, h.state, hrequested, hkept]

theorem Computing.stable (h : w.Computing F) (hclock : MapClock F w i w') (hreset : i.reset = false)
    (hwait : i.waitrequest = true) (hwrite : w.dev.mWrite = true) :
    w'.dev.mWrite = true ∧ w'.dev.mAddress = w.dev.mAddress ∧ w'.dev.output = w.dev.output ∧
      w'.dev.mByteenable = w.dev.mByteenable := by
  obtain ⟨answered, hanswers⟩ := hclock.pipe hreset
  have hstep := h.clock hclock hreset (h.answers hanswers).2.1
  have hsignals := hwrite
  unfold CachedBinaryMap.mWrite at hsignals
  simp only [Bool.and_eq_true, beq_iff_eq] at hsignals
  obtain ⟨⟨-, hfull⟩, herror⟩ := hsignals
  have hdrain : w.dev.drain i = false := by simp [CachedBinaryMap.drain, hwait]
  have hfinish : w.dev.finish i = false := by
    simp [CachedBinaryMap.finish, CachedBinaryMap.computeReadyIn, herror, hfull, hwait]
  have herror' : w'.dev.error = 0 := by rw [hstep.error, hfinish]; exact herror
  have hstate : w'.dev.state = .compute := by rw [hstep.state, hdrain, herror]; simp
  have hfill : w'.dev.fill = w.dev.fill := by rw [hstep.fill, hdrain, hfinish]; rfl
  have hcompleted : w'.dev.completed = w.dev.completed := by rw [hstep.completed, hfinish]; rfl
  have hindex : w'.dev.writeIndex = w.dev.writeIndex := by rw [hstep.writeIndex, hdrain]; rfl
  have hkept := hstep.kept
  have hcount : w'.dev.count = w.dev.count := by rw [hkept]
  have hdestination : w'.dev.destination = w.dev.destination := by rw [hkept]
  have hfull' : w'.dev.full = w.dev.full := by
    unfold CachedBinaryMap.full
    rw [hfill, hcompleted, hcount]
  refine ⟨?_, ?_, by rw [hstep.output, hfinish]; rfl, ?_⟩
  · simp [CachedBinaryMap.mWrite, hstate, hfull', hfull, herror']
  · unfold CachedBinaryMap.mAddress
    rw [hstate, h.state, hdestination, hindex, if_neg (by decide), if_neg (by decide)]
  · unfold CachedBinaryMap.mByteenable
    rw [hfill]

theorem Inv.stable (h : w.Inv F) (hclock : MapClock F w i w') (hreset : i.reset = false)
    (hwait : i.waitrequest = true) : Stable w w' where
  read hread := (h.loading (mRead_state hread)).stable hclock hreset hwait hread
  write hwrite := (h.computing (mWrite_state hwrite)).stable hclock hreset hwait hwrite

/-- An error stays until the response is taken, and keeps the map from writing. -/
structure Stops (w w' : MapWorld) (i : MapInputs) : Prop where
  readError : i.readdatavalid = true → i.readdataerror = true → w'.dev.error ≠ 0
  computeFault : w.dev.finish i = true → i.computeFault = true → w'.dev.error ≠ 0
  stays : w.dev.error ≠ 0 → w.dev.state ≠ .idle → w'.dev.error ≠ 0
  write : w.dev.error ≠ 0 → w.dev.mWrite = false ∧ w'.mem = w.mem

theorem LoadStep.error_ne {accepted answered : Bool} (hstep : LoadStep w w' i accepted answered)
    (h : answered = true ∧ i.readdataerror = true ∨ w.dev.error ≠ 0) : w'.dev.error ≠ 0 := by
  rw [hstep.error]
  split_ifs with hcond
  · decide
  · rcases h with ⟨hanswered, herror⟩ | h
    · exact (hcond (by rw [hanswered, herror]; rfl)).elim
    · exact h

theorem ComputeStep.error_ne (hstep : ComputeStep w w' i)
    (h : w.dev.finish i = true ∧ i.computeFault = true ∨ w.dev.error ≠ 0) : w'.dev.error ≠ 0 := by
  rw [hstep.error]
  split_ifs with hcond
  · decide
  · rcases h with ⟨hfinish, hfault⟩ | h
    · exact (hcond (by rw [hfinish, hfault]; rfl)).elim
    · exact h

/-- A response comes while loading only. -/
theorem Inv.valid_loading (h : w.Inv F) {answered : Option Nat} {reads : List Nat}
    (hanswers : BusAnswers w i answered reads) (hvalid : i.readdatavalid = true) : w.Loading := by
  have hquiet : w.reads = [] → w.dev.mRead = false → False := fun hreads hread => by
    have horder := hanswers.order
    rw [hreads, hread] at horder
    rw [hanswers.valid] at hvalid
    obtain ⟨a, rfl⟩ := Option.isSome_iff_exists.mp hvalid
    cases horder
  rcases h with h | h | h | h
  · exact (hquiet h.reads (CachedBinaryMap.mRead_of_ne (by rw [h.state]; decide))).elim
  · exact h
  · exact (hquiet h.reads (CachedBinaryMap.mRead_of_ne (by rw [h.state]; decide))).elim
  · exact (hquiet h.reads (CachedBinaryMap.mRead_of_ne (by rw [h.state]; decide))).elim

theorem Inv.stops (h : w.Inv F) (hclock : MapClock F w i w') (hreset : i.reset = false) :
    Stops w w' i where
  readError hvalid herror := by
    obtain ⟨answered, hanswers⟩ := hclock.reads hreset
    obtain ⟨answered, hanswers, hstep⟩ := (h.valid_loading hanswers hvalid).clock hclock hreset
    exact hstep.error_ne (.inl ⟨hanswers.valid ▸ hvalid, herror⟩)
  computeFault hfinish hfault := by
    have hstate : w.dev.state = .compute := by
      by_contra hne
      rw [CachedBinaryMap.finish_of_ne hne] at hfinish
      exact Bool.false_ne_true hfinish
    obtain ⟨answered, hanswers⟩ := hclock.pipe hreset
    have hcomputing := h.computing hstate
    exact (hcomputing.clock hclock hreset (hcomputing.answers hanswers).2.1).error_ne
      (.inl ⟨hfinish, hfault⟩)
  stays herror hidle := by
    rcases h with h | h | h | h
    · exact (hidle h.state).elim
    · obtain ⟨answered, -, hstep⟩ := h.clock hclock hreset
      exact hstep.error_ne (.inr herror)
    · obtain ⟨answered, hanswers⟩ := hclock.pipe hreset
      exact (h.clock hclock hreset (h.answers hanswers).2.1).error_ne (.inr herror)
    · rw [hclock.dev, CachedBinaryMap.work_response h.state hreset]
      exact herror
  write herror := by
    have hwrite : w.dev.mWrite = false := by simp [CachedBinaryMap.mWrite, herror]
    refine ⟨hwrite, ?_⟩
    rw [hclock.mem, CachedBinaryMap.drain, hwrite]
    rfl

theorem aligned_of_or {x y z : UInt32} (h : ((x ||| y ||| z) &&& 63 == 0) = true) :
    x.toNat % 64 = 0 ∧ y.toNat % 64 = 0 ∧ z.toNat % 64 = 0 := by
  have hnat := congrArg UInt32.toNat (beq_iff_eq.mp h)
  rw [UInt32.toNat_and, UInt32.toNat_or, UInt32.toNat_or,
    show (63 : UInt32).toNat = 2 ^ 6 - 1 from rfl, Nat.and_two_pow_sub_one_eq_mod,
    Nat.or_mod_two_pow, Nat.or_mod_two_pow, show (0 : UInt32).toNat = 0 from rfl,
    Nat.or_eq_zero_iff, Nat.or_eq_zero_iff] at hnat
  exact ⟨hnat.1.1, hnat.1.2, hnat.2⟩

theorem Taken.aligned (h : w.Taken) :
    w.job.command.source.toNat % 64 = 0 ∧ w.job.command.second.toNat % 64 = 0 ∧
      w.job.command.destination.toNat % 64 = 0 := by
  have hvalid := h.valid
  unfold MapCommand.valid at hvalid
  rw [Bool.and_eq_true, Bool.and_eq_true, Bool.and_eq_true, Bool.and_eq_true] at hvalid
  exact aligned_of_or hvalid.1.1.1.2

/-- The bus sees whole beats. -/
theorem Inv.mAddress_aligned (h : w.Inv F) (hbus : w.dev.mRead = true ∨ w.dev.mWrite = true) :
    w.dev.mAddress % 64 = 0 := by
  rcases hbus with hread | hwrite
  · have hstate := mRead_state hread
    have hloading := h.loading hstate
    obtain ⟨hsource, hsecond, -⟩ := hloading.aligned
    rw [hloading.mAddress_load hstate (mRead_short hloading hread), MapJob.readAddress]
    split_ifs
    · omega
    · omega
  · have hstate := mWrite_state hwrite
    have hcomputing := h.computing hstate
    have herror : w.dev.error = 0 := by
      unfold CachedBinaryMap.mWrite at hwrite
      simp only [Bool.and_eq_true, beq_iff_eq] at hwrite
      exact hwrite.2
    have hc := hcomputing.collected herror
    have haligned := hc.aligned
    obtain ⟨-, -, hdestination⟩ := hcomputing.aligned
    rw [hcomputing.mAddress_write hstate hc.short]
    omega

end

/-- In every state reached: a response without an error has mapped the memory the
command found, and no response leaves a read or a result outstanding. In every
clock: what is stalled stays, and an error stops the writes. -/
theorem map_sound {F : MapCompute} {es : List MapInputs} {w : MapWorld}
    (h : (mapSystem F).Traces es w) :
    (w.dev.state = .response → w.reads = [] ∧ w.pipe = []) ∧
      (w.dev.state = .response → w.dev.error = 0 → w.Mapped F) ∧
      (w.dev.mRead = true ∨ w.dev.mWrite = true → w.dev.mAddress % 64 = 0) ∧
      ∀ i w', (mapSystem F).step w (some i) w' → i.reset = false →
        Stops w w' i ∧ (i.waitrequest = true → Stable w w') := by
  have hinv := inv h
  refine ⟨fun hstate => ?_, fun hstate => ?_, hinv.mAddress_aligned, fun i w' hclock hreset => ?_⟩
  · exact ⟨(hinv.response hstate).reads, (hinv.response hstate).pipe⟩
  · exact (hinv.response hstate).mapped
  · exact ⟨hinv.stops hclock hreset, hinv.stable hclock hreset⟩

/-! ## A run -/

/-- A clock without a stall in which every read and every pair is answered at once. -/
def promptInputs (F : MapCompute) (w : MapWorld) (command : MapCommand) : MapInputs where
  reset := false
  commandValid := true
  command := command
  responseReady := false
  waitrequest := false
  readdata lane := loadWord w.mem (w.dev.mAddress + 4 * lane)
  readdatavalid := w.dev.mRead
  readdataerror := false
  computeReady := true
  computeValid := w.dev.computeValidIn
  value := F.value ⟨UInt32.ofNat w.dev.operation, w.dev.aIn, w.dev.bIn⟩
  computeFault := F.fault ⟨UInt32.ofNat w.dev.operation, w.dev.aIn, w.dev.bIn⟩

def prompt (F : MapCompute) (command : MapCommand) (w : MapWorld) : MapWorld :=
  let i := promptInputs F w command
  { dev := w.dev.work i
    mem := if w.dev.drain i then
      storeMasked w.mem w.dev.mAddress w.dev.output 64 w.dev.mByteenable else w.mem
    reads := w.reads
    pipe := w.pipe
    job := if w.dev.state = .idle ∧ i.commandValid then ⟨i.command, w.mem⟩ else w.job }

theorem prompt_clock {F : MapCompute} {command : MapCommand} {w : MapWorld} (hreads : w.reads = [])
    (hpipe : w.pipe = []) : MapClock F w (promptInputs F w command) (prompt F command w) where
  dev := rfl
  mem := rfl
  job := rfl
  flushed h := (Bool.false_ne_true h).elim
  reads _ := by
    refine ⟨if w.dev.mRead then some w.dev.mAddress else none, ?_, ?_, ?_⟩
    · cases hread : w.dev.mRead with
      | true => exact hread
      | false => exact hread
    · rw [show (prompt F command w).reads = [] from hreads, hreads]
      cases hread : w.dev.mRead with
      | true => rfl
      | false => rfl
    · intro a ha _ lane _
      split_ifs at ha
      cases ha
      rfl
  pipe _ := by
    have hissue : w.dev.issue (promptInputs F w command) = w.dev.computeValidIn := Bool.and_true _
    have hready : w.dev.computeValidIn = true →
        w.dev.computeReadyIn (promptInputs F w command) = true := fun h => by
      unfold CachedBinaryMap.computeValidIn at h
      simp only [Bool.and_eq_true, beq_iff_eq] at h
      simp [CachedBinaryMap.computeReadyIn, promptInputs, h.1.1]
    refine ⟨if w.dev.computeValidIn then
      some ⟨UInt32.ofNat w.dev.operation, w.dev.aIn, w.dev.bIn⟩ else none, ?_, ?_, ?_⟩
    · unfold CachedBinaryMap.finish
      change (w.dev.computeValidIn && _) = _
      cases hvalid : w.dev.computeValidIn with
      | true => exact hready hvalid
      | false => rfl
    · rw [show (prompt F command w).pipe = [] from hpipe, hpipe, hissue]
      cases hvalid : w.dev.computeValidIn with
      | true => rfl
      | false => rfl
    · intro x hx
      split_ifs at hx
      cases hx
      exact ⟨rfl, rfl⟩

theorem prompt_run {F : MapCompute} {command : MapCommand} {w : MapWorld}
    (hinit : (mapSystem F).init w) (n : Nat) :
    ∃ es, (mapSystem F).Traces es ((prompt F command)^[n] w) := by
  have hreads := hinit.2.1
  have hpipe := hinit.2.2
  have key : ∃ es, Transitions.Run (mapSystem F) w es ((prompt F command)^[n] w) ∧
      ((prompt F command)^[n] w).reads = [] ∧ ((prompt F command)^[n] w).pipe = [] := by
    induction n with
    | zero => exact ⟨[], .refl w, hreads, hpipe⟩
    | succ n ih =>
        obtain ⟨es, hrun, hr, hp⟩ := ih
        rw [Function.iterate_succ_apply']
        exact ⟨_, hrun.shows (prompt_clock hr hp), hr, hp⟩
  obtain ⟨es, hrun, -, -⟩ := key
  exact ⟨es, w, hinit, hrun⟩

def sumPairs : MapCompute := ⟨fun x => x.a + x.b, fun _ => false⟩

/-- One pair, 2 at address 0 and 3 at address 64; the sum goes to address 0. -/
def onePair : MapWorld where
  dev := (⟨⟨fun _ _ => 0, fun _ => 0⟩, ⟨fun _ _ => 0, fun _ => 0⟩, .idle, 0, 0, 0, 0, 0, 0, 0, 0, 0, 0,
    0, 0, 0, 0, false, false, fun _ => 0⟩ : CachedBinaryMap).cleared
  mem p := if p = 0 then 2 else if p = 64 then 3 else 0
  reads := []
  pipe := []
  job := ⟨⟨0, 64, 0, 1, 0⟩, fun _ => 0⟩

/-- It takes six clocks. -/
theorem map_sound_pair :
    ((prompt sumPairs onePair.job.command)^[6] onePair).Mapped sumPairs ∧
      loadWord ((prompt sumPairs onePair.job.command)^[6] onePair).mem 0 = 5 := by
  obtain ⟨es, hrun⟩ := @prompt_run sumPairs onePair.job.command onePair ⟨rfl, rfl, rfl⟩ 6
  exact ⟨(map_sound hrun).2.1 (by decide +kernel) (by decide +kernel), by decide +kernel⟩

end MapWorld

end CppHdl.Hls
