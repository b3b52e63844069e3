import CppHdl.Threads.Tasks

/-!
# Batches

`Batch::run` executes independent jobs on the lanes of a pool. Under the static
schedule each lane has its own range of jobs; under the dynamic one the lanes
take `grain` jobs at a time from an atomic counter, with a compare and exchange
that may fail for no reason. A job may throw: the lane keeps the first exception
and goes on with the next job.

The counter never passes `count`, so no `size_t` wraps. A lane owes the jobs it
has been handed and has not begun; what was begun and what is owed make up the
jobs handed out.
-/

namespace CppHdl.Threads

inductive Schedule
  | static
  | dynamic

/-- The constants of the `Context` of a run. -/
structure Context (φ : Type) where
  function : φ
  count : Nat
  grain : Nat
  active : Nat
  schedule : Schedule

namespace Context

variable {φ : Type} (c : Context φ)

def width : Nat := c.count / c.active
def extra : Nat := c.count % c.active

/-- The jobs of a lane under the static schedule are from `first` up to `stop`. -/
def first (lane : Nat) : Nat := c.width * lane + min lane c.extra
def stop (lane : Nat) : Nat := c.first lane + c.width + if lane < c.extra then 1 else 0

end Context

/-- The part of the `Context` that lanes write, and the memory of the jobs. -/
structure BatchMemory (μ ξ : Type) where
  jobs : μ
  next : Nat
  error : Option ξ

/-- A batch has passed `checked`. -/
structure Batch where
  threads : Nat
  valid : 0 < threads ∧ threads ≤ 256

namespace Batch

def checked (threads : Nat) : Except String Batch :=
  if h : threads = 0 ∨ 256 < threads then .error "native batch threads must be 1..256"
  else .ok ⟨threads, by omega⟩

/-- `run` up to its dispatch; without jobs there is none. -/
def run {φ : Type} (b : Batch) (count : Nat) (function : φ) (schedule : Schedule) (grain : Nat) :
    Except String (Option (Dispatch Unit (Context φ))) :=
  if grain = 0 then .error "native batch grain must be positive"
  else if count = 0 then .ok none
  else
    let active := min b.threads count
    .ok (some ⟨(), ⟨function, count, grain, active, schedule⟩, active⟩)

end Batch

/-! ## What a lane does -/

structure Jobs (φ κ μ ε ξ : Type) where
  memory : φ → μ
  start : φ → Nat → κ
  step : κ → μ → Option ε → κ → μ → Prop
  returns : κ → Prop
  throws : κ → ξ → Prop

inductive Station (φ κ ξ : Type)
  /-- At the condition of the loop over the jobs from `job` up to `stop`. -/
  | loop (c : Context φ) (job stop : Nat)
  | inside (c : Context φ) (job stop : Nat) (k : κ)
  /-- In the handler of `invoke`. -/
  | caught (c : Context φ) (job stop : Nat) (x : ξ)
  | load (c : Context φ)
  | check (c : Context φ) (first : Nat)
  | exchange (c : Context φ) (first stop : Nat)
  | done

inductive JobEvent (ε ξ : Type)
  | begun (job : Nat)
  /-- An event of the job. -/
  | inner (event : ε)
  | threw (job : Nat) (x : ξ)
  /-- `invoke` returns. -/
  | ended (job : Nat)

section

variable {φ κ μ ε ξ : Type} (J : Jobs φ κ μ ε ξ)

/-- The steps of a lane, beside those of the jobs. -/
inductive StationStep : Station φ κ ξ → BatchMemory μ ξ → Option (JobEvent ε ξ) →
    Station φ κ ξ → BatchMemory μ ξ → Prop
  | begin {c : Context φ} {job stop : Nat} {m : BatchMemory μ ξ} : job < stop →
      StationStep (.loop c job stop) m (some (.begun job))
        (.inside c job stop (J.start c.function job)) m
  | work {c : Context φ} {job stop : Nat} {k k' : κ} {m : BatchMemory μ ξ} {jobs : μ}
      {e : Option ε} : J.step k m.jobs e k' jobs →
      StationStep (.inside c job stop k) m (e.map .inner) (.inside c job stop k') { m with jobs }
  | result {c : Context φ} {job stop : Nat} {k : κ} {m : BatchMemory μ ξ} : J.returns k →
      StationStep (.inside c job stop k) m (some (.ended job)) (.loop c (job + 1) stop) m
  | throw {c : Context φ} {job stop : Nat} {k : κ} {x : ξ} {m : BatchMemory μ ξ} : J.throws k x →
      StationStep (.inside c job stop k) m (some (.threw job x)) (.caught c job stop x) m
  /-- Under the mutex: only the first exception is kept. -/
  | store {c : Context φ} {job stop : Nat} {x : ξ} {m : BatchMemory μ ξ} :
      StationStep (.caught c job stop x) m (some (.ended job)) (.loop c (job + 1) stop)
        { m with error := m.error.or (some x) }
  | exit {c : Context φ} {job stop : Nat} {m : BatchMemory μ ξ} : ¬ job < stop →
      StationStep (.loop c job stop) m none
        (match c.schedule with | .static => .done | .dynamic => .load c) m
  | load {c : Context φ} {m : BatchMemory μ ξ} :
      StationStep (.load c) m none (.check c m.next) m
  | leave {c : Context φ} {first : Nat} {m : BatchMemory μ ξ} : c.count ≤ first →
      StationStep (.check c first) m none .done m
  | reach {c : Context φ} {first : Nat} {m : BatchMemory μ ξ} : first < c.count →
      StationStep (.check c first) m none
        (.exchange c first (first + min c.grain (c.count - first))) m
  | exchange {c : Context φ} {first stop : Nat} {m : BatchMemory μ ξ} : m.next = first →
      StationStep (.exchange c first stop) m none (.loop c first stop) { m with next := stop }
  /-- A weak exchange may fail although the counter is `first`; it is read again. -/
  | fail {c : Context φ} {first stop : Nat} {m : BatchMemory μ ξ} :
      StationStep (.exchange c first stop) m none (.check c m.next) m

/-- The function that `Batch::run` dispatches. -/
def batchWork : Work Unit (Context φ) (Station φ κ ξ) (BatchMemory μ ξ) (JobEvent ε ξ) where
  memory c := ⟨J.memory c.function, 0, none⟩
  start _ c lane _ :=
    match c.schedule with
    | .static => .loop c (c.first lane) (c.stop lane)
    | .dynamic => .load c
  step := StationStep J
  finished k := k = .done

end

/-! ## The static ranges -/

namespace Context

variable {φ : Type} (c : Context φ)

theorem first_succ (lane : Nat) : c.first (lane + 1) = c.stop lane := by
  unfold stop first
  rw [Nat.mul_succ]
  split_ifs <;> omega

theorem first_zero : c.first 0 = 0 := by simp [first]

theorem first_active (h : 0 < c.active) : c.first c.active = c.count := by
  have hextra : c.extra < c.active := Nat.mod_lt _ h
  unfold first
  rw [Nat.min_eq_right hextra.le, Nat.mul_comm]
  exact Nat.div_add_mod _ _

end Context

/-- 1 for the jobs from `a` up to `b`. -/
def between (a b job : Nat) : Nat := if a ≤ job ∧ job < b then 1 else 0

theorem below_add_between {a b : Nat} (h : a ≤ b) (job : Nat) :
    below a job + between a b job = below b job := by
  unfold below between
  split_ifs <;> omega

theorem between_succ {a b : Nat} (h : a < b) (job : Nat) :
    between a b job = (if a = job then 1 else 0) + between (a + 1) b job := by
  unfold between
  split_ifs <;> omega

theorem sum_ranges {φ : Type} (c : Context φ) (n job : Nat) :
    ∑ lane ∈ Finset.range n, between (c.first lane) (c.stop lane) job = below (c.first n) job := by
  induction n with
  | zero => simp [c.first_zero, below]
  | succ n ih =>
      have hle : c.first n ≤ c.stop n := by
        unfold Context.stop
        omega
      rw [Finset.sum_range_succ, ih, c.first_succ, below_add_between hle]

/-! ## Counting jobs -/

abbrev BatchEvent (φ ε ξ : Type) := Event Unit (Context φ) (JobEvent ε ξ)

section

variable {φ κ μ ε ξ : Type}

def begins (job : Nat) : BatchEvent φ ε ξ → Bool
  | .worked _ (.begun j) => j == job
  | _ => false

def ends (job : Nat) : BatchEvent φ ε ξ → Bool
  | .worked _ (.ended j) => j == job
  | _ => false

/-- Each job was executed once, to its end, and nothing else was. -/
structure EachJobOnce (count : Nat) (seg : List (BatchEvent φ ε ξ)) : Prop where
  begun : ∀ job, seg.countP (begins job) = below count job
  ended : ∀ job, seg.countP (ends job) = below count job

/-- The same while lanes are at work. -/
structure EachJobAtMostOnce (count : Nat) (seg : List (BatchEvent φ ε ξ)) : Prop where
  begun : ∀ job, seg.countP (begins job) ≤ below count job
  ended : ∀ job, seg.countP (ends job) ≤ seg.countP (begins job)

/-- The jobs below this have been handed out when the counter is `next`. -/
def Context.handed (c : Context φ) (next : Nat) : Nat :=
  match c.schedule with
  | .static => c.count
  | .dynamic => next

/-- What a lane was handed and has not begun. -/
def owes (c : Context φ) (job lane : Nat) : Lane (Station φ κ ξ) → Nat
  | .waiting =>
      match c.schedule with
      | .static => between (c.first lane) (c.stop lane) job
      | .dynamic => 0
  | .running (.loop _ j stop) => between j stop job
  | .running (.inside _ j stop _) | .running (.caught _ j stop _) => between (j + 1) stop job
  | _ => 0

def executes (job : Nat) (_ : Nat) : Lane (Station φ κ ξ) → Nat
  | .running (.inside _ j _ _) | .running (.caught _ j _ _) => if j = job then 1 else 0
  | _ => 0

/-- A lane is at work on `c` while the counter is `next`. -/
def Station.Of (c : Context φ) (next : Nat) : Station φ κ ξ → Prop
  | .loop c' _ _ | .inside c' _ _ _ | .caught c' _ _ _ => c' = c
  | .load c' => c' = c ∧ c.schedule = .dynamic
  | .check c' first => c' = c ∧ c.schedule = .dynamic ∧ first ≤ next
  | .exchange c' first stop =>
      c' = c ∧ c.schedule = .dynamic ∧ first ≤ stop ∧ stop ≤ c.count ∧ first ≤ next
  | .done => c.handed next = c.count

/-- What was begun and what is owed make up the jobs handed out. -/
structure Batched (c : Context φ) (active next : Nat) (st : Nat → Lane (Station φ κ ξ))
    (seg : List (BatchEvent φ ε ξ)) : Prop where
  bound : next ≤ c.count
  station : ∀ lane k, st lane = .running k → k.Of c next
  quit : ∀ lane, st lane = .finished → c.handed next = c.count
  begun : ∀ job, seg.countP (begins job) + tally (owes c job) active st = below (c.handed next) job
  ended : ∀ job, seg.countP (ends job) + tally (executes job) active st = seg.countP (begins job)

theorem Context.handed_le (c : Context φ) {next : Nat} (h : next ≤ c.count) :
    c.handed next ≤ c.count := by
  unfold Context.handed
  cases c.schedule with
  | static => exact Nat.le_refl _
  | dynamic => exact h

/-- When all is handed out the counter can stand no higher. -/
theorem Context.handed_mono (c : Context φ) {next next' : Nat} (hle : next ≤ next')
    (hbound : next' ≤ c.count) (h : c.handed next = c.count) : c.handed next' = c.count := by
  unfold Context.handed at *
  cases hs : c.schedule with
  | static => rfl
  | dynamic =>
      rw [hs] at h
      exact Nat.le_antisymm hbound (h ▸ hle)

theorem Station.Of.mono {c : Context φ} {next next' : Nat} {k : Station φ κ ξ} (h : k.Of c next)
    (hle : next ≤ next') (hbound : next' ≤ c.count) : k.Of c next' := by
  cases k with
  | loop | inside | caught | load => exact h
  | check => exact ⟨h.1, h.2.1, h.2.2.trans hle⟩
  | exchange => exact ⟨h.1, h.2.1, h.2.2.1, h.2.2.2.1, h.2.2.2.2.trans hle⟩
  | done => exact c.handed_mono hle hbound h

namespace Batched

variable {c : Context φ} {active next next' lane : Nat} {st : Nat → Lane (Station φ κ ξ)}
  {seg es : List (BatchEvent φ ε ξ)}

theorem start (hactive : 0 < c.active) :
    Batched c c.active 0 (fun _ => .waiting : Nat → Lane (Station φ κ ξ))
      ([] : List (BatchEvent φ ε ξ)) where
  bound := Nat.zero_le _
  station _ _ h := by cases h
  quit _ h := by cases h
  begun job := by
    rw [List.countP_nil, Nat.zero_add]
    unfold tally owes Context.handed
    cases c.schedule with
    | static => exact (sum_ranges c c.active job).trans (by rw [c.first_active hactive])
    | dynamic => simp [below]
  ended job := by simp [tally, executes]

theorem move (h : Batched c active next st seg) (hlane : lane < active)
    {x : Lane (Station φ κ ξ)} (hnext : next ≤ next') (hbound : next' ≤ c.count)
    (hstation : ∀ k, x = .running k → k.Of c next')
    (hquit : x = .finished → c.handed next' = c.count)
    (hbegun : ∀ job, es.countP (begins job) + owes c job lane x + below (c.handed next) job =
      owes c job lane (st lane) + below (c.handed next') job)
    (hended : ∀ job, es.countP (ends job) + executes job lane x =
      executes job lane (st lane) + es.countP (begins job)) :
    Batched c active next' (Function.update st lane x) (seg ++ es) where
  bound := hbound
  station l k hl := by
    by_cases heq : l = lane
    · subst heq
      rw [Function.update_self] at hl
      exact hstation k hl
    · rw [Function.update_of_ne heq] at hl
      exact (h.station l k hl).mono hnext hbound
  quit l hl := by
    by_cases heq : l = lane
    · subst heq
      rw [Function.update_self] at hl
      exact hquit hl
    · rw [Function.update_of_ne heq] at hl
      exact c.handed_mono hnext hbound (h.quit l hl)
  begun job := by
    have hupdate := tally_update (owes c job) st hlane x
    have := h.begun job
    have := hbegun job
    rw [List.countP_append]
    omega
  ended job := by
    have hupdate := tally_update (executes job) st hlane x
    have := h.ended job
    have := hended job
    rw [List.countP_append, List.countP_append]
    omega

theorem stay (h : Batched c active next st seg) (hlane : lane < active)
    {x : Lane (Station φ κ ξ)} (hstation : ∀ k, x = .running k → k.Of c next)
    (hquit : x = .finished → c.handed next = c.count)
    (hbegun : ∀ job, es.countP (begins job) + owes c job lane x = owes c job lane (st lane))
    (hended : ∀ job, es.countP (ends job) + executes job lane x =
      executes job lane (st lane) + es.countP (begins job)) :
    Batched c active next (Function.update st lane x) (seg ++ es) :=
  h.move hlane (Nat.le_refl _) h.bound hstation hquit (fun job => by rw [hbegun job]) hended

theorem atMostOnce (h : Batched c active next st seg) : EachJobAtMostOnce c.count seg where
  begun job := by
    have hle := c.handed_le h.bound
    have hbegun := h.begun job
    unfold below at *
    split_ifs at * <;> omega
  ended job := by
    have := h.ended job
    omega

theorem eachOnce (h : Batched c active next st seg) (hactive : 0 < active)
    (hall : ∀ lane, lane < active → st lane = .finished) : EachJobOnce c.count seg := by
  have hhanded := h.quit 0 (hall 0 hactive)
  have hbegun : ∀ job, seg.countP (begins job) = below c.count job := by
    intro job
    have hnone : tally (owes c job) active st = 0 := by
      rw [tally_finished hall]
      simp [owes]
    have := h.begun job
    rw [hnone, hhanded] at this
    omega
  refine ⟨hbegun, fun job => ?_⟩
  have hnone : tally (executes job) active st = 0 := by
    rw [tally_finished hall]
    simp [executes]
  have := h.ended job
  rw [hnone, hbegun job] at this
  omega

end Batched

variable (J : Jobs φ κ μ ε ξ)

/-- Every step of a dispatch of `run` keeps the count. -/
theorem batch_invariant (lanes : Nat) :
    Team.Invariant lanes (batchWork J)
      (fun d _ memory st seg => d.activeLanes = d.model.active →
        0 < d.activeLanes ∧ Batched d.model d.activeLanes memory.next st seg)
      (fun d seg => d.activeLanes = d.model.active → EachJobOnce d.model.count seg) where
  dispatch {d epoch} hpos _ hactive := by
    refine ⟨hpos, ?_⟩
    rw [hactive]
    exact .start (hactive ▸ hpos)
  invoke {d epoch memory st seg lane} h hlane hwaiting hactive := by
    obtain ⟨hpos, h⟩ := h hactive
    refine ⟨hpos, ?_⟩
    cases hs : d.model.schedule with
    | static =>
        refine h.stay hlane (fun k hk => ?_) (fun hx => by cases hx) (fun job => ?_) fun job => ?_
        · simp only [batchWork, hs] at hk
          cases hk
          exact rfl
        · rw [hwaiting]
          simp [batchWork, owes, begins, hs]
        · rw [hwaiting]
          simp [batchWork, executes, begins, ends, hs]
    | dynamic =>
        refine h.stay hlane (fun k hk => ?_) (fun hx => by cases hx) (fun job => ?_) fun job => ?_
        · simp only [batchWork, hs] at hk
          cases hk
          exact ⟨rfl, hs⟩
        · rw [hwaiting]
          simp [batchWork, owes, begins, hs]
        · rw [hwaiting]
          simp [batchWork, executes, begins, ends, hs]
  work {d epoch memory memory' st seg lane k k' e} h hlane hrunning hwork hactive := by
    obtain ⟨hpos, h⟩ := h hactive
    refine ⟨hpos, ?_⟩
    have hof := h.station lane k hrunning
    cases hwork with
    | begin hlt =>
        refine h.stay hlane (fun k hk => ?_) (fun hx => by cases hx) (fun job => ?_) fun job => ?_
        · cases hk
          exact hof
        · rw [hrunning]
          simp [owes, begins, between_succ hlt, List.countP_singleton]
        · rw [hrunning]
          simp [executes, begins, ends, List.countP_singleton]
    | @work _ _ _ _ _ _ _ e hstep =>
        refine h.stay hlane (fun k hk => ?_) (fun hx => by cases hx) (fun job => ?_) fun job => ?_
        · cases hk
          exact hof
        · rw [hrunning]
          cases e <;> simp [owes, begins]
        · rw [hrunning]
          cases e <;> simp [executes, begins, ends]
    | result _ =>
        refine h.stay hlane (fun k hk => ?_) (fun hx => by cases hx) (fun job => ?_) fun job => ?_
        · cases hk
          exact hof
        · rw [hrunning]
          simp [owes, begins]
        · rw [hrunning]
          simp [executes, begins, ends, List.countP_singleton]
    | throw _ =>
        refine h.stay hlane (fun k hk => ?_) (fun hx => by cases hx) (fun job => ?_) fun job => ?_
        · cases hk
          exact hof
        · rw [hrunning]
          simp [owes, begins]
        · rw [hrunning]
          simp [executes, begins, ends]
    | store =>
        refine h.stay hlane (fun k hk => ?_) (fun hx => by cases hx) (fun job => ?_) fun job => ?_
        · cases hk
          exact hof
        · rw [hrunning]
          simp [owes, begins]
        · rw [hrunning]
          simp [executes, begins, ends, List.countP_singleton]
    | @exit c job stop m hge =>
        obtain rfl : c = d.model := hof
        have hempty : ∀ j, between job stop j = 0 := fun j => by
          unfold between
          split_ifs <;> omega
        cases hs : d.model.schedule with
        | static =>
            refine h.stay hlane (fun k hk => ?_) (fun hx => by cases hx) (fun j => ?_) fun j => ?_
            · cases hk
              simp [Station.Of, Context.handed, hs]
            · rw [hrunning]
              simp [owes, hempty]
            · rw [hrunning]
              simp [executes]
        | dynamic =>
            refine h.stay hlane (fun k hk => ?_) (fun hx => by cases hx) (fun j => ?_) fun j => ?_
            · cases hk
              exact ⟨rfl, hs⟩
            · rw [hrunning]
              simp [owes, hempty]
            · rw [hrunning]
              simp [executes]
    | load =>
        refine h.stay hlane (fun k hk => ?_) (fun hx => by cases hx) (fun job => ?_) fun job => ?_
        · cases hk
          exact ⟨hof.1, hof.2, Nat.le_refl _⟩
        · rw [hrunning]
          simp [owes]
        · rw [hrunning]
          simp [executes]
    | leave hle =>
        obtain ⟨rfl, hs, hfirst⟩ := hof
        refine h.stay hlane (fun k hk => ?_) (fun hx => by cases hx) (fun job => ?_) fun job => ?_
        · cases hk
          simp only [Station.Of, Context.handed, hs]
          exact Nat.le_antisymm h.bound (hle.trans hfirst)
        · rw [hrunning]
          simp [owes]
        · rw [hrunning]
          simp [executes]
    | reach hlt =>
        obtain ⟨rfl, hs, hfirst⟩ := hof
        refine h.stay hlane (fun k hk => ?_) (fun hx => by cases hx) (fun job => ?_) fun job => ?_
        · cases hk
          exact ⟨rfl, hs, by omega, by omega, hfirst⟩
        · rw [hrunning]
          simp [owes]
        · rw [hrunning]
          simp [executes]
    | @exchange c first stop m hnext =>
        obtain ⟨rfl, hs, hle, hbound, -⟩ := hof
        refine h.move hlane (hnext ▸ hle) hbound (fun k hk => ?_) (fun hx => by cases hx)
          (fun job => ?_) fun job => ?_
        · cases hk
          exact rfl
        · rw [hrunning]
          have := below_add_between hle job
          simp only [owes, Context.handed, hs, hnext, Option.map_none, Option.toList_none,
            List.countP_nil]
          omega
        · rw [hrunning]
          simp [executes]
    | fail =>
        refine h.stay hlane (fun k hk => ?_) (fun hx => by cases hx) (fun job => ?_) fun job => ?_
        · cases hk
          exact ⟨hof.1, hof.2.1, Nat.le_refl _⟩
        · rw [hrunning]
          simp [owes]
        · rw [hrunning]
          simp [executes]
  finish {d epoch memory st seg lane k} h hlane hrunning hfinished hactive := by
    obtain ⟨hpos, h⟩ := h hactive
    obtain rfl : k = .done := hfinished
    have hof : d.model.handed memory.next = d.model.count := h.station lane _ hrunning
    refine ⟨hpos, h.stay hlane (fun k hk => by cases hk) (fun _ => hof) (fun job => ?_) fun job => ?_⟩
    · rw [hrunning]
      simp [owes, begins]
    · rw [hrunning]
      simp [executes, begins, ends]
  leave {d epoch memory st seg} h hall hactive := by
    obtain ⟨hpos, h⟩ := h hactive
    exact h.eachOnce hpos hall

/-! ## Every run of the pool -/

/-- What `run` does with its arguments: a grain of 0 is refused, and without
jobs nothing is dispatched. -/
theorem Batch.run_cases (b : Batch) (count : Nat) (function : φ) (schedule : Schedule)
    (grain : Nat) :
    (grain = 0 ∧ b.run count function schedule grain =
      .error "native batch grain must be positive") ∨
    (0 < grain ∧ count = 0 ∧ b.run count function schedule grain = .ok none) ∨
    (0 < grain ∧ 0 < count ∧ b.run count function schedule grain =
      .ok (some ⟨(), ⟨function, count, grain, min b.threads count, schedule⟩,
        min b.threads count⟩)) := by
  unfold run
  split_ifs with hgrain hcount
  · exact .inl ⟨hgrain, rfl⟩
  · exact .inr (.inl ⟨Nat.pos_of_ne_zero hgrain, hcount, rfl⟩)
  · exact .inr (.inr ⟨Nat.pos_of_ne_zero hgrain, Nat.pos_of_ne_zero hcount, rfl⟩)

/-- Accepted arguments have jobs dispatched on as many lanes as there are jobs
for. For every interleaving and every sequence of dispatches, one that has
returned has stopped on all its lanes and has executed each job of its run
exactly once, whether jobs threw or not; one under way has executed none twice.
Refused dispatches execute nothing. -/
theorem batch_each_job_once (lanes spinLimit : Nat) :
    (∀ (b : Batch) (count : Nat) (function : φ) (schedule : Schedule) (grain : Nat),
      0 < grain → 0 < count → ∃ d, b.run count function schedule grain = .ok (some d) ∧
        0 < d.activeLanes ∧ d.activeLanes = min b.threads count) ∧
    ∀ (es : List (BatchEvent φ ε ξ))
      (s : Pool Unit (Context φ) (Station φ κ ξ) (BatchMemory μ ξ)),
      (pool lanes spinLimit (batchWork J)).Traces es s →
      HistoryTo
        (fun d seg => Once d seg ∧ ∀ (b : Batch) count function schedule grain,
          b.run count function schedule grain = .ok (some d) → EachJobOnce count seg)
        (fun d seg => AtMostOnce d seg ∧ ∀ (b : Batch) count function schedule grain,
          b.run count function schedule grain = .ok (some d) → EachJobAtMostOnce count seg)
        es := by
  refine ⟨fun b count function schedule grain hgrain hcount => ?_, fun es s h => ?_⟩
  · obtain ⟨hzero, -⟩ | ⟨-, hzero, -⟩ | ⟨-, -, hrun⟩ := b.run_cases count function schedule grain
    · omega
    · omega
    · have := b.valid
      exact ⟨_, hrun, by dsimp only; omega, rfl⟩
  obtain ⟨a, htrace, -⟩ := (pool_team lanes spinLimit (batchWork J)).traces h
  -- what `run` dispatches uses as many lanes as its context says
  have hrequest : ∀ {b : Batch} {count : Nat} {function : φ} {schedule : Schedule} {grain : Nat}
      {d : Dispatch Unit (Context φ)}, b.run count function schedule grain = .ok (some d) →
      d.activeLanes = d.model.active ∧ d.model.count = count := by
    intro b count function schedule grain d hd
    obtain ⟨-, hrun⟩ | ⟨-, -, hrun⟩ | ⟨-, -, hrun⟩ := b.run_cases count function schedule grain
    · rw [hrun] at hd
      cases hd
    · rw [hrun] at hd
      cases hd
    · rw [hrun] at hd
      cases hd
      exact ⟨rfl, rfl⟩
  have hinvariant := (Counted.invariant lanes (batchWork J)).and (batch_invariant J lanes)
  refine (hinvariant.weaken ?_).history ?_ htrace
  · rintro d seg ⟨honce, heach⟩
    refine ⟨honce, fun b count function schedule grain hd => ?_⟩
    obtain ⟨hactive, rfl⟩ := hrequest hd
    exact heach hactive
  · rintro d epoch memory st seg ⟨hcounted, hbatched⟩
    refine ⟨hcounted.atMostOnce, fun b count function schedule grain hd => ?_⟩
    obtain ⟨hactive, rfl⟩ := hrequest hd
    exact (hbatched hactive).2.atMostOnce

end

def throwsAtOnce : Jobs Unit Unit Unit Unit Unit where
  memory _ := ()
  start _ _ := ()
  step _ _ _ _ _ := False
  returns _ := False
  throws _ _ := True

theorem batch_each_job_once_throwing :
    ∃ es s d seg, (pool 1 0 (batchWork throwsAtOnce)).Traces es s ∧
      es = .dispatched d :: (seg ++ [.returned]) ∧
      (∃ b : Batch, b.run 1 () .dynamic 2 = .ok (some d)) ∧
      HistoryTo
        (fun d seg => Once d seg ∧ ∀ (b : Batch) count function schedule grain,
          b.run count function schedule grain = .ok (some d) → EachJobOnce count seg)
        (fun d seg => AtMostOnce d seg ∧ ∀ (b : Batch) count function schedule grain,
          b.run count function schedule grain = .ok (some d) → EachJobAtMostOnce count seg)
        es := by
  let c : Context Unit := ⟨(), 1, 2, 1, .dynamic⟩
  let d : Dispatch Unit (Context Unit) := ⟨(), c, 1⟩
  let s₀ : Pool Unit (Context Unit) (Station Unit Unit Unit) (BatchMemory Unit Unit) :=
    ⟨c, (), 0, fun _ => 0, fun _ => 0, false, .idle, fun _ => .poll 0, ⟨(), 0, none⟩⟩
  have hfresh : s₀.Fresh := ⟨rfl, fun _ => rfl, fun _ => rfl, rfl, rfl, fun _ => rfl⟩
  let T := pool 1 0 (batchWork throwsAtOnce)
  have hlocked := (Transitions.Run.refl (T := T) s₀).shows
    (.inl (.lock d rfl Nat.one_pos (Nat.le_refl 1)))
  have hinvoked := ((((hlocked.silent (.inl (.storeModel rfl))).silent
    (.inl (.storeFunction rfl))).silent (.inl (.countEpoch rfl))).silent
    (.inl (.issued rfl (Nat.lt_irrefl 1)))).shows (.inl (.invoke rfl))
  have hclaimed := ((hinvoked.snoc (.inl (.work rfl .load))).snoc
    (.inl (.work rfl (.reach Nat.one_pos)))).snoc (.inl (.work rfl (.exchange rfl)))
  have hthrown := ((hclaimed.snoc (.inl (.work rfl (.begin Nat.one_pos)))).snoc
    (.inl (.work rfl (@StationStep.throw _ _ _ _ _ throwsAtOnce _ _ _ _ () _ trivial)))).snoc
    (.inl (.work rfl .store))
  have hended := ((hthrown.snoc (.inl (.work rfl (.exit (Nat.lt_irrefl 1))))).snoc
    (.inl (.work rfl .load))).snoc (.inl (.work rfl (.leave (Nat.le_refl 1))))
  have htrace := ((hended.shows (.inl (.finish rfl rfl))).silent (.inl (.continued rfl))).shows
    (.inl (.leave rfl (Nat.lt_irrefl 1)))
  exact ⟨_, _, d, _, ⟨s₀, hfresh, htrace⟩, rfl, ⟨⟨1, by decide⟩, rfl⟩,
    (batch_each_job_once throwsAtOnce 1 0).2 _ _ ⟨s₀, hfresh, htrace⟩⟩

/-- A grain of 0 is refused with jobs to do, and so is a dispatch on a pool with
fewer lanes than the batch has threads for. -/
theorem batch_refuses :
    (∃ b : Batch, b.run 3 () .static 0 = .error "native batch grain must be positive") ∧
    ∃ (b : Batch) (d : Dispatch Unit (Context Unit)), b.run 3 () .static 1 = .ok (some d) ∧
      ∃ s, (pool 1 0 (batchWork throwsAtOnce)).Traces [.refused d] s := by
  refine ⟨⟨⟨2, by decide⟩, rfl⟩, ⟨2, by decide⟩, _, rfl, ?_⟩
  let s₀ : Pool Unit (Context Unit) (Station Unit Unit Unit) (BatchMemory Unit Unit) :=
    ⟨⟨(), 0, 0, 0, .static⟩, (), 0, fun _ => 0, fun _ => 0, false, .idle, fun _ => .poll 0,
      ⟨(), 0, none⟩⟩
  have hfresh : s₀.Fresh := ⟨rfl, fun _ => rfl, fun _ => rfl, rfl, rfl, fun _ => rfl⟩
  have hrun := (Transitions.Run.refl (T := pool 1 0 (batchWork throwsAtOnce)) s₀).shows
    (.inl (.refuse ⟨(), ⟨(), 3, 1, 2, .static⟩, 2⟩ rfl (.inr (by decide))))
  exact ⟨_, s₀, hfresh, hrun⟩

end CppHdl.Threads
