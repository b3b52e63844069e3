import CppHdl.Threads.Tasks

/-!
# Every task, exactly once

The invariants of the three ways `runTasks` goes, put together: in every run of
the pool each dispatch invokes its function once on every active lane, and each
`runTasks` calls every task once, if its counter has room for the claims beyond
the last task.

Where it has none, the counter wraps and a lane that is still claiming starts
again at task 0.
-/

namespace CppHdl.Threads

section

variable {φ α κ μ ε : Type}

/-- `runTasks` has dispatched `d`. A shared counter has room for one claim of
every lane beyond the last task. -/
structure Requested (taskWorkers : Nat) (d : Dispatch (Routine φ) (Argument φ α)) (f : φ) (m : α)
    (count : Nat) : Prop where
  asked : ∃ requestedWorkers, runTasks taskWorkers m f count requestedWorkers = .ok (some d)
  room : d.function = .shared → count + d.activeLanes ≤ 2 ^ 32

/-- Every task of a `runTasks` was called exactly once. -/
def TasksOnce (taskWorkers : Nat) (d : Dispatch (Routine φ) (Argument φ α))
    (seg : List (TasksEvent φ α ε)) : Prop :=
  ∀ f m count, Requested taskWorkers d f m count → EachOnce f m count seg

/-- The same while the dispatch is under way. -/
def TasksAtMostOnce (taskWorkers : Nat) (d : Dispatch (Routine φ) (Argument φ α))
    (seg : List (TasksEvent φ α ε)) : Prop :=
  ∀ f m count, Requested taskWorkers d f m count →
    (∀ task, seg.countP (calls task) ≤ below count task) ∧ CallsOf f m seg

theorem runTasks_cases {taskWorkers count requestedWorkers : Nat} {m : α} {f : φ}
    {d : Dispatch (Routine φ) (Argument φ α)}
    (h : runTasks taskWorkers m f count requestedWorkers = .ok (some d)) :
    d = ⟨.given f, .model m, count⟩ ∨
    d = ⟨.serial, .tasks ⟨m, f, count, 1⟩, 1⟩ ∨
    ∃ active, active ≤ count ∧ d = ⟨.shared, .tasks ⟨m, f, count, active⟩, active⟩ := by
  unfold runTasks at h
  split at h
  · cases h
  split at h
  · cases h
  dsimp only at h
  split_ifs at h with hall hone
  · cases h
    exact .inl (by rw [hall])
  · cases h
    exact .inr (.inl (by rw [hone]))
  · cases h
    exact .inr (.inr ⟨_, by omega, rfl⟩)

theorem GivenOut.atMostOnce {Kind : Errand φ α κ → Prop} {f : φ} {m : α} {limit count active : Nat}
    {st : Nat → Lane (Errand φ α κ)} {seg : List (TasksEvent φ α ε)}
    (h : GivenOut Kind f m limit active st seg) (hle : limit ≤ count) (task : Nat) :
    seg.countP (Threads.calls task) ≤ below count task := by
  have := h.calls task
  unfold below
  split_ifs at this ⊢ <;> omega

theorem Looping.atMostOnce {t : Tasks φ α} {x : Lane (Errand φ α κ)}
    {seg : List (TasksEvent φ α ε)} (h : Looping t x seg) (task : Nat) :
    seg.countP (Threads.calls task) ≤ below t.count task := by
  have hreached : reached t.count x ≤ t.count := by
    match x with
    | .waiting => exact Nat.zero_le _
    | .running (.begin _ _ k _ _) => exact (h.loops _ rfl).2.2.1.le
    | .running (.inside _ n) =>
        obtain ⟨k, epoch, rfl, hk⟩ := h.loops _ rfl
        exact hk
    | .running (.go n) =>
        obtain rfl | ⟨k, epoch, rfl, hk⟩ := h.loops _ rfl
        · exact Nat.le_refl _
        · exact hk
    | .finished => exact Nat.le_refl _
  rw [h.calls task]
  unfold below
  split_ifs <;> omega

variable (W : Work φ α κ μ ε)


/-- For every interleaving and every sequence of dispatches: each dispatch that
has returned invoked its function exactly once on every active lane and nothing
else, all these have finished, and if it was one of a `runTasks` then every task
was called exactly once. In the one under way nothing was done twice. -/
theorem dispatches_exactly_once (lanes spinLimit taskWorkers : Nat)
    {es : List (TasksEvent φ α ε)} {s : Pool (Routine φ) (Argument φ α) (Errand φ α κ) (μ × Nat)}
    (h : (pool lanes spinLimit (tasksWork W)).Traces es s) :
    HistoryTo (fun d seg => Once d seg ∧ TasksOnce taskWorkers d seg)
      (fun d seg => AtMostOnce d seg ∧ TasksAtMostOnce taskWorkers d seg) es := by
  obtain ⟨a, htrace, -⟩ := (pool_team lanes spinLimit (tasksWork W)).traces h
  have hinvariant := (Counted.invariant lanes (tasksWork W)).and
    ((direct_invariant W lanes).and ((serial_invariant W lanes).and (shared_invariant W lanes)))
  refine (hinvariant.weaken ?_).history ?_ htrace
  · rintro d seg ⟨honce, hdirect, hserial, hshared⟩
    refine ⟨honce, fun f m count hrequested => ?_⟩
    obtain ⟨⟨requestedWorkers, hrun⟩, hroom⟩ := hrequested
    obtain rfl | rfl | ⟨active, hle, rfl⟩ := runTasks_cases hrun
    · exact hdirect f m rfl rfl
    · exact hserial ⟨m, f, count, 1⟩ rfl rfl rfl
    · exact hshared ⟨m, f, count, active⟩ rfl rfl rfl hle (hroom rfl)
  · rintro d epoch memory st seg ⟨hcounted, hdirect, hserial, hshared⟩
    refine ⟨hcounted.atMostOnce, fun f m count hrequested => ?_⟩
    obtain ⟨⟨requestedWorkers, hrun⟩, hroom⟩ := hrequested
    obtain rfl | rfl | ⟨active, hle, rfl⟩ := runTasks_cases hrun
    · have h := hdirect f m rfl rfl
      exact ⟨h.atMostOnce (Nat.le_refl _), h.callsOf⟩
    · have h := hserial ⟨m, f, count, 1⟩ rfl rfl rfl
      exact ⟨h.atMostOnce, h.callsOf⟩
    · obtain ⟨-, claimed, h⟩ := hshared ⟨m, f, count, active⟩ rfl rfl rfl hle (hroom rfl)
      exact ⟨h.given.atMostOnce (Nat.min_le_right _ _), h.given.callsOf⟩

end

/-! ## Two lanes sharing a loop -/

/-- A function that returns at once. -/
def returnsAtOnce : Work Unit Unit Unit Unit Unit where
  memory _ := ()
  start _ _ _ _ := ()
  step _ _ _ _ _ := False
  finished _ := True

abbrev twoLanes := pool 2 0 (tasksWork returnsAtOnce)

/-- What `runTasks` dispatches on two lanes. -/
abbrev shareTwo (count : Nat) : Tasks Unit Unit := ⟨(), (), count, 2⟩

abbrev dispatchTwo (count : Nat) : Dispatch (Routine Unit) (Argument Unit Unit) :=
  ⟨.shared, .tasks (shareTwo count), 2⟩

/-- After these events the lanes are on these errands, and the counter is at
`next`. -/
def LanesAt (count : Nat) (es : List (TasksEvent Unit Unit Unit)) (k₀ k₁ : Errand Unit Unit Unit)
    (next : Nat) : Prop :=
  ∃ s, twoLanes.Traces es s ∧ s.caller = .running (dispatchTwo count) k₀ ∧
    s.worker 1 = .running 1 k₁ ∧ s.command 1 = 1 ∧ s.memory = ((), next)

theorem LanesAt.step₀ {count next next' : Nat} {es : List (TasksEvent Unit Unit Unit)}
    {k₀ k₀' k₁ : Errand Unit Unit Unit} {e : Option (TaskEvent Unit Unit Unit)}
    (h : LanesAt count es k₀ k₁ next)
    (hstep : ErrandStep returnsAtOnce k₀ ((), next) e k₀' ((), next')) :
    LanesAt count (es ++ (e.map (Event.worked 0)).toList) k₀' k₁ next' := by
  obtain ⟨s, ⟨s₀, hs₀, hrun⟩, hcaller, hworker, hcommand, hmemory⟩ := h
  refine ⟨_, ⟨s₀, hs₀, hrun.snoc (.inl (.work hcaller ?_))⟩, rfl, hworker, hcommand, rfl⟩
  rw [hmemory]
  exact hstep

theorem LanesAt.step₁ {count next next' : Nat} {es : List (TasksEvent Unit Unit Unit)}
    {k₀ k₁ k₁' : Errand Unit Unit Unit} {e : Option (TaskEvent Unit Unit Unit)}
    (h : LanesAt count es k₀ k₁ next)
    (hstep : ErrandStep returnsAtOnce k₁ ((), next) e k₁' ((), next')) :
    LanesAt count (es ++ (e.map (Event.worked 1)).toList) k₀ k₁' next' := by
  obtain ⟨s, ⟨s₀, hs₀, hrun⟩, hcaller, hworker, hcommand, hmemory⟩ := h
  have hwork : ErrandStep returnsAtOnce k₁ s.memory e k₁' ((), next') := by
    rw [hmemory]
    exact hstep
  exact ⟨_, ⟨s₀, hs₀, hrun.snoc (.inr ⟨1, Nat.one_pos, Nat.one_lt_two, .work hworker hwork⟩)⟩,
    hcaller, Function.update_self 1 _ s.worker, hcommand, rfl⟩

theorem lanesAt_begin (count : Nat) :
    LanesAt count
      [.dispatched (dispatchTwo count), .invoked 0 .shared (.tasks (shareTwo count)) 1,
        .invoked 1 .shared (.tasks (shareTwo count)) 1]
      (.begin () () 0 1 (.claim (shareTwo count) 1))
      (.begin () () 1 1 (.claim (shareTwo count) 1)) 2 := by
  let s₀ : Pool (Routine Unit) (Argument Unit Unit) (Errand Unit Unit Unit) (Unit × Nat) :=
    ⟨.model (), .serial, 0, fun _ => 0, fun _ => 0, false, .idle, fun _ => .poll 0, ((), 0)⟩
  have hfresh : s₀.Fresh := ⟨rfl, fun _ => rfl, fun _ => rfl, rfl, rfl, fun _ => rfl⟩
  have hlocked := (Transitions.Run.refl (T := twoLanes) s₀).shows
    (.inl (.lock (dispatchTwo count) rfl Nat.zero_lt_two (Nat.le_refl 2)))
  have hissued := ((((((hlocked.silent (.inl (.storeModel rfl))).silent
    (.inl (.storeFunction rfl))).silent (.inl (.countEpoch rfl))).silent
    (.inl (.issue rfl Nat.one_lt_two))).silent (.inl (.notify rfl))).silent
    (.inl (.issued rfl (Nat.lt_irrefl 2)))).shows (.inl (.invoke rfl))
  have hmove : ∀ {s es w}, Transitions.Run twoLanes s₀ es s → WorkerMove 0 s 1 (s.worker 1) w →
      Transitions.Run twoLanes s₀ es { s with worker := Function.update s.worker 1 w } :=
    fun hrun hw => hrun.silent (.inr ⟨1, Nat.one_pos, Nat.one_lt_two, .move hw⟩)
  have hcommand : (0 + 1 : Stamp) ≠ 0 := by decide
  have hentered := hmove (hmove (hmove (hmove (hmove hissued (.fresh hcommand))
    (.goOn rfl)) .readFunction) .readModel) .readEpoch
  have hrun := hentered.shows (.inr ⟨1, Nat.one_pos, Nat.one_lt_two, .invoke rfl⟩)
  exact ⟨_, ⟨s₀, hfresh, hrun⟩, rfl, rfl, rfl, rfl⟩

/-- Lane 0 may claim all tasks: both lanes are then at the counter, which has
come to `count`. Task 0 was called once so far. -/
theorem lanesAt_claim (count : Nat) {n : Nat} (htwo : 2 ≤ n) (hle : n ≤ count) (hcount : count < 2 ^ 32) :
    ∃ seg, LanesAt count (.dispatched (dispatchTwo count) :: seg)
      (.go (.claim (shareTwo count) 1)) (.go (.claim (shareTwo count) 1)) n ∧
      seg.countP (calls 0) = 1 := by
  induction n, htwo using Nat.le_induction with
  | base =>
      have h := (((lanesAt_begin count).step₀ .call).step₁ .call)
      exact ⟨_, (h.step₀ (.result trivial)).step₁ (.result trivial), rfl⟩
  | succ n hn ih =>
      obtain ⟨seg, h, hcalls⟩ := ih (by omega)
      have hclaim := h.step₀ .claim
      rw [if_neg (show ¬ count ≤ n by omega), Nat.mod_eq_of_lt (by omega)] at hclaim
      refine ⟨seg ++ [.worked 0 (.called () () n 1)], ?_, ?_⟩
      · have := (hclaim.step₀ .call).step₀ (.result trivial)
        simpa using this
      · have : n ≠ 0 := by omega
        simp [hcalls, calls, this]

/-- Three tasks on two lanes. -/
theorem dispatches_exactly_once_three :
    ∃ es s, twoLanes.Traces es s ∧ .returned ∈ es ∧
      HistoryTo (fun d seg => Once d seg ∧ TasksOnce 2 d seg)
        (fun d seg => AtMostOnce d seg ∧ TasksAtMostOnce 2 d seg) es := by
  obtain ⟨seg, h, -⟩ := lanesAt_claim 3 (by omega) (Nat.le_refl _) (by omega)
  have hstopped := (h.step₀ .claim).step₁ .claim
  rw [if_pos (Nat.le_refl _), if_pos (by decide)] at hstopped
  obtain ⟨s, ⟨s₀, hs₀, hrun⟩, hcaller, hworker, hcommand, -⟩ := hstopped
  have hfinished := hrun.shows (.inr ⟨1, Nat.one_pos, Nat.one_lt_two, .finish hworker rfl⟩)
  have hcompleted := hfinished.silent
    (.inr ⟨1, Nat.one_pos, Nat.one_lt_two, .complete (Function.update_self 1 _ s.worker)⟩)
  have hjoining := ((hcompleted.shows (.inl (.finish hcaller rfl))).silent
    (.inl (.continued rfl))).silent (.inl (.target rfl Nat.one_lt_two))
  have hjoined := hjoining.silent (.inl (.joined rfl ((Function.update_self 1 _ s.completed).trans hcommand.symm)))
  have htrace := hjoined.shows (.inl (.leave rfl (Nat.lt_irrefl 2)))
  exact ⟨_, _, ⟨s₀, hs₀, htrace⟩, by simp,
    dispatches_exactly_once returnsAtOnce 2 0 2 ⟨s₀, hs₀, htrace⟩⟩

/-- With two workers and the largest number of tasks, lane 0 claims once beyond
the last task, and the counter is back at 0 for lane 1. -/
theorem runTasks_claims_twice :
    ∃ s d seg, twoLanes.Traces (.dispatched d :: seg) s ∧
      runTasks 2 () () (2 ^ 32 - 1) 2 = .ok (some d) ∧ seg.countP (calls 0) = 2 := by
  obtain ⟨seg, h, hcalls⟩ :=
    lanesAt_claim (2 ^ 32 - 1) (by omega) (Nat.le_refl _) (by omega)
  have hstopped := h.step₀ .claim
  rw [if_pos (Nat.le_refl _)] at hstopped
  have hagain := hstopped.step₁ .claim
  rw [if_neg (by decide)] at hagain
  obtain ⟨s, htrace, -⟩ := hagain.step₁ .call
  refine ⟨s, _, seg ++ [.worked 1 (.called () () 0 1)], ?_, rfl, ?_⟩
  · simpa using htrace
  · simp [hcalls, calls]

end CppHdl.Threads
