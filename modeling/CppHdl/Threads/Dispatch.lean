import CppHdl.Threads.Team

/-!
# The pool is a team

Commands and completions of a lane are one apart while the lane works for a
dispatch and equal otherwise, whatever the stamps are: a lane that sleeps
through dispatches keeps its own pair, and no comparison depends on how often
the 32 bits have wrapped. `LaneRel` says this of one worker, `CallerAt` of the
caller, and `pool_team` puts them together into a simulation.
-/

namespace CppHdl.Threads

section

variable {φ α κ μ ε : Type}

theorem succ_ne (x : Stamp) : x + 1 ≠ x := by
  intro h
  have := congrArg BitVec.toNat h
  simp at this
  omega

/-! ## One worker -/

/-- Waiting for a command other than `seen`. -/
def Worker.Polls (seen : Stamp) : Worker φ α κ → Prop
  | .poll s | .spin s _ | .parked s | .reload s _ => s = seen
  | _ => False

/-- Done with command `seen`, though perhaps still about to notify. -/
def Worker.Settled (seen : Stamp) (w : Worker φ α κ) : Prop := w = .notify seen ∨ w.Polls seen

/-- Awake for a command; what it has read is what the dispatch stored. -/
def Worker.Prepares (d : Dispatch φ α) (epoch command : Stamp) : Worker φ α κ → Prop
  | .checkStop c | .readFunction c => c = command
  | .readModel c f => c = command ∧ f = d.function
  | .readEpoch c f m => c = command ∧ f = d.function ∧ m = d.model
  | .enter c f m e => c = command ∧ f = d.function ∧ m = d.model ∧ e = epoch
  | _ => False

/-- How a worker, its stamps and the state of its lane go together, before and
after its command for the dispatch was issued. -/
inductive LaneRel (d : Dispatch φ α) (epoch command completed : Stamp) :
    Bool → Worker φ α κ → Lane κ → Prop
  | rest {w : Worker φ α κ} : completed = command → w.Settled command →
      LaneRel d epoch command completed false w .waiting
  | called {w : Worker φ α κ} : command = completed + 1 → w.Settled completed →
      LaneRel d epoch command completed true w .waiting
  | awake {w : Worker φ α κ} : command = completed + 1 → w.Prepares d epoch command →
      LaneRel d epoch command completed true w .waiting
  | running {k : κ} : command = completed + 1 →
      LaneRel d epoch command completed true (.running command k) (.running k)
  | done : command = completed + 1 →
      LaneRel d epoch command completed true (.complete command) .finished
  | back {w : Worker φ α κ} : completed = command → w.Settled command →
      LaneRel d epoch command completed true w .finished

/-- What the caller has stored for a dispatch. -/
structure Pool.Stored (s : Pool φ α κ μ) (d : Dispatch φ α) (epoch : Stamp) : Prop where
  model : s.model = d.model
  function : s.function = d.function
  epoch : s.epoch = epoch

variable {d : Dispatch φ α} {epoch : Stamp} {s : Pool φ α κ μ} {spinLimit lane : Nat}

/-- A worker that has settled wakes up only for a new command. -/
theorem Worker.Settled.move {seen : Stamp} {w w' : Worker φ α κ} (h : w.Settled seen)
    (hmove : WorkerMove spinLimit s lane w w') :
    w'.Settled seen ∨ s.command lane ≠ seen ∧ w' = .checkStop (s.command lane) := by
  cases hmove <;> simp_all [Worker.Settled, Worker.Polls]

theorem Worker.Prepares.move {command : Stamp} {w w' : Worker φ α κ}
    (h : w.Prepares d epoch command) (hstored : s.Stored d epoch) (hstopping : s.stopping = false)
    (hmove : WorkerMove spinLimit s lane w w') : w'.Prepares d epoch command := by
  cases hmove <;>
    simp_all [Worker.Prepares, hstored.model, hstored.function, hstored.epoch]

/-- The steps in which a worker only reads keep the lane where it is. -/
theorem LaneRel.move {issued : Bool} {w w' : Worker φ α κ} {l : Lane κ}
    (h : LaneRel d epoch (s.command lane) (s.completed lane) issued w l)
    (hstored : issued = true → s.Stored d epoch) (hstopping : s.stopping = false)
    (hmove : WorkerMove spinLimit s lane w w') :
    LaneRel d epoch (s.command lane) (s.completed lane) issued w' l := by
  cases h with
  | rest hsame hsettled =>
      rcases hsettled.move hmove with h | ⟨hne, -⟩
      · exact .rest hsame h
      · exact absurd rfl hne
  | called hnext hsettled =>
      rcases hsettled.move hmove with h | ⟨-, rfl⟩
      · exact .called hnext h
      · exact .awake hnext rfl
  | awake hnext hprepares => exact .awake hnext (hprepares.move (hstored rfl) hstopping hmove)
  | running => cases hmove
  | done => cases hmove
  | back hsame hsettled =>
      rcases hsettled.move hmove with h | ⟨hne, -⟩
      · exact .back hsame h
      · exact absurd rfl hne

/-! What a lane is doing, by where its worker is. -/

section

variable {command completed c e : Stamp} {issued : Bool} {l : Lane κ} {f : φ} {m : α} {k : κ}

theorem LaneRel.at_enter (h : LaneRel d epoch command completed issued (.enter c f m e) l) :
    issued = true ∧ l = .waiting ∧ command = completed + 1 ∧
      c = command ∧ f = d.function ∧ m = d.model ∧ e = epoch := by
  cases h with
  | rest _ hsettled => simp [Worker.Settled, Worker.Polls] at hsettled
  | called _ hsettled => simp [Worker.Settled, Worker.Polls] at hsettled
  | back _ hsettled => simp [Worker.Settled, Worker.Polls] at hsettled
  | awake hnext hprepares => exact ⟨rfl, rfl, hnext, hprepares⟩

theorem LaneRel.at_running (h : LaneRel d epoch command completed issued (.running c k) l) :
    issued = true ∧ l = .running k ∧ command = completed + 1 ∧ c = command := by
  cases h with
  | rest _ hsettled => simp [Worker.Settled, Worker.Polls] at hsettled
  | called _ hsettled => simp [Worker.Settled, Worker.Polls] at hsettled
  | back _ hsettled => simp [Worker.Settled, Worker.Polls] at hsettled
  | awake _ hprepares => simp [Worker.Prepares] at hprepares
  | running hnext => exact ⟨rfl, rfl, hnext, rfl⟩

theorem LaneRel.at_complete (h : LaneRel d epoch command completed issued (.complete c) l) :
    issued = true ∧ l = .finished ∧ command = completed + 1 ∧ c = command := by
  cases h with
  | rest _ hsettled => simp [Worker.Settled, Worker.Polls] at hsettled
  | called _ hsettled => simp [Worker.Settled, Worker.Polls] at hsettled
  | back _ hsettled => simp [Worker.Settled, Worker.Polls] at hsettled
  | awake _ hprepares => simp [Worker.Prepares] at hprepares
  | done hnext => exact ⟨rfl, rfl, hnext, rfl⟩

end

/-! ## The caller -/

/-- A lane below the one the caller waits for. -/
def Joined (s : Pool φ α κ μ) (st : Nat → Lane κ) (lane : Nat) : Prop :=
  st lane = .finished ∧ (lane = 0 ∨ s.completed lane = s.command lane)

/-- Where the caller is in a dispatch of which the lanes below `issued` have
got their commands, and what it knows of the lanes. -/
def CallerAt (s : Pool φ α κ μ) (d : Dispatch φ α) (epoch : Stamp) (st : Nat → Lane κ)
    (issued : Nat) : Caller φ α κ → Prop
  | .storeModel d' => d' = d ∧ issued = 1 ∧ s.epoch + 1 = epoch ∧ st 0 = .waiting
  | .storeFunction d' =>
      d' = d ∧ issued = 1 ∧ s.epoch + 1 = epoch ∧ st 0 = .waiting ∧ s.model = d.model
  | .countEpoch d' => d' = d ∧ issued = 1 ∧ s.epoch + 1 = epoch ∧ st 0 = .waiting ∧
      s.model = d.model ∧ s.function = d.function
  | .issue d' e lane => d' = d ∧ e = epoch ∧ issued = lane ∧ lane ≤ d.activeLanes ∧
      st 0 = .waiting ∧ s.Stored d epoch
  | .notify d' e lane => d' = d ∧ e = epoch ∧ issued = lane + 1 ∧ lane < d.activeLanes ∧
      st 0 = .waiting ∧ s.Stored d epoch
  | .invoke d' e => d' = d ∧ e = epoch ∧ issued = d.activeLanes ∧ st 0 = .waiting ∧
      s.Stored d epoch
  | .running d' k => d' = d ∧ issued = d.activeLanes ∧ st 0 = .running k ∧ s.Stored d epoch
  | .continuing d' => d' = d ∧ issued = d.activeLanes ∧ st 0 = .finished ∧ s.Stored d epoch
  | .target d' lane => d' = d ∧ issued = d.activeLanes ∧ s.Stored d epoch ∧ 0 < lane ∧
      ∀ l, l < lane → Joined s st l
  | .waiting d' lane command _ => d' = d ∧ issued = d.activeLanes ∧ s.Stored d epoch ∧ 0 < lane ∧
      (∀ l, l < lane → Joined s st l) ∧ lane < d.activeLanes ∧ command = s.command lane
  | .parked d' lane command _ => d' = d ∧ issued = d.activeLanes ∧ s.Stored d epoch ∧ 0 < lane ∧
      (∀ l, l < lane → Joined s st l) ∧ lane < d.activeLanes ∧ command = s.command lane
  | _ => False

/-- The destructor has begun; workers only wait for it and leave. -/
structure Closing (lanes : Nat) (s : Pool φ α κ μ) : Prop where
  stopping : s.stopping = true
  caller : (∃ lane, s.caller = .stopping lane) ∨ (∃ lane, s.caller = .notifyStop lane) ∨
    s.caller = .joining ∨ s.caller = .destroyed
  worker : ∀ lane, 0 < lane → lane < lanes → (∃ c, (s.worker lane).Settled c) ∨
    (∃ c, s.worker lane = .checkStop c) ∨ s.worker lane = .exited

/-- Between dispatches. -/
structure Resting (lanes : Nat) (s : Pool φ α κ μ) : Prop where
  stopping : s.stopping = false
  caller : s.caller = .idle
  worker : ∀ lane, 0 < lane → lane < lanes →
    s.completed lane = s.command lane ∧ (s.worker lane).Settled (s.command lane)

structure Working (lanes : Nat) (s : Pool φ α κ μ) (d : Dispatch φ α) (epoch : Stamp)
    (st : Nat → Lane κ) (issued : Nat) : Prop where
  stopping : s.stopping = false
  active : 0 < d.activeLanes ∧ d.activeLanes ≤ lanes
  within : 0 < issued ∧ issued ≤ d.activeLanes
  caller : CallerAt s d epoch st issued s.caller
  worker : ∀ lane, 0 < lane → lane < lanes → LaneRel d epoch (s.command lane) (s.completed lane)
    (decide (lane < issued)) (s.worker lane) (st lane)

def InTeam (lanes : Nat) (s : Pool φ α κ μ) : Team φ α κ μ → Prop
  | .idle => Resting lanes s ∨ Closing lanes s
  | .busy d epoch memory st => s.memory = memory ∧ ∃ issued, Working lanes s d epoch st issued

variable {st st' : Nat → Lane κ} {issued lanes : Nat} {s' : Pool φ α κ μ}

theorem CallerAt.stored {c : Caller φ α κ} (h : CallerAt s d epoch st issued c)
    (hissued : 1 < issued) : s.Stored d epoch := by
  cases c <;> simp only [CallerAt] at h <;> first | (exfalso; omega) | tauto

/-- The steps of workers leave the caller where it is. -/
theorem CallerAt.frame {c : Caller φ α κ} (h : CallerAt s d epoch st issued c)
    (hmodel : s'.model = s.model) (hfunction : s'.function = s.function)
    (hepoch : s'.epoch = s.epoch) (hcommand : s'.command = s.command) (hzero : st' 0 = st 0)
    (hjoined : ∀ l, Joined s st l → Joined s' st' l) :
    CallerAt s' d epoch st' issued c := by
  have hstored : s.Stored d epoch → s'.Stored d epoch := fun ⟨hm, hf, he⟩ =>
    ⟨hmodel.trans hm, hfunction.trans hf, hepoch.trans he⟩
  have hall : ∀ n, (∀ l, l < n → Joined s st l) → ∀ l, l < n → Joined s' st' l :=
    fun n h l hl => hjoined l (h l hl)
  cases c <;> simp only [CallerAt, hmodel, hfunction, hepoch, hcommand, hzero] at h ⊢ <;> tauto

theorem Working.step_lane (h : Working lanes s d epoch st issued) (hlane : 0 < lane)
    (hstopping : s'.stopping = s.stopping) (hcaller : s'.caller = s.caller)
    (hmodel : s'.model = s.model) (hfunction : s'.function = s.function)
    (hepoch : s'.epoch = s.epoch) (hcommand : s'.command = s.command)
    (hothers : ∀ l, l ≠ lane → s'.worker l = s.worker l ∧ s'.completed l = s.completed l ∧
      st' l = st l)
    (hjoined : Joined s st lane → Joined s' st' lane)
    (hrel : lane < lanes → LaneRel d epoch (s'.command lane) (s'.completed lane)
      (decide (lane < issued)) (s'.worker lane) (st' lane)) :
    Working lanes s' d epoch st' issued where
  stopping := hstopping.trans h.stopping
  active := h.active
  within := h.within
  caller := by
    rw [hcaller]
    refine h.caller.frame hmodel hfunction hepoch hcommand (hothers 0 (by omega)).2.2 fun l hl => ?_
    by_cases hll : l = lane
    · subst hll
      exact hjoined hl
    · obtain ⟨-, hcompleted, hst⟩ := hothers l hll
      rw [Joined, hst, hcompleted, hcommand]
      exact hl
  worker l hl hlt := by
    by_cases hll : l = lane
    · subst hll
      exact hrel hlt
    · obtain ⟨hworker, hcompleted, hst⟩ := hothers l hll
      rw [hworker, hcompleted, hst, hcommand]
      exact h.worker l hl hlt

/-- A lane with a command for the dispatch is one of its lanes. -/
theorem Working.lt_active (h : Working lanes s d epoch st issued)
    (hissued : decide (lane < issued) = true) : lane < d.activeLanes :=
  Nat.lt_of_lt_of_le (of_decide_eq_true hissued) h.within.2

variable {W : Work φ α κ μ ε} {e : Option (Event φ α ε)}

theorem Working.workerStep (h : Working lanes s d epoch st issued) (hlane : 0 < lane)
    (hlt : lane < lanes) (hstep : WorkerStep spinLimit W lane s e s') :
    ∃ a', (TeamStep lanes W (.busy d epoch s.memory st) e a' ∨
      e = none ∧ a' = .busy d epoch s.memory st) ∧ InTeam lanes s' a' := by
  have hrel := h.worker lane hlane hlt
  have hothers : ∀ (w : Worker φ α κ) (l : Nat), l ≠ lane →
      Function.update s.worker lane w l = s.worker l := fun w l hl => Function.update_of_ne hl _ _
  have hlanes : ∀ (x : Lane κ) (l : Nat), l ≠ lane → Function.update st lane x l = st l :=
    fun x l hl => Function.update_of_ne hl _ _
  cases hstep with
  | move hmove =>
      refine ⟨_, .inr ⟨rfl, rfl⟩, rfl, issued, ?_⟩
      refine h.step_lane hlane rfl rfl rfl rfl rfl rfl (fun l hl => ⟨hothers _ l hl, rfl, rfl⟩)
        (fun hl => hl) fun _ => ?_
      have hstored : decide (lane < issued) = true → s.Stored d epoch := fun hissued =>
        h.caller.stored (by have := of_decide_eq_true hissued; omega)
      simp only [Function.update_self]
      exact hrel.move hstored h.stopping hmove
  | invoke hworker =>
      rw [hworker] at hrel
      obtain ⟨hissued, hwaiting, hnext, rfl, rfl, rfl, rfl⟩ := hrel.at_enter
      refine ⟨_, .inl (.invoke (h.lt_active hissued) hwaiting), rfl, issued, ?_⟩
      refine h.step_lane hlane rfl rfl rfl rfl rfl rfl
        (fun l hl => ⟨hothers _ l hl, rfl, hlanes _ l hl⟩) (fun hl => ?_) fun _ => ?_
      · rw [Joined, hwaiting] at hl
        cases hl.1
      · simp only [Function.update_self, hissued]
        exact .running hnext
  | work hworker hwork =>
      rw [hworker] at hrel
      obtain ⟨hissued, hrunning, hnext, rfl⟩ := hrel.at_running
      refine ⟨_, .inl (.work (h.lt_active hissued) hrunning hwork), rfl, issued, ?_⟩
      refine h.step_lane hlane rfl rfl rfl rfl rfl rfl
        (fun l hl => ⟨hothers _ l hl, rfl, hlanes _ l hl⟩) (fun hl => ?_) fun _ => ?_
      · rw [Joined, hrunning] at hl
        cases hl.1
      · simp only [Function.update_self, hissued]
        exact .running hnext
  | finish hworker hfinished =>
      rw [hworker] at hrel
      obtain ⟨hissued, hrunning, hnext, rfl⟩ := hrel.at_running
      refine ⟨_, .inl (.finish (h.lt_active hissued) hrunning hfinished), rfl, issued, ?_⟩
      refine h.step_lane hlane rfl rfl rfl rfl rfl rfl
        (fun l hl => ⟨hothers _ l hl, rfl, hlanes _ l hl⟩) (fun hl => ?_) fun _ => ?_
      · rw [Joined, hrunning] at hl
        cases hl.1
      · simp only [Function.update_self, hissued]
        exact .done hnext
  | complete hworker =>
      rw [hworker] at hrel
      obtain ⟨hissued, hfinished, hnext, rfl⟩ := hrel.at_complete
      refine ⟨_, .inr ⟨rfl, rfl⟩, rfl, issued, ?_⟩
      refine h.step_lane hlane rfl rfl rfl rfl rfl rfl
        (fun l hl => ⟨hothers _ l hl, Function.update_of_ne hl _ _, rfl⟩)
        (fun hl => ⟨hl.1, .inr (Function.update_self _ _ _)⟩) fun _ => ?_
      simp only [Function.update_self, hissued, hfinished]
      exact .back rfl (.inl rfl)

/-- A step of the caller that leaves the lanes alone. -/
theorem Working.step_caller (h : Working lanes s d epoch st issued)
    (hstopping : s'.stopping = s.stopping) (hcommand : s'.command = s.command)
    (hcompleted : s'.completed = s.completed) (hworker : s'.worker = s.worker)
    (hlanes : ∀ l, 0 < l → st' l = st l) (hcaller : CallerAt s' d epoch st' issued s'.caller) :
    Working lanes s' d epoch st' issued where
  stopping := hstopping.trans h.stopping
  active := h.active
  within := h.within
  caller := hcaller
  worker l hl hlt := by
    rw [hcommand, hcompleted, hworker, hlanes l hl]
    exact h.worker l hl hlt

theorem Working.issue (h : Working lanes s d epoch st issued) (hlt : issued < d.activeLanes)
    (hstored : s.Stored d epoch) (hzero : st 0 = .waiting) :
    Working lanes { s with caller := .notify d epoch issued, command := s.issue issued } d epoch st
      (issued + 1) where
  stopping := h.stopping
  active := h.active
  within := ⟨by omega, hlt⟩
  caller := ⟨rfl, rfl, rfl, hlt, hzero, hstored.model, hstored.function, hstored.epoch⟩
  worker l hl hllt := by
    have hrel := h.worker l hl hllt
    by_cases heq : l = issued
    · subst heq
      have hnew : decide (l < l) = false := by simp
      have hold : decide (l < l + 1) = true := by simp
      rw [hnew] at hrel
      generalize st l = x at hrel
      cases hrel with
      | rest hsame hsettled =>
          simp only [hold, Pool.issue, Function.update_self]
          exact .called (by rw [hsame]) (by rw [hsame]; exact hsettled)
    · have hsame : decide (l < issued + 1) = decide (l < issued) := by
        rw [decide_eq_decide]
        omega
      simp only [hsame, Pool.issue, Function.update_of_ne heq]
      exact hrel

/-- A lane whose completion is its command has finished and settled. -/
theorem Working.joined (h : Working lanes s d epoch st issued) (hlane : 0 < lane)
    (hlt : lane < issued) (hcompleted : s.completed lane = s.command lane) :
    st lane = .finished ∧ (s.worker lane).Settled (s.command lane) := by
  have hrel := h.worker lane hlane (by have := h.within.2; have := h.active.2; omega)
  rw [decide_eq_true hlt, hcompleted] at hrel
  generalize st lane = l at hrel
  generalize s.worker lane = w at hrel
  generalize s.command lane = c at hrel
  have hne : c ≠ c + 1 := fun h => succ_ne c h.symm
  cases hrel with
  | called hnext => exact absurd hnext hne
  | awake hnext => exact absurd hnext hne
  | running hnext => exact absurd hnext hne
  | done hnext => exact absurd hnext hne
  | back _ hsettled => exact ⟨rfl, hsettled⟩

theorem Working.unissued (h : Working lanes s d epoch st issued) (hlane : 0 < lane)
    (hlt : lane < lanes) (hissued : ¬ lane < issued) :
    s.completed lane = s.command lane ∧ (s.worker lane).Settled (s.command lane) := by
  have hrel := h.worker lane hlane hlt
  rw [decide_eq_false hissued] at hrel
  generalize st lane = l at hrel
  cases hrel with
  | rest hsame hsettled => exact ⟨hsame, hsettled⟩

/-- What the caller does in a dispatch is what lane 0 does. -/
theorem Working.callerStep (h : Working lanes s d epoch st issued)
    (hstep : CallerStep lanes spinLimit W s e s') :
    ∃ a', (TeamStep lanes W (.busy d epoch s.memory st) e a' ∨
      e = none ∧ a' = .busy d epoch s.memory st) ∧ InTeam lanes s' a' := by
  have hat := h.caller
  have hpos := h.active.1
  have hzero : ∀ (x : Lane κ) (l : Nat), 0 < l → Function.update st 0 x l = st l :=
    fun x l hl => Function.update_of_ne (by omega) _ _
  cases hstep with
  | refuse _ hc => rw [hc] at hat; exact hat.elim
  | lock _ hc => rw [hc] at hat; exact hat.elim
  | stop hc => rw [hc] at hat; exact hat.elim
  | issueStop hc => rw [hc] at hat; exact hat.elim
  | notifyStop hc => rw [hc] at hat; exact hat.elim
  | stopped hc => rw [hc] at hat; exact hat.elim
  | destroy hc => rw [hc] at hat; exact hat.elim
  | storeModel hc =>
      rw [hc] at hat
      obtain ⟨rfl, rfl, hepoch, hst⟩ := hat
      exact ⟨_, .inr ⟨rfl, rfl⟩, rfl, 1,
        h.step_caller rfl rfl rfl rfl (fun _ _ => rfl) ⟨rfl, rfl, hepoch, hst, rfl⟩⟩
  | storeFunction hc =>
      rw [hc] at hat
      obtain ⟨rfl, rfl, hepoch, hst, hmodel⟩ := hat
      exact ⟨_, .inr ⟨rfl, rfl⟩, rfl, 1,
        h.step_caller rfl rfl rfl rfl (fun _ _ => rfl) ⟨rfl, rfl, hepoch, hst, hmodel, rfl⟩⟩
  | countEpoch hc =>
      rw [hc] at hat
      obtain ⟨rfl, rfl, hepoch, hst, hmodel, hfunction⟩ := hat
      exact ⟨_, .inr ⟨rfl, rfl⟩, rfl, 1, h.step_caller rfl rfl rfl rfl (fun _ _ => rfl)
        ⟨rfl, hepoch, rfl, hpos, hst, hmodel, hfunction, hepoch⟩⟩
  | issue hc hlt =>
      rw [hc] at hat
      obtain ⟨rfl, rfl, rfl, -, hst, hstored⟩ := hat
      exact ⟨_, .inr ⟨rfl, rfl⟩, rfl, _, h.issue hlt hstored hst⟩
  | notify hc =>
      rw [hc] at hat
      obtain ⟨rfl, rfl, rfl, hlt, hst, hstored⟩ := hat
      exact ⟨_, .inr ⟨rfl, rfl⟩, rfl, _, h.step_caller rfl rfl rfl rfl (fun _ _ => rfl)
        ⟨rfl, rfl, rfl, hlt, hst, hstored.model, hstored.function, hstored.epoch⟩⟩
  | issued hc hge =>
      rw [hc] at hat
      obtain ⟨rfl, rfl, rfl, hle, hst, hstored⟩ := hat
      exact ⟨_, .inr ⟨rfl, rfl⟩, rfl, _, h.step_caller rfl rfl rfl rfl (fun _ _ => rfl)
        ⟨rfl, rfl, by omega, hst, hstored.model, hstored.function, hstored.epoch⟩⟩
  | invoke hc =>
      rw [hc] at hat
      obtain ⟨rfl, rfl, hissued, hst, hstored⟩ := hat
      exact ⟨_, .inl (.invoke hpos hst), rfl, _, h.step_caller rfl rfl rfl rfl (hzero _)
        ⟨rfl, hissued, Function.update_self _ _ _, hstored.model, hstored.function, hstored.epoch⟩⟩
  | work hc hwork =>
      rw [hc] at hat
      obtain ⟨rfl, hissued, hst, hstored⟩ := hat
      exact ⟨_, .inl (.work hpos hst hwork), rfl, _, h.step_caller rfl rfl rfl rfl (hzero _)
        ⟨rfl, hissued, Function.update_self _ _ _, hstored.model, hstored.function, hstored.epoch⟩⟩
  | finish hc hfinished =>
      rw [hc] at hat
      obtain ⟨rfl, hissued, hst, hstored⟩ := hat
      exact ⟨_, .inl (.finish hpos hst hfinished), rfl, _, h.step_caller rfl rfl rfl rfl (hzero _)
        ⟨rfl, hissued, Function.update_self _ _ _, hstored.model, hstored.function, hstored.epoch⟩⟩
  | continued hc =>
      rw [hc] at hat
      obtain ⟨rfl, hissued, hst, hstored⟩ := hat
      refine ⟨_, .inr ⟨rfl, rfl⟩, rfl, _, h.step_caller rfl rfl rfl rfl (fun _ _ => rfl)
        ⟨rfl, hissued, ⟨hstored.model, hstored.function, hstored.epoch⟩, by omega, fun l hl => ?_⟩⟩
      obtain rfl : l = 0 := by omega
      exact ⟨hst, .inl rfl⟩
  | target hc hlt =>
      rw [hc] at hat
      obtain ⟨rfl, hissued, hstored, hlane, hjoined⟩ := hat
      exact ⟨_, .inr ⟨rfl, rfl⟩, rfl, _, h.step_caller rfl rfl rfl rfl (fun _ _ => rfl)
        ⟨rfl, hissued, ⟨hstored.model, hstored.function, hstored.epoch⟩, hlane, hjoined, hlt, rfl⟩⟩
  | joined hc hcompleted =>
      rw [hc] at hat
      obtain ⟨rfl, rfl, hstored, hlane, hjoined, hlt, rfl⟩ := hat
      refine ⟨_, .inr ⟨rfl, rfl⟩, rfl, _, h.step_caller rfl rfl rfl rfl (fun _ _ => rfl)
        ⟨rfl, rfl, ⟨hstored.model, hstored.function, hstored.epoch⟩, by omega, fun l hl => ?_⟩⟩
      rcases Nat.lt_succ_iff_lt_or_eq.mp hl with hl | rfl
      · exact hjoined l hl
      · exact ⟨(h.joined hlane hlt hcompleted).1, .inr hcompleted⟩
  | spin hc hne =>
      rw [hc] at hat
      obtain ⟨rfl, hissued, hstored, hrest⟩ := hat
      exact ⟨_, .inr ⟨rfl, rfl⟩, rfl, _, h.step_caller rfl rfl rfl rfl (fun _ _ => rfl)
        ⟨rfl, hissued, ⟨hstored.model, hstored.function, hstored.epoch⟩, hrest⟩⟩
  | park hc hne =>
      rw [hc] at hat
      obtain ⟨rfl, hissued, hstored, hrest⟩ := hat
      exact ⟨_, .inr ⟨rfl, rfl⟩, rfl, _, h.step_caller rfl rfl rfl rfl (fun _ _ => rfl)
        ⟨rfl, hissued, ⟨hstored.model, hstored.function, hstored.epoch⟩, hrest⟩⟩
  | wake hc hne =>
      rw [hc] at hat
      obtain ⟨rfl, hissued, hstored, hrest⟩ := hat
      exact ⟨_, .inr ⟨rfl, rfl⟩, rfl, _, h.step_caller rfl rfl rfl rfl (fun _ _ => rfl)
        ⟨rfl, hissued, ⟨hstored.model, hstored.function, hstored.epoch⟩, hrest⟩⟩
  | @leave d' lane' hc hge =>
      rw [hc] at hat
      obtain ⟨rfl, rfl, -, -, hjoined⟩ := hat
      refine ⟨.idle, .inl (.leave fun l hl => (hjoined l (by omega)).1),
        .inl ⟨h.stopping, rfl, fun l hl hlt => ?_⟩⟩
      by_cases hl' : l < d'.activeLanes
      · have hcompleted := (hjoined l (by omega)).2.resolve_left (by omega)
        exact ⟨hcompleted, (h.joined hl hl' hcompleted).2⟩
      · exact h.unissued hl hlt hl'

/-! ## Between dispatches and after them -/

theorem Resting.workerStep (h : Resting lanes s) (hlane : 0 < lane) (hlt : lane < lanes)
    (hstep : WorkerStep spinLimit W lane s e s') : e = none ∧ Resting lanes s' := by
  obtain ⟨hcompleted, hsettled⟩ := h.worker lane hlane hlt
  cases hstep with
  | @move w hmove =>
      refine ⟨rfl, h.stopping, h.caller, fun l hl hllt => ?_⟩
      by_cases heq : l = lane
      · subst heq
        rcases hsettled.move hmove with hsettled | ⟨hne, -⟩
        · simp only [Function.update_self]
          exact ⟨hcompleted, hsettled⟩
        · exact absurd rfl hne
      · simp only [Function.update_of_ne heq]
        exact h.worker l hl hllt
  | invoke hworker => simp [hworker, Worker.Settled, Worker.Polls] at hsettled
  | work hworker => simp [hworker, Worker.Settled, Worker.Polls] at hsettled
  | finish hworker => simp [hworker, Worker.Settled, Worker.Polls] at hsettled
  | complete hworker => simp [hworker, Worker.Settled, Worker.Polls] at hsettled

/-- A worker that wakes up for the destructor leaves. -/
theorem Closing.workerStep (h : Closing lanes s) (hlane : 0 < lane) (hlt : lane < lanes)
    (hstep : WorkerStep spinLimit W lane s e s') : e = none ∧ Closing lanes s' := by
  have hworker := h.worker lane hlane hlt
  cases hstep with
  | @move w hmove =>
      refine ⟨rfl, h.stopping, h.caller, fun l hl hllt => ?_⟩
      by_cases heq : l = lane
      · subst heq
        simp only [Function.update_self]
        generalize s.worker l = v at hworker hmove
        rcases hworker with ⟨c, hsettled⟩ | ⟨c, rfl⟩ | rfl
        · rcases hsettled.move hmove with hsettled | ⟨-, rfl⟩
          · exact .inl ⟨c, hsettled⟩
          · exact .inr (.inl ⟨_, rfl⟩)
        · cases hmove with
          | exit => exact .inr (.inr rfl)
          | goOn hgo => simp [h.stopping] at hgo
        · cases hmove
      · simp only [Function.update_of_ne heq]
        exact h.worker l hl hllt
  | invoke hw => simp [hw, Worker.Settled, Worker.Polls] at hworker
  | work hw => simp [hw, Worker.Settled, Worker.Polls] at hworker
  | finish hw => simp [hw, Worker.Settled, Worker.Polls] at hworker
  | complete hw => simp [hw, Worker.Settled, Worker.Polls] at hworker

/-- Between dispatches the caller refuses one, begins one, or closes. -/
theorem Resting.callerStep (h : Resting lanes s) (hstep : CallerStep lanes spinLimit W s e s') :
    ∃ a', (TeamStep lanes W .idle e a' ∨ e = none ∧ a' = .idle) ∧ InTeam lanes s' a' := by
  have hidle := h.caller
  cases hstep
  case refuse d hc hbad => exact ⟨.idle, .inl (.refuse hbad), .inl h⟩
  case lock d hc hpos hle =>
    refine ⟨_, .inl (.dispatch (s.epoch + 1) hpos hle), rfl, 1, h.stopping, ⟨hpos, hle⟩,
      ⟨by omega, hpos⟩, ⟨rfl, rfl, rfl, rfl⟩, fun l hl hlt => ?_⟩
    rw [decide_eq_false (by omega)]
    exact .rest (h.worker l hl hlt).1 (h.worker l hl hlt).2
  case stop hc =>
    refine ⟨.idle, .inr ⟨rfl, rfl⟩, .inr ⟨rfl, .inl ⟨1, rfl⟩, fun l hl hlt => ?_⟩⟩
    exact .inl ⟨_, (h.worker l hl hlt).2⟩
  all_goals simp_all

theorem Closing.callerStep (h : Closing lanes s) (hstep : CallerStep lanes spinLimit W s e s') :
    e = none ∧ Closing lanes s' := by
  have hcaller := h.caller
  cases hstep
  case issueStop l hc hlt => exact ⟨rfl, h.stopping, .inr (.inl ⟨l, rfl⟩), h.worker⟩
  case notifyStop l hc => exact ⟨rfl, h.stopping, .inl ⟨l + 1, rfl⟩, h.worker⟩
  case stopped l hc hge => exact ⟨rfl, h.stopping, .inr (.inr (.inl rfl)), h.worker⟩
  case destroy hc hall => exact ⟨rfl, h.stopping, .inr (.inr (.inr rfl)), h.worker⟩
  all_goals simp_all

/-! ## All steps -/

/-- The pool works like the team: its stamps, its waiting and its destructor
are invisible. -/
def pool_team (lanes spinLimit : Nat) (W : Work φ α κ μ ε) :
    Transitions.Simulation (pool lanes spinLimit W) (team lanes W) where
  rel := InTeam lanes
  init s hs := ⟨.idle, rfl, .inl ⟨hs.stopping, hs.caller, fun lane _ _ => by
    rw [hs.command, hs.completed, hs.worker]
    exact ⟨rfl, .inr rfl⟩⟩⟩
  step s a e s' hrel hstep := by
    cases a with
    | idle =>
        rcases hrel with h | h
        · rcases hstep with hstep | ⟨lane, hlane, hlt, hstep⟩
          · exact h.callerStep hstep
          · obtain ⟨rfl, h'⟩ := h.workerStep hlane hlt hstep
            exact ⟨.idle, .inr ⟨rfl, rfl⟩, .inl h'⟩
        · rcases hstep with hstep | ⟨lane, hlane, hlt, hstep⟩
          · obtain ⟨rfl, h'⟩ := h.callerStep hstep
            exact ⟨.idle, .inr ⟨rfl, rfl⟩, .inr h'⟩
          · obtain ⟨rfl, h'⟩ := h.workerStep hlane hlt hstep
            exact ⟨.idle, .inr ⟨rfl, rfl⟩, .inr h'⟩
    | busy d epoch memory st =>
        obtain ⟨rfl, issued, h⟩ := hrel
        rcases hstep with hstep | ⟨lane, hlane, hlt, hstep⟩
        · exact h.callerStep hstep
        · exact h.workerStep hlane hlt hstep

end

end CppHdl.Threads
