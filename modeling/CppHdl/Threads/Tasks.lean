import Mathlib.Algebra.BigOperators.Group.Finset.Piecewise
import Mathlib.Algebra.Order.BigOperators.Group.Finset
import CppHdl.Threads.Once

/-!
# Tasks

`runTasks` runs more tasks than there are lanes. It dispatches the function
itself where every task has a lane, a loop over all tasks on the caller where
only one lane may work, and otherwise a loop in which each lane first takes the
task of its own number and then claims further ones from an atomic counter.

The counter has 32 bits. Every lane claims once beyond the last task before it
stops, so the counter passes `count` by the number of lanes, and wraps where
that is past `2 ^ 32`.
-/

namespace CppHdl.Threads

/-- The `Work` struct of `runTasks`; `next` is where its counter starts. -/
structure Tasks (φ α : Type) where
  model : α
  function : φ
  count : Nat
  next : Nat

/-- What is dispatched: a function, or one of the two loops. -/
inductive Routine (φ : Type)
  | given (function : φ)
  | serial
  | shared

inductive Argument (φ α : Type)
  | model (model : α)
  | tasks (tasks : Tasks φ α)

/-- `runTasks` up to its dispatch; without tasks there is none. -/
def runTasks {φ α : Type} (taskWorkers : Nat) (model : α) (function : φ)
    (count requestedWorkers : Nat) : Except String (Option (Dispatch (Routine φ) (Argument φ α))) :=
  if count = 0 then .ok none
  else if requestedWorkers = 0 then .error "native task worker budget must be positive"
  else
    let active := min (min taskWorkers count) requestedWorkers
    if active = count then .ok (some ⟨.given function, .model model, active⟩)
    else if active = 1 then .ok (some ⟨.serial, .tasks ⟨model, function, count, active⟩, 1⟩)
    else .ok (some ⟨.shared, .tasks ⟨model, function, count, active⟩, active⟩)

/-! ## What a lane does -/

/-- What a lane does after a call. -/
inductive Next (φ α : Type)
  | done
  /-- At the condition of the serial loop. -/
  | loop (t : Tasks φ α) (task : Nat) (epoch : Stamp)
  /-- At the `fetch_add` of the shared loop. -/
  | claim (t : Tasks φ α) (epoch : Stamp)

inductive Errand (φ α κ : Type)
  /-- About to call a function for a task. -/
  | begin (function : φ) (model : α) (task : Nat) (epoch : Stamp) (next : Next φ α)
  /-- In the call. -/
  | inside (k : κ) (next : Next φ α)
  | go (next : Next φ α)

inductive TaskEvent (φ α ε : Type)
  | called (function : φ) (model : α) (task : Nat) (epoch : Stamp)
  /-- An event of the function called. -/
  | inner (event : ε)

section

variable {φ α κ μ ε : Type} (W : Work φ α κ μ ε)

/-- The steps of a lane, beside those of the functions called. The memory of a
dispatch is that of the functions and the counter. -/
inductive ErrandStep : Errand φ α κ → μ × Nat → Option (TaskEvent φ α ε) →
    Errand φ α κ → μ × Nat → Prop
  | call {f : φ} {m : α} {task : Nat} {epoch : Stamp} {n : Next φ α} {memory : μ × Nat} :
      ErrandStep (.begin f m task epoch n) memory (some (.called f m task epoch))
        (.inside (W.start f m task epoch) n) memory
  | work {k k' : κ} {n : Next φ α} {memory memory' : μ} {next : Nat} {e : Option ε} :
      W.step k memory e k' memory' →
      ErrandStep (.inside k n) (memory, next) (e.map .inner) (.inside k' n) (memory', next)
  | result {k : κ} {n : Next φ α} {memory : μ × Nat} : W.finished k →
      ErrandStep (.inside k n) memory none (.go n) memory
  | again {t : Tasks φ α} {task : Nat} {epoch : Stamp} {memory : μ × Nat} : task < t.count →
      ErrandStep (.go (.loop t task epoch)) memory none
        (.begin t.function t.model task epoch (.loop t (task + 1) epoch)) memory
  | exit {t : Tasks φ α} {task : Nat} {epoch : Stamp} {memory : μ × Nat} : ¬ task < t.count →
      ErrandStep (.go (.loop t task epoch)) memory none (.go .done) memory
  | claim {t : Tasks φ α} {epoch : Stamp} {memory : μ} {next : Nat} :
      ErrandStep (.go (.claim t epoch)) (memory, next) none
        (if t.count ≤ next then .go .done
          else .begin t.function t.model next epoch (.claim t epoch))
        (memory, (next + 1) % 2 ^ 32)

/-- The functions that can be dispatched when `runTasks` is used, over the
functions `W` of the callers. -/
def tasksWork : Work (Routine φ) (Argument φ α) (Errand φ α κ) (μ × Nat) (TaskEvent φ α ε) where
  memory
    | .model m => (W.memory m, 0)
    | .tasks t => (W.memory t.model, t.next)
  start
    | .given f, .model m, lane, epoch => .begin f m lane epoch .done
    | .serial, .tasks t, _, epoch => .go (.loop t 0 epoch)
    | .shared, .tasks t, lane, epoch => .begin t.function t.model lane epoch (.claim t epoch)
    | _, _, _, _ => .go .done
  step := ErrandStep W
  finished k := k = .go .done

/-! ## Counting calls -/

abbrev TasksEvent (φ α ε : Type) := Event (Routine φ) (Argument φ α) (TaskEvent φ α ε)

def calls (task : Nat) : TasksEvent φ α ε → Bool
  | .worked _ (.called _ _ k _) => k == task
  | _ => false

/-- All calls in a dispatch are of one function on one argument. -/
def CallsOf (f : φ) (m : α) (seg : List (TasksEvent φ α ε)) : Prop :=
  ∀ lane f' m' task epoch, .worked lane (.called f' m' task epoch) ∈ seg → f' = f ∧ m' = m

theorem callsOf_call {f : φ} {m : α} {lane task : Nat} {epoch : Stamp} :
    CallsOf f m ([.worked lane (.called f m task epoch)] : List (TasksEvent φ α ε)) := by
  intro l f' m' k e hmem
  cases List.mem_singleton.mp hmem
  exact ⟨rfl, rfl⟩

def tally (p : Nat → Lane κ → Nat) (active : Nat) (st : Nat → Lane κ) : Nat :=
  ∑ lane ∈ Finset.range active, p lane (st lane)

/-- When a lane moves, its part of the sum is exchanged. -/
theorem tally_update (p : Nat → Lane κ → Nat) {active lane : Nat} (st : Nat → Lane κ)
    (hlane : lane < active) (x : Lane κ) :
    tally p active (Function.update st lane x) + p lane (st lane) =
      tally p active st + p lane x := by
  have hmem : lane ∈ Finset.range active := Finset.mem_range.mpr hlane
  have hrest : ∑ l ∈ (Finset.range active).erase lane, p l (Function.update st lane x l) =
      ∑ l ∈ (Finset.range active).erase lane, p l (st l) :=
    Finset.sum_congr rfl fun l hl => by rw [Function.update_of_ne (Finset.ne_of_mem_erase hl)]
  unfold tally
  rw [← Finset.add_sum_erase _ _ hmem, ← Finset.add_sum_erase (Finset.range active) _ hmem, hrest,
    Function.update_self]
  omega

/-- A sum of zeros and ones does not reach the number of lanes while one is 0. -/
theorem tally_lt {p : Nat → Lane κ → Nat} {active lane : Nat} {st : Nat → Lane κ}
    (hp : ∀ l x, p l x ≤ 1) (hlane : lane < active) (hzero : p lane (st lane) = 0) :
    tally p active st < active := by
  have hmem : lane ∈ Finset.range active := Finset.mem_range.mpr hlane
  unfold tally
  calc ∑ l ∈ Finset.range active, p l (st l)
      < ∑ _l ∈ Finset.range active, 1 :=
        Finset.sum_lt_sum (fun l _ => hp l (st l)) ⟨lane, hmem, by omega⟩
    _ = active := by simp

theorem tally_finished {p : Nat → Lane κ → Nat} {active : Nat} {st : Nat → Lane κ}
    (hall : ∀ lane, lane < active → st lane = .finished) :
    tally p active st = ∑ lane ∈ Finset.range active, p lane .finished :=
  Finset.sum_congr rfl fun lane hlane => by rw [hall lane (Finset.mem_range.mp hlane)]

/-! ## Tasks given out -/

structure EachOnce (f : φ) (m : α) (count : Nat) (seg : List (TasksEvent φ α ε)) : Prop where
  calls : ∀ task, seg.countP (calls task) = if task < count then 1 else 0
  callsOf : CallsOf f m seg

/-- The task a lane is about to call, if it starts with the task of its own
number. -/
def pending (task lane : Nat) : Lane (Errand φ α κ) → Nat
  | .waiting => if lane = task then 1 else 0
  | .running (.begin _ _ k _ _) => if k = task then 1 else 0
  | _ => 0

/-- The tasks below `limit` were given out: each of them was called or is about
to be. The lanes are on errands of the given kind. -/
structure GivenOut (Kind : Errand φ α κ → Prop) (f : φ) (m : α) (limit active : Nat)
    (st : Nat → Lane (Errand φ α κ)) (seg : List (TasksEvent φ α ε)) : Prop where
  kind : ∀ lane k, st lane = .running k → Kind k
  calls : ∀ task, seg.countP (calls task) + tally (pending task) active st =
    if task < limit then 1 else 0
  callsOf : CallsOf f m seg

namespace GivenOut

variable {Kind : Errand φ α κ → Prop} {f : φ} {m : α} {limit limit' active lane : Nat}
  {st : Nat → Lane (Errand φ α κ)} {seg es : List (TasksEvent φ α ε)}

theorem nil : GivenOut Kind f m active active (fun _ => .waiting) ([] : List (TasksEvent φ α ε)) where
  kind _ _ h := by cases h
  calls task := by
    simp only [tally, pending, List.countP_nil, Nat.zero_add, Finset.sum_ite_eq',
      Finset.mem_range]
  callsOf := by simp [CallsOf]

theorem move (h : GivenOut Kind f m limit active st seg) (hlane : lane < active)
    {x : Lane (Errand φ α κ)} (hkind : ∀ k, x = .running k → Kind k)
    (hcalls : ∀ task, es.countP (Threads.calls task) + pending task lane x +
      (if task < limit then 1 else 0) =
        pending task lane (st lane) + if task < limit' then 1 else 0)
    (hcallsOf : CallsOf f m es) :
    GivenOut Kind f m limit' active (Function.update st lane x) (seg ++ es) where
  kind l k hl := by
    by_cases heq : l = lane
    · subst heq
      rw [Function.update_self] at hl
      exact hkind k hl
    · rw [Function.update_of_ne heq] at hl
      exact h.kind l k hl
  calls task := by
    have hupdate := tally_update (pending task) st hlane x
    have := h.calls task
    have := hcalls task
    rw [List.countP_append]
    omega
  callsOf l f m k e hmem :=
    (List.mem_append.mp hmem).elim (h.callsOf l f m k e) (hcallsOf l f m k e)

theorem eachOnce (h : GivenOut Kind f m limit active st seg)
    (hall : ∀ lane, lane < active → st lane = .finished) : EachOnce f m limit seg where
  calls task := by
    have hnone : tally (pending task) active st = 0 := by
      rw [tally_finished hall]
      simp [pending]
    have := h.calls task
    omega
  callsOf := h.callsOf

end GivenOut

/-! ## The function itself -/

/-- A lane that calls once. -/
def Errand.Direct (f : φ) (m : α) : Errand φ α κ → Prop
  | .begin f' m' _ _ n => f' = f ∧ m' = m ∧ n = .done
  | .inside _ n => n = .done
  | .go n => n = .done

theorem direct_invariant (lanes : Nat) :
    Team.Invariant lanes (tasksWork W)
      (fun d _ _ st seg => ∀ f m, d.function = .given f → d.model = .model m →
        GivenOut (Errand.Direct f m) f m d.activeLanes d.activeLanes st seg)
      (fun d seg => ∀ f m, d.function = .given f → d.model = .model m →
        EachOnce f m d.activeLanes seg) where
  dispatch _ _ _ _ _ _ := .nil
  invoke {d epoch memory st seg lane} h hlane hwaiting f m hf hm := by
    refine (h f m hf hm).move hlane (fun k hk => ?_) (fun task => ?_) (by simp [CallsOf])
    · rw [hf, hm] at hk
      cases hk
      exact ⟨rfl, rfl, rfl⟩
    · rw [hf, hm, hwaiting]
      simp [calls, pending, tasksWork]
  work {d epoch memory memory' st seg lane k k' e} h hlane hrunning hwork f m hf hm := by
    have hkind := (h f m hf hm).kind lane k hrunning
    refine (h f m hf hm).move hlane (fun k hk => ?_) (fun task => ?_) ?_
    · cases hk
      cases hwork with
      | call => exact hkind.2.2
      | work _ => exact hkind
      | result _ => exact hkind
      | again _ => cases hkind
      | exit _ => cases hkind
      | claim => cases hkind
    · rw [hrunning]
      cases hwork with
      | call => simp [calls, pending]
      | @work _ _ _ _ _ _ e _ => cases e <;> simp [calls, pending]
      | result _ => simp [pending]
      | again _ => cases hkind
      | exit _ => cases hkind
      | claim => cases hkind
    · cases hwork with
      | call =>
          obtain ⟨rfl, rfl, -⟩ := hkind
          exact callsOf_call
      | @work _ _ _ _ _ _ e _ => cases e <;> simp [CallsOf]
      | result _ => simp [CallsOf]
      | again _ => cases hkind
      | exit _ => cases hkind
      | claim => cases hkind
  finish {d epoch memory st seg lane k} h hlane hrunning hfinished f m hf hm := by
    refine (h f m hf hm).move hlane (fun k hk => by cases hk) (fun task => ?_) (by simp [CallsOf])
    obtain rfl : k = .go .done := hfinished
    rw [hrunning]
    simp [calls, pending]
  leave h hall f m hf hm := (h f m hf hm).eachOnce hall

/-! ## The serial loop -/

/-- A lane of the serial loop. -/
def Errand.Loops (t : Tasks φ α) : Errand φ α κ → Prop
  | .begin f m k _ n =>
      f = t.function ∧ m = t.model ∧ k < t.count ∧ ∃ epoch, n = .loop t (k + 1) epoch
  | .inside _ n => ∃ k epoch, n = .loop t k epoch ∧ k ≤ t.count
  | .go n => n = .done ∨ ∃ k epoch, n = .loop t k epoch ∧ k ≤ t.count

/-- How many tasks the loop has called. -/
def reached (count : Nat) : Lane (Errand φ α κ) → Nat
  | .waiting => 0
  | .running (.begin _ _ k _ _) | .running (.inside _ (.loop _ k _))
  | .running (.go (.loop _ k _)) => k
  | _ => count

/-- 1 for the tasks below `n`. -/
def below (n task : Nat) : Nat := if task < n then 1 else 0

theorem below_succ (n task : Nat) : below (n + 1) task = below n task + if n = task then 1 else 0 := by
  unfold below
  split_ifs <;> omega

structure Looping (t : Tasks φ α) (x : Lane (Errand φ α κ)) (seg : List (TasksEvent φ α ε)) :
    Prop where
  loops : ∀ k, x = .running k → k.Loops t
  calls : ∀ task, seg.countP (calls task) = below (reached t.count x) task
  callsOf : CallsOf t.function t.model seg

theorem Looping.move {t : Tasks φ α} {x y : Lane (Errand φ α κ)} {seg es : List (TasksEvent φ α ε)}
    (h : Looping t x seg) (hloops : ∀ k, y = .running k → k.Loops t)
    (hcalls : ∀ task, below (reached t.count x) task + es.countP (Threads.calls task) =
      below (reached t.count y) task)
    (hcallsOf : CallsOf t.function t.model es) : Looping t y (seg ++ es) where
  loops := hloops
  calls task := by rw [List.countP_append, h.calls task, hcalls task]
  callsOf l f m k e hmem :=
    (List.mem_append.mp hmem).elim (h.callsOf l f m k e) (hcallsOf l f m k e)

theorem Looping.step {t : Tasks φ α} {k k' : Errand φ α κ} {memory memory' : μ × Nat}
    {e : Option (TaskEvent φ α ε)} {seg : List (TasksEvent φ α ε)} {lane : Nat}
    (h : Looping t (.running k) seg) (hstep : ErrandStep W k memory e k' memory') :
    Looping t (.running k') (seg ++ (e.map (Event.worked lane)).toList) := by
  have hloops := h.loops k rfl
  cases hstep with
  | @call f m k epoch n memory =>
      obtain ⟨rfl, rfl, hk, epoch', rfl⟩ := hloops
      refine h.move (fun k hk => ?_) (fun task => ?_) callsOf_call
      · cases hk
        exact ⟨_, _, rfl, hk⟩
      · simp [reached, Threads.calls, below_succ, List.countP_singleton]
  | @work k k' n memory memory' next e hwork =>
      obtain ⟨i, epoch, rfl, hi⟩ := hloops
      refine h.move (fun k hk => ?_) (fun task => ?_) (by cases e <;> simp [CallsOf])
      · cases hk
        exact ⟨_, _, rfl, hi⟩
      · cases e <;> simp [reached, Threads.calls]
  | result _ =>
      obtain ⟨i, epoch, rfl, hi⟩ := hloops
      refine h.move (fun k hk => ?_) (fun task => ?_) (by simp [CallsOf])
      · cases hk
        exact .inr ⟨_, _, rfl, hi⟩
      · simp [reached]
  | again hlt =>
      obtain ⟨i, epoch, hn, hi⟩ := hloops.resolve_left (by simp)
      cases hn
      refine h.move (fun k hk => ?_) (fun task => ?_) (by simp [CallsOf])
      · cases hk
        exact ⟨rfl, rfl, hlt, _, rfl⟩
      · simp [reached]
  | @exit t' i epoch memory hge =>
      obtain ⟨_, _, hn, hi⟩ := hloops.resolve_left (by simp)
      cases hn
      obtain rfl : i = t.count := by omega
      refine h.move (fun k hk => ?_) (fun task => ?_) (by simp [CallsOf])
      · cases hk
        exact .inl rfl
      · simp [reached]
  | claim => simp [Errand.Loops] at hloops

theorem serial_invariant (lanes : Nat) :
    Team.Invariant lanes (tasksWork W)
      (fun d _ _ st seg => ∀ t, d.function = .serial → d.model = .tasks t → d.activeLanes = 1 →
        Looping t (st 0) seg)
      (fun d seg => ∀ t, d.function = .serial → d.model = .tasks t → d.activeLanes = 1 →
        EachOnce t.function t.model t.count seg) where
  dispatch _ _ t _ _ _ :=
    { loops := fun k hk => by cases hk
      calls := by simp [reached, below]
      callsOf := by simp [CallsOf] }
  invoke {d epoch memory st seg lane} h hlane hwaiting t hf hm hone := by
    obtain rfl : lane = 0 := by omega
    rw [Function.update_self, hf, hm]
    refine (h t hf hm hone).move (fun k hk => ?_) (fun task => ?_) (by simp [CallsOf])
    · cases hk
      exact .inr ⟨0, epoch, rfl, by omega⟩
    · rw [hwaiting]
      simp [reached, calls, tasksWork]
  work {d epoch memory memory' st seg lane k k' e} h hlane hrunning hwork t hf hm hone := by
    obtain rfl : lane = 0 := by omega
    rw [Function.update_self]
    exact (hrunning ▸ h t hf hm hone).step W hwork
  finish {d epoch memory st seg lane k} h hlane hrunning hfinished t hf hm hone := by
    obtain rfl : lane = 0 := by omega
    obtain rfl : k = .go .done := hfinished
    rw [Function.update_self]
    refine (h t hf hm hone).move (fun k hk => by cases hk) (fun task => ?_) (by simp [CallsOf])
    rw [hrunning]
    simp [reached, calls]
  leave {d epoch memory st seg} h hall t hf hm hone := by
    have := h t hf hm hone
    rw [hall 0 (by omega)] at this
    exact ⟨this.calls, this.callsOf⟩

/-! ## The shared loop -/

/-- A lane of the shared loop. -/
def Errand.Shares (t : Tasks φ α) : Errand φ α κ → Prop
  | .begin f m _ _ n => f = t.function ∧ m = t.model ∧ ∃ epoch, n = .claim t epoch
  | .inside _ n => ∃ epoch, n = .claim t epoch
  | .go n => n = .done ∨ ∃ epoch, n = .claim t epoch

/-- 1 for a lane that has claimed beyond the last task. -/
def stopped (_lane : Nat) : Lane (Errand φ α κ) → Nat
  | .running (.go .done) | .finished => 1
  | _ => 0

theorem stopped_le (lane : Nat) (x : Lane (Errand φ α κ)) : stopped lane x ≤ 1 := by
  unfold stopped
  split <;> omega

/-- `claimed` numbers were taken, those of the lanes among them. Only the lanes
that have stopped took one that is no task, so the counter, which has 32 bits,
has not come to its start again while a lane is left to claim. -/
structure Sharing (t : Tasks φ α) (active claimed next : Nat) (st : Nat → Lane (Errand φ α κ))
    (seg : List (TasksEvent φ α ε)) : Prop where
  next : next = claimed % 2 ^ 32
  claims : claimed ≤ t.count + tally stopped active st
  ended : 0 < tally stopped active st → t.count ≤ claimed
  given : GivenOut (Errand.Shares t) t.function t.model (min claimed t.count) active st seg

namespace Sharing

variable {t : Tasks φ α} {active claimed next lane : Nat} {st : Nat → Lane (Errand φ α κ)}
  {seg es : List (TasksEvent φ α ε)}

theorem start (hle : active ≤ t.count) (hroom : t.count + active ≤ 2 ^ 32) :
    Sharing t active active active (fun _ => (.waiting : Lane (Errand φ α κ)))
      ([] : List (TasksEvent φ α ε)) where
  next := (Nat.mod_eq_of_lt (by omega)).symm
  claims := by omega
  ended h := by simp [tally, stopped] at h
  given := by
    rw [Nat.min_eq_left hle]
    exact .nil

theorem move (h : Sharing t active claimed next st seg) (hlane : lane < active)
    {x : Lane (Errand φ α κ)} (hkind : ∀ k, x = .running k → k.Shares t)
    (hstopped : stopped lane x = stopped lane (st lane))
    (hcalls : ∀ task, es.countP (calls task) + pending task lane x = pending task lane (st lane))
    (hcallsOf : CallsOf t.function t.model es) :
    Sharing t active claimed next (Function.update st lane x) (seg ++ es) := by
  have htally := tally_update stopped st hlane x
  rw [hstopped, Nat.add_right_cancel_iff] at htally
  refine ⟨h.next, htally ▸ h.claims, htally ▸ h.ended, ?_⟩
  exact h.given.move hlane hkind (fun task => by rw [hcalls task]) hcallsOf

/-- While a lane is left to claim, the counter has not wrapped. -/
theorem next_eq (h : Sharing t active claimed next st seg) (hroom : t.count + active ≤ 2 ^ 32)
    (hlane : lane < active) (hleft : stopped lane (st lane) = 0) : next = claimed := by
  have hlt := tally_lt stopped_le hlane hleft
  have := h.claims
  rw [h.next]
  exact Nat.mod_eq_of_lt (by omega)

/-- A lane claims the next number, and stops if that is no task. -/
theorem claim (h : Sharing t active claimed next st seg) (hroom : t.count + active ≤ 2 ^ 32)
    (hlane : lane < active) {epoch : Stamp} (hst : st lane = .running (.go (.claim t epoch))) :
    Sharing t active (claimed + 1) ((next + 1) % 2 ^ 32)
      (Function.update st lane (.running (if t.count ≤ next then .go .done
        else .begin t.function t.model next epoch (.claim t epoch)))) seg := by
  have hleft : stopped lane (st lane) = 0 := by rw [hst]; rfl
  obtain rfl := h.next_eq hroom hlane hleft
  have htally := tally_update stopped st hlane
  have hclaims := h.claims
  have hended := h.ended
  split_ifs with hcount
  · have hstopped := htally (.running (.go .done))
    rw [hleft, show stopped lane (.running (.go .done) : Lane (Errand φ α κ)) = 1 from rfl]
      at hstopped
    refine ⟨rfl, by omega, fun _ => by omega, ?_⟩
    rw [← List.append_nil seg]
    refine h.given.move hlane (fun k hk => ?_) (fun task => ?_) (by simp [CallsOf])
    · cases hk
      exact .inl rfl
    · rw [hst, Nat.min_eq_right hcount, Nat.min_eq_right (by omega)]
      simp [pending]
  · have hstopped := htally (.running (.begin t.function t.model next epoch (.claim t epoch)))
    rw [hleft, show stopped lane (.running (.begin t.function t.model next epoch (.claim t epoch)) :
      Lane (Errand φ α κ)) = 0 from rfl] at hstopped
    refine ⟨rfl, by omega, fun _ => by omega, ?_⟩
    rw [← List.append_nil seg]
    refine h.given.move hlane (fun k hk => ?_) (fun task => ?_) (by simp [CallsOf])
    · cases hk
      exact ⟨rfl, rfl, epoch, rfl⟩
    · rw [hst, Nat.min_eq_left (by omega), Nat.min_eq_left (by omega)]
      show 0 + (if next = task then 1 else 0) + (if task < next then 1 else 0) =
        0 + if task < next + 1 then 1 else 0
      split_ifs <;> omega

theorem eachOnce (h : Sharing t active claimed next st seg) (hpos : 0 < active)
    (hall : ∀ lane, lane < active → st lane = .finished) :
    EachOnce t.function t.model t.count seg := by
  have htally : tally stopped active st = active := by
    rw [tally_finished hall]
    simp [stopped]
  have hended := h.ended (by omega)
  have := h.given.eachOnce hall
  rwa [Nat.min_eq_right hended] at this

end Sharing

theorem shared_invariant (lanes : Nat) :
    Team.Invariant lanes (tasksWork W)
      (fun d _ memory st seg => ∀ t, d.function = .shared → d.model = .tasks t →
        t.next = d.activeLanes → d.activeLanes ≤ t.count → t.count + d.activeLanes ≤ 2 ^ 32 →
        0 < d.activeLanes ∧ ∃ claimed, Sharing t d.activeLanes claimed memory.2 st seg)
      (fun d seg => ∀ t, d.function = .shared → d.model = .tasks t →
        t.next = d.activeLanes → d.activeLanes ≤ t.count → t.count + d.activeLanes ≤ 2 ^ 32 →
        EachOnce t.function t.model t.count seg) where
  dispatch {d epoch} hpos _ t _ hm hnext hle hroom := by
    refine ⟨hpos, d.activeLanes, ?_⟩
    rw [hm, ← hnext]
    exact .start (hnext ▸ hle) (hnext ▸ hroom)
  invoke {d epoch memory st seg lane} h hlane hwaiting t hf hm hnext hle hroom := by
    obtain ⟨hpos, claimed, h⟩ := h t hf hm hnext hle hroom
    refine ⟨hpos, claimed, h.move hlane (fun k hk => ?_) ?_ (fun task => ?_) (by simp [CallsOf])⟩
    · rw [hf, hm] at hk
      cases hk
      exact ⟨rfl, rfl, epoch, rfl⟩
    · rw [hf, hm, hwaiting]
      rfl
    · rw [hf, hm, hwaiting]
      simp [calls, pending, tasksWork]
  work {d epoch memory memory' st seg lane k k' e} h hlane hrunning hwork t hf hm hnext hle hroom := by
    obtain ⟨hpos, claimed, h⟩ := h t hf hm hnext hle hroom
    have hkind := h.given.kind lane k hrunning
    cases hwork with
    | @call f m task epoch n =>
        obtain ⟨rfl, rfl, hn⟩ := hkind
        refine ⟨hpos, claimed, h.move hlane (fun k hk => ?_) ?_ (fun task => ?_) callsOf_call⟩
        · cases hk
          exact hn
        · rw [hrunning]
          rfl
        · rw [hrunning]
          simp [calls, pending, List.countP_singleton]
    | @work k k' n memory memory' next e _ =>
        refine ⟨hpos, claimed, h.move hlane (fun k hk => ?_) ?_ (fun task => ?_) ?_⟩
        · cases hk
          exact hkind
        · rw [hrunning]
          rfl
        · rw [hrunning]
          cases e <;> simp [calls, pending]
        · cases e <;> simp [CallsOf]
    | result _ =>
        refine ⟨hpos, claimed, h.move hlane (fun k hk => ?_) ?_ (fun task => ?_) (by simp [CallsOf])⟩
        · cases hk
          exact .inr hkind
        · obtain ⟨epoch, rfl⟩ := hkind
          rw [hrunning]
          rfl
        · rw [hrunning]
          simp [pending]
    | again _ => simp [Errand.Shares] at hkind
    | exit _ => simp [Errand.Shares] at hkind
    | @claim t' epoch memory next =>
        obtain ⟨_, hn⟩ := hkind.resolve_left (by simp)
        cases hn
        refine ⟨hpos, claimed + 1, ?_⟩
        simpa using h.claim hroom hlane hrunning
  finish {d epoch memory st seg lane k} h hlane hrunning hfinished t hf hm hnext hle hroom := by
    obtain ⟨hpos, claimed, h⟩ := h t hf hm hnext hle hroom
    obtain rfl : k = .go .done := hfinished
    refine ⟨hpos, claimed, h.move hlane (fun k hk => by cases hk) ?_ (fun task => ?_)
      (by simp [CallsOf])⟩
    · rw [hrunning]
      rfl
    · rw [hrunning]
      simp [calls, pending]
  leave {d epoch memory st seg} h hall t hf hm hnext hle hroom := by
    obtain ⟨hpos, claimed, h⟩ := h t hf hm hnext hle hroom
    exact h.eachOnce hpos hall

end

end CppHdl.Threads
