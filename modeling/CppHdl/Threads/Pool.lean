import Mathlib.Logic.Function.Basic
import CppHdl.Lib.Transition

/-!
# The lane thread pool

The executor of `cpphdl_graph_threads.h`, one atomic operation a step. Lane 0
is the caller that holds the mutex; lanes 1 and up are persistent workers, each
with a command and a completion stamp of 32 bits. `run` stores the function and
its argument, counts the epoch, increments the command of every active lane,
works itself, and then waits until the completion stamp of every active lane
is its command. A worker compares its command with the last one it saw.

What the functions do is a parameter (`Work`): they take steps of their own on
memory that belongs to the dispatch, interleaved with everything else. The
continuation of a `run` touches nothing of the pool and is a silent step; so is
an exception from it, which is rethrown only after the join. The slots of
`wait` and `complete` are used by the functions alone.
-/

namespace CppHdl.Threads

/-- `uint32_t`: epochs, commands and completions wrap. -/
abbrev Stamp := BitVec 32

structure Dispatch (φ α : Type) where
  function : φ
  model : α
  activeLanes : Nat

/-- What the functions of type `φ` on arguments of type `α` do. A lane that was
invoked is in a state of type `κ`; `μ` is the memory a dispatch brings along. -/
structure Work (φ α κ μ ε : Type) where
  memory : α → μ
  start : φ → α → Nat → Stamp → κ
  step : κ → μ → Option ε → κ → μ → Prop
  finished : κ → Prop

inductive Event (φ α ε : Type)
  /-- `run` throws: no lane, or more than there are. -/
  | refused (d : Dispatch φ α)
  /-- `run` has taken the mutex. -/
  | dispatched (d : Dispatch φ α)
  | invoked (lane : Nat) (function : φ) (model : α) (epoch : Stamp)
  /-- A step of an invoked function that it wants to be seen. -/
  | worked (lane : Nat) (event : ε)
  /-- The function returns on a lane. -/
  | finished (lane : Nat)
  /-- `run` returns, or rethrows what its continuation threw. -/
  | returned

/-- Where the thread that holds the mutex is in `run`, or in the destructor. -/
inductive Caller (φ α κ : Type)
  | idle
  | storeModel (d : Dispatch φ α)
  | storeFunction (d : Dispatch φ α)
  | countEpoch (d : Dispatch φ α)
  /-- The loop that issues commands, at `lane`. -/
  | issue (d : Dispatch φ α) (epoch : Stamp) (lane : Nat)
  | notify (d : Dispatch φ α) (epoch : Stamp) (lane : Nat)
  | invoke (d : Dispatch φ α) (epoch : Stamp)
  | running (d : Dispatch φ α) (k : κ)
  | continuing (d : Dispatch φ α)
  /-- The loop that joins the workers, at `lane`. -/
  | target (d : Dispatch φ α) (lane : Nat)
  | waiting (d : Dispatch φ α) (lane : Nat) (command : Stamp) (spins : Nat)
  | parked (d : Dispatch φ α) (lane : Nat) (command observed : Stamp)
  | stopping (lane : Nat)
  | notifyStop (lane : Nat)
  | joining
  | destroyed

inductive Worker (φ α κ : Type)
  /-- At the top, with the last command it saw. -/
  | poll (seen : Stamp)
  | spin (seen : Stamp) (spins : Nat)
  | parked (seen : Stamp)
  | reload (seen : Stamp) (spins : Nat)
  | checkStop (command : Stamp)
  /-- Reading the arguments of `invoke`. -/
  | readFunction (command : Stamp)
  | readModel (command : Stamp) (function : φ)
  | readEpoch (command : Stamp) (function : φ) (model : α)
  | enter (command : Stamp) (function : φ) (model : α) (epoch : Stamp)
  | running (command : Stamp) (k : κ)
  | complete (command : Stamp)
  | notify (command : Stamp)
  | exited

structure Pool (φ α κ μ : Type) where
  model : α
  function : φ
  epoch : Stamp
  command : Nat → Stamp
  completed : Nat → Stamp
  stopping : Bool
  caller : Caller φ α κ
  worker : Nat → Worker φ α κ
  /-- The memory of the dispatch. -/
  memory : μ

section

variable {φ α κ μ ε : Type} (lanes spinLimit : Nat) (W : Work φ α κ μ ε)

/-- A new pool; the workers have seen nothing, and nobody reads the function,
its argument or the memory before a dispatch stores them. -/
structure Pool.Fresh (s : Pool φ α κ μ) : Prop where
  epoch : s.epoch = 0
  command : ∀ lane, s.command lane = 0
  completed : ∀ lane, s.completed lane = 0
  stopping : s.stopping = false
  caller : s.caller = .idle
  worker : ∀ lane, s.worker lane = .poll 0

/-- Increment a command; `fetch_add` wraps. -/
def Pool.issue (s : Pool φ α κ μ) (lane : Nat) : Nat → Stamp :=
  Function.update s.command lane (s.command lane + 1)

/-- The steps of `run`, from any thread, and of the destructor. -/
inductive CallerStep : Pool φ α κ μ → Option (Event φ α ε) → Pool φ α κ μ → Prop
  | refuse {s : Pool φ α κ μ} (d : Dispatch φ α) :
      s.caller = .idle → d.activeLanes = 0 ∨ lanes < d.activeLanes →
      CallerStep s (some (.refused d)) s
  | lock {s : Pool φ α κ μ} (d : Dispatch φ α) :
      s.caller = .idle → 0 < d.activeLanes → d.activeLanes ≤ lanes →
      CallerStep s (some (.dispatched d))
        { s with caller := .storeModel d, memory := W.memory d.model }
  | storeModel {s : Pool φ α κ μ} {d : Dispatch φ α} :
      s.caller = .storeModel d →
      CallerStep s none { s with caller := .storeFunction d, model := d.model }
  | storeFunction {s : Pool φ α κ μ} {d : Dispatch φ α} :
      s.caller = .storeFunction d →
      CallerStep s none { s with caller := .countEpoch d, function := d.function }
  | countEpoch {s : Pool φ α κ μ} {d : Dispatch φ α} :
      s.caller = .countEpoch d →
      CallerStep s none { s with caller := .issue d (s.epoch + 1) 1, epoch := s.epoch + 1 }
  | issue {s : Pool φ α κ μ} {d : Dispatch φ α} {epoch : Stamp} {lane : Nat} :
      s.caller = .issue d epoch lane → lane < d.activeLanes →
      CallerStep s none { s with caller := .notify d epoch lane, command := s.issue lane }
  | notify {s : Pool φ α κ μ} {d : Dispatch φ α} {epoch : Stamp} {lane : Nat} :
      s.caller = .notify d epoch lane →
      CallerStep s none { s with caller := .issue d epoch (lane + 1) }
  | issued {s : Pool φ α κ μ} {d : Dispatch φ α} {epoch : Stamp} {lane : Nat} :
      s.caller = .issue d epoch lane → ¬ lane < d.activeLanes →
      CallerStep s none { s with caller := .invoke d epoch }
  | invoke {s : Pool φ α κ μ} {d : Dispatch φ α} {epoch : Stamp} :
      s.caller = .invoke d epoch →
      CallerStep s (some (.invoked 0 d.function d.model epoch))
        { s with caller := .running d (W.start d.function d.model 0 epoch) }
  | work {s : Pool φ α κ μ} {d : Dispatch φ α} {k k' : κ} {e : Option ε} {memory : μ} :
      s.caller = .running d k → W.step k s.memory e k' memory →
      CallerStep s (e.map (.worked 0)) { s with caller := .running d k', memory }
  | finish {s : Pool φ α κ μ} {d : Dispatch φ α} {k : κ} :
      s.caller = .running d k → W.finished k →
      CallerStep s (some (.finished 0)) { s with caller := .continuing d }
  | continued {s : Pool φ α κ μ} {d : Dispatch φ α} :
      s.caller = .continuing d → CallerStep s none { s with caller := .target d 1 }
  | target {s : Pool φ α κ μ} {d : Dispatch φ α} {lane : Nat} :
      s.caller = .target d lane → lane < d.activeLanes →
      CallerStep s none { s with caller := .waiting d lane (s.command lane) 0 }
  | joined {s : Pool φ α κ μ} {d : Dispatch φ α} {lane : Nat} {command : Stamp} {spins : Nat} :
      s.caller = .waiting d lane command spins → s.completed lane = command →
      CallerStep s none { s with caller := .target d (lane + 1) }
  | spin {s : Pool φ α κ μ} {d : Dispatch φ α} {lane : Nat} {command : Stamp} {spins : Nat} :
      s.caller = .waiting d lane command spins → s.completed lane ≠ command →
      spins + 1 < spinLimit →
      CallerStep s none { s with caller := .waiting d lane command (spins + 1) }
  | park {s : Pool φ α κ μ} {d : Dispatch φ α} {lane : Nat} {command : Stamp} {spins : Nat} :
      s.caller = .waiting d lane command spins → s.completed lane ≠ command →
      ¬ spins + 1 < spinLimit →
      CallerStep s none { s with caller := .parked d lane command (s.completed lane) }
  | wake {s : Pool φ α κ μ} {d : Dispatch φ α} {lane : Nat} {command observed : Stamp} :
      s.caller = .parked d lane command observed → s.completed lane ≠ observed →
      CallerStep s none { s with caller := .waiting d lane command 0 }
  | leave {s : Pool φ α κ μ} {d : Dispatch φ α} {lane : Nat} :
      s.caller = .target d lane → ¬ lane < d.activeLanes →
      CallerStep s (some .returned) { s with caller := .idle }
  | stop {s : Pool φ α κ μ} :
      s.caller = .idle → CallerStep s none { s with caller := .stopping 1, stopping := true }
  | issueStop {s : Pool φ α κ μ} {lane : Nat} :
      s.caller = .stopping lane → lane < lanes →
      CallerStep s none { s with caller := .notifyStop lane, command := s.issue lane }
  | notifyStop {s : Pool φ α κ μ} {lane : Nat} :
      s.caller = .notifyStop lane → CallerStep s none { s with caller := .stopping (lane + 1) }
  | stopped {s : Pool φ α κ μ} {lane : Nat} :
      s.caller = .stopping lane → ¬ lane < lanes →
      CallerStep s none { s with caller := .joining }
  | destroy {s : Pool φ α κ μ} :
      s.caller = .joining → (∀ lane, 0 < lane → lane < lanes → s.worker lane = .exited) →
      CallerStep s none { s with caller := .destroyed }

/-- The steps in which a worker only reads what is shared. -/
inductive WorkerMove (s : Pool φ α κ μ) (lane : Nat) : Worker φ α κ → Worker φ α κ → Prop
  | seen {seen : Stamp} : s.command lane = seen → WorkerMove s lane (.poll seen) (.spin seen 0)
  | fresh {seen : Stamp} : s.command lane ≠ seen →
      WorkerMove s lane (.poll seen) (.checkStop (s.command lane))
  | pause {seen : Stamp} {spins : Nat} : spins + 1 < spinLimit →
      WorkerMove s lane (.spin seen spins) (.reload seen (spins + 1))
  | park {seen : Stamp} {spins : Nat} : ¬ spins + 1 < spinLimit →
      WorkerMove s lane (.spin seen spins) (.parked seen)
  | wake {seen : Stamp} : s.command lane ≠ seen →
      WorkerMove s lane (.parked seen) (.reload seen 0)
  | again {seen : Stamp} {spins : Nat} : s.command lane = seen →
      WorkerMove s lane (.reload seen spins) (.spin seen spins)
  | awake {seen : Stamp} {spins : Nat} : s.command lane ≠ seen →
      WorkerMove s lane (.reload seen spins) (.checkStop (s.command lane))
  | exit {command : Stamp} : s.stopping = true → WorkerMove s lane (.checkStop command) .exited
  | goOn {command : Stamp} : s.stopping = false →
      WorkerMove s lane (.checkStop command) (.readFunction command)
  | readFunction {command : Stamp} :
      WorkerMove s lane (.readFunction command) (.readModel command s.function)
  | readModel {command : Stamp} {function : φ} :
      WorkerMove s lane (.readModel command function) (.readEpoch command function s.model)
  | readEpoch {command : Stamp} {function : φ} {model : α} :
      WorkerMove s lane (.readEpoch command function model) (.enter command function model s.epoch)
  | notify {command : Stamp} : WorkerMove s lane (.notify command) (.poll command)

inductive WorkerStep (lane : Nat) :
    Pool φ α κ μ → Option (Event φ α ε) → Pool φ α κ μ → Prop
  | move {s : Pool φ α κ μ} {w : Worker φ α κ} :
      WorkerMove spinLimit s lane (s.worker lane) w →
      WorkerStep lane s none { s with worker := Function.update s.worker lane w }
  | invoke {s : Pool φ α κ μ} {command epoch : Stamp} {function : φ} {model : α} :
      s.worker lane = .enter command function model epoch →
      WorkerStep lane s (some (.invoked lane function model epoch))
        { s with worker := Function.update s.worker lane
                  (.running command (W.start function model lane epoch)) }
  | work {s : Pool φ α κ μ} {command : Stamp} {k k' : κ} {e : Option ε} {memory : μ} :
      s.worker lane = .running command k → W.step k s.memory e k' memory →
      WorkerStep lane s (e.map (.worked lane))
        { s with worker := Function.update s.worker lane (.running command k'), memory }
  | finish {s : Pool φ α κ μ} {command : Stamp} {k : κ} :
      s.worker lane = .running command k → W.finished k →
      WorkerStep lane s (some (.finished lane))
        { s with worker := Function.update s.worker lane (.complete command) }
  | complete {s : Pool φ α κ μ} {command : Stamp} :
      s.worker lane = .complete command →
      WorkerStep lane s none
        { s with
          worker := Function.update s.worker lane (.notify command)
          completed := Function.update s.completed lane command }

/-- The pool: the caller and all workers, in any order. -/
def pool : Transitions (Pool φ α κ μ) (Event φ α ε) where
  init := Pool.Fresh
  step s e s' := CallerStep lanes spinLimit W s e s' ∨
    ∃ lane, 0 < lane ∧ lane < lanes ∧ WorkerStep spinLimit W lane s e s'

end

end CppHdl.Threads
