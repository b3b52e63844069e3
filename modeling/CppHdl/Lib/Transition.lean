import Mathlib.Data.List.Basic

/-!
# Systems of interleaved steps

A *transition system* takes one atomic step at a time; which step is next is
not determined, and a step shows an event or nothing. Threads that share memory
are such a system, with the steps of all threads in one relation.

`Run.invariant` carries what every step keeps to every run, and a `Simulation`
carries the traces of a detailed system to an abstract one that may stand still
where the detailed one works silently.
-/

namespace CppHdl

/-- Steps with an optional event. -/
structure Transitions (σ ε : Type*) where
  init : σ → Prop
  step : σ → Option ε → σ → Prop

namespace Transitions

variable {σ τ ε : Type*}

/-- Finitely many steps and the events they show. -/
inductive Run (T : Transitions σ ε) : σ → List ε → σ → Prop
  | refl (s : σ) : Run T s [] s
  | snoc {s t u : σ} {es : List ε} {e : Option ε} :
      Run T s es t → T.step t e u → Run T s (es ++ e.toList) u

namespace Run

variable {T : Transitions σ ε}

theorem silent {s t u : σ} {es : List ε} (h : Run T s es t) (hstep : T.step t none u) :
    Run T s es u := by
  have := h.snoc hstep
  rwa [Option.toList_none, List.append_nil] at this

theorem shows {s t u : σ} {es : List ε} {e : ε} (h : Run T s es t) (hstep : T.step t (some e) u) :
    Run T s (es ++ [e]) u := h.snoc hstep

theorem trans {s t u : σ} {es es' : List ε} (h : Run T s es t) (h' : Run T t es' u) :
    Run T s (es ++ es') u := by
  induction h' with
  | refl => rwa [List.append_nil]
  | snoc _ hstep ih =>
      rw [← List.append_assoc]
      exact ih.snoc hstep

/-- What holds at first and is kept by every step holds after every run. It may
speak of the events so far. -/
theorem invariant (Inv : List ε → σ → Prop) {s t : σ} {es : List ε} (h : Run T s es t)
    (h₀ : Inv [] s)
    (hstep : ∀ es t e u, Inv es t → T.step t e u → Inv (es ++ e.toList) u) : Inv es t := by
  induction h with
  | refl => exact h₀
  | snoc _ hlast ih => exact hstep _ _ _ _ ih hlast

end Run

/-- The events of a list are allowed one after another. -/
def Along (ok : σ → ε → Prop) (next : σ → ε → σ) : σ → List ε → Prop
  | _, [] => True
  | s, e :: es => ok s e ∧ Along ok next (next s e) es

instance Along.decidable {ok : σ → ε → Prop} {next : σ → ε → σ} [∀ s e, Decidable (ok s e)] :
    ∀ (s : σ) (es : List ε), Decidable (Along ok next s es)
  | _, [] => inferInstanceAs (Decidable True)
  | s, e :: es =>
      have : Decidable (Along ok next (next s e) es) := Along.decidable _ es
      inferInstanceAs (Decidable (ok s e ∧ _))

/-- Where every event has one step, a list of them is a run. -/
theorem Run.of_along {T : Transitions σ ε} {ok : σ → ε → Prop} {next : σ → ε → σ}
    (hstep : ∀ s e, ok s e → T.step s (some e) (next s e)) {s : σ} {es : List ε}
    (h : Along ok next s es) : Run T s es (es.foldl next s) := by
  induction es generalizing s with
  | nil => exact .refl s
  | cons e es ih =>
      have hone : Run T s [e] (next s e) := (Run.refl s).shows (hstep s e h.1)
      exact hone.trans (ih h.2)

def eventsAlong {ι : Type*} (event : σ → ι → ε) (next : σ → ι → σ) : σ → List ι → List ε
  | _, [] => []
  | s, i :: is => event s i :: eventsAlong event next (next s i) is

/-- Where an input has one step and one event, a list of inputs is a run. -/
theorem Run.of_inputs {ι : Type*} {T : Transitions σ ε} {ok : σ → ι → Prop} {event : σ → ι → ε}
    {next : σ → ι → σ} (hstep : ∀ s i, ok s i → T.step s (some (event s i)) (next s i)) {s : σ}
    {is : List ι} (h : Along ok next s is) :
    Run T s (eventsAlong event next s is) (is.foldl next s) := by
  induction is generalizing s with
  | nil => exact .refl s
  | cons i is ih =>
      have hone : Run T s [event s i] (next s i) := (Run.refl s).shows (hstep s i h.1)
      exact hone.trans (ih h.2)

/-- The events of a run from an initial state. -/
def Traces (T : Transitions σ ε) (es : List ε) (s : σ) : Prop := ∃ s₀, T.init s₀ ∧ Run T s₀ es s

/-- Every state of `T` has a state of `U` that can do the same, except that `U`
may stand still at a silent step. -/
structure Simulation (T : Transitions σ ε) (U : Transitions τ ε) where
  rel : σ → τ → Prop
  init : ∀ s, T.init s → ∃ a, U.init a ∧ rel s a
  step : ∀ s a e s', rel s a → T.step s e s' →
    ∃ a', (U.step a e a' ∨ e = none ∧ a' = a) ∧ rel s' a'

/-- A simulated system has the traces of the abstract one only. -/
theorem Simulation.traces {T : Transitions σ ε} {U : Transitions τ ε} (S : Simulation T U)
    {es : List ε} {s : σ} (h : T.Traces es s) : ∃ a, U.Traces es a ∧ S.rel s a := by
  obtain ⟨s₀, hinit, hrun⟩ := h
  obtain ⟨a₀, hinit', hrel⟩ := S.init s₀ hinit
  have key : ∃ a, Run U a₀ es a ∧ S.rel s a := by
    refine hrun.invariant (fun es s => ∃ a, Run U a₀ es a ∧ S.rel s a)
      ⟨a₀, .refl a₀, hrel⟩ ?_
    rintro es t e u ⟨a, hrun', hrel⟩ hstep
    obtain ⟨a', hmove, hrel'⟩ := S.step t a e u hrel hstep
    refine ⟨a', ?_, hrel'⟩
    rcases hmove with hmove | ⟨rfl, rfl⟩
    · exact hrun'.snoc hmove
    · rwa [Option.toList_none, List.append_nil]
  obtain ⟨a, hrun', hrel'⟩ := key
  exact ⟨a, ⟨a₀, hinit', hrun'⟩, hrel'⟩

end Transitions

end CppHdl
