import Mathlib.Data.List.Forall2

/-!
# Machines and simulations

A *machine* takes one input a step, shows an output and moves to its next
state; a step it cannot take is `none`. It is the shape of everything clocked
here: a netlist between two clock edges, two netlists side by side, the
reference model of a pipeline.

What relates two machines is proved of one step and used of whole runs:
`Simulates` and, in both directions, `Bisimulates` are the step conditions,
`Simulates.run` and `Bisimulates.run` the run lemmas.
-/

namespace CppHdl

/-- Related computations go on to related computations. -/
theorem rel_bind {α α' β β' : Type*} {R : α → α' → Prop} {S : β → β' → Prop} {a : Option α}
    {a' : Option α'} {f : α → Option β} {f' : α' → Option β'} (h : Option.Rel R a a')
    (hf : ∀ x y, R x y → Option.Rel S (f x) (f' y)) : Option.Rel S (a.bind f) (a'.bind f') := by
  cases h with
  | none => exact .none
  | some hR => exact hf _ _ hR

theorem rel_map_right {α β γ : Type*} {R : α → β → Prop} {S : α → γ → Prop} {a : Option α}
    {b : Option β} {g : β → γ} (h : Option.Rel R a b) (hg : ∀ x y, R x y → S x (g y)) :
    Option.Rel S a (b.map g) := by
  cases h with
  | none => exact .none
  | some hR => exact .some (hg _ _ hR)

/-- Loops over corresponding elements keep related accumulators. -/
theorem rel_foldlM {α α' β β' : Type*} {R : β → β' → Prop} {F : β → α → Option β}
    {G : β' → α' → Option β'} (m : α' → α) {l : List α'}
    (hstep : ∀ a ∈ l, ∀ x y, R x y → Option.Rel R (F x (m a)) (G y a)) {x : β} {y : β'}
    (h : R x y) : Option.Rel R ((l.map m).foldlM F x) (l.foldlM G y) := by
  induction l generalizing x y with
  | nil => exact .some h
  | cons a l ih =>
      rw [List.map_cons, List.foldlM_cons, List.foldlM_cons]
      exact rel_bind (hstep a List.mem_cons_self x y h) fun x' y' h' =>
        ih (fun b hb => hstep b (List.mem_cons_of_mem _ hb)) h'

/-- Loops over lists of related elements, where only what the first one does
has to be followed. -/
theorem foldlM_along {α α' β β' : Type*} {R : β → β' → Prop} {F : β → α → Option β}
    {G : β' → α' → Option β'} {l : List α} {l' : List α'}
    (h : List.Forall₂ (fun a a' => ∀ x y z, R x y → F x a = some z →
      ∃ z', G y a' = some z' ∧ R z z') l l') {x z : β} {y : β'} (hxy : R x y)
    (hrun : l.foldlM F x = some z) : ∃ z', l'.foldlM G y = some z' ∧ R z z' := by
  induction h generalizing x y with
  | nil =>
      obtain rfl : x = z := by simpa using hrun
      exact ⟨y, rfl, hxy⟩
  | cons ha _ ih =>
      rw [List.foldlM_cons, Option.bind_eq_bind, Option.bind_eq_some_iff] at hrun
      obtain ⟨w, hw, hrest⟩ := hrun
      obtain ⟨w', hw', hR⟩ := ha x y w hxy hw
      obtain ⟨z', hz', hR'⟩ := ih hR hrest
      refine ⟨z', ?_, hR'⟩
      rw [List.foldlM_cons, hw']
      exact hz'

/-- A deterministic machine with partial steps. -/
structure Machine (ι ο σ : Type*) where
  step : ι → σ → Option (ο × σ)

namespace Machine

variable {ι ο σ κ π τ : Type*}

/-- The outputs of a run and the state it ends in. -/
def run (M : Machine ι ο σ) : List ι → σ → Option (List ο × σ)
  | [], s => some ([], s)
  | x :: xs, s => do
      let (o, s') ← M.step x s
      let (os, s'') ← M.run xs s'
      pure (o :: os, s'')

@[simp] theorem run_nil (M : Machine ι ο σ) (s : σ) : M.run [] s = some ([], s) := rfl

theorem run_cons {M : Machine ι ο σ} {x : ι} {xs : List ι} {s s'' : σ} {os : List ο} :
    M.run (x :: xs) s = some (os, s'') ↔ ∃ o os' s', os = o :: os' ∧
      M.step x s = some (o, s') ∧ M.run xs s' = some (os', s'') := by
  simp only [run, Option.bind_eq_bind, Option.bind_eq_some_iff, Option.pure_def,
    Option.some.injEq, Prod.exists, Prod.mk.injEq]
  constructor
  · rintro ⟨o, s', hstep, os', t, hrun, rfl, rfl⟩
    exact ⟨o, os', s', rfl, hstep, hrun⟩
  · rintro ⟨o, os', s', rfl, hstep, hrun⟩
    exact ⟨o, s', hstep, os', s'', hrun, rfl, rfl⟩

theorem run_singleton_shows {M : Machine ι ο σ} {x : ι} {s : σ} {o : ο}
    (h : (M.step x s).map Prod.fst = some o) : (M.run [x] s).map Prod.fst = some [o] := by
  obtain ⟨⟨o', s'⟩, hstep, rfl⟩ := Option.map_eq_some_iff.mp h
  rw [run_cons.mpr ⟨o', [], s', rfl, hstep, rfl⟩]
  rfl

/-- A machine that takes at least the steps of another runs wherever that one
does. -/
theorem run_of_steps {M N : Machine ι ο σ}
    (h : ∀ x s p, M.step x s = some p → N.step x s = some p) {xs : List ι} {s : σ}
    {r : List ο × σ} (hrun : M.run xs s = some r) : N.run xs s = some r := by
  induction xs generalizing s r with
  | nil => exact hrun
  | cons x xs ih =>
      obtain ⟨os, t⟩ := r
      obtain ⟨o, os', s', hos, hstep, hrest⟩ := run_cons.mp hrun
      exact run_cons.mpr ⟨o, os', s', hos, h x s _ hstep, ih hrest⟩

theorem shows_of_steps {M N : Machine ι ο σ} {α : Type*} {f : List ο → α}
    (h : ∀ x s p, M.step x s = some p → N.step x s = some p) {xs : List ι} {s : σ} {a : α}
    (hrun : (M.run xs s).map (fun r => f r.1) = some a) :
    (N.run xs s).map (fun r => f r.1) = some a := by
  obtain ⟨r, hr, rfl⟩ := Option.map_eq_some_iff.mp hrun
  rw [run_of_steps h hr]
  rfl

/-- Every step `M` takes, `N` takes too, with related inputs and outputs and
between related states. -/
def Simulates (M : Machine ι ο σ) (N : Machine κ π τ) (I : ι → κ → Prop) (O : ο → π → Prop)
    (R : σ → τ → Prop) : Prop :=
  ∀ ⦃x y s t o s'⦄, I x y → R s t → M.step x s = some (o, s') →
    ∃ p t', N.step y t = some (p, t') ∧ O o p ∧ R s' t'

namespace Simulates

variable {M : Machine ι ο σ} {N : Machine κ π τ} {I : ι → κ → Prop} {O : ο → π → Prop}
  {R : σ → τ → Prop}

/-- A simulated machine follows whole runs. -/
theorem run (h : Simulates M N I O R) {xs : List ι} {ys : List κ} {s s' : σ} {t : τ}
    {os : List ο} (hI : List.Forall₂ I xs ys) (hR : R s t) (hrun : M.run xs s = some (os, s')) :
    ∃ ps t', N.run ys t = some (ps, t') ∧ List.Forall₂ O os ps ∧ R s' t' := by
  induction hI generalizing s t os with
  | nil =>
      simp only [run_nil, Option.some.injEq, Prod.mk.injEq] at hrun
      obtain ⟨rfl, rfl⟩ := hrun
      exact ⟨[], t, rfl, .nil, hR⟩
  | cons hxy _ ih =>
      obtain ⟨o, os', u, rfl, hstep, hrest⟩ := run_cons.mp hrun
      obtain ⟨p, t', hstep', hO, hR'⟩ := h hxy hR hstep
      obtain ⟨ps, t'', hrest', hOs, hR''⟩ := ih hR' hrest
      exact ⟨p :: ps, t'', run_cons.mpr ⟨p, ps, t', rfl, hstep', hrest'⟩, .cons hO hOs, hR''⟩

end Simulates

/-- Both machines take every step the other takes, with related outputs and
between related states. -/
def Bisimulates (M : Machine ι ο σ) (N : Machine κ π τ) (I : ι → κ → Prop) (O : ο → π → Prop)
    (R : σ → τ → Prop) : Prop :=
  ∀ ⦃x y s t⦄, I x y → R s t →
    Option.Rel (fun p q => O p.1 q.1 ∧ R p.2 q.2) (M.step x s) (N.step y t)

theorem Bisimulates.run {M : Machine ι ο σ} {N : Machine κ π τ} {I : ι → κ → Prop}
    {O : ο → π → Prop} {R : σ → τ → Prop} (h : Bisimulates M N I O R) {xs : List ι} {ys : List κ}
    {s : σ} {t : τ} (hI : List.Forall₂ I xs ys) (hR : R s t) :
    Option.Rel (fun p q => List.Forall₂ O p.1 q.1 ∧ R p.2 q.2) (M.run xs s) (N.run ys t) := by
  induction hI generalizing s t with
  | nil => exact .some ⟨.nil, hR⟩
  | cons hxy _ ih =>
      simp only [Machine.run, Option.bind_eq_bind, Option.pure_def]
      refine rel_bind (h hxy hR) fun p q hpq => rel_bind (ih hpq.2) fun ps qs hrest => ?_
      exact .some ⟨.cons hpq.1 hrest.1, hrest.2⟩

end Machine

end CppHdl
