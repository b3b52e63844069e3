import Mathlib.Data.List.Basic
import Mathlib.Order.Basic

/-!
# Partial systems and their least solution

A *partial system* assigns to every point a partial value computed from the
partial values of finitely many other points. It is the shape of every
evaluator in this development: a bit of a netlist reads the bits its producer
reads, and has a value once those have one.

The least solution `S.value` is the limit of the iterates of the step, which
stay executable (`S.iterate`). Four facts carry every later argument:

* `value_unfold` — the least solution solves the system;
* `value_least` — it lies below every assignment that the step does not extend;
* `value_of_iterate` — a finite computation already determines it;
* `value_along` — corresponding systems have corresponding solutions.
-/

namespace CppHdl

/-- The second computation has the value of the first, where that has one. -/
def Refines {β : Type*} (o o' : Option β) : Prop := ∀ v, o = some v → o' = some v

namespace Refines

variable {β γ : Type*}

theorem refl (o : Option β) : Refines o o := fun _ h => h

theorem bind {o o' : Option β} {f f' : β → Option γ} (h : Refines o o')
    (hf : ∀ x, Refines (f x) (f' x)) : Refines (o.bind f) (o'.bind f') := by
  intro v hv
  obtain ⟨x, hx, hv⟩ := Option.bind_eq_some_iff.mp hv
  exact Option.bind_eq_some_iff.mpr ⟨x, h x hx, hf x v hv⟩

theorem map {o o' : Option β} (h : Refines o o') (f : β → γ) :
    Refines (o.map f) (o'.map f) := by
  intro v hv
  obtain ⟨x, hx, hv⟩ := Option.map_eq_some_iff.mp hv
  exact Option.map_eq_some_iff.mpr ⟨x, h x hx, hv⟩

theorem foldlM {α : Type*} {f f' : β → α → Option β} (h : ∀ b a, Refines (f b a) (f' b a))
    (l : List α) (b : β) : Refines (l.foldlM f b) (l.foldlM f' b) := by
  induction l generalizing b with
  | nil => exact refl _
  | cons a l ih =>
      rw [List.foldlM_cons, List.foldlM_cons]
      exact (h b a).bind ih

end Refines

/-- `Below f g`: every value `f` has, `g` has too. -/
def Below {α β : Type*} (f g : α → Option β) : Prop :=
  ∀ a v, f a = some v → g a = some v

namespace Below

variable {α β : Type*} {f g h : α → Option β}

theorem refl (f : α → Option β) : Below f f := fun _ _ hv => hv

theorem trans (hfg : Below f g) (hgh : Below g h) : Below f h :=
  fun a v hv => hgh a v (hfg a v hv)

/-- Defined operands keep their values, pointwise over a list. -/
theorem mapM (hfg : Below f g) {l : List α} {vs : List β}
    (hl : l.mapM f = some vs) : l.mapM g = some vs := by
  induction l generalizing vs with
  | nil => simpa using hl
  | cons a rest ih =>
      simp only [List.mapM_cons, Option.pure_def, Option.bind_eq_bind,
        Option.bind_eq_some_iff, Option.some.injEq] at hl ⊢
      obtain ⟨v, hv, ws, hws, rfl⟩ := hl
      exact ⟨v, hfg a v hv, ws, ih hws, rfl⟩

end Below

/-- A system of partial definitions: `step look a` defines `a` from the values
`look` has at the finitely many points `deps a`. -/
structure PartialSystem (α β : Type*) where
  step : (α → Option β) → α → Option β
  deps : α → List α
  /-- The definition of a point reads nothing but its dependencies. -/
  local_step : ∀ f g a, (∀ x ∈ deps a, f x = g x) → step f a = step g a
  /-- More defined operands never withdraw a value. -/
  mono_step : ∀ f g, Below f g → Below (step f) (step g)

namespace PartialSystem

variable {α β : Type*}

/-- `n` rounds of the step from the nowhere defined assignment. -/
def iterate (S : PartialSystem α β) : Nat → α → Option β
  | 0 => fun _ => none
  | n + 1 => S.step (S.iterate n)

variable (S : PartialSystem α β)

theorem iterate_le_succ (n : Nat) : Below (S.iterate n) (S.iterate (n + 1)) := by
  induction n with
  | zero => intro a v hv; simp [iterate] at hv
  | succ n ih => exact S.mono_step _ _ ih

theorem iterate_mono {m n : Nat} (h : m ≤ n) : Below (S.iterate m) (S.iterate n) := by
  induction h with
  | refl => exact Below.refl _
  | step _ ih => exact ih.trans (S.iterate_le_succ _)

open Classical in
/-- The least solution: the value some iterate reaches, if one does. -/
noncomputable def value (a : α) : Option β :=
  if h : ∃ v n, S.iterate n a = some v then some h.choose else none

/-- Iterates never disagree, so the limit has exactly their values. -/
theorem value_eq_some_iff {a : α} {v : β} :
    S.value a = some v ↔ ∃ n, S.iterate n a = some v := by
  unfold value
  constructor
  · intro hv
    split at hv
    · rename_i h
      obtain ⟨n, hn⟩ := h.choose_spec
      exact ⟨n, by rw [hn]; exact hv⟩
    · simp at hv
  · rintro ⟨n, hn⟩
    have h : ∃ v n, S.iterate n a = some v := ⟨v, n, hn⟩
    rw [dif_pos h]
    obtain ⟨m, hm⟩ := h.choose_spec
    have hm' := S.iterate_mono (Nat.le_max_left m n) a _ hm
    have hn' := S.iterate_mono (Nat.le_max_right m n) a _ hn
    rw [← hm', hn']

theorem value_of_iterate {n : Nat} {a : α} {v : β} (h : S.iterate n a = some v) :
    S.value a = some v := S.value_eq_some_iff.mpr ⟨n, h⟩

/-- On finitely many points some iterate has already reached the limit. -/
theorem exists_iterate_eq (l : List α) : ∃ n, ∀ x ∈ l, S.iterate n x = S.value x := by
  induction l with
  | nil => exact ⟨0, by simp⟩
  | cons a rest ih =>
      obtain ⟨n, hn⟩ := ih
      cases ha : S.value a with
      | none =>
          refine ⟨n, ?_⟩
          intro x hx
          rcases List.mem_cons.mp hx with rfl | hx
          · cases hi : S.iterate n x with
            | none => rw [ha]
            | some v => rw [S.value_of_iterate hi] at ha; cases ha
          · exact hn x hx
      | some v =>
          obtain ⟨m, hm⟩ := S.value_eq_some_iff.mp ha
          refine ⟨max m n, ?_⟩
          intro x hx
          rcases List.mem_cons.mp hx with rfl | hx
          · rw [ha]
            exact S.iterate_mono (Nat.le_max_left m n) _ _ hm
          · rw [← hn x hx]
            cases hi : S.iterate n x with
            | some w => exact S.iterate_mono (Nat.le_max_right m n) _ _ hi
            | none =>
                cases hj : S.iterate (max m n) x with
                | none => rfl
                | some w =>
                    have hw := S.value_of_iterate hj
                    rw [← hn x hx, hi] at hw
                    cases hw

/-- The limit solves the system. -/
theorem value_unfold (a : α) : S.value a = S.step S.value a := by
  obtain ⟨n, hn⟩ := S.exists_iterate_eq (S.deps a)
  have hstep : S.iterate (n + 1) a = S.step S.value a :=
    S.local_step _ _ a hn
  cases hv : S.step S.value a with
  | some v => exact S.value_of_iterate (by rw [hstep, hv])
  | none =>
      cases hw : S.value a with
      | none => rfl
      | some w =>
          obtain ⟨m, hm⟩ := S.value_eq_some_iff.mp hw
          -- a later iterate agrees with round `n + 1`, which is undefined here
          have hle : Below (S.iterate m) S.value := fun x u hx => S.value_of_iterate hx
          have hsucc := S.iterate_le_succ m a w hm
          have := S.mono_step _ _ hle a w hsucc
          rw [hv] at this
          cases this

/-- The limit lies below every assignment closed under the step. -/
theorem value_least {f : α → Option β} (hf : Below (S.step f) f) : Below S.value f := by
  have hiter : ∀ n, Below (S.iterate n) f := by
    intro n
    induction n with
    | zero => intro a v hv; simp [iterate] at hv
    | succ n ih => exact (S.mono_step _ _ ih).trans hf
  intro a v hv
  obtain ⟨n, hn⟩ := S.value_eq_some_iff.mp hv
  exact hiter n a v hn

/-- Two systems whose steps keep a relation between their assignments have the
same limit at points the relation identifies. -/
theorem value_along {γ : Type*} (T : PartialSystem γ β)
    (R : (α → Option β) → (γ → Option β) → Prop) (hnone : R (fun _ => none) fun _ => none)
    (hstep : ∀ f f', R f f' → R (S.step f) (T.step f')) {a : α} {c : γ}
    (hac : ∀ f f', R f f' → f' c = f a) : T.value c = S.value a := by
  have hiter : ∀ n, R (S.iterate n) (T.iterate n) := by
    intro n
    induction n with
    | zero => exact hnone
    | succ n ih => exact hstep _ _ ih
  ext v
  rw [T.value_eq_some_iff, S.value_eq_some_iff]
  exact exists_congr fun n => by rw [hac _ _ (hiter n)]

end PartialSystem

end CppHdl
