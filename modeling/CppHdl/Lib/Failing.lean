import Mathlib.Data.List.Basic

/-!
# Programs that throw and keep their state

`Failing ε σ` is the reading of an imperative method: it changes a state and
may throw, and a throw keeps the changes made before it. `EStateM` is exactly
that; this file adds how the successful runs of a composed program split
(`ok_bind` and the simp set around it) and one program logic.

The logic is for programs that only *add constraints*. A state constrains a
set of worlds (for a netlist: the valuations that respect its gates), a step
leads to a state whose worlds are among the worlds before, and a result is
specified by what holds of it in every world of the final state. Facts about
intermediate results therefore survive to the end of the program, and
specifications compose without frame conditions.
-/

namespace CppHdl

/-- A method on a state `σ` that may throw `ε`; the state survives a throw. -/
abbrev Failing (ε σ α : Type) := EStateM ε σ α

namespace Failing

variable {ε σ α β : Type}

/-! ## Runs -/

theorem bind_apply (m : Failing ε σ α) (f : α → Failing ε σ β) (s : σ) :
    (m >>= f) s = match m s with
      | .ok a s' => f a s'
      | .error e s' => .error e s' := by
  change EStateM.bind m f s = _
  unfold EStateM.bind
  cases m s <;> rfl

theorem get_apply (s : σ) : (get : Failing ε σ σ) s = .ok s s := rfl

/-! ## Successful runs -/

/-- `m` run from `s` returns `a` in state `s'`. -/
def Ok (m : Failing ε σ α) (s : σ) (a : α) (s' : σ) : Prop := m s = .ok a s'

/-- The state a run leaves, whether it returns or throws. -/
def after (m : Failing ε σ α) (s : σ) : σ :=
  match m s with
  | .ok _ s' => s'
  | .error _ s' => s'

/-- Whether a run returns. -/
def returns (m : Failing ε σ α) (s : σ) : Bool :=
  match m s with
  | .ok _ _ => true
  | .error _ _ => false

theorem ok_after {m : Failing ε σ Unit} {s : σ} (h : returns m s = true) :
    Ok m s () (after m s) := by
  unfold returns at h
  unfold Ok after
  cases hm : m s with
  | ok a s' => rfl
  | error e s' => rw [hm] at h; cases h

@[simp] theorem ok_pure {a b : α} {s s' : σ} :
    Ok (pure a : Failing ε σ α) s b s' ↔ a = b ∧ s = s' := by
  change EStateM.Result.ok a s = _ ↔ _
  simp

@[simp] theorem ok_throw {e : ε} {s s' : σ} {a : α} :
    Ok (throw e : Failing ε σ α) s a s' ↔ False := by
  change EStateM.Result.error e s = _ ↔ _
  simp

@[simp] theorem ok_set {s t s' : σ} {u : PUnit} :
    Ok (set t : Failing ε σ PUnit) s u s' ↔ s' = t := by
  change EStateM.Result.ok PUnit.unit t = _ ↔ _
  simp only [EStateM.Result.ok.injEq]
  exact ⟨fun h => h.2.symm, fun h => ⟨trivial, h.symm⟩⟩

@[simp] theorem ok_modify {f : σ → σ} {s s' : σ} {u : PUnit} :
    Ok (modify f : Failing ε σ PUnit) s u s' ↔ s' = f s := by
  change EStateM.Result.ok PUnit.unit (f s) = _ ↔ _
  simp only [EStateM.Result.ok.injEq]
  exact ⟨fun h => h.2.symm, fun h => ⟨trivial, h.symm⟩⟩

theorem ok_bind {m : Failing ε σ α} {f : α → Failing ε σ β} {s s'' : σ} {b : β} :
    Ok (m >>= f) s b s'' ↔ ∃ a s', Ok m s a s' ∧ Ok (f a) s' b s'' := by
  change EStateM.bind m f s = _ ↔ _
  unfold EStateM.bind Ok
  cases m s with
  | ok a s' => simp
  | error e s' => simp

@[simp] theorem ok_get_bind {f : σ → Failing ε σ β} {s s' : σ} {b : β} :
    Ok (get >>= f) s b s' ↔ Ok (f s) s b s' := Iff.rfl

@[simp] theorem ok_ite {c : Prop} [Decidable c] {m n : Failing ε σ α} {s s' : σ} {a : α} :
    Ok (if c then m else n) s a s' ↔ (c ∧ Ok m s a s') ∨ (¬ c ∧ Ok n s a s') := by
  by_cases h : c <;> simp [h]

@[simp] theorem ok_foldlM_nil {f : β → α → Failing ε σ β} {b b' : β} {s s' : σ} :
    Ok (List.foldlM f b []) s b' s' ↔ b = b' ∧ s = s' := by
  simp

theorem ok_foldlM_cons {f : β → α → Failing ε σ β} {a : α} {l : List α} {b b' : β}
    {s s'' : σ} :
    Ok (List.foldlM f b (a :: l)) s b' s'' ↔
      ∃ c s', Ok (f b a) s c s' ∧ Ok (List.foldlM f c l) s' b' s'' := by
  rw [List.foldlM_cons, ok_bind]

@[simp] theorem ok_forM_nil {f : α → Failing ε σ PUnit} {s s' : σ} {u : PUnit} :
    Ok (List.forM [] f) s u s' ↔ s' = s := by
  rw [List.forM, ok_pure]
  exact ⟨fun h => h.2.symm, fun h => ⟨rfl, h.symm⟩⟩

theorem ok_forM_cons {f : α → Failing ε σ PUnit} {a : α} {l : List α} {s s'' : σ} {u : PUnit} :
    Ok (List.forM (a :: l) f) s u s'' ↔
      ∃ s', Ok (f a) s ⟨⟩ s' ∧ Ok (List.forM l f) s' u s'' := by
  rw [List.forM, ok_bind]
  exact ⟨fun ⟨_, s', h⟩ => ⟨s', h⟩, fun ⟨s', h⟩ => ⟨⟨⟩, s', h⟩⟩

/-- A loop of checks leaves the state alone. -/
theorem ok_forM_keep {f : α → Failing ε σ PUnit} {l : List α} {s s' : σ} {u : PUnit}
    (hkeep : ∀ a t u t', Ok (f a) t u t' → t' = t) (h : Ok (List.forM l f) s u s') : s' = s := by
  induction l generalizing s with
  | nil => exact ok_forM_nil.mp h
  | cons a l ih =>
      obtain ⟨t, hfirst, hrest⟩ := ok_forM_cons.mp h
      rw [ih hrest, hkeep a s _ t hfirst]

/-- The loop rule for successful runs: an invariant on the elements done, the
accumulator and the state. -/
theorem ok_foldlM {f : β → α → Failing ε σ β} {l : List α} {b b' : β} {s s' : σ}
    (h : Ok (List.foldlM f b l) s b' s') (I : List α → β → σ → Prop) (h₀ : I [] b s)
    (hstep : ∀ done a b s c t, done ++ [a] <+: l → I done b s → Ok (f b a) s c t →
      I (done ++ [a]) c t) : I l b' s' := by
  have main : ∀ rest done b s, done ++ rest = l → I done b s →
      Ok (List.foldlM f b rest) s b' s' → I l b' s' := by
    intro rest
    induction rest with
    | nil =>
        intro done b s hl hI hrun
        obtain ⟨rfl, rfl⟩ := ok_foldlM_nil.mp hrun
        rwa [← hl, List.append_nil]
    | cons a rest ih =>
        intro done b s hl hI hrun
        obtain ⟨c, t, hfirst, hrest⟩ := ok_foldlM_cons.mp hrun
        exact ih (done ++ [a]) c t (by simpa using hl)
          (hstep done a b s c t ⟨rest, by simpa using hl⟩ hI hfirst) hrest
  exact main l [] b s rfl h₀ h

/-- The same for a loop that collects its results. -/
theorem ok_mapM {f : α → Failing ε σ β} {l : List α} {out : List β} {s s' : σ}
    (h : Ok (l.mapM f) s out s') (I : List α → List β → σ → Prop) (h₀ : I [] [] s)
    (hstep : ∀ done a outs b s t, done ++ [a] <+: l → I done outs s → Ok (f a) s b t →
      I (done ++ [a]) (outs ++ [b]) t) : I l out s' := by
  have main : ∀ rest done outs out s, done ++ rest = l → I done outs s →
      Ok (rest.mapM f) s out s' → I l (outs ++ out) s' := by
    intro rest
    induction rest with
    | nil =>
        intro done outs out s hl hI hrun
        rw [List.mapM_nil] at hrun
        obtain ⟨rfl, rfl⟩ := ok_pure.mp hrun
        rwa [← hl, List.append_nil, List.append_nil]
    | cons a rest ih =>
        intro done outs out s hl hI hrun
        rw [List.mapM_cons] at hrun
        obtain ⟨b, t, hfirst, hrun⟩ := ok_bind.mp hrun
        obtain ⟨bs, t', hrest, hpure⟩ := ok_bind.mp hrun
        obtain ⟨rfl, rfl⟩ := ok_pure.mp hpure
        have := ih (done ++ [a]) (outs ++ [b]) bs t (by simpa using hl)
          (hstep done a outs b s t ⟨rest, by simpa using hl⟩ hI hfirst) hrest
        simpa using this
  exact main l [] [] out s rfl h₀ h

/-- A loop over indices is at the index it has counted to. -/
theorem range_prefix {n i : Nat} {done : List Nat} (h : done ++ [i] <+: List.range n) :
    i = done.length ∧ i < n := by
  obtain ⟨rest, hrest⟩ := h
  have hget : (List.range n)[done.length]? = some i := by
    rw [← hrest]
    simp
  obtain ⟨hlt, heq⟩ := List.getElem?_eq_some_iff.mp hget
  rw [List.getElem_range] at heq
  rw [List.length_range] at hlt
  exact ⟨heq.symm, heq ▸ hlt⟩

/-! ## Programs that only add constraints -/

/-- States that constrain worlds. `Fresh s w` says that the world `w` treats
whatever the program allocates after `s` as constrained; `Sat s w` that `w`
respects the constraints of `s`. -/
structure Constraints (σ ω : Type*) where
  Inv : σ → Prop
  Le : σ → σ → Prop
  Fresh : σ → ω → Prop
  Sat : σ → ω → Prop
  le_refl : ∀ s, Le s s
  le_trans : ∀ {s t u}, Le s t → Le t u → Le s u
  fresh_mono : ∀ {s t w}, Le s t → Fresh s w → Fresh t w
  sat_anti : ∀ {s t w}, Le s t → Sat t w → Sat s w

variable {ω : Type*} (C : Constraints σ ω)

/-- `m` keeps the invariant, only adds constraints, also when it throws, and
its result satisfies `Q` in every world of its final state. -/
def Builds (m : Failing ε σ α) (Q : ω → α → Prop) : Prop :=
  ∀ s, C.Inv s →
    match m s with
    | .ok a s' => C.Inv s' ∧ C.Le s s' ∧ ∀ w, C.Fresh s w → C.Sat s' w → Q w a
    | .error _ s' => C.Inv s' ∧ C.Le s s'

variable {C}

theorem Builds.ok {m : Failing ε σ α} {Q : ω → α → Prop} (h : Builds C m Q) {s s' : σ} {a : α}
    (hs : C.Inv s) (hm : Ok m s a s') :
    C.Inv s' ∧ C.Le s s' ∧ ∀ w, C.Fresh s w → C.Sat s' w → Q w a := by
  have := h s hs
  rwa [show m s = _ from hm] at this

theorem Builds.pure {Q : ω → α → Prop} {a : α} (h : ∀ w, Q w a) :
    Builds C (Pure.pure a : Failing ε σ α) Q :=
  fun s hs => ⟨hs, C.le_refl s, fun w _ _ => h w⟩

theorem Builds.throw {Q : ω → α → Prop} (e : ε) :
    Builds C (throw e : Failing ε σ α) Q :=
  fun s hs => ⟨hs, C.le_refl s⟩

theorem Builds.throw_bind {Q : ω → β → Prop} (e : ε) (f : α → Failing ε σ β) :
    Builds C ((MonadExcept.throw e : Failing ε σ α) >>= f) Q :=
  fun s hs => ⟨hs, C.le_refl s⟩

theorem Builds.mono {m : Failing ε σ α} {Q R : ω → α → Prop} (h : Builds C m Q)
    (hQR : ∀ w a, Q w a → R w a) : Builds C m R := by
  intro s hs
  have := h s hs
  cases hm : m s with
  | ok a s' =>
      rw [hm] at this
      exact ⟨this.1, this.2.1, fun w hf hw => hQR w a (this.2.2 w hf hw)⟩
  | error e s' => rw [hm] at this; exact this

/-- Sequential composition: what the first part established of its result
still holds in the worlds of the final state. -/
theorem Builds.bind {m : Failing ε σ α} {f : α → Failing ε σ β} {Q : ω → α → Prop}
    {R : ω → β → Prop} (hm : Builds C m Q)
    (hf : ∀ a, Builds C (f a) (fun w b => Q w a → R w b)) :
    Builds C (m >>= f) R := by
  intro s hs
  change match EStateM.bind m f s with | .ok a s' => _ | .error _ s' => _
  unfold EStateM.bind
  have h₁ := hm s hs
  cases hms : m s with
  | error e s' => rw [hms] at h₁; exact h₁
  | ok a s' =>
      rw [hms] at h₁
      obtain ⟨hinv, hle, hQ⟩ := h₁
      have h₂ := hf a s' hinv
      simp only
      cases hfs : f a s' with
      | error e s'' =>
          rw [hfs] at h₂
          exact ⟨h₂.1, C.le_trans hle h₂.2⟩
      | ok b s'' =>
          rw [hfs] at h₂
          refine ⟨h₂.1, C.le_trans hle h₂.2.1, fun w hfresh hsat => ?_⟩
          exact h₂.2.2 w (C.fresh_mono hle hfresh) hsat
            (hQ w hfresh (C.sat_anti h₂.2.1 hsat))

/-- A specification under weaker constraints on other worlds carries over
along a map of the worlds. -/
theorem Builds.along {ω' : Type*} {D : Constraints σ ω'} {m : Failing ε σ α}
    {Q : ω → α → Prop} (h : Builds C m Q) (world : ω' → ω) (hInv : ∀ s, D.Inv s ↔ C.Inv s)
    (hLe : ∀ s t, C.Le s t → D.Le s t) (hFresh : ∀ s w, D.Fresh s w → C.Fresh s (world w))
    (hSat : ∀ s w, D.Sat s w → C.Sat s (world w)) : Builds D m fun w => Q (world w) := by
  intro s hs
  have := h s ((hInv s).mp hs)
  cases hm : m s with
  | ok a s' =>
      rw [hm] at this
      exact ⟨(hInv s').mpr this.1, hLe s s' this.2.1,
        fun w hf hw => this.2.2 _ (hFresh s w hf) (hSat s' w hw)⟩
  | error e s' =>
      rw [hm] at this
      exact ⟨(hInv s').mpr this.1, hLe s s' this.2⟩

theorem Builds.ite {c : Prop} [Decidable c] {m n : Failing ε σ α} {Q : ω → α → Prop}
    (hm : c → Builds C m Q) (hn : ¬ c → Builds C n Q) :
    Builds C (if c then m else n) Q := by
  by_cases h : c
  · rw [if_pos h]; exact hm h
  · rw [if_neg h]; exact hn h

/-- A loop over a list with an invariant on the elements done so far. -/
theorem Builds.foldlM {f : β → α → Failing ε σ β} {b : β} {l : List α}
    (I : List α → ω → β → Prop)
    (h₀ : ∀ w, I [] w b)
    (hstep : ∀ done a b, done ++ [a] <+: l →
      Builds C (f b a) (fun w c => I done w b → I (done ++ [a]) w c)) :
    Builds C (List.foldlM f b l) (I l) := by
  have main : ∀ rest done b, done ++ rest = l →
      Builds C (List.foldlM f b rest) (fun w c => I done w b → I l w c) := by
    intro rest
    induction rest with
    | nil =>
        intro done b hl
        rw [List.append_nil] at hl
        subst hl
        exact Builds.pure fun w h => h
    | cons a rest ih =>
        intro done b hl
        rw [List.foldlM_cons]
        refine Builds.bind (hstep done a b ⟨rest, by simpa using hl⟩) fun c => ?_
        exact (ih (done ++ [a]) c (by simpa using hl)).mono fun w d h hc hb => h (hc hb)
  exact (main l [] b rfl).mono fun w c h => h (h₀ w)

end Failing

end CppHdl
