import CppHdl.Lib.Failing

/-!
# Programs that throw, with a ghost state

A second logic for `Failing`, for programs whose invariant speaks of what the
state does not record: what was known of a result when it was put into a table,
or which of the intermediate states it came from. The invariant relates the
state to a ghost state; a program may move the ghost state up along an order,
whether it returns or throws, and what it returns is specified by the ghost
state it leaves.
-/

namespace CppHdl

/-- An invariant between states and ghost states, and the order ghost states move
along. -/
structure Ghosts (σ γ : Type*) where
  Inv : γ → σ → Prop
  Le : γ → γ → Prop
  le_refl : ∀ c, Le c c
  le_trans : ∀ {c d e}, Le c d → Le d e → Le c e

namespace Failing

variable {ε σ α β γ : Type} (G : Ghosts σ γ)

/-- From the ghost state `c` and the state `s`, the program keeps the invariant,
also when it throws, and its result is as `Q` says. -/
def Keeps (c : γ) (s : σ) (m : Failing ε σ α) (Q : γ → α → Prop) : Prop :=
  match m s with
  | .ok a s' => ∃ d, G.Le c d ∧ G.Inv d s' ∧ Q d a
  | .error _ s' => ∃ d, G.Le c d ∧ G.Inv d s'

variable {G} {c : γ} {s : σ}

theorem Keeps.pure {a : α} {Q : γ → α → Prop} (hs : G.Inv c s) (h : Q c a) :
    Keeps G c s (Pure.pure a : Failing ε σ α) Q :=
  ⟨c, G.le_refl c, hs, h⟩

theorem Keeps.throw {e : ε} {Q : γ → α → Prop} (hs : G.Inv c s) :
    Keeps G c s (throw e : Failing ε σ α) Q :=
  ⟨c, G.le_refl c, hs⟩

theorem Keeps.mono {m : Failing ε σ α} {Q R : γ → α → Prop} (hm : Keeps G c s m Q)
    (h : ∀ d a, G.Le c d → Q d a → R d a) : Keeps G c s m R := by
  unfold Keeps at hm ⊢
  cases hrun : m s with
  | ok a s' =>
      rw [hrun] at hm
      obtain ⟨d, hle, hinv, hQ⟩ := hm
      exact ⟨d, hle, hinv, h d a hle hQ⟩
  | error e s' => rw [hrun] at hm; exact hm

/-- A logic with more in its invariant is used in one with less. -/
theorem Keeps.weaken {H : Ghosts σ γ} {m : Failing ε σ α} {Q : γ → α → Prop}
    (hm : Keeps G c s m Q) (hle : ∀ d, G.Le c d → H.Le c d)
    (hinv : ∀ d t, G.Le c d → G.Inv d t → H.Inv d t) : Keeps H c s m Q := by
  unfold Keeps at hm ⊢
  cases hrun : m s with
  | ok a t =>
      rw [hrun] at hm
      obtain ⟨d, hcd, hd, hQ⟩ := hm
      exact ⟨d, hle d hcd, hinv d t hcd hd, hQ⟩
  | error e t =>
      rw [hrun] at hm
      obtain ⟨d, hcd, hd⟩ := hm
      exact ⟨d, hle d hcd, hinv d t hcd hd⟩

/-- Nothing is forgotten on the way: the second part starts from a ghost state
above the one the first part left. -/
theorem Keeps.bind {m : Failing ε σ α} {f : α → Failing ε σ β} {Q : γ → α → Prop}
    {R : γ → β → Prop} (hm : Keeps G c s m Q)
    (hf : ∀ a d t, G.Le c d → G.Inv d t → Q d a → Keeps G d t (f a) R) :
    Keeps G c s (m >>= f) R := by
  unfold Keeps at hm ⊢
  rw [bind_apply]
  cases hrun : m s with
  | error e t => rw [hrun] at hm; exact hm
  | ok a t =>
      rw [hrun] at hm
      obtain ⟨d, hcd, hinv, hQ⟩ := hm
      have h := hf a d t hcd hinv hQ
      unfold Keeps at h
      dsimp only
      cases hrest : f a t with
      | error e u =>
          rw [hrest] at h
          obtain ⟨k, hdk, hk⟩ := h
          exact ⟨k, G.le_trans hcd hdk, hk⟩
      | ok b u =>
          rw [hrest] at h
          obtain ⟨k, hdk, hk, hR⟩ := h
          exact ⟨k, G.le_trans hcd hdk, hk, hR⟩

theorem Keeps.get_bind {f : σ → Failing ε σ β} {R : γ → β → Prop} (h : Keeps G c s (f s) R) :
    Keeps G c s (get >>= f) R := h

theorem Keeps.modify_bind {f : σ → σ} {k : PUnit → Failing ε σ β} {R : γ → β → Prop}
    (h : Keeps G c (f s) (k ⟨⟩) R) : Keeps G c s (modify f >>= k) R := h

theorem Keeps.modify {f : σ → σ} {Q : γ → PUnit → Prop} {d : γ} (hle : G.Le c d)
    (hs : G.Inv d (f s)) (h : Q d ⟨⟩) : Keeps G c s (modify f : Failing ε σ PUnit) Q :=
  ⟨d, hle, hs, h⟩

theorem Keeps.set_bind {t : σ} {k : PUnit → Failing ε σ β} {R : γ → β → Prop}
    (h : Keeps G c t (k ⟨⟩) R) : Keeps G c s (set t >>= k) R := h

theorem Keeps.above {m : Failing ε σ α} {Q : γ → α → Prop} {d : γ} (hle : G.Le c d)
    (h : Keeps G d s m Q) : Keeps G c s m Q := by
  unfold Keeps at h ⊢
  cases hrun : m s with
  | ok a t =>
      rw [hrun] at h
      obtain ⟨e, hde, h⟩ := h
      exact ⟨e, G.le_trans hle hde, h⟩
  | error _ t =>
      rw [hrun] at h
      obtain ⟨e, hde, h⟩ := h
      exact ⟨e, G.le_trans hle hde, h⟩

theorem Keeps.ite {p : Prop} [Decidable p] {m n : Failing ε σ α} {Q : γ → α → Prop}
    (hm : p → Keeps G c s m Q) (hn : ¬ p → Keeps G c s n Q) :
    Keeps G c s (if p then m else n) Q := by
  by_cases h : p
  · rw [if_pos h]; exact hm h
  · rw [if_neg h]; exact hn h

/-- The handler starts from what the throw left. -/
theorem Keeps.tryCatch {m : Failing ε σ α} {h : ε → Failing ε σ α} {Q : γ → α → Prop}
    (hm : Keeps G c s m Q)
    (hh : ∀ e d t, G.Le c d → G.Inv d t → Keeps G d t (h e) Q) :
    Keeps G c s (tryCatchThe ε m h) Q := by
  unfold Keeps at hm ⊢
  change match EStateM.tryCatch m h s with | .ok a s' => _ | .error _ s' => _
  unfold EStateM.tryCatch
  cases hrun : m s with
  | ok a t => rw [hrun] at hm; exact hm
  | error e t =>
      rw [hrun] at hm
      obtain ⟨d, hcd, hinv⟩ := hm
      have h' := hh e d t hcd hinv
      unfold Keeps at h'
      change match h e t with | .ok a s' => _ | .error _ s' => _
      cases hrest : h e t with
      | error e' u =>
          rw [hrest] at h'
          obtain ⟨k, hdk, hk⟩ := h'
          exact ⟨k, G.le_trans hcd hdk, hk⟩
      | ok b u =>
          rw [hrest] at h'
          obtain ⟨k, hdk, hk, hQ⟩ := h'
          exact ⟨k, G.le_trans hcd hdk, hk, hQ⟩

/-- A loop that collects its results, each of which stays good. -/
theorem Keeps.mapM {f : α → Failing ε σ β} {Q : γ → α → β → Prop}
    (hmono : ∀ {d e a b}, G.Le d e → Q d a b → Q e a b) {l : List α}
    (hstep : ∀ a ∈ l, ∀ d t, G.Le c d → G.Inv d t → Keeps G d t (f a) fun e b => Q e a b)
    (hs : G.Inv c s) :
    Keeps G c s (l.mapM f) fun d out => List.Forall₂ (Q d) l out := by
  induction l generalizing c s with
  | nil => exact Keeps.pure hs .nil
  | cons a l ih =>
      rw [List.mapM_cons]
      refine (hstep a List.mem_cons_self c s (G.le_refl c) hs).bind fun b d t hcd hd hb => ?_
      refine (ih (fun x hx e u hde => hstep x (List.mem_cons_of_mem _ hx) e u (G.le_trans hcd hde))
        hd).bind fun out e u hde he hout => ?_
      exact Keeps.pure he (.cons (hmono hde hb) hout)

theorem Keeps.forM {f : α → Failing ε σ PUnit} {l : List α}
    (hstep : ∀ a ∈ l, ∀ d t, G.Le c d → G.Inv d t → Keeps G d t (f a) fun _ _ => True)
    (hs : G.Inv c s) : Keeps G c s (l.forM f) fun _ _ => True := by
  induction l generalizing c s with
  | nil => exact Keeps.pure hs trivial
  | cons a l ih =>
      refine (hstep a List.mem_cons_self c s (G.le_refl c) hs).bind fun _ d t hcd hd _ => ?_
      exact ih (fun x hx e u hde => hstep x (List.mem_cons_of_mem _ hx) e u (G.le_trans hcd hde)) hd

/-- A loop with an invariant on the elements done so far. -/
theorem Keeps.foldlM {f : β → α → Failing ε σ β} {l : List α} {b : β}
    (I : List α → γ → β → Prop) (hs : G.Inv c s) (h₀ : I [] c b)
    (hstep : ∀ done a b d t, done ++ [a] <+: l → G.Le c d → G.Inv d t → I done d b →
      Keeps G d t (f b a) (I (done ++ [a]))) : Keeps G c s (l.foldlM f b) (I l) := by
  have main : ∀ rest done b d t, done ++ rest = l → G.Le c d → G.Inv d t → I done d b →
      Keeps G d t (rest.foldlM f b) (I l) := by
    intro rest
    induction rest with
    | nil =>
        intro done b d t hl _ ht hb
        rw [List.append_nil] at hl
        exact Keeps.pure ht (hl ▸ hb)
    | cons a rest ih =>
        intro done b d t hl hcd ht hb
        rw [List.foldlM_cons]
        refine (hstep done a b d t ⟨rest, by simpa using hl⟩ hcd ht hb).bind
          fun b' e u hde hu hb' => ?_
        exact ih (done ++ [a]) b' e u (by simpa using hl) (G.le_trans hcd hde) hu hb'
  exact main l [] b c s rfl (G.le_refl c) hs h₀

/-- What a successful run leaves. -/
theorem Keeps.ok {m : Failing ε σ α} {Q : γ → α → Prop} (h : Keeps G c s m Q) {a : α} {t : σ}
    (hrun : Ok m s a t) : ∃ d, G.Le c d ∧ G.Inv d t ∧ Q d a := by
  unfold Keeps at h
  rwa [show m s = _ from hrun] at h

end Failing

end CppHdl
