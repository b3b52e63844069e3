import Mathlib.Data.List.Range
import Mathlib.Logic.Function.Basic

/-!
# Requests in flight

What is requested in order and answered in order is, at any time, a *window* of
the sequence of requests: from the first without an answer to the next one to be
made. `window_step` is a step with a request, an answer or both, also the answer
to the request that is just being made.
-/

namespace CppHdl

variable {α : Type*}

def window (g : Nat → α) (lo hi : Nat) : List α := (List.range' lo (hi - lo)).map g

variable {g : Nat → α} {lo hi : Nat}

@[simp] theorem window_self : window g lo lo = [] := by
  simp [window]

@[simp] theorem length_window : (window g lo hi).length = hi - lo := by
  simp [window]

theorem window_push (h : lo ≤ hi) : window g lo (hi + 1) = window g lo hi ++ [g hi] := by
  unfold window
  rw [Nat.succ_sub h, List.range'_1_concat, List.map_append, Nat.add_sub_cancel' h]
  rfl

theorem window_pop (h : lo < hi) : window g lo hi = g lo :: window g (lo + 1) hi := by
  unfold window
  obtain ⟨n, hn⟩ := Nat.exists_eq_add_of_lt h
  rw [show hi - lo = n + 1 by omega, show hi - (lo + 1) = n by omega, List.range'_succ,
    List.map_cons]

/-- A request is made; the queue is answered from its head, if at all. -/
theorem window_step {push : Bool} {answered : Option α} {rest : List α} (h : lo ≤ hi)
    (hq : window g lo hi ++ (if push then some (g hi) else none).toList = answered.toList ++ rest) :
    rest = window g (lo + answered.isSome.toNat) (hi + push.toNat) ∧
      lo + answered.isSome.toNat ≤ hi + push.toNat ∧ ∀ a, answered = some a → a = g lo := by
  have hwindow : window g lo (hi + push.toNat) = answered.toList ++ rest := by
    cases push with
    | false =>
        rw [← hq]
        exact (List.append_nil _).symm
    | true => exact (window_push h).trans hq
  cases answered with
  | none => exact ⟨hwindow.symm, by simpa using Nat.le_add_right_of_le h, nofun⟩
  | some a =>
      have hlt : lo < hi + push.toNat := by
        by_contra hge
        have hempty := congrArg List.length hwindow
        simp at hempty
        omega
      rw [window_pop hlt] at hwindow
      obtain ⟨ha, hrest⟩ := List.cons.inj hwindow
      exact ⟨hrest.symm, hlt, fun b hb => (Option.some.inj hb).symm.trans ha.symm⟩

end CppHdl
