import CppHdl.Threads.Dispatch

/-!
# Every active lane, exactly once

Facts about one dispatch, counted over its events: how often a lane was
invoked and has finished follows from where the lane is. A dispatch that
returns has all its lanes finished, so each was invoked once, with the function
of this dispatch.
-/

namespace CppHdl.Threads

section

variable {φ α κ μ ε : Type}

namespace Event

def invokes (lane : Nat) : Event φ α ε → Bool
  | .invoked l _ _ _ => l == lane
  | _ => false

def finishes (lane : Nat) : Event φ α ε → Bool
  | .finished l => l == lane
  | _ => false

/-- An event of one of the lanes below `n`. -/
def OfLane (n : Nat) : Event φ α ε → Prop
  | .invoked l _ _ _ | .worked l _ | .finished l => l < n
  | _ => False

end Event

namespace Lane

/-- How often a lane was invoked. -/
def begun : Lane κ → Nat
  | .waiting => 0
  | _ => 1

def ended : Lane κ → Nat
  | .finished => 1
  | _ => 0

end Lane

/-- Every active lane was invoked exactly once, with the function and the
argument of the dispatch and all with the same epoch, and has returned; the
other lanes did nothing. -/
structure Once (d : Dispatch φ α) (seg : List (Event φ α ε)) : Prop where
  invoked : ∀ lane, seg.countP (Event.invokes lane) = if lane < d.activeLanes then 1 else 0
  finished : ∀ lane, seg.countP (Event.finishes lane) = if lane < d.activeLanes then 1 else 0
  same : ∃ epoch, ∀ lane f m e, .invoked lane f m e ∈ seg →
    f = d.function ∧ m = d.model ∧ e = epoch
  lanes : ∀ e ∈ seg, e.OfLane d.activeLanes

/-- The same while the dispatch is under way: no lane was invoked twice. -/
structure AtMostOnce (d : Dispatch φ α) (seg : List (Event φ α ε)) : Prop where
  invoked : ∀ lane, seg.countP (Event.invokes lane) ≤ 1
  finished : ∀ lane, seg.countP (Event.finishes lane) ≤ seg.countP (Event.invokes lane)
  same : ∃ epoch, ∀ lane f m e, .invoked lane f m e ∈ seg →
    f = d.function ∧ m = d.model ∧ e = epoch
  lanes : ∀ e ∈ seg, e.OfLane d.activeLanes

/-- The events of a dispatch so far tell where its lanes are. -/
structure Counted (d : Dispatch φ α) (epoch : Stamp) (memory : μ) (st : Nat → Lane κ)
    (seg : List (Event φ α ε)) : Prop where
  invoked : ∀ lane, seg.countP (Event.invokes lane) = (st lane).begun
  finished : ∀ lane, seg.countP (Event.finishes lane) = (st lane).ended
  same : ∀ lane f m e, .invoked lane f m e ∈ seg → f = d.function ∧ m = d.model ∧ e = epoch
  lanes : ∀ e ∈ seg, e.OfLane d.activeLanes
  active : ∀ lane, d.activeLanes ≤ lane → st lane = .waiting

namespace Counted

variable {d : Dispatch φ α} {epoch : Stamp} {memory memory' : μ} {st : Nat → Lane κ}
  {seg : List (Event φ α ε)} {lane : Nat}

theorem snoc (h : Counted d epoch memory st seg) (hlane : lane < d.activeLanes) {x : Lane κ}
    {es : List (Event φ α ε)}
    (hbegun : es.countP (Event.invokes lane) + (st lane).begun = x.begun)
    (hended : es.countP (Event.finishes lane) + (st lane).ended = x.ended)
    (hothers : ∀ l, l ≠ lane → es.countP (Event.invokes l) = 0 ∧ es.countP (Event.finishes l) = 0)
    (hsame : ∀ l f m e, .invoked l f m e ∈ es → f = d.function ∧ m = d.model ∧ e = epoch)
    (hlanes : ∀ e ∈ es, e.OfLane d.activeLanes) :
    Counted d epoch memory' (Function.update st lane x) (seg ++ es) where
  invoked l := by
    rw [List.countP_append, h.invoked l]
    by_cases hl : l = lane
    · subst hl
      rw [Function.update_self, ← hbegun, Nat.add_comm]
    · rw [Function.update_of_ne hl, (hothers l hl).1, Nat.add_zero]
  finished l := by
    rw [List.countP_append, h.finished l]
    by_cases hl : l = lane
    · subst hl
      rw [Function.update_self, ← hended, Nat.add_comm]
    · rw [Function.update_of_ne hl, (hothers l hl).2, Nat.add_zero]
  same l f m e hmem := (List.mem_append.mp hmem).elim (h.same l f m e) (hsame l f m e)
  lanes e hmem := (List.mem_append.mp hmem).elim (h.lanes e) (hlanes e)
  active l hl := by
    rw [Function.update_of_ne (by omega)]
    exact h.active l hl

theorem once (h : Counted d epoch memory st seg)
    (hall : ∀ lane, lane < d.activeLanes → st lane = .finished) : Once d seg where
  invoked lane := by
    rw [h.invoked lane]
    split_ifs with hlane
    · rw [hall lane hlane]
      rfl
    · rw [h.active lane (by omega)]
      rfl
  finished lane := by
    rw [h.finished lane]
    split_ifs with hlane
    · rw [hall lane hlane]
      rfl
    · rw [h.active lane (by omega)]
      rfl
  same := ⟨epoch, h.same⟩
  lanes := h.lanes

theorem atMostOnce (h : Counted d epoch memory st seg) : AtMostOnce d seg where
  invoked lane := by
    rw [h.invoked lane]
    cases st lane <;> simp [Lane.begun]
  finished lane := by
    rw [h.invoked lane, h.finished lane]
    cases st lane <;> simp [Lane.begun, Lane.ended]
  same := ⟨epoch, h.same⟩
  lanes := h.lanes

/-- Counting is kept by every step of a dispatch. -/
theorem invariant (lanes : Nat) (W : Work φ α κ μ ε) :
    Team.Invariant lanes W Counted Once where
  dispatch _ _ := ⟨fun _ => rfl, fun _ => rfl, by simp, by simp, fun _ _ => rfl⟩
  invoke {d epoch memory st seg lane} h hlane hwaiting := by
    refine h.snoc hlane ?_ ?_ (fun l hl => ?_) ?_ ?_
    · simp [hwaiting, Event.invokes, Lane.begun]
    · simp [hwaiting, Event.finishes, Lane.ended]
    · simp [Event.invokes, Event.finishes, Ne.symm hl]
    · simp
    · simpa [Event.OfLane] using hlane
  work {d epoch memory memory' st seg lane k k' e} h hlane hrunning _ := by
    refine h.snoc hlane ?_ ?_ (fun l hl => ?_) ?_ ?_ <;> cases e <;>
      simp [hrunning, Event.invokes, Event.finishes, Event.OfLane, Lane.begun, Lane.ended, hlane]
  finish {d epoch memory st seg lane k} h hlane hrunning _ := by
    refine h.snoc hlane ?_ ?_ (fun l hl => ?_) ?_ ?_
    · simp [hrunning, Event.invokes, Lane.begun]
    · simp [hrunning, Event.finishes, Lane.ended]
    · simp [Event.invokes, Event.finishes, Ne.symm hl]
    · simp
    · simpa [Event.OfLane] using hlane
  leave h hall := h.once hall

end Counted

end

end CppHdl.Threads
