import Mathlib.Data.List.Basic
import CppHdl.Lib.Transition

/-!
# Queues

A *ring* is a queue in `depth` cells: its words start at `head` and wrap around.
`ring_push` and `ring_pop` say what a write behind the last word and a step of
`head` do to the words.

A *queue* takes at most one word in and gives at most one out in a step; a word
may go out in the step it came in. What went in since the last flush is what
went out followed by what is held.
-/

namespace CppHdl

variable {α : Type*}

/-! ## Rings -/

/-- The words of a ring, oldest first. -/
def ring (depth : Nat) (cells : Nat → α) (head count : Nat) : List α :=
  (List.range count).map fun i => cells ((head + i) % depth)

section

variable {depth : Nat} {cells : Nat → α} {head count : Nat}

@[simp] theorem length_ring : (ring depth cells head count).length = count := by
  simp [ring]

@[simp] theorem ring_zero : ring depth cells head 0 = [] := rfl

/-- Fewer than `depth` steps apart are different cells. -/
theorem ring_index_ne {i j : Nat} (hij : i < j) (hj : j < depth) :
    (head + i) % depth ≠ (head + j) % depth := by
  intro h
  have hmod : (j - i) % depth = 0 := by
    rw [← Nat.add_sub_add_left head j i]
    exact Nat.sub_mod_eq_zero_of_mod_eq h.symm
  rw [Nat.mod_eq_of_lt (by omega)] at hmod
  omega

/-- A word written behind the last one. -/
theorem ring_push (h : count < depth) (x : α) :
    ring depth (Function.update cells ((head + count) % depth) x) head (count + 1) =
      ring depth cells head count ++ [x] := by
  unfold ring
  rw [List.range_succ, List.map_append, List.map_singleton, Function.update_self]
  congr 1
  refine List.map_congr_left fun i hi => ?_
  exact Function.update_of_ne (ring_index_ne (List.mem_range.mp hi) h) _ _

theorem ring_pop :
    ring depth cells head (count + 1) =
      cells (head % depth) :: ring depth cells ((head + 1) % depth) count := by
  unfold ring
  rw [List.range_succ_eq_map, List.map_cons, List.map_map, Nat.add_zero]
  congr 1
  refine List.map_congr_left fun i _ => ?_
  change cells ((head + (i + 1)) % depth) = cells (((head + 1) % depth + i) % depth)
  rw [Nat.mod_add_mod, Nat.add_assoc, Nat.add_comm 1 i]

/-- Where a step leaves the cell behind the last word. -/
theorem ring_tail {pop push : Bool} (hpop : pop → 0 < count) :
    (if push then ((head + count) % depth + 1) % depth else (head + count) % depth) =
      ((if pop then (head + 1) % depth else head) + (count - pop.toNat + push.toNat)) % depth := by
  have hhead : ((if pop then (head + 1) % depth else head) + (count - pop.toNat + push.toNat)) %
      depth = (head + count + push.toNat) % depth := by
    cases pop with
    | false => exact congrArg (· % depth) (Nat.add_assoc ..).symm
    | true =>
        have hcount := hpop rfl
        change ((head + 1) % depth + (count - 1 + push.toNat)) % depth = _
        rw [Nat.mod_add_mod]
        congr 1
        omega
  rw [hhead]
  cases push with
  | false => rfl
  | true => exact Nat.mod_add_mod ..

/-- A step of a ring: the oldest word may leave and a word may come in behind the
last, also into the cell that gets free. -/
theorem ring_step {pop push : Bool} (hpop : pop → 0 < count) (hpush : push → count < depth + pop.toNat)
    (x : α) :
    ring depth cells head count ++ (if push then some x else none).toList =
      (if pop then some (cells (head % depth)) else none).toList ++
        ring depth (if push then Function.update cells ((head + count) % depth) x else cells)
          (if pop then (head + 1) % depth else head) (count - pop.toNat + push.toNat) := by
  have hpushed : ∀ head count, (push → count < depth) →
      ring depth (if push then Function.update cells ((head + count) % depth) x else cells) head
        (count + push.toNat) = ring depth cells head count ++ (if push then some x else none).toList := by
    intro head count h
    cases push with
    | false => exact (List.append_nil _).symm
    | true => exact ring_push (h rfl) x
  cases pop with
  | false =>
      exact (hpushed head count hpush).symm
  | true =>
      obtain ⟨rest, rfl⟩ : ∃ rest, count = rest + 1 := Nat.exists_eq_add_of_lt (hpop rfl) |>.imp (by omega)
      have htail : (head + (rest + 1)) % depth = ((head + 1) % depth + rest) % depth := by
        rw [Nat.mod_add_mod, Nat.add_assoc, Nat.add_comm 1]
      rw [htail]
      change ring depth cells head (rest + 1) ++ _ = [cells (head % depth)] ++
        ring depth _ ((head + 1) % depth) (rest + push.toNat)
      rw [hpushed _ _ (fun h => by have := hpush h; simp at this; omega), ring_pop]
      rfl

end

/-! ## Queues -/

/-- What passes the ends of a queue in one step. -/
structure Transfer (α : Type*) where
  flush : Bool
  pushed : Option α
  popped : Option α

namespace Transfer

/-- The words that went in and out since the last flush. -/
def log (ts : List (Transfer α)) : List α × List α :=
  ts.foldl (fun l t => if t.flush then ([], [])
    else (l.1 ++ t.pushed.toList, l.2 ++ t.popped.toList)) ([], [])

theorem log_append (ts : List (Transfer α)) (t : Transfer α) :
    log (ts ++ [t]) = if t.flush then ([], [])
      else ((log ts).1 ++ t.pushed.toList, (log ts).2 ++ t.popped.toList) := by
  unfold log
  rw [List.foldl_append]
  rfl

/-- A step from the words `q` to the words `q'`. -/
def Moves (t : Transfer α) (q q' : List α) : Prop :=
  if t.flush then q' = [] else q ++ t.pushed.toList = t.popped.toList ++ q'

theorem moves_flush {t : Transfer α} (h : t.flush = true) {q q' : List α} :
    t.Moves q q' ↔ q' = [] := by
  rw [Moves, if_pos h]

theorem moves_step {t : Transfer α} (h : t.flush = false) {q q' : List α} :
    t.Moves q q' ↔ q ++ t.pushed.toList = t.popped.toList ++ q' := by
  rw [Moves, if_neg (by rw [h]; decide)]

/-- In order, nothing lost, nothing twice. -/
theorem Moves.log_eq {ts : List (Transfer α)} {t : Transfer α} {q q' : List α}
    (h : (log ts).1 = (log ts).2 ++ q) (hmove : t.Moves q q') :
    (log (ts ++ [t])).1 = (log (ts ++ [t])).2 ++ q' := by
  rw [log_append]
  unfold Moves at hmove
  split_ifs at hmove ⊢ with hflush
  · rw [hmove]
    rfl
  · change (log ts).1 ++ t.pushed.toList = ((log ts).2 ++ t.popped.toList) ++ q'
    rw [h, List.append_assoc, List.append_assoc, hmove]

/-- What went in and was not discarded, and what went out: a flush discards what is held
at the end of its step. -/
def keptLog (ts : List (Transfer α)) : List α × List α :=
  ts.foldl (fun l t =>
    let popped := l.2 ++ t.popped.toList
    let pushed := l.1 ++ t.pushed.toList
    (if t.flush then pushed.take popped.length else pushed, popped)) ([], [])

theorem keptLog_append (ts : List (Transfer α)) (t : Transfer α) :
    keptLog (ts ++ [t]) =
      (if t.flush then ((keptLog ts).1 ++ t.pushed.toList).take
          ((keptLog ts).2 ++ t.popped.toList).length
        else (keptLog ts).1 ++ t.pushed.toList, (keptLog ts).2 ++ t.popped.toList) := by
  unfold keptLog
  rw [List.foldl_append]
  rfl

/-- A step that may flush after it moved a word. -/
def Passes (t : Transfer α) (q q' : List α) : Prop :=
  ∃ rest, q ++ t.pushed.toList = t.popped.toList ++ rest ∧ q' = if t.flush then [] else rest

/-- In order, nothing lost but what is discarded, nothing twice. -/
theorem Passes.keptLog_eq {ts : List (Transfer α)} {t : Transfer α} {q q' : List α}
    (h : (keptLog ts).1 = (keptLog ts).2 ++ q) (hpass : t.Passes q q') :
    (keptLog (ts ++ [t])).1 = (keptLog (ts ++ [t])).2 ++ q' := by
  obtain ⟨rest, hmove, rfl⟩ := hpass
  rw [keptLog_append]
  have hall : (keptLog ts).1 ++ t.pushed.toList =
      ((keptLog ts).2 ++ t.popped.toList) ++ rest := by
    rw [h, List.append_assoc, List.append_assoc, hmove]
  split_ifs with hflush
  · change ((keptLog ts).1 ++ t.pushed.toList).take _ = _
    rw [hall, List.take_left, List.append_nil]
  · exact hall

end Transfer

namespace Transitions

variable {σ ε : Type*}

/-- A system whose every step is a transfer of the words it holds is a queue. -/
theorem log_eq {T : Transitions σ ε} {Inv : σ → Prop} {held : σ → List α}
    {transfer : ε → Transfer α} (hinit : ∀ s, T.init s → Inv s ∧ held s = [])
    (hstep : ∀ s e s', Inv s → T.step s e s' →
      Inv s' ∧ ∃ x, e = some x ∧ (transfer x).Moves (held s) (held s'))
    {es : List ε} {s : σ} (h : T.Traces es s) :
    Inv s ∧ (Transfer.log (es.map transfer)).1 =
      (Transfer.log (es.map transfer)).2 ++ held s := by
  obtain ⟨s₀, hs₀, hrun⟩ := h
  obtain ⟨hinv, hheld⟩ := hinit s₀ hs₀
  refine hrun.invariant (fun es s => Inv s ∧ (Transfer.log (es.map transfer)).1 =
    (Transfer.log (es.map transfer)).2 ++ held s) ⟨hinv, by rw [hheld]; rfl⟩ ?_
  rintro es s e s' ⟨hs, hlog⟩ hmove
  obtain ⟨hs', x, rfl, hmoves⟩ := hstep s e s' hs hmove
  refine ⟨hs', ?_⟩
  rw [Option.toList_some, List.map_append]
  exact hmoves.log_eq hlog

/-- A system whose every step passes the words it holds is a queue. -/
theorem keptLog_eq {T : Transitions σ ε} {Inv : σ → Prop} {held : σ → List α}
    {transfer : ε → Transfer α} (hinit : ∀ s, T.init s → Inv s ∧ held s = [])
    (hstep : ∀ s e s', Inv s → T.step s e s' →
      Inv s' ∧ ∃ x, e = some x ∧ (transfer x).Passes (held s) (held s'))
    {es : List ε} {s : σ} (h : T.Traces es s) :
    Inv s ∧ (Transfer.keptLog (es.map transfer)).1 =
      (Transfer.keptLog (es.map transfer)).2 ++ held s := by
  obtain ⟨s₀, hs₀, hrun⟩ := h
  obtain ⟨hinv, hheld⟩ := hinit s₀ hs₀
  refine hrun.invariant (fun es s => Inv s ∧ (Transfer.keptLog (es.map transfer)).1 =
    (Transfer.keptLog (es.map transfer)).2 ++ held s) ⟨hinv, by rw [hheld]; rfl⟩ ?_
  rintro es s e s' ⟨hs, hlog⟩ hmove
  obtain ⟨hs', x, rfl, hpasses⟩ := hstep s e s' hs hmove
  refine ⟨hs', ?_⟩
  rw [Option.toList_some, List.map_append]
  exact hpasses.keptLog_eq hlog

end Transitions

end CppHdl
