import Mathlib.Data.List.Basic

/-!
# Streams of frames

A frame is a nonempty list of words; on a stream its last word is marked. A *reader*
splits a stream at the marks.

`Delivered` says what may come out of a link that can not hold its source and must
lose words: a frame comes out whole, or it is cut, with a mark on a word of its own
behind what is left of it, and after a cut whole frames may be missing.
-/

namespace CppHdl

variable {α : Type*}

/-- Words within a frame. -/
def unmarked (xs : List α) : List (α × Bool) := xs.map (·, false)

/-- A frame, with a mark at its last word. -/
def marked : List α → List (α × Bool)
  | [] => []
  | [x] => [(x, true)]
  | x :: y :: rest => (x, false) :: marked (y :: rest)

theorem marked_cons (x : α) (xs : List α) : marked (x :: xs) = (x, xs.isEmpty) :: marked xs := by
  cases xs <;> rfl

theorem unmarked_append (xs ys : List α) : unmarked (xs ++ ys) = unmarked xs ++ unmarked ys :=
  List.map_append

theorem marked_append_singleton (xs : List α) (x : α) :
    marked (xs ++ [x]) = unmarked xs ++ [(x, true)] := by
  induction xs with
  | nil => rfl
  | cons y ys ih =>
      cases ys with
      | nil => rfl
      | cons z zs =>
          change (y, false) :: marked (z :: zs ++ [x]) = (y, false) :: (unmarked (z :: zs) ++ _)
          rw [ih]

theorem unmarked_prefix_marked {xs ys : List α} (hys : ys ≠ []) :
    unmarked xs <+: marked (xs ++ ys) := by
  rw [← List.dropLast_append_getLast hys, ← List.append_assoc, marked_append_singleton,
    unmarked_append, List.append_assoc]
  exact List.prefix_append _ _

/-! ## Readers -/

/-- The frames that are complete, and the words of the next one. -/
structure FrameReader (α : Type*) where
  done : List (List α)
  part : List α

namespace FrameReader

def empty : FrameReader α := ⟨[], []⟩

def read (r : FrameReader α) (w : α × Bool) : FrameReader α :=
  if w.2 then ⟨r.done ++ [r.part ++ [w.1]], []⟩ else ⟨r.done, r.part ++ [w.1]⟩

theorem foldl_read_unmarked (r : FrameReader α) (xs : List α) :
    (unmarked xs).foldl read r = ⟨r.done, r.part ++ xs⟩ := by
  induction xs generalizing r with
  | nil => exact congrArg (FrameReader.mk r.done) (List.append_nil _).symm
  | cons x xs ih =>
      change (unmarked xs).foldl read ⟨r.done, r.part ++ [x]⟩ = _
      rw [ih, List.append_assoc]
      rfl

theorem foldl_read_marked (r : FrameReader α) {frame : List α} (h : frame ≠ []) :
    (marked frame).foldl read r = ⟨r.done ++ [r.part ++ frame], []⟩ := by
  rw [← List.dropLast_append_getLast h, marked_append_singleton, List.foldl_append,
    foldl_read_unmarked, ← List.append_assoc]
  rfl

/-- Nothing that is read is lost. -/
theorem words_foldl_read (r : FrameReader α) (ws : List (α × Bool)) :
    (ws.foldl read r).done.flatMap marked ++ unmarked (ws.foldl read r).part =
      r.done.flatMap marked ++ unmarked r.part ++ ws := by
  induction ws generalizing r with
  | nil => exact (List.append_nil _).symm
  | cons w ws ih =>
      rw [List.foldl_cons, ih]
      obtain ⟨x, _ | _⟩ := w
      · show r.done.flatMap marked ++ unmarked (r.part ++ [x]) ++ ws = _
        rw [unmarked_append]
        simp [unmarked]
      · show (r.done ++ [r.part ++ [x]]).flatMap marked ++ [] ++ ws = _
        rw [List.flatMap_append, List.flatMap_singleton, marked_append_singleton]
        simp

/-- What is read of a stream of frames are its first frames, and words of the next one
that do not end it. -/
structure Reads (r : FrameReader α) (frames : List (List α)) : Prop where
  done : r.done <+: frames
  part : r.part ≠ [] → ∃ rest, rest ≠ [] ∧ r.done ++ [r.part ++ rest] <+: frames

theorem foldl_read_frames (r : FrameReader α) (hpart : r.part = []) {frames : List (List α)}
    (hframes : [] ∉ frames) :
    (frames.flatMap marked).foldl read r = ⟨r.done ++ frames, []⟩ := by
  induction frames generalizing r with
  | nil =>
      rw [List.append_nil, ← hpart]
      rfl
  | cons frame frames ih =>
      rw [List.mem_cons, not_or] at hframes
      rw [List.flatMap_cons, List.foldl_append, foldl_read_marked r (Ne.symm hframes.1), hpart,
        ih _ rfl hframes.2, List.append_assoc]
      rfl

/-- Within a frame, or through its end. -/
theorem prefix_marked_append {frame : List α} (hframe : frame ≠ []) {ws tail : List (α × Bool)}
    (h : ws <+: marked frame ++ tail) :
    (∃ ws', ws = marked frame ++ ws' ∧ ws' <+: tail) ∨
      ∃ xs rest, rest ≠ [] ∧ frame = xs ++ rest ∧ ws = unmarked xs := by
  rcases List.prefix_or_prefix_of_prefix h (List.prefix_append (marked frame) tail) with hws | hws
  · rw [← List.dropLast_append_getLast hframe, marked_append_singleton,
      List.prefix_concat_iff] at hws
    rcases hws with rfl | hws
    · refine .inl ⟨[], ?_, List.nil_prefix⟩
      rw [List.append_nil, ← marked_append_singleton, List.dropLast_append_getLast hframe]
    · obtain ⟨n, rfl⟩ : ∃ n, ws = unmarked (frame.dropLast.take n) :=
        ⟨ws.length, by rw [unmarked, List.map_take]; exact List.prefix_iff_eq_take.mp hws⟩
      refine .inr ⟨_, frame.dropLast.drop n ++ [frame.getLast hframe], by simp, ?_, rfl⟩
      rw [← List.append_assoc, List.take_append_drop, List.dropLast_append_getLast hframe]
  · obtain ⟨ws', rfl⟩ := hws
    exact .inl ⟨ws', rfl, (List.prefix_append_right_inj _).mp h⟩

theorem reads_of_prefix {frames : List (List α)} (hframes : [] ∉ frames) {ws : List (α × Bool)}
    (h : ws <+: frames.flatMap marked) : (ws.foldl read empty).Reads frames := by
  suffices key : ∀ (before frames : List (List α)), [] ∉ frames → ∀ ws : List (α × Bool),
      ws <+: frames.flatMap marked → (ws.foldl read ⟨before, []⟩).Reads (before ++ frames) from
    key [] frames hframes ws h
  intro before frames
  induction frames generalizing before with
  | nil =>
      intro _ ws h
      rw [List.prefix_nil.mp h, List.append_nil]
      exact ⟨List.prefix_rfl, fun h => absurd rfl h⟩
  | cons frame frames ih =>
      intro hframes ws h
      rw [List.mem_cons, not_or] at hframes
      have hframe : frame ≠ [] := Ne.symm hframes.1
      rw [List.flatMap_cons] at h
      rcases prefix_marked_append hframe h with ⟨ws', rfl, hws'⟩ | ⟨xs, rest, hrest, rfl, rfl⟩
      · rw [List.foldl_append, foldl_read_marked _ hframe]
        have hreads := ih (before ++ [frame]) hframes.2 ws' hws'
        rwa [List.append_assoc] at hreads
      · rw [foldl_read_unmarked]
        refine ⟨List.prefix_append _ _, fun _ => ⟨rest, hrest, ?_⟩⟩
        exact ⟨frames, by simp⟩

end FrameReader

/-! ## Delivery -/

/-- Of these frames, these words are delivered; the flag says that the last frame is not
whole. -/
inductive Delivered : List (List α) → List (α × Bool) → Bool → Prop
  | nil : Delivered [] [] false
  | whole {frames : List (List α)} {out : List (α × Bool)} {lost : Bool} (frame : List α) :
      Delivered frames out lost → Delivered (frames ++ [frame]) (out ++ marked frame) false
  | cut {frames : List (List α)} {out : List (α × Bool)} {lost : Bool} {xs rest : List α} (t : α) :
      rest ≠ [] → Delivered frames out lost →
        Delivered (frames ++ [xs ++ rest]) (out ++ (unmarked xs ++ [(t, true)])) true
  | missing {frames : List (List α)} {out : List (α × Bool)} (frame : List α) :
      Delivered frames out true → Delivered (frames ++ [frame]) out true

theorem Delivered.rest {frames : List (List α)} {out : List (α × Bool)} {lost : Bool}
    (h : Delivered frames out lost) (more : List (List α)) :
    ∃ lost', Delivered (frames ++ more) (out ++ more.flatMap marked) lost' := by
  induction more generalizing frames out lost with
  | nil =>
      rw [List.append_nil, List.flatMap_nil, List.append_nil]
      exact ⟨lost, h⟩
  | cons frame more ih =>
      have hnext := ih (h.whole frame)
      rwa [List.append_assoc, List.append_assoc] at hnext

/-- A link that read `r` and has given, or is about to give, the words `out`. -/
inductive Link (r : FrameReader α) (out : List (α × Bool)) : (losing : Bool) → Prop
  | flowing {before : List (α × Bool)} {lost : Bool} :
      Delivered r.done before lost → out = before ++ unmarked r.part → Link r out false
  | losing : (r.part = [] → Delivered r.done out true) →
      (r.part ≠ [] → ∀ rest, Delivered (r.done ++ [r.part ++ rest]) out true) → Link r out true

namespace Link

variable {r : FrameReader α} {out : List (α × Bool)}

theorem start : Link (FrameReader.empty : FrameReader α) [] false := .flowing .nil rfl

theorem deliver (h : Link r out false) (w : α × Bool) : Link (r.read w) (out ++ [w]) false := by
  cases h with
  | flowing hdone hout =>
      obtain ⟨x, last⟩ := w
      cases last with
      | false =>
          refine .flowing hdone ?_
          rw [hout, List.append_assoc]
          exact congrArg _ (unmarked_append r.part [x]).symm
      | true =>
          refine .flowing (hdone.whole (r.part ++ [x])) ?_
          rw [hout, marked_append_singleton, List.append_assoc]
          exact (List.append_nil _).symm

theorem cut (h : Link r out false) (w : α × Bool) (t : α) :
    Link (r.read w) (out ++ [(t, true)]) true := by
  cases h with
  | flowing hdone hout =>
      obtain ⟨x, last⟩ := w
      rw [hout, List.append_assoc]
      cases last with
      | false =>
          refine .losing (fun h => absurd h (List.append_ne_nil_of_right_ne_nil _ (by simp))) ?_
          intro _ rest
          change Delivered (r.done ++ [r.part ++ [x] ++ rest]) _ true
          rw [List.append_assoc]
          exact hdone.cut t (by simp)
      | true => exact .losing (fun _ => hdone.cut t (by simp)) fun h => absurd rfl h

theorem miss (h : Link r out true) (w : α × Bool) : Link (r.read w) out true := by
  cases h with
  | losing hempty hpart =>
      obtain ⟨x, last⟩ := w
      have hany : ∀ rest, Delivered (r.done ++ [r.part ++ (x :: rest)]) out true := by
        intro rest
        by_cases h : r.part = []
        · exact (hempty h).missing _
        · exact hpart h _
      cases last with
      | false =>
          refine .losing (fun h => absurd h (List.append_ne_nil_of_right_ne_nil _ (by simp))) ?_
          intro _ rest
          change Delivered (r.done ++ [r.part ++ [x] ++ rest]) _ true
          rw [List.append_assoc]
          exact hany rest
      | true => exact .losing (fun _ => hany []) fun h => absurd rfl h

theorem resume (h : Link r out true) (hpart : r.part = []) : Link r out false := by
  cases h with
  | losing hempty _ =>
      refine .flowing (hempty hpart) ?_
      rw [hpart]
      exact (List.append_nil _).symm

/-- Between frames, all that is read is delivered. -/
theorem delivered_done {losing : Bool} (h : Link r out losing) (hpart : r.part = []) :
    ∃ lost, Delivered r.done out lost := by
  cases h with
  | flowing hdone hout =>
      rw [hout, hpart]
      exact ⟨_, by rwa [show unmarked ([] : List α) = [] from rfl, List.append_nil]⟩
  | losing hempty _ => exact ⟨true, hempty hpart⟩

/-- What comes out is the beginning of a delivery of all frames. -/
theorem delivered {losing : Bool} (h : Link r out losing) {frames : List (List α)}
    (hreads : r.Reads frames) : ∃ all lost, Delivered frames all lost ∧ out <+: all := by
  by_cases hpart : r.part = []
  · obtain ⟨more, rfl⟩ := hreads.done
    obtain ⟨lost, hdone⟩ := h.delivered_done hpart
    obtain ⟨lost', hall⟩ := hdone.rest more
    exact ⟨_, lost', hall, List.prefix_append _ _⟩
  · obtain ⟨rest, hrest, more, rfl⟩ := hreads.part hpart
    have hdone : ∃ out' lost, Delivered (r.done ++ [r.part ++ rest]) out' lost ∧ out <+: out' := by
      cases h with
      | flowing hdone hout =>
          refine ⟨_, false, hdone.whole (r.part ++ rest), ?_⟩
          rw [hout]
          exact (List.prefix_append_right_inj _).mpr (unmarked_prefix_marked hrest)
      | losing _ hcut => exact ⟨out, true, hcut hpart rest, List.prefix_rfl⟩
    obtain ⟨out', lost, hdone, hout⟩ := hdone
    obtain ⟨lost', hall⟩ := hdone.rest more
    exact ⟨_, lost', hall, hout.trans (List.prefix_append _ _)⟩

end Link

end CppHdl
