import CppHdl.Threads.Pool

/-!
# What a pool is for

A `Team` is a pool without stamps and without waiting: it is idle, or it works
on one dispatch, and then each lane waits, runs or has finished. A dispatch
returns once all its lanes have finished.

`Team.Invariant` is the rule for facts about single dispatches. It looks at the
events since the dispatch, and yields a `History` of completed dispatches, each
of them with the property the invariant ends in.
-/

namespace CppHdl.Threads

inductive Lane (κ : Type)
  | waiting
  | running (k : κ)
  | finished

inductive Team (φ α κ μ : Type)
  | idle
  | busy (d : Dispatch φ α) (epoch : Stamp) (memory : μ) (lane : Nat → Lane κ)

section

variable {φ α κ μ ε : Type} (lanes : Nat) (W : Work φ α κ μ ε)

inductive TeamStep : Team φ α κ μ → Option (Event φ α ε) → Team φ α κ μ → Prop
  | refuse {d : Dispatch φ α} : d.activeLanes = 0 ∨ lanes < d.activeLanes →
      TeamStep .idle (some (.refused d)) .idle
  | dispatch {d : Dispatch φ α} (epoch : Stamp) : 0 < d.activeLanes → d.activeLanes ≤ lanes →
      TeamStep .idle (some (.dispatched d))
        (.busy d epoch (W.memory d.model) fun _ => .waiting)
  | invoke {d : Dispatch φ α} {epoch : Stamp} {memory : μ} {st : Nat → Lane κ} {lane : Nat} :
      lane < d.activeLanes → st lane = .waiting →
      TeamStep (.busy d epoch memory st) (some (.invoked lane d.function d.model epoch))
        (.busy d epoch memory
          (Function.update st lane (.running (W.start d.function d.model lane epoch))))
  | work {d : Dispatch φ α} {epoch : Stamp} {memory memory' : μ} {st : Nat → Lane κ} {lane : Nat}
      {k k' : κ} {e : Option ε} :
      lane < d.activeLanes → st lane = .running k → W.step k memory e k' memory' →
      TeamStep (.busy d epoch memory st) (e.map (.worked lane))
        (.busy d epoch memory' (Function.update st lane (.running k')))
  | finish {d : Dispatch φ α} {epoch : Stamp} {memory : μ} {st : Nat → Lane κ} {lane : Nat}
      {k : κ} :
      lane < d.activeLanes → st lane = .running k → W.finished k →
      TeamStep (.busy d epoch memory st) (some (.finished lane))
        (.busy d epoch memory (Function.update st lane .finished))
  | leave {d : Dispatch φ α} {epoch : Stamp} {memory : μ} {st : Nat → Lane κ} :
      (∀ lane, lane < d.activeLanes → st lane = .finished) →
      TeamStep (.busy d epoch memory st) (some .returned) .idle

def team : Transitions (Team φ α κ μ) (Event φ α ε) where
  init a := a = .idle
  step := TeamStep lanes W

/-! ## Histories -/

/-- Dispatches one after another, each with property `Q` of the events between
its start and its return; nothing happens outside of them. -/
inductive History (Q : Dispatch φ α → List (Event φ α ε) → Prop) : List (Event φ α ε) → Prop
  | nil : History Q []
  | refused {es : List (Event φ α ε)} (d : Dispatch φ α) : History Q es →
      History Q (es ++ [.refused d])
  | returned {es seg : List (Event φ α ε)} {d : Dispatch φ α} : History Q es → Q d seg →
      History Q (es ++ .dispatched d :: (seg ++ [.returned]))

/-- A history, perhaps with a dispatch under way. -/
def HistoryTo (Q R : Dispatch φ α → List (Event φ α ε) → Prop) (es : List (Event φ α ε)) : Prop :=
  History Q es ∨ ∃ es₀ d seg, es = es₀ ++ .dispatched d :: seg ∧ History Q es₀ ∧ R d seg

/-- A property of a dispatch that each of its steps keeps, given the events
since it began, and what is left of it at the return. -/
structure Team.Invariant
    (I : Dispatch φ α → Stamp → μ → (Nat → Lane κ) → List (Event φ α ε) → Prop)
    (Q : Dispatch φ α → List (Event φ α ε) → Prop) : Prop where
  dispatch : ∀ {d epoch}, 0 < d.activeLanes → d.activeLanes ≤ lanes →
    I d epoch (W.memory d.model) (fun _ => .waiting) []
  invoke : ∀ {d epoch memory st seg lane}, I d epoch memory st seg → lane < d.activeLanes →
    st lane = .waiting →
    I d epoch memory (Function.update st lane (.running (W.start d.function d.model lane epoch)))
      (seg ++ [.invoked lane d.function d.model epoch])
  work : ∀ {d epoch memory memory' st seg lane k k' e}, I d epoch memory st seg →
    lane < d.activeLanes → st lane = .running k → W.step k memory e k' memory' →
    I d epoch memory' (Function.update st lane (.running k'))
      (seg ++ (e.map (Event.worked lane)).toList)
  finish : ∀ {d epoch memory st seg lane k}, I d epoch memory st seg → lane < d.activeLanes →
    st lane = .running k → W.finished k →
    I d epoch memory (Function.update st lane .finished) (seg ++ [.finished lane])
  leave : ∀ {d epoch memory st seg}, I d epoch memory st seg →
    (∀ lane, lane < d.activeLanes → st lane = .finished) → Q d seg

variable {lanes W}

/-- What an invariant says of the events so far. -/
def Team.Explains (I : Dispatch φ α → Stamp → μ → (Nat → Lane κ) → List (Event φ α ε) → Prop)
    (Q : Dispatch φ α → List (Event φ α ε) → Prop) (es : List (Event φ α ε)) :
    Team φ α κ μ → Prop
  | .idle => History Q es
  | .busy d epoch memory st => ∃ es₀ seg, es = es₀ ++ .dispatched d :: seg ∧ History Q es₀ ∧
      I d epoch memory st seg

theorem Team.Invariant.explains
    {I : Dispatch φ α → Stamp → μ → (Nat → Lane κ) → List (Event φ α ε) → Prop}
    {Q : Dispatch φ α → List (Event φ α ε) → Prop} (hI : Team.Invariant lanes W I Q)
    {es : List (Event φ α ε)} {a : Team φ α κ μ} (h : (team lanes W).Traces es a) :
    Team.Explains I Q es a := by
  obtain ⟨a₀, rfl, hrun⟩ := h
  refine hrun.invariant (Team.Explains I Q) .nil ?_
  intro es a e b ha hstep
  cases hstep with
  | refuse _ => exact .refused _ ha
  | dispatch epoch hpos hle => exact ⟨es, [], rfl, ha, hI.dispatch hpos hle⟩
  | invoke hlane hwaiting =>
      obtain ⟨es₀, seg, rfl, hes₀, hseg⟩ := ha
      exact ⟨es₀, _, by simp, hes₀, hI.invoke hseg hlane hwaiting⟩
  | work hlane hrunning hwork =>
      obtain ⟨es₀, seg, rfl, hes₀, hseg⟩ := ha
      exact ⟨es₀, _, by simp, hes₀, hI.work hseg hlane hrunning hwork⟩
  | finish hlane hrunning hfinished =>
      obtain ⟨es₀, seg, rfl, hes₀, hseg⟩ := ha
      exact ⟨es₀, _, by simp, hes₀, hI.finish hseg hlane hrunning hfinished⟩
  | leave hall =>
      obtain ⟨es₀, seg, rfl, hes₀, hseg⟩ := ha
      have := hes₀.returned (hI.leave hseg hall)
      simpa [Team.Explains] using this

/-- Two facts about dispatches are one. -/
theorem Team.Invariant.and
    {I J : Dispatch φ α → Stamp → μ → (Nat → Lane κ) → List (Event φ α ε) → Prop}
    {Q R : Dispatch φ α → List (Event φ α ε) → Prop} (hI : Team.Invariant lanes W I Q)
    (hJ : Team.Invariant lanes W J R) :
    Team.Invariant lanes W (fun d e m st seg => I d e m st seg ∧ J d e m st seg)
      (fun d seg => Q d seg ∧ R d seg) where
  dispatch hpos hle := ⟨hI.dispatch hpos hle, hJ.dispatch hpos hle⟩
  invoke h hlane hwaiting := ⟨hI.invoke h.1 hlane hwaiting, hJ.invoke h.2 hlane hwaiting⟩
  work h hlane hrunning hwork :=
    ⟨hI.work h.1 hlane hrunning hwork, hJ.work h.2 hlane hrunning hwork⟩
  finish h hlane hrunning hfinished :=
    ⟨hI.finish h.1 hlane hrunning hfinished, hJ.finish h.2 hlane hrunning hfinished⟩
  leave h hall := ⟨hI.leave h.1 hall, hJ.leave h.2 hall⟩

/-- Less may be said of the dispatches that have returned. -/
theorem Team.Invariant.weaken
    {I : Dispatch φ α → Stamp → μ → (Nat → Lane κ) → List (Event φ α ε) → Prop}
    {Q Q' : Dispatch φ α → List (Event φ α ε) → Prop} (hI : Team.Invariant lanes W I Q)
    (hQ : ∀ d seg, Q d seg → Q' d seg) : Team.Invariant lanes W I Q' :=
  { hI with leave := fun h hall => hQ _ _ (hI.leave h hall) }

theorem Team.Invariant.history
    {I : Dispatch φ α → Stamp → μ → (Nat → Lane κ) → List (Event φ α ε) → Prop}
    {Q R : Dispatch φ α → List (Event φ α ε) → Prop} (hI : Team.Invariant lanes W I Q)
    (hR : ∀ {d epoch memory st seg}, I d epoch memory st seg → R d seg)
    {es : List (Event φ α ε)} {a : Team φ α κ μ} (h : (team lanes W).Traces es a) :
    HistoryTo Q R es := by
  have hes := hI.explains h
  cases a with
  | idle => exact .inl hes
  | busy d epoch memory st =>
      obtain ⟨es₀, seg, rfl, hes₀, hseg⟩ := hes
      exact .inr ⟨es₀, d, seg, rfl, hes₀, hR hseg⟩

end

end CppHdl.Threads
