import CppHdl.Graph.Text

/-!
# What validation promises

`validateClocks` is a list of checks; this module reads off what a graph that
passes them satisfies. Later results about clocks start from these facts and
not from the checks.
-/

namespace CppHdl

namespace Graph

/-! ## Loops of checks -/

theorem forM_ok {α ε : Type} {f : α → Except ε Unit} {l : List α}
    (h : l.forM f = .ok ()) : ∀ a ∈ l, f a = .ok () := by
  induction l with
  | nil => simp
  | cons a l ih =>
      change (f a >>= fun _ => l.forM f) = .ok () at h
      cases ha : f a with
      | error e => rw [ha] at h; cases h
      | ok u =>
          rw [ha] at h
          intro b hb
          rcases List.mem_cons.mp hb with rfl | hb
          · exact ha
          · exact ih h b hb

/-- A loop of checks that passes an accumulator on, with an invariant on the
elements checked so far. -/
theorem foldlM_ok {α β ε : Type} {f : β → α → Except ε β} {l : List α} {b b' : β}
    (h : l.foldlM f b = .ok b') (I : List α → β → Prop) (h₀ : I [] b)
    (hstep : ∀ done a b c, I done b → f b a = .ok c → I (done ++ [a]) c) : I l b' := by
  have main : ∀ rest done b, done ++ rest = l → I done b → rest.foldlM f b = .ok b' → I l b' := by
    intro rest
    induction rest with
    | nil =>
        intro done b hl hI hrun
        rw [List.append_nil] at hl
        rw [List.foldlM_nil] at hrun
        cases hrun
        exact hl ▸ hI
    | cons a rest ih =>
        intro done b hl hI hrun
        rw [List.foldlM_cons] at hrun
        cases ha : f b a with
        | error e =>
            rw [ha] at hrun
            cases hrun
        | ok c =>
            rw [ha] at hrun
            exact ih (done ++ [a]) c (by simpa using hl) (hstep done a b c hI ha) hrun
  exact main l [] b rfl h₀ h

/-! ## Valid graphs -/

variable {g : Graph}

theorem checks_of_valid (h : g.validateClocks = .ok ()) :
    (∀ a ∈ g.memoryAccesses, g.checkAccess a = .ok ()) ∧
      (∃ writers, g.memoryWrites.foldlM g.checkWrite ∅ = .ok writers) ∧
      g.checkContract = .ok () := by
  unfold validateClocks at h
  simp only [bind, Except.bind] at h
  split at h
  · cases h
  · split at h
    · cases h
    · split at h
      · cases h
      · rename_i haccesses
        split at h
        · cases h
        · rename_i writers hwrites
          exact ⟨forM_ok haccesses, ⟨writers, hwrites⟩, h⟩

theorem checkContract_of_valid (h : g.validateClocks = .ok ()) : g.checkContract = .ok () :=
  (checks_of_valid h).2.2

/-- Without named edges there are no clocks, and no state has one. -/
theorem unclocked_of_valid (h : g.validateClocks = .ok ())
    (hcontract : g.clockContract ≠ .namedEdges) :
    g.clocks = [] ∧ ∀ s ∈ g.states, s.clock = -1 ∧ s.falling = false := by
  have hcheck := checkContract_of_valid h
  unfold checkContract at hcheck
  rw [if_neg hcontract] at hcheck
  split_ifs at hcheck with hclocks
  refine ⟨List.isEmpty_iff.mp hclocks, fun s hs => ?_⟩
  have hstate := forM_ok hcheck s hs
  unfold checkUnclocked at hstate
  split_ifs at hstate with hs
  push Not at hs
  exact ⟨hs.1, by simpa using hs.2⟩

/-- A record waits for an edge of the graph, if its clocks are named ones. -/
def OnEdge (g : Graph) (clock : Int) (falling : Bool) : Prop :=
  if g.clockContract = .namedEdges then 0 ≤ clock ∧ clock.toNat < g.clocks.length
  else clock = -1 ∧ falling = false

theorem onEdge_of_check {clock : Int} {falling : Bool}
    (h : g.checkMemoryClock clock falling = .ok ()) : g.OnEdge clock falling := by
  unfold checkMemoryClock at h
  unfold OnEdge
  split_ifs at h ⊢ with hcontract hclock hclock
  · push Not at hclock
    exact hclock
  · push Not at hclock
    exact ⟨hclock.1, by simpa using hclock.2⟩

theorem access_of_valid (h : g.validateClocks = .ok ()) {a : MemoryAccess}
    (ha : a ∈ g.memoryAccesses) : a.enabled.length = 1 ∧
      (if a.transaction then g.OnEdge a.clock a.falling else a.clock = -1 ∧ a.falling = false) := by
  have hcheck := (checks_of_valid h).1 a ha
  unfold checkAccess at hcheck
  split_ifs at hcheck with hshape htransaction hclock
  · push Not at hshape
    rw [if_pos htransaction]
    exact ⟨hshape.2.2.2, onEdge_of_check hcheck⟩
  · push Not at hshape hclock
    rw [if_neg htransaction]
    exact ⟨hshape.2.2.2, hclock.1, by simpa using hclock.2⟩

theorem write_of_valid (h : g.validateClocks = .ok ()) {w : MemoryWrite}
    (hw : w ∈ g.memoryWrites) : w.enabled.length = 1 ∧ g.OnEdge w.clock w.falling := by
  obtain ⟨writers, hwriters⟩ := (checks_of_valid h).2.1
  refine foldlM_ok hwriters
    (fun done _ => ∀ w ∈ done, w.enabled.length = 1 ∧ g.OnEdge w.clock w.falling) (by simp) ?_ w hw
  intro done w writers writers' hdone hcheck v hv
  rcases List.mem_append.mp hv with hv | hv
  · exact hdone v hv
  rw [List.mem_singleton.mp hv]
  unfold checkWrite at hcheck
  split at hcheck
  · cases hcheck
  · split_ifs at hcheck with hshape hrom
    push Not at hshape
    cases hclock : g.checkMemoryClock w.clock w.falling with
    | error e =>
        rw [hclock] at hcheck
        cases hcheck
    | ok u => exact ⟨hshape.2.2.2, onEdge_of_check hclock⟩

/-- Named clocks have distinct names that no data port has. -/
theorem clocks_of_valid (h : g.validateClocks = .ok ())
    (hcontract : g.clockContract = .namedEdges) :
    (g.clocks.map Clock.name).Nodup ∧ ∀ c ∈ g.clocks, ∀ p ∈ g.ports, p.name ≠ c.name := by
  have hcheck := checkContract_of_valid h
  unfold checkContract at hcheck
  rw [if_pos hcontract] at hcheck
  split_ifs at hcheck with hempty
  cases hclocks : g.clocks.foldlM g.checkClock [] with
  | error e =>
      rw [hclocks] at hcheck
      cases hcheck
  | ok names =>
      have := foldlM_ok hclocks (fun done names => names = done.map Clock.name ∧ names.Nodup ∧
        ∀ c ∈ done, ∀ p ∈ g.ports, p.name ≠ c.name) (by simp) ?_
      · exact ⟨this.1 ▸ this.2.1, this.2.2⟩
      rintro done c names names' ⟨rfl, hnodup, hports⟩ hstep
      unfold checkClock at hstep
      split_ifs at hstep with hname hidentifier hreserved hport
      cases hstep
      push Not at hname
      refine ⟨by simp, ?_, fun d hd p hp => ?_⟩
      · have hnew : c.name ∉ done.map Clock.name := by simpa using hname.2.2.1
        rw [List.nodup_append]
        refine ⟨hnodup, by simp, fun a ha b hb => ?_⟩
        rw [List.mem_singleton.mp hb]
        exact fun hab => hnew (hab ▸ ha)
      · rcases List.mem_append.mp hd with hd | hd
        · exact hports d hd p hp
        · rw [List.mem_singleton.mp hd]
          exact fun heq => hport (by simpa using ⟨p, hp, heq⟩)

end Graph

end CppHdl
