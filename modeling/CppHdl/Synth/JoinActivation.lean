import CppHdl.Synth.ScheduledJoins

/-!
# Activations of a scheduled graph

The blocks of a clock are exported in their order. A block is enabled where it is active
and there is no fault; where its statements add none, it activates what follows. A join
with a source takes the activation of that block, whatever its edges say.

That is the sum of the edges, up to paths on which a fault stopped an active block.
-/

namespace CppHdl.Synth

/-- What the texts of the blocks do to the values of a clock. -/
structure Meaning (σ : Type*) where
  statements : Nat → Bool → σ → σ
  condition : Nat → σ → Bool
  fault : σ → Bool
  /-- The phase is set where a suspended block is left. -/
  setPhase : Bool → Nat → σ → σ

/-- The signals of a block; `next` is left of `enabled` after its statements. -/
structure Signals where
  active : Bool
  enabled : Bool
  next : Bool
  condition : Bool

/-- The values during the export, and the activations so far. -/
structure Activity (σ : Type*) where
  env : σ
  active : Nat → Bool
  signals : Nat → Signals

structure Start where
  start : Bool
  accepted : Bool
  phase : BitVec 32

namespace ScheduledDesign

variable {σ : Type*} (d : ScheduledDesign) (x : Export) (P : Meaning σ) (w : Start)

/-- A pipeline accepts in every clock, and its phase is zero. -/
def accepted : Bool := x.pipeline || w.accepted

def phaseIs (n : Nat) : Bool :=
  (if x.pipeline then 0 else w.phase) == BitVec.ofNat 32 (n + 1)

/-- What is active before any block has been exported. -/
def initial (n : Nat) : Bool :=
  (!d.externalMemory && decide (n = d.first x) && (w.start && accepted x w)) ||
    (decide (n ∈ d.continuations x) &&
      (w.start && if d.externalMemory then phaseIs x w n else !accepted x w && phaseIs x w n))

/-- A join with a source has its activation. -/
def chosen (st : Activity σ) (n : Nat) : Bool :=
  match d.joinSource x n with
  | some s => st.active s
  | none => st.active n

def blockSignals (n : Nat) (active : Bool) (env : σ) : Signals :=
  let enabled := active && !P.fault env
  let env := P.statements n enabled env
  let next := enabled && !P.fault env
  ⟨active, enabled, next, if (d.block n).conditional then P.condition n env else true⟩

/-- Both branches add to what is active. -/
def follow (b : Block) (yes no : Bool) (active : Nat → Bool) : Nat → Bool :=
  let active := match b.yes with
    | some y => if b.suspend then active else Function.update active y (active y || yes)
    | none => active
  match b.no with
  | some m => Function.update active m (active m || no)
  | none => active

def exportBlock (st : Activity σ) (n : Nat) : Activity σ :=
  let b := d.block n
  let active := Function.update st.active n (d.chosen x st n)
  let signals := d.blockSignals P n (active n) st.env
  let env := P.statements n signals.enabled st.env
  let yes := signals.next && signals.condition
  { env := match b.yes with
      | some y => if b.suspend then P.setPhase yes (y + 1) env else env
      | none => env
    active := follow b yes (signals.next && !signals.condition) active
    signals := Function.update st.signals n signals }

/-- No block has been exported. -/
def unexported (env : σ) : Activity σ :=
  ⟨env, d.initial x w, fun _ => ⟨false, false, false, false⟩⟩

/-- All blocks that become ready. -/
def exportBlocks (env : σ) : Activity σ :=
  Worklist.run d.targets (d.exportBlock x P) (d.reachable x).card (d.incoming x)
    (d.unexported x w env)

def Taken (S : Nat → Signals) (p m : Nat) : Prop :=
  (S p).next = true ∧
    (((S p).condition = true ∧ (d.block p).suspend = false ∧ (d.block p).yes = some m) ∨
      ((S p).condition = false ∧ (d.block p).no = some m))

/-- The start or an incoming edge activates `n`. -/
def Summed (S : Nat → Signals) (n : Nat) : Prop :=
  d.initial x w n = true ∨ ∃ p ∈ d.reachable x, d.Taken S p n

/-- `m` lies on a path from `s` to `n` within the clock, before its end. -/
def Passes (s m n : Nat) : Prop :=
  Relation.ReflTransGen (Worklist.Edge d.targets (d.reachable x)) s m ∧
    Relation.TransGen (Worklist.Edge d.targets (d.reachable x)) m n

variable {d x P w} {n m s : Nat}

/-- What starts on its own has an edge from the entry. -/
theorem mem_entries (h : d.initial x w n = true) (hn : n < d.size) : n ∈ d.entries x := by
  have hsize : d.size < 2 ^ 31 := d.size_lt
  unfold initial at h
  unfold entries
  rcases Bool.or_eq_true_iff.mp h with h | h
  · obtain ⟨-, hfirst⟩ := Bool.and_eq_true_iff.mp (Bool.and_eq_true_iff.mp h).1
    exact Finset.mem_insert.mpr (.inl (of_decide_eq_true hfirst))
  · obtain ⟨hcontinuation, hactive⟩ := Bool.and_eq_true_iff.mp h
    refine Finset.mem_insert_of_mem ?_
    cases hpipeline : x.pipeline with
    | false => exact of_decide_eq_true hcontinuation
    | true =>
        -- no phase of a pipeline resumes a block
        have hphase : phaseIs x w n = false := by
          unfold phaseIs
          rw [if_pos hpipeline, beq_eq_false_iff_ne]
          intro heq
          have hval := congrArg BitVec.toNat heq
          rw [BitVec.toNat_ofNat, Nat.mod_eq_of_lt (by omega)] at hval
          change 0 = n + 1 at hval
          omega
        have haccepted : accepted x w = true := by
          unfold accepted
          rw [hpipeline, Bool.true_or]
        rw [hphase, haccepted, Bool.and_false, ite_self, Bool.and_false] at hactive
        exact absurd hactive Bool.false_ne_true

theorem mem_targets_of_taken {S : Nat → Signals} (h : d.Taken S n m) : m ∈ d.targets n := by
  rw [mem_targets]
  rcases h.2 with ⟨-, hsuspend, hyes⟩ | ⟨-, hno⟩
  · exact .inl ⟨hsuspend, hyes⟩
  · exact .inr hno

/-! ## One block -/

theorem follow_iff {b : Block} {yes no : Bool} {active : Nat → Bool} :
    follow b yes no active m = true ↔ active m = true ∨
      (yes = true ∧ b.suspend = false ∧ b.yes = some m) ∨ (no = true ∧ b.no = some m) := by
  have hupdate : ∀ (f : Nat → Bool) k (v : Bool),
      Function.update f k (f k || v) m = true ↔ f m = true ∨ v = true ∧ k = m := by
    intro f k v
    by_cases h : m = k
    · subst h
      rw [Function.update_self, Bool.or_eq_true]
      exact or_congr_right (and_iff_left rfl).symm
    · rw [Function.update_of_ne h]
      exact (or_iff_left fun hand => h hand.2.symm).symm
  have hyes : (match b.yes with
      | some y => if b.suspend then active else Function.update active y (active y || yes)
      | none => active) m = true ↔
        active m = true ∨ (yes = true ∧ b.suspend = false ∧ b.yes = some m) := by
    cases b.yes with
    | none => simp
    | some y =>
        cases b.suspend with
        | true => simp
        | false => simpa using hupdate active y yes
  unfold follow
  cases b.no with
  | none => simpa using hyes
  | some k =>
      dsimp only
      rw [hupdate, hyes, or_assoc, Option.some_inj]

theorem exportBlock_signals (st : Activity σ) (n : Nat) :
    (d.exportBlock x P st n).signals =
      Function.update st.signals n (d.blockSignals P n (d.chosen x st n) st.env) := by
  unfold exportBlock
  dsimp only
  rw [Function.update_self]

/-- Blocks become active along the edges. -/
theorem exportBlock_active (st : Activity σ) :
    (d.exportBlock x P st n).active m = true ↔
      Function.update st.active n (d.chosen x st n) m = true ∨
        d.Taken (d.exportBlock x P st n).signals n m := by
  unfold Taken
  rw [exportBlock_signals, Function.update_self]
  unfold exportBlock
  dsimp only
  rw [follow_iff, Function.update_self, Bool.and_eq_true, Bool.and_eq_true, Bool.not_eq_true']
  refine or_congr_right ?_
  rw [and_assoc, and_assoc, ← and_or_left]

/-! ## Runs -/

/-- After the blocks of `done`: who waits has the sum of the edges that were exported, and
who is done has the signals it was exported with. -/
structure Exported (d : ScheduledDesign) (x : Export) (w : Start) (done : List Nat)
    (st : Activity σ) : Prop where
  waiting : ∀ m, m ∉ done →
    (st.active m = true ↔ d.initial x w m = true ∨ ∃ p ∈ done, d.Taken st.signals p m)
  visited : ∀ m ∈ done, st.active m = (st.signals m).active
  sum : ∀ m ∈ done, d.joinSource x m = none → ((st.signals m).active = true ↔
    d.initial x w m = true ∨ ∃ p ∈ done, d.Taken st.signals p m)
  source : ∀ m ∈ done, ∀ s, d.joinSource x m = some s →
    s ∈ done ∧ (st.signals m).active = (st.signals s).active
  next : ∀ m ∈ done, (st.signals m).next = true → (st.signals m).active = true
  condition : ∀ m ∈ done, (d.block m).conditional = false → (st.signals m).condition = true

theorem taken_congr {S T : Nat → Signals} (h : S n = T n) : d.Taken S n m ↔ d.Taken T n m := by
  unfold Taken
  rw [h]

theorem Exported.step {done : List Nat} {st : Activity σ} (h : Exported d x w done st)
    (hn : n ∉ done) (hbehind : ∀ m ∈ d.targets n, m ∉ done ∧ m ≠ n)
    (hsource : ∀ s, d.joinSource x n = some s → s ∈ done) :
    Exported d x w (done ++ [n]) (d.exportBlock x P st n) := by
  have hsignals := exportBlock_signals (d := d) (x := x) (P := P) st n
  have hself : (d.exportBlock x P st n).signals n =
      d.blockSignals P n (d.chosen x st n) st.env := by
    rw [hsignals, Function.update_self]
  have hold : ∀ m ∈ done, (d.exportBlock x P st n).signals m = st.signals m := fun m hm => by
    rw [hsignals, Function.update_of_ne]
    exact fun heq => hn (heq ▸ hm)
  have hmem : ∀ m, m ∈ done ++ [n] ↔ m ∈ done ∨ m = n := fun m => by simp
  have hactive : ∀ m, m ≠ n → ((d.exportBlock x P st n).active m = true ↔
      st.active m = true ∨ d.Taken (d.exportBlock x P st n).signals n m) := fun m hm => by
    rw [exportBlock_active, Function.update_of_ne hm]
  -- the edges of earlier blocks are what they were
  have htaken : ∀ m, (∃ p ∈ done ++ [n], d.Taken (d.exportBlock x P st n).signals p m) ↔
      (∃ p ∈ done, d.Taken st.signals p m) ∨ d.Taken (d.exportBlock x P st n).signals n m := by
    intro m
    constructor
    · rintro ⟨p, hp, ht⟩
      rcases (hmem p).mp hp with hp | rfl
      · exact .inl ⟨p, hp, (taken_congr (hold p hp)).mp ht⟩
      · exact .inr ht
    · rintro (⟨p, hp, ht⟩ | ht)
      · exact ⟨p, (hmem p).mpr (.inl hp), (taken_congr (hold p hp)).mpr ht⟩
      · exact ⟨n, (hmem n).mpr (.inr rfl), ht⟩
  have hnot : ∀ m, m ∈ done ∨ m = n → ¬ d.Taken (d.exportBlock x P st n).signals n m := by
    intro m hm ht
    obtain ⟨hfresh, hne⟩ := hbehind m (mem_targets_of_taken ht)
    rcases hm with hm | hm
    · exact hfresh hm
    · exact hne hm
  refine ⟨?_, ?_, ?_, ?_, ?_, ?_⟩
  · intro m hm
    rw [hmem, not_or] at hm
    rw [hactive m hm.2, h.waiting m hm.1, htaken, or_assoc]
  · intro m hm
    rcases (hmem m).mp hm with hm' | rfl
    · have hne : m ≠ n := fun heq => hn (heq ▸ hm')
      rw [hold m hm', ← h.visited m hm', Bool.eq_iff_iff, hactive m hne]
      exact or_iff_left (hnot m (.inl hm'))
    · rw [hself, Bool.eq_iff_iff, exportBlock_active, Function.update_self]
      exact or_iff_left (hnot m (.inr rfl))
  · intro m hm hnone
    rw [htaken, or_iff_left (hnot m ((hmem m).mp hm))]
    rcases (hmem m).mp hm with hm' | rfl
    · rw [hold m hm']
      exact h.sum m hm' hnone
    · rw [hself]
      unfold blockSignals chosen
      rw [hnone]
      exact h.waiting m hn
  · intro m hm s hs
    rcases (hmem m).mp hm with hm' | rfl
    · obtain ⟨hsdone, heq⟩ := h.source m hm' s hs
      refine ⟨(hmem s).mpr (.inl hsdone), ?_⟩
      rw [hold m hm', hold s hsdone, heq]
    · have hsdone := hsource s hs
      refine ⟨(hmem s).mpr (.inl hsdone), ?_⟩
      rw [hself, hold s hsdone, ← h.visited s hsdone]
      unfold blockSignals chosen
      rw [hs]
  · intro m hm
    rcases (hmem m).mp hm with hm' | rfl
    · rw [hold m hm']
      exact h.next m hm'
    · rw [hself]
      unfold blockSignals
      simp only [Bool.and_eq_true]
      exact fun hnext => hnext.1.1
  · intro m hm hconditional
    rcases (hmem m).mp hm with hm' | rfl
    · rw [hold m hm']
      exact h.condition m hm' hconditional
    · rw [hself]
      unfold blockSignals
      dsimp only
      rw [hconditional]
      rfl

/-- Over the blocks exported so far. -/
theorem exported_first (h : d.Acyclic x) (P : Meaning σ) (w : Start) (env : σ) :
    ∀ done rest, d.order x = done ++ rest →
      Exported d x w done (done.foldl (d.exportBlock x P) (d.unexported x w env)) := by
  obtain ⟨hmem, hnodup, htopological⟩ := order_spec h
  intro done
  induction done using List.reverseRecOn with
  | nil =>
      intro rest _
      exact ⟨fun m _ => by simp [unexported], by simp, by simp, by simp, by simp, by simp⟩
  | append_singleton done n ih =>
      intro rest hsplit
      have hsplit' : d.order x = done ++ n :: rest := by simp [hsplit]
      have hn : n ∈ d.order x := by simp [hsplit]
      have hfresh : n ∉ done := fun hin => by
        rw [hsplit'] at hnodup
        exact (List.nodup_append.mp hnodup).2.2 n hin n List.mem_cons_self rfl
      have hdone : ∀ m ∈ done, (d.order x).idxOf m < (d.order x).idxOf n := fun m hm => by
        rw [hsplit', List.idxOf_append_of_mem hm, List.idxOf_append_of_notMem hfresh]
        exact Nat.lt_of_lt_of_le (List.idxOf_lt_length_of_mem hm) (Nat.le_add_right ..)
      rw [List.foldl_append]
      refine (ih (n :: rest) hsplit').step hfresh (fun m hm => ?_) fun s hs => ?_
      · have hlt := idxOf_lt h hn hm
        refine ⟨fun hin => ?_, fun heq => ?_⟩
        · exact Nat.lt_asymm hlt (hdone m hin)
        · exact Nat.lt_irrefl _ (heq ▸ hlt)
      · -- a source stands before its join
        obtain ⟨hdom, hne, hentry, -, -⟩ := (d.joins x h).source_spec n hn s hs
        have hlt := (d.joins x h).dom_rank hn hdom hentry hne
        change (d.order x).idxOf s < (d.order x).idxOf n at hlt
        by_contra hsdone
        rw [hsplit', List.idxOf_append_of_notMem hsdone, List.idxOf_append_of_notMem hfresh,
          List.idxOf_cons_self] at hlt
        omega

theorem exported (h : d.Acyclic x) (P : Meaning σ) (w : Start) (env : σ) :
    Exported d x w (d.order x) (d.exportBlocks x P w env) := by
  unfold exportBlocks
  rw [Worklist.run_eq_foldl]
  exact exported_first h P w env _ [] (List.append_nil _).symm

/-! ## Joins -/

def activation (h : d.Acyclic x) (P : Meaning σ) (w : Start) (env : σ) : Activation Nat where
  toJoins := d.joins x h
  initial n := d.initial x w n = true
  edge p n := p ∈ d.order x ∧ d.Taken (d.exportBlocks x P w env).signals p n
  active n := ((d.exportBlocks x P w env).signals n).active = true
  stuck n := ((d.exportBlocks x P w env).signals n).next = false
  initial_entry n hn hinitial :=
    mem_predecessors.mpr (.inr ⟨rfl, .inl (mem_entries hinitial (order_lt h hn))⟩)
  edge_pred p n hedge := by
    have hp := ((order_spec h).1 p).mp hedge.1
    exact ⟨mem_predecessors.mpr (.inl ⟨hp, mem_targets_of_taken hedge.2⟩),
      (exported h P w env).next p hedge.1 hedge.2.1⟩
  active_goes n hn _ hstuck := by
    have hnext := (Bool.not_eq_false _).mp hstuck
    have hconditional := (exported h P w env).condition n hn
    change ∃ t ∈ d.successors n, t = d.exit ∨ n ∈ d.order x ∧ d.Taken _ n t
    unfold successors Taken
    cases hcondition : ((d.exportBlocks x P w env).signals n).condition with
    | true =>
        refine ⟨_, List.mem_cons_self, ?_⟩
        cases hsuspend : (d.block n).suspend with
        | true => exact .inl rfl
        | false =>
            cases hyes : (d.block n).yes with
            | none => exact .inl rfl
            | some y => exact .inr ⟨hn, hnext, .inl ⟨rfl, rfl, rfl⟩⟩
    | false =>
        cases hno : (d.block n).no with
        | some m => exact ⟨m, by simp, .inr ⟨hn, hnext, .inr ⟨rfl, rfl⟩⟩⟩
        | none =>
            have hsome : (d.block n).conditional = true := by
              by_contra hnot
              exact Bool.false_ne_true (hcondition.symm.trans
                (hconditional ((Bool.not_eq_true _).mp hnot)))
            refine ⟨d.exit, ?_, .inl rfl⟩
            rw [hsome]
            simp
  active_sum n hn hnone := by
    rw [(exported h P w env).sum n hn hnone]
    refine or_congr_right (exists_congr fun p => ?_)
    exact ⟨fun ⟨hp, ht⟩ => ⟨hp, hp, ht⟩, fun ⟨hp, _, ht⟩ => ⟨hp, ht⟩⟩
  active_source n hn s hs := by
    rw [((exported h P w env).source n hn s hs).2]

theorem leads_iff (h : d.Acyclic x) {p n : Nat} :
    (d.joins x h).Leads p n ↔ Worklist.Edge d.targets (d.reachable x) p n := by
  obtain ⟨hmem, -, -⟩ := order_spec h
  constructor
  · rintro ⟨hp, hn, ht⟩
    exact ⟨(hmem p).mp hp, (mem_successors (ne_exit h hn)).mp ht⟩
  · rintro ⟨hp, ht⟩
    have hn := (hmem n).mpr (targets_mem hp n ht)
    exact ⟨(hmem p).mpr hp, hn, (mem_successors (ne_exit h hn)).mpr ht⟩

/-- Blocks without a source are active where the start or an edge activates them. A join
is active where its source is: that is where the start or an edge activates it, or where a
block between both was active and stopped by a fault. -/
theorem active_iff_summed (h : d.Acyclic x) (P : Meaning σ) (w : Start) (env : σ) :
    let S := (d.exportBlocks x P w env).signals
    ∀ n ∈ d.reachable x,
      (d.joinSource x n = none → ((S n).active = true ↔ d.Summed x w S n)) ∧
        ∀ s, d.joinSource x n = some s → (S n).active = (S s).active ∧
          ((S n).active = true ↔ d.Summed x w S n ∨
            ∃ m, d.Passes x s m n ∧ (S m).active = true ∧ (S m).next = false) := by
  intro S n hreach
  obtain ⟨hmem, -, -⟩ := order_spec h
  have hn := (hmem n).mpr hreach
  have hsum : (d.initial x w n = true ∨ ∃ p ∈ d.order x, d.Taken S p n) ↔ d.Summed x w S n :=
    or_congr_right (exists_congr fun p => and_congr_left' (hmem p))
  refine ⟨fun hnone => ((exported h P w env).sum n hn hnone).trans hsum, fun s hs => ?_⟩
  refine ⟨((exported h P w env).source n hn s hs).2, ?_⟩
  refine ((activation h P w env).active_iff hn hs).trans (or_congr ?_ (exists_congr fun m => ?_))
  · refine Iff.trans ?_ hsum
    refine or_congr_right (exists_congr fun p => ?_)
    exact ⟨fun ⟨hp, _, ht⟩ => ⟨hp, ht⟩, fun ⟨hp, ht⟩ => ⟨hp, hp, ht⟩⟩
  · have hleads : (d.joins x h).Leads = Worklist.Edge d.targets (d.reachable x) :=
      funext₂ fun _ _ => propext (leads_iff h)
    unfold Passes
    rw [← hleads]
    exact Iff.rfl

theorem acyclic_of_lt (h : ∀ p ∈ d.reachable x, ∀ t ∈ d.targets p, p < t) : d.Acyclic x := by
  intro n hcycle
  have hlt : ∀ m, Relation.TransGen (Worklist.Edge d.targets (d.reachable x)) n m → n < m := by
    intro m hpath
    induction hpath with
    | single hedge => exact h n hedge.1 _ hedge.2
    | tail _ hedge ih => exact Nat.lt_trans ih (h _ hedge.1 _ hedge.2)
  exact Nat.lt_irrefl n (hlt n hcycle)

/-- A fork of two blocks that join in the last one. -/
def diamond : ScheduledDesign where
  blocks := [⟨some 1, some 2, false, true⟩, ⟨some 3, none, false, false⟩,
    ⟨some 3, none, false, false⟩, ⟨none, none, false, false⟩]
  resetEntry := 0
  commandEntry := 0
  externalMemory := false
  size_lt := by decide
  resetEntry_lt := by decide
  commandEntry_lt := by decide
  target_lt := by decide

/-- The last block of the diamond has the fork as its source. -/
theorem active_iff_summed_diamond :
    diamond.joinSource ⟨false, false⟩ 3 = some 0 ∧
      let P : Meaning Bool := ⟨fun _ _ fault => fault, fun _ _ => true, id, fun _ _ fault => fault⟩
      let S := (diamond.exportBlocks ⟨false, false⟩ P ⟨true, true, 0⟩ false).signals
      ∀ n ∈ diamond.reachable ⟨false, false⟩,
        (diamond.joinSource ⟨false, false⟩ n = none →
          ((S n).active = true ↔ diamond.Summed ⟨false, false⟩ ⟨true, true, 0⟩ S n)) ∧
          ∀ s, diamond.joinSource ⟨false, false⟩ n = some s → (S n).active = (S s).active ∧
            ((S n).active = true ↔ diamond.Summed ⟨false, false⟩ ⟨true, true, 0⟩ S n ∨
              ∃ m, diamond.Passes ⟨false, false⟩ s m n ∧ (S m).active = true ∧
                (S m).next = false) :=
  ⟨by decide +kernel, active_iff_summed (acyclic_of_lt (by decide +kernel)) _ _ _⟩

end ScheduledDesign

end CppHdl.Synth
