import CppHdl.Synth.JoinActivation

/-!
# What one clock of a schedule does

The exporter writes all blocks one after the other, each under its activation. What they
compute together is a walk: from the block a clock starts with, along the branches that
conditions choose, until control ends, is suspended or a fault stops it.
-/

namespace CppHdl.Synth

/-- A block that is not enabled changes nothing, a phase only the phase. -/
structure Meaning.Lawful {σ : Type*} (P : Meaning σ) : Prop where
  statements_off : ∀ n env, P.statements n false env = env
  setPhase_off : ∀ k env, P.setPhase false k env = env
  fault_setPhase : ∀ b k env, P.fault (P.setPhase b k env) = P.fault env

namespace ScheduledDesign

variable {σ : Type*} (d : ScheduledDesign) (P : Meaning σ)

/-- Whether a block goes on with `yes`. -/
def holds (n : Nat) (env : σ) : Bool := if (d.block n).conditional then P.condition n env else true

/-- `Walk n env path env'`: from block `n`, the blocks in `path` are run, each with the
values it leaves, and end with `env'`. -/
inductive Walk : Nat → σ → List (Nat × σ) → σ → Prop
  | fault {n : Nat} {env : σ} : P.fault (P.statements n true env) = true →
      Walk n env [(n, P.statements n true env)] (P.statements n true env)
  | suspend {n y : Nat} {env : σ} : P.fault (P.statements n true env) = false →
      d.holds P n (P.statements n true env) = true → (d.block n).suspend = true →
      (d.block n).yes = some y →
      Walk n env [(n, P.statements n true env)] (P.setPhase true (y + 1) (P.statements n true env))
  | finish {n : Nat} {env : σ} : P.fault (P.statements n true env) = false →
      (if d.holds P n (P.statements n true env) then (d.block n).yes else (d.block n).no) = none →
      Walk n env [(n, P.statements n true env)] (P.statements n true env)
  | yes {n y : Nat} {env env' : σ} {path : List (Nat × σ)} :
      P.fault (P.statements n true env) = false →
      d.holds P n (P.statements n true env) = true → (d.block n).suspend = false →
      (d.block n).yes = some y → Walk y (P.statements n true env) path env' →
      Walk n env ((n, P.statements n true env) :: path) env'
  | no {n m : Nat} {env env' : σ} {path : List (Nat × σ)} :
      P.fault (P.statements n true env) = false →
      d.holds P n (P.statements n true env) = false → (d.block n).no = some m →
      Walk m (P.statements n true env) path env' →
      Walk n env ((n, P.statements n true env) :: path) env'

variable {d P} {x : Export} {w : Start} {n : Nat}

/-- Where a block starts and what there is decides the walk. -/
theorem Walk.unique {env env₁ env₂ : σ} {path₁ path₂ : List (Nat × σ)}
    (h₁ : d.Walk P n env path₁ env₁) (h₂ : d.Walk P n env path₂ env₂) :
    path₁ = path₂ ∧ env₁ = env₂ := by
  induction h₁ generalizing path₂ env₂ with
  | fault hf => cases h₂ <;> simp_all
  | suspend hf hc hs hy => cases h₂ <;> simp_all
  | finish hf hnext => cases h₂ <;> simp_all
  | yes hf hc hs hy _ ih =>
      cases h₂ with
      | yes _ _ _ hy' hrest =>
          obtain rfl := Option.some_inj.mp (hy.symm.trans hy')
          obtain ⟨rfl, rfl⟩ := ih hrest
          exact ⟨rfl, rfl⟩
      | _ => simp_all
  | no hf hc hn _ ih =>
      cases h₂ with
      | no _ _ hn' hrest =>
          obtain rfl := Option.some_inj.mp (hn.symm.trans hn')
          obtain ⟨rfl, rfl⟩ := ih hrest
          exact ⟨rfl, rfl⟩
      | _ => simp_all

/-- A block that is not chosen, or finds a fault, changes nothing. -/
theorem exportBlock_idle (hlawful : P.Lawful) {st : Activity σ}
    (h : (d.chosen x st n && !P.fault st.env) = false) :
    (d.exportBlock x P st n).env = st.env ∧
      ∀ m, m ≠ n → ((d.exportBlock x P st n).active m = true ↔ st.active m = true) := by
  have hsignals : (d.blockSignals P n (d.chosen x st n) st.env).enabled = false ∧
      (d.blockSignals P n (d.chosen x st n) st.env).next = false := by
    unfold blockSignals
    dsimp only
    rw [h]
    exact ⟨rfl, rfl⟩
  constructor
  · unfold exportBlock
    dsimp only
    rw [Function.update_self, hsignals.1, hsignals.2, hlawful.statements_off, Bool.false_and]
    cases (d.block n).yes with
    | none => rfl
    | some y =>
        dsimp only
        rw [hlawful.setPhase_off, ite_self]
  · intro m hm
    rw [exportBlock_active, Function.update_of_ne hm]
    refine or_iff_left fun ht => ?_
    have hnext := ht.1
    rw [exportBlock_signals, Function.update_self, hsignals.2] at hnext
    exact Bool.false_ne_true hnext

theorem exportBlock_runs {st : Activity σ} (hchosen : d.chosen x st n = true)
    (hfault : P.fault st.env = false) :
    let env := P.statements n true st.env
    (d.exportBlock x P st n).signals n = ⟨true, true, !P.fault env, d.holds P n env⟩ ∧
      (d.exportBlock x P st n).env = (match (d.block n).yes with
        | some y => if (d.block n).suspend then
            P.setPhase (!P.fault env && d.holds P n env) (y + 1) env else env
        | none => env) := by
  have hsignals : d.blockSignals P n (d.chosen x st n) st.env =
      ⟨true, true, !P.fault (P.statements n true st.env),
        d.holds P n (P.statements n true st.env)⟩ := by
    unfold blockSignals
    rw [hchosen, hfault]
    rfl
  refine ⟨?_, ?_⟩
  · rw [exportBlock_signals, Function.update_self, hsignals]
  · unfold exportBlock
    cases hyes : (d.block n).yes with
    | none => simp only [Function.update_self, hsignals, hyes]
    | some y => simp only [Function.update_self, hsignals, hyes]

/-- Later blocks leave the signals of earlier ones. -/
theorem signals_foldl {l : List Nat} (st : Activity σ) (hn : n ∉ l) :
    (l.foldl (d.exportBlock x P) st).signals n = st.signals n := by
  induction l generalizing st with
  | nil => rfl
  | cons m l ih =>
      rw [List.foldl_cons, ih _ fun hin => hn (List.mem_cons_of_mem _ hin), exportBlock_signals,
        Function.update_of_ne]
      exact fun heq => hn (heq ▸ List.mem_cons_self)

theorem order_split (h : d.Acyclic x) {done rest : List Nat} (hsplit : d.order x = done ++ n :: rest) :
    n ∉ done ∧ ∀ m ∈ d.targets n, m ∉ done ∧ m ≠ n := by
  obtain ⟨-, hnodup, -⟩ := order_spec h
  have hn : n ∈ d.order x := by simp [hsplit]
  have hfresh : n ∉ done := fun hin => by
    rw [hsplit] at hnodup
    exact (List.nodup_append.mp hnodup).2.2 n hin n List.mem_cons_self rfl
  refine ⟨hfresh, fun m hm => ⟨fun hin => ?_, fun heq => ?_⟩⟩
  · have hlt := idxOf_lt h hn hm
    rw [hsplit, List.idxOf_append_of_mem hin, List.idxOf_append_of_notMem hfresh] at hlt
    have := List.idxOf_lt_length_of_mem hin
    omega
  · exact Nat.lt_irrefl _ (heq ▸ idxOf_lt h hn hm)

/-- A block is chosen where it waits to be active, or where an earlier one was stopped. -/
theorem chosen_iff (h : d.Acyclic x) (P : Meaning σ) (w : Start) (env : σ) {done rest : List Nat}
    (hsplit : d.order x = done ++ n :: rest) :
    let st := done.foldl (d.exportBlock x P) (d.unexported x w env)
    (st.active n = true → d.chosen x st n = true) ∧
      (d.chosen x st n = true → st.active n = true ∨
        ∃ m ∈ done, (st.signals m).active = true ∧ (st.signals m).next = false) := by
  intro st
  have hn : n ∈ d.order x := by simp [hsplit]
  obtain ⟨hmem, hnodup, -⟩ := order_spec h
  rw [hsplit] at hnodup
  obtain ⟨-, hrest, hapart⟩ := List.nodup_append.mp hnodup
  have hfresh : n ∉ done := fun hin => hapart n hin n List.mem_cons_self rfl
  have hfinal : d.exportBlocks x P w env =
      rest.foldl (d.exportBlock x P) (d.exportBlock x P st n) := by
    unfold exportBlocks
    rw [Worklist.run_eq_foldl]
    change (d.order x).foldl _ _ = _
    rw [hsplit, List.foldl_append]
    rfl
  -- signals of blocks up to `n` are final
  have hdone : ∀ m ∈ done, (d.exportBlocks x P w env).signals m = st.signals m := fun m hm => by
    have hmrest : m ∉ rest := fun hin => hapart m hm m (List.mem_cons_of_mem _ hin) rfl
    rw [hfinal, signals_foldl _ hmrest, exportBlock_signals, Function.update_of_ne]
    exact fun heq => hfresh (heq ▸ hm)
  have hself : ((d.exportBlocks x P w env).signals n).active = d.chosen x st n := by
    rw [hfinal, signals_foldl _ (List.nodup_cons.mp hrest).1, exportBlock_signals,
      Function.update_self]
    rfl
  have hbefore : ∀ m, m ∈ d.order x → (d.order x).idxOf m < (d.order x).idxOf n → m ∈ done := by
    intro m hm hlt
    by_contra hnot
    rw [hsplit, List.idxOf_append_of_notMem hnot, List.idxOf_append_of_notMem hfresh,
      List.idxOf_cons_self] at hlt
    omega
  have hwaiting := (exported_first h P w env done (n :: rest) hsplit).waiting n hfresh
  have hsum : st.active n = true ↔
      d.initial x w n = true ∨ ∃ p ∈ d.order x, d.Taken (d.exportBlocks x P w env).signals p n := by
    rw [hwaiting]
    refine or_congr_right ⟨fun ⟨p, hp, ht⟩ => ⟨p, ?_, ?_⟩, fun ⟨p, hp, ht⟩ => ?_⟩
    · rw [hsplit]
      exact List.mem_append_left _ hp
    · exact (taken_congr (hdone p hp)).mpr ht
    · have hin := hbefore p hp (idxOf_lt h hp (mem_targets_of_taken ht))
      exact ⟨p, hin, (taken_congr (hdone p hin)).mp ht⟩
  rw [hsum, ← hself]
  cases hsource : d.joinSource x n with
  | none =>
      have hiff := (exported h P w env).sum n hn hsource
      exact ⟨hiff.mpr, fun hactive => .inl (hiff.mp hactive)⟩
  | some s =>
      have hiff := (activation h P w env).active_iff hn hsource
      constructor
      · intro hsummed
        refine hiff.mpr (.inl (hsummed.imp_right fun ⟨p, hp, ht⟩ => ⟨p, hp, hp, ht⟩))
      · intro hactive
        rcases hiff.mp hactive with hsummed | ⟨m, ⟨-, hafter⟩, hmactive, hstuck⟩
        · exact .inl (hsummed.imp_right fun ⟨p, hp, _, ht⟩ => ⟨p, hp, ht⟩)
        · have hlt := Flow.rank_lt_of_path hafter
          obtain ⟨t, ⟨hm, -, -⟩, -⟩ := Relation.TransGen.head'_iff.mp hafter
          have hin := hbefore m hm hlt
          refine .inr ⟨m, hin, ?_, ?_⟩
          · rw [← hdone m hin]
            exact hmactive
          · rw [← hdone m hin]
            exact hstuck

/-- What will be left at the end: what the walk from the one block that waits to be active
leaves, or what is there, where nothing waits to be active or there is a fault. -/
inductive Walking (d : ScheduledDesign) (x : Export) (P : Meaning σ) (Left : σ → Prop)
    (done : List Nat) (st : Activity σ) : Prop
  | going (c : Nat) : c ∈ d.reachable x → c ∉ done → P.fault st.env = false →
      (∀ m, m ∉ done → (st.active m = true ↔ m = c)) →
      (∀ path env, d.Walk P c st.env path env → Left env) → Walking d x P Left done st
  | ended : (P.fault st.env = true ∨ ∀ m, m ∉ done → st.active m = false) → Left st.env →
      Walking d x P Left done st

/-- Earlier blocks were only stopped by a fault that is still there. -/
def Stopped (P : Meaning σ) (done : List Nat) (st : Activity σ) : Prop :=
  ∀ m ∈ done, (st.signals m).active = true → (st.signals m).next = false → P.fault st.env = true

section

variable {Left : σ → Prop} {done : List Nat} {st : Activity σ}

theorem Stopped.idle (hlawful : P.Lawful) (h : Stopped P done st) (hn : n ∉ done)
    (hidle : (d.chosen x st n && !P.fault st.env) = false) :
    Stopped P (done ++ [n]) (d.exportBlock x P st n) := by
  intro m hm hactive hnext
  rw [(exportBlock_idle hlawful hidle).1]
  rcases List.mem_append.mp hm with hm | hm
  · have hne : m ≠ n := fun heq => hn (heq ▸ hm)
    rw [exportBlock_signals, Function.update_of_ne hne] at hactive hnext
    exact h m hm hactive hnext
  · obtain rfl := List.mem_singleton.mp hm
    rw [exportBlock_signals, Function.update_self] at hactive
    change d.chosen x st m = true at hactive
    rw [hactive, Bool.true_and, Bool.not_eq_false'] at hidle
    exact hidle

theorem Walking.idle (hlawful : P.Lawful) (h : Walking d x P Left done st)
    (hidle : (d.chosen x st n && !P.fault st.env) = false)
    (hwaiting : P.fault st.env = true ∨ st.active n = false) :
    Walking d x P Left (done ++ [n]) (d.exportBlock x P st n) := by
  obtain ⟨henv, hactive⟩ := exportBlock_idle hlawful hidle
  have hold : ∀ m, m ∉ done ++ [n] → m ∉ done ∧ m ≠ n := fun m hm => by simpa using hm
  cases h with
  | going c hreach hc hfault hone hwalk =>
      have hcn : c ≠ n := by
        rintro rfl
        rcases hwaiting with htrue | hinactive
        · exact Bool.false_ne_true (hfault.symm.trans htrue)
        · exact Bool.false_ne_true (hinactive.symm.trans ((hone c hc).mpr rfl))
      refine .going c hreach (by simp [hc, hcn]) (henv ▸ hfault) (fun m hm => ?_) (henv ▸ hwalk)
      obtain ⟨hmdone, hmn⟩ := hold m hm
      rw [hactive m hmn]
      exact hone m hmdone
  | ended hend hleft =>
      refine .ended ?_ (henv ▸ hleft)
      rw [henv]
      refine hend.imp_right fun hnone m hm => ?_
      obtain ⟨hmdone, hmn⟩ := hold m hm
      rw [← Bool.not_eq_true, hactive m hmn, Bool.not_eq_true]
      exact hnone m hmdone

theorem Walking.run (hlawful : P.Lawful) (hreach : n ∈ d.reachable x)
    (hbehind : ∀ m ∈ d.targets n, m ∉ done ∧ m ≠ n)
    (hfault : P.fault st.env = false) (hone : ∀ m, m ∉ done → (st.active m = true ↔ m = n))
    (hwalk : ∀ path env, d.Walk P n st.env path env → Left env)
    (hchosen : d.chosen x st n = true) :
    Walking d x P Left (done ++ [n]) (d.exportBlock x P st n) := by
  obtain ⟨hsignals, henv⟩ := exportBlock_runs (x := x) hchosen hfault
  generalize hrun : P.statements n true st.env = env at hsignals henv
  have hold : ∀ m, m ∉ done ++ [n] → m ∉ done ∧ m ≠ n := fun m hm => by simpa using hm
  -- what waits to be active is what the block activates
  have hactive : ∀ m, m ∉ done ++ [n] → ((d.exportBlock x P st n).active m = true ↔
      P.fault env = false ∧ ((d.holds P n env = true ∧ (d.block n).suspend = false ∧
        (d.block n).yes = some m) ∨ d.holds P n env = false ∧ (d.block n).no = some m)) := by
    intro m hm
    obtain ⟨hmdone, hmn⟩ := hold m hm
    rw [exportBlock_active, Function.update_of_ne hmn, hone m hmdone, or_iff_right hmn]
    unfold Taken
    rw [hsignals, Bool.not_eq_true']
  have hnone : (∀ m, m ∉ done ++ [n] → ¬ (P.fault env = false ∧ ((d.holds P n env = true ∧
      (d.block n).suspend = false ∧ (d.block n).yes = some m) ∨
        d.holds P n env = false ∧ (d.block n).no = some m))) →
      ∀ m, m ∉ done ++ [n] → (d.exportBlock x P st n).active m = false := fun hall m hm => by
    rw [← Bool.not_eq_true, hactive m hm]
    exact hall m hm
  cases hf : P.fault env with
  | true =>
      have hsame : (d.exportBlock x P st n).env = env := by
        rw [henv, hf, Bool.not_true, Bool.false_and]
        cases (d.block n).yes with
        | none => rfl
        | some y =>
            dsimp only
            rw [hlawful.setPhase_off, ite_self]
      refine .ended (.inl (hsame ▸ hf)) (hwalk [(n, env)] _ ?_)
      rw [hsame, ← hrun]
      exact .fault (hrun ▸ hf)
  | false =>
      rw [hf, Bool.not_false, Bool.true_and] at henv
      cases hc : d.holds P n env with
      | true =>
          rw [hc] at henv
          cases hyes : (d.block n).yes with
          | none =>
              rw [hyes] at henv
              refine .ended (.inr (hnone fun m _ => ?_)) (hwalk [(n, env)] _ ?_)
              · rintro ⟨-, ⟨-, -, hsome⟩ | ⟨hfalse, -⟩⟩
                · exact Option.some_ne_none m (hsome.symm.trans hyes)
                · exact Bool.false_ne_true (hfalse.symm.trans hc)
              · rw [henv, ← hrun]
                exact .finish (hrun ▸ hf) (by rw [hrun, hc, if_pos rfl, hyes])
          | some y =>
              rw [hyes] at henv
              cases hs : (d.block n).suspend with
              | true =>
                  rw [hs] at henv
                  refine .ended (.inr (hnone fun m _ => ?_)) (hwalk [(n, env)] _ ?_)
                  · rintro ⟨-, ⟨-, hfalse, -⟩ | ⟨hfalse, -⟩⟩
                    · exact Bool.false_ne_true (hfalse.symm.trans hs)
                    · exact Bool.false_ne_true (hfalse.symm.trans hc)
                  · rw [henv, ← hrun]
                    exact .suspend (hrun ▸ hf) (hrun ▸ hc) hs hyes
              | false =>
                  rw [hs] at henv
                  have hsame : (d.exportBlock x P st n).env = env := henv
                  have htarget : y ∈ d.targets n := mem_targets.mpr (.inl ⟨hs, hyes⟩)
                  refine .going y (targets_mem hreach y htarget)
                    (by simpa using hbehind y htarget) (hsame ▸ hf) (fun m hm => ?_)
                    fun rest env' hrest => ?_
                  · rw [hactive m hm, hc, hs, hyes, Option.some_inj]
                    constructor
                    · rintro ⟨-, ⟨-, -, heq⟩ | ⟨htrue, -⟩⟩
                      · exact heq.symm
                      · exact absurd htrue.symm Bool.false_ne_true
                    · rintro rfl
                      exact ⟨hf, .inl ⟨rfl, rfl, rfl⟩⟩
                  · rw [hsame] at hrest
                    refine hwalk ((n, env) :: rest) _ ?_
                    rw [← hrun]
                    exact .yes (hrun ▸ hf) (hrun ▸ hc) hs hyes (hrun ▸ hrest)
      | false =>
          have hsame : (d.exportBlock x P st n).env = env := by
            rw [henv, hc]
            cases (d.block n).yes with
            | none => rfl
            | some y =>
                dsimp only
                rw [hlawful.setPhase_off, ite_self]
          cases hno : (d.block n).no with
          | none =>
              refine .ended (.inr (hnone fun m _ => ?_)) (hwalk [(n, env)] _ ?_)
              · rintro ⟨-, ⟨htrue, -, -⟩ | ⟨-, hsome⟩⟩
                · exact Bool.false_ne_true (hc.symm.trans htrue)
                · exact Option.some_ne_none m (hsome.symm.trans hno)
              · rw [hsame, ← hrun]
                exact .finish (hrun ▸ hf) (by rw [hrun, hc, if_neg Bool.false_ne_true, hno])
          | some k =>
              have htarget : k ∈ d.targets n := mem_targets.mpr (.inr hno)
              refine .going k (targets_mem hreach k htarget)
                (by simpa using hbehind k htarget) (hsame ▸ hf) (fun m hm => ?_)
                fun rest env' hrest => ?_
              · rw [hactive m hm, hc, hno, Option.some_inj]
                constructor
                · rintro ⟨-, ⟨hfalse, -, -⟩ | ⟨-, heq⟩⟩
                  · exact absurd hfalse Bool.false_ne_true
                  · exact heq.symm
                · rintro rfl
                  exact ⟨hf, .inr ⟨rfl, rfl⟩⟩
              · rw [hsame] at hrest
                refine hwalk ((n, env) :: rest) _ ?_
                rw [← hrun]
                exact .no (hrun ▸ hf) (hrun ▸ hc) hno (hrun ▸ hrest)

theorem Walking.step (hlawful : P.Lawful) (h : Walking d x P Left done st)
    (hstopped : Stopped P done st) (hn : n ∉ done) (hreach : n ∈ d.reachable x)
    (hbehind : ∀ m ∈ d.targets n, m ∉ done ∧ m ≠ n)
    (hchosen : (st.active n = true → d.chosen x st n = true) ∧
      (d.chosen x st n = true → st.active n = true ∨
        ∃ m ∈ done, (st.signals m).active = true ∧ (st.signals m).next = false)) :
    Walking d x P Left (done ++ [n]) (d.exportBlock x P st n) ∧
      Stopped P (done ++ [n]) (d.exportBlock x P st n) := by
  -- a block that does not wait to be active is idle
  have hidle : st.active n = false → (d.chosen x st n && !P.fault st.env) = false := by
    intro hinactive
    rw [Bool.and_eq_false_iff, Bool.not_eq_false']
    rw [← Bool.not_eq_true, Classical.or_iff_not_imp_left, not_not]
    intro hc
    rcases hchosen.2 hc with hactive | ⟨m, hm, hactive, hnext⟩
    · exact absurd (hinactive.symm.trans hactive) Bool.false_ne_true
    · exact hstopped m hm hactive hnext
  have hboth (h' : (d.chosen x st n && !P.fault st.env) = false) (hwaiting) :=
    And.intro (h.idle hlawful h' hwaiting) (hstopped.idle hlawful hn h')
  cases hf : P.fault st.env with
  | true => exact hboth (by rw [hf, Bool.not_true, Bool.and_false]) (.inl hf)
  | false =>
      cases ha : st.active n with
      | false => exact hboth (hidle ha) (.inr ha)
      | true =>
          have hc := hchosen.1 ha
          cases h with
          | ended hend hleft =>
              rcases hend with hfault | hnone
              · exact absurd (hf.symm.trans hfault) Bool.false_ne_true
              · exact absurd ((hnone n hn).symm.trans ha) Bool.false_ne_true
          | going c _ _ _ hone hwalk =>
              obtain rfl := (hone n hn).mp ha
              refine ⟨Walking.run hlawful hreach hbehind hf hone hwalk hc, fun m hm hactive hnext => ?_⟩
              obtain ⟨hsignals, henv⟩ := exportBlock_runs (x := x) hc hf
              rcases List.mem_append.mp hm with hm | hm
              · have hne : m ≠ n := fun heq => hn (heq ▸ hm)
                rw [exportBlock_signals, Function.update_of_ne hne] at hactive hnext
                exact absurd (hf.symm.trans (hstopped m hm hactive hnext)) Bool.false_ne_true
              · obtain rfl := List.mem_singleton.mp hm
                rw [hsignals, Bool.not_eq_false'] at hnext
                rw [henv]
                cases (d.block m).yes with
                | none => exact hnext
                | some y =>
                    dsimp only
                    split_ifs
                    · rw [hlawful.fault_setPhase]
                      exact hnext
                    · exact hnext

theorem Walking.exported (h : d.Acyclic x) (hlawful : P.Lawful) {start : σ}
    (hbegin : Walking d x P Left [] (d.unexported x w start)) :
    Left (d.exportBlocks x P w start).env := by
  obtain ⟨hmem, -, -⟩ := order_spec h
  have hprefix : ∀ done rest, d.order x = done ++ rest →
      let st := done.foldl (d.exportBlock x P) (d.unexported x w start)
      Walking d x P Left done st ∧ Stopped P done st := by
    intro done
    induction done using List.reverseRecOn with
    | nil => exact fun _ _ => ⟨hbegin, fun m hm => absurd hm List.not_mem_nil⟩
    | append_singleton done n ih =>
        intro rest hsplit
        have hsplit' : d.order x = done ++ n :: rest := by simp [hsplit]
        have hn : n ∈ d.order x := by simp [hsplit]
        obtain ⟨hwalking, hstopped⟩ := ih (n :: rest) hsplit'
        obtain ⟨hfresh, hbehind⟩ := order_split h hsplit'
        rw [List.foldl_append]
        exact hwalking.step hlawful hstopped hfresh ((hmem n).mp hn) hbehind
          (chosen_iff h P w start hsplit')
  obtain ⟨hwalking, -⟩ := hprefix _ [] (List.append_nil _).symm
  unfold exportBlocks
  rw [Worklist.run_eq_foldl]
  cases hwalking with
  | going c hreach hc => exact absurd ((hmem c).mpr hreach) hc
  | ended _ hleft => exact hleft

end

/-! ## Clocks -/

/-- A clock that starts with one block is a walk from it. -/
theorem exportBlocks_walk (h : d.Acyclic x) (hlawful : P.Lawful) {e : Nat} {start : σ}
    (he : e ∈ d.reachable x) (hfault : P.fault start = false)
    (hinitial : ∀ n, d.initial x w n = true ↔ n = e) :
    ∃ path, d.Walk P e start path (d.exportBlocks x P w start).env :=
  have hleft : Walking d x P (fun env => ∃ path, d.Walk P e start path env) []
      (d.unexported x w start) :=
    .going e he List.not_mem_nil hfault (fun m _ => hinitial m) fun path _ hwalk => ⟨path, hwalk⟩
  hleft.exported h hlawful

/-- A clock that starts with no block, or with a fault, changes nothing. -/
theorem exportBlocks_idle (h : d.Acyclic x) (hlawful : P.Lawful) {start : σ}
    (hidle : P.fault start = true ∨ ∀ n, d.initial x w n = false) :
    (d.exportBlocks x P w start).env = start :=
  have hleft : Walking d x P (· = start) [] (d.unexported x w start) :=
    .ended (hidle.imp_right fun hnone m _ => hnone m) rfl
  hleft.exported h hlawful

end ScheduledDesign

end CppHdl.Synth
