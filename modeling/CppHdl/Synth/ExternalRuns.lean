import CppHdl.Synth.ExternalChannel

/-!
# Every access once

In a run that begins with a reset, a command is presented exactly in the clocks after a
block executed it, until it is accepted or the next reset, with the pins of that block and
nothing else. Until the response the schedule stands still; the block behind the access is
run in the clock after it, with its data.
-/

namespace CppHdl.Synth

namespace ExternalDesign

variable {σ τ ι : Type} (D : ExternalDesign σ τ ι) (r : Registers σ ι) (x : Nat → Pins ι)

def state : Nat → Registers σ ι
  | 0 => r
  | n + 1 => D.clock (state n) (x n)

/-- The port presents a command. -/
def Presents (n : Nat) (a : Access) : Prop :=
  validIn (D.state r x n) (x n) = true ∧ (D.state r x n).saved = a

def Accepts (n : Nat) : Prop := accept (D.state r x n) (x n) = true

def Completes (n : Nat) : Prop := complete (D.state r x n) (x n) = true

def ExecutesAt (n b : Nat) (op : Operation) : Prop := D.Executes (D.state r x n) (x n) b op

/-- From the access in clock `j` to clock `n` there was neither a response nor a reset. -/
def Quiet (j n : Nat) : Prop :=
  ∀ k, j < k → k < n → ¬ D.Completes r x k ∧ (x k).reset = false

/-- The access of clock `j` is under way in clock `n`. -/
structure UnderWay (j n : Nat) (b : Nat) (op : Operation) : Prop where
  executed : D.ExecutesAt r x j b op
  lt : j < n
  quiet : D.Quiet r x j n
  busy : (D.state r x n).busy = true
  saved : (D.state r x n).saved = op.pins
  fault : (D.state r x n).fault = 0
  phase : ∃ y, (D.design.block b).yes = some y ∧
    (D.state r x n).phase = BitVec.ofNat 32 (y + 1)
  vars : (D.state r x n).vars = (D.state r x (j + 1)).vars
  sent : (D.state r x n).sent = true ↔ ∃ k, j < k ∧ k < n ∧ D.Accepts r x k
  aligned : op.pins.misaligned = true → n = j + 1

variable {D r x} {j n b : Nat} {op : Operation}

/-- A block behind an access has a phase. -/
theorem UnderWay.phase_ne (h : D.UnderWay r x j n b op) : (D.state r x n).phase ≠ 0 := by
  obtain ⟨y, hyes, hphase⟩ := h.phase
  have hsize : D.design.size < 2 ^ 31 := D.design.size_lt
  have hy : y < D.design.size := by
    by_cases hb : b < D.design.size
    · exact ScheduledDesign.yes_lt hb hyes
    · unfold ScheduledDesign.block at hyes
      rw [List.getD_eq_default _ _ (Nat.le_of_not_lt hb)] at hyes
      cases hyes
  rw [hphase]
  intro hzero
  have hval := congrArg BitVec.toNat hzero
  rw [BitVec.toNat_ofNat, Nat.mod_eq_of_lt (by omega)] at hval
  change y + 1 = 0 at hval
  omega

theorem UnderWay.begin (h : D.ExecutesAt r x j b op) : D.UnderWay r x j (j + 1) b op := by
  obtain ⟨hbusy, hsent, hsaved, hfault, hphase⟩ := clock_executes h
  have hnone : ∀ k, j < k → ¬ k < j + 1 := fun k hlow hhigh => by omega
  exact ⟨h, Nat.lt_succ_self j, fun k hlow hhigh => absurd hhigh (hnone k hlow), hbusy, hsaved,
    hfault, hphase, rfl,
    ⟨fun htrue => absurd (hsent.symm.trans htrue) Bool.false_ne_true,
      fun ⟨k, hlow, hhigh, _⟩ => absurd hhigh (hnone k hlow)⟩, fun _ => rfl⟩

theorem UnderWay.next (h : D.UnderWay r x j n b op) (haligned : op.pins.misaligned = false)
    (hreset : (x n).reset = false) (hcomplete : ¬ D.Completes r x n) :
    D.UnderWay r x j (n + 1) b op := by
  have hc : complete (D.state r x n) (x n) = false := (Bool.not_eq_true _).mp hcomplete
  obtain ⟨hfault, hbusy, hsent, hsaved, hvars, hphase, -⟩ :=
    clock_busy (D := D) hreset h.busy h.fault h.phase_ne
  rw [h.saved, haligned, hc] at hfault hbusy
  rw [hc, Bool.not_false, Bool.true_and] at hsent
  obtain ⟨y, hyes, hold⟩ := h.phase
  refine ⟨h.executed, Nat.lt_succ_of_lt h.lt, fun k hlow hhigh => ?_, hbusy, hsaved.trans h.saved,
    hfault, ⟨y, hyes, (hphase hfault).trans hold⟩, hvars.trans h.vars, ?_,
    fun hmis => absurd (haligned.symm.trans hmis) Bool.false_ne_true⟩
  · rcases Nat.lt_succ_iff_lt_or_eq.mp hhigh with hlt | rfl
    · exact h.quiet k hlow hlt
    · exact ⟨hcomplete, hreset⟩
  · change (D.clock (D.state r x n) (x n)).sent = true ↔ _
    rw [hsent, Bool.or_eq_true, h.sent]
    constructor
    · rintro (⟨k, hlow, hhigh, haccepts⟩ | haccepts)
      · exact ⟨k, hlow, Nat.lt_succ_of_lt hhigh, haccepts⟩
      · exact ⟨n, h.lt, Nat.lt_succ_self n, haccepts⟩
    · rintro ⟨k, hlow, hhigh, haccepts⟩
      rcases Nat.lt_succ_iff_lt_or_eq.mp hhigh with hlt | rfl
      · exact .inl ⟨k, hlow, hlt, haccepts⟩
      · exact .inr haccepts

/-- An access that is aligned stays under way. -/
theorem UnderWay.of_quiet (h : D.ExecutesAt r x j b op) (haligned : op.pins.misaligned = false)
    (hlt : j < n) (hquiet : D.Quiet r x j n) : D.UnderWay r x j n b op := by
  induction n, hlt using Nat.le_induction with
  | base => exact .begin h
  | succ n hn ih =>
      obtain ⟨hcomplete, hreset⟩ := hquiet n hn (Nat.lt_succ_self n)
      exact (ih fun k hlow hhigh => hquiet k hlow (Nat.lt_succ_of_lt hhigh)).next haligned hreset
        hcomplete

theorem underWay_of_busy (hfirst : (x 0).reset = true) (hbusy : (D.state r x n).busy = true)
    (hn : 0 < n) : ∃ j b op, D.UnderWay r x j n b op := by
  induction n with
  | zero => exact absurd hn (Nat.lt_irrefl 0)
  | succ n ih =>
      change (D.clock (D.state r x n) (x n)).busy = true at hbusy
      cases hreset : (x n).reset with
      | true => exact absurd ((clock_reset hreset).1.symm.trans hbusy) Bool.false_ne_true
      | false =>
          have hpos : 0 < n := by
            rcases Nat.eq_zero_or_pos n with rfl | hpos
            · exact absurd (hreset.symm.trans hfirst) Bool.false_ne_true
            · exact hpos
          cases hold : (D.state r x n).busy with
          | true =>
              obtain ⟨j, b, op, h⟩ := ih hold hpos
              obtain ⟨-, hnext, -⟩ := clock_busy (D := D) hreset h.busy h.fault h.phase_ne
              rw [hnext, Bool.and_eq_true, Bool.not_eq_true', Bool.not_eq_true', h.saved] at hbusy
              exact ⟨j, b, op, h.next hbusy.1 hreset fun hc =>
                Bool.false_ne_true (hbusy.2.symm.trans hc)⟩
          | false =>
              by_cases hexecutes : ∃ b op, D.ExecutesAt r x n b op
              · obtain ⟨b, op, h⟩ := hexecutes
                exact ⟨n, b, op, .begin h⟩
              · have hidle := clock_idle (D := D) (i := x n) hold fun b op h => hexecutes ⟨b, op, h⟩
                exact absurd (hidle.symm.trans hbusy) Bool.false_ne_true

/-- The walk of a clock stays among the reachable blocks. -/
theorem walk_reachable {σ' : Type} {P : Meaning σ'} {d : ScheduledDesign} {y : Export} {e : Nat}
    {v v' w : σ'} {path : List (Nat × σ')} (h : d.Walk P e v path v') (he : e ∈ d.reachable y)
    (hb : (b, w) ∈ path) : b ∈ d.reachable y := by
  induction h with
  | fault =>
      obtain ⟨rfl, -⟩ := Prod.mk.inj (List.mem_singleton.mp hb)
      exact he
  | suspend =>
      obtain ⟨rfl, -⟩ := Prod.mk.inj (List.mem_singleton.mp hb)
      exact he
  | finish =>
      obtain ⟨rfl, -⟩ := Prod.mk.inj (List.mem_singleton.mp hb)
      exact he
  | yes _ _ hs hyes _ ih =>
      rcases List.mem_cons.mp hb with heq | hb
      · obtain ⟨rfl, -⟩ := Prod.mk.inj heq
        exact he
      · exact ih (ScheduledDesign.targets_mem he _
          (ScheduledDesign.mem_targets.mpr (.inl ⟨hs, hyes⟩))) hb
  | no _ _ hno _ ih =>
      rcases List.mem_cons.mp hb with heq | hb
      · obtain ⟨rfl, -⟩ := Prod.mk.inj heq
        exact he
      · exact ih (ScheduledDesign.targets_mem he _ (ScheduledDesign.mem_targets.mpr (.inr hno))) hb

/-- What follows an access can be started on its own. -/
theorem Executes.continuation {s : Registers σ ι} {i : Pins ι} (h : D.Executes s i b op) {y : Nat}
    (hyes : (D.design.block b).yes = some y) : y ∈ D.design.continuations ⟨false, false⟩ := by
  obtain ⟨-, e, he, -, path, v, hwalk, w, f, hmem, -, hf, -⟩ := h
  have hb := walk_reachable hwalk (continuation_mem he) hmem
  unfold ScheduledDesign.continuations
  refine Finset.mem_insert_of_mem (Finset.mem_union_right _ (Finset.mem_biUnion.mpr ⟨b, ?_, ?_⟩))
  · exact Finset.mem_filter.mpr ⟨hb, (D.access_suspends b f hf).1⟩
  · exact Option.mem_toFinset.mpr hyes

/-! ## Runs -/

/-- What the channel does in a run. -/
structure Once (D : ExternalDesign σ τ ι) (r : Registers σ ι) (x : Nat → Pins ι) : Prop where
  /-- A clock executes one access at most. -/
  one : ∀ n b op b' op', D.ExecutesAt r x n b op → D.ExecutesAt r x n b' op' → b = b' ∧ op = op'
  /-- Commands are those of the blocks, from the next clock on until they are accepted. -/
  presented : ∀ n a, D.Presents r x n a ↔ ∃ j < n, ∃ b op, D.ExecutesAt r x j b op ∧ a = op.pins ∧
    a.misaligned = false ∧ (∀ k, j < k → k < n → ¬ D.Accepts r x k) ∧
      ∀ k, j < k → k ≤ n → (x k).reset = false
  /-- No block runs before the response. -/
  waits : ∀ j n b op, D.ExecutesAt r x j b op → j < n → op.pins.misaligned = false →
    D.Quiet r x j n → start (D.state r x n) (x n) = false ∧
      (D.state r x n).phase = (D.state r x (j + 1)).phase ∧
        (D.state r x n).vars = (D.state r x (j + 1)).vars
  /-- A response is taken in the clock of acceptance or later, and only one. -/
  responds : ∀ n, 0 < n → D.Completes r x n →
    ∃ k ≤ n, D.Accepts r x k ∧ ∀ m, k ≤ m → m < n → ¬ D.Completes r x m
  /-- The block behind the access runs next, with the data of the response. -/
  continues : ∀ j n b op, D.ExecutesAt r x j b op → j < n → op.pins.misaligned = false →
    D.Quiet r x j n → D.Completes r x n → (x n).reset = false → (x n).error = false →
      (x (n + 1)).reset = false → ∃ y, (D.design.block b).yes = some y ∧
        (D.state r x (n + 1)).readData = (x n).data ∧
          (D.state r x (n + 1)).vars = (D.state r x (j + 1)).vars ∧
            ∃ path, D.design.Walk (D.meaning (D.state r x (n + 1))) y
              (D.entering (D.state r x (n + 1)) (x (n + 1))) path
              (D.leaving (D.state r x (n + 1)) (x (n + 1)))
  misaligned : ∀ j b op, D.ExecutesAt r x j b op → op.pins.misaligned = true →
    (x (j + 1)).reset = false → (D.state r x (j + 2)).fault = 3
  failed : ∀ n, 0 < n → D.Completes r x n → (x n).error = true → (D.state r x (n + 1)).fault = 5
  /-- A fault ends the program until the next reset. -/
  silent : ∀ n, 0 < n → (D.state r x n).fault ≠ 0 → (∀ a, ¬ D.Presents r x n a) ∧
    (∀ b op, ¬ D.ExecutesAt r x n b op) ∧
      ((x n).reset = false → (D.state r x (n + 1)).fault = (D.state r x n).fault)

theorem presents_iff (hfirst : (x 0).reset = true) (a : Access) :
    D.Presents r x n a ↔ ∃ j < n, ∃ b op, D.ExecutesAt r x j b op ∧ a = op.pins ∧
      a.misaligned = false ∧ (∀ k, j < k → k < n → ¬ D.Accepts r x k) ∧
        ∀ k, j < k → k ≤ n → (x k).reset = false := by
  constructor
  · rintro ⟨hvalid, rfl⟩
    unfold validIn at hvalid
    simp only [Bool.and_eq_true, Bool.not_eq_true'] at hvalid
    obtain ⟨haligned, hreset, hbusy, hsent⟩ := hvalid
    have hn : 0 < n := by
      rcases Nat.eq_zero_or_pos n with rfl | hn
      · exact absurd (hreset.symm.trans hfirst) Bool.false_ne_true
      · exact hn
    obtain ⟨j, b, op, h⟩ := underWay_of_busy hfirst hbusy hn
    refine ⟨j, h.lt, b, op, h.executed, h.saved, haligned, fun k hlow hhigh haccepts => ?_,
      fun k hlow hhigh => ?_⟩
    · exact Bool.false_ne_true (hsent.symm.trans (h.sent.mpr ⟨k, hlow, hhigh, haccepts⟩))
    · rcases Nat.lt_or_eq_of_le hhigh with hlt | rfl
      · exact (h.quiet k hlow hlt).2
      · exact hreset
  · rintro ⟨j, hlt, b, op, hexecutes, rfl, haligned, haccepts, hresets⟩
    -- a command that was not accepted has no response
    have hunder : ∀ m, j < m → m ≤ n → D.UnderWay r x j m b op := by
      intro m hlow
      induction m, hlow using Nat.le_induction with
      | base => exact fun _ => .begin hexecutes
      | succ m hm ih =>
          intro hle
          have h := ih (Nat.le_of_succ_le hle)
          refine h.next haligned (hresets m hm (Nat.le_of_succ_le hle)) fun hcomplete => ?_
          have hsent : (D.state r x m).sent = false := by
            rw [← Bool.not_eq_true, h.sent]
            rintro ⟨k, hk, hkm, hacc⟩
            exact haccepts k hk (Nat.lt_of_lt_of_le hkm (Nat.le_of_succ_le hle)) hacc
          have hready := (Bool.and_eq_true_iff.mp hcomplete).1
          unfold readyIn at hready
          simp only [Bool.and_eq_true, Bool.or_eq_true, hsent, Bool.false_eq_true, false_or]
            at hready
          exact haccepts m hm hle hready.2.2
    have h := hunder n hlt (Nat.le_refl n)
    refine ⟨?_, h.saved⟩
    have hsent : (D.state r x n).sent = false := by
      rw [← Bool.not_eq_true, h.sent]
      rintro ⟨k, hk, hkn, hacc⟩
      exact haccepts k hk hkn hacc
    unfold validIn
    rw [h.saved, haligned, hresets n hlt (Nat.le_refl n), h.busy, hsent]
    rfl

theorem underWay_of_completes (hfirst : (x 0).reset = true) (hn : 0 < n)
    (hcomplete : D.Completes r x n) : (x n).reset = false ∧
      ((D.state r x n).sent = true ∨ D.Accepts r x n) ∧ ∃ j b op, D.UnderWay r x j n b op := by
  have hready := (Bool.and_eq_true_iff.mp hcomplete).1
  unfold readyIn at hready
  simp only [Bool.and_eq_true, Bool.or_eq_true, Bool.not_eq_true'] at hready
  exact ⟨hready.1, hready.2.2, underWay_of_busy hfirst hready.2.1 hn⟩

/-- A command that is not aligned has no response. -/
theorem UnderWay.aligned_of_completes (h : D.UnderWay r x j n b op) (hcomplete : D.Completes r x n) :
    op.pins.misaligned = false := by
  cases hmis : op.pins.misaligned with
  | false => rfl
  | true =>
      have hsent : (D.state r x n).sent = false := by
        rw [← Bool.not_eq_true, h.sent]
        rintro ⟨k, hlow, hhigh, -⟩
        have := h.aligned hmis
        omega
      have haccept : accept (D.state r x n) (x n) = false := by
        unfold accept validIn
        rw [h.saved, hmis]
        rfl
      have hready := (Bool.and_eq_true_iff.mp hcomplete).1
      unfold readyIn at hready
      rw [hsent, haccept, Bool.or_false, Bool.and_false, Bool.and_false] at hready
      exact absurd hready Bool.false_ne_true

theorem UnderWay.completed (h : D.UnderWay r x j n b op) (hcomplete : D.Completes r x n)
    (hreset : (x n).reset = false) :
    (D.state r x (n + 1)).fault = (if (x n).error then 5 else 0) ∧
      (D.state r x (n + 1)).busy = false ∧ (D.state r x (n + 1)).readData = (x n).data ∧
        (D.state r x (n + 1)).vars = (D.state r x (j + 1)).vars ∧
          ((x n).error = false → (D.state r x (n + 1)).phase = (D.state r x n).phase) := by
  have hc : complete (D.state r x n) (x n) = true := hcomplete
  obtain ⟨hfault, hbusy, -, -, hvars, hphase, hdata⟩ :=
    clock_busy (D := D) hreset h.busy h.fault h.phase_ne
  rw [h.saved, h.aligned_of_completes hcomplete, hc] at hfault hbusy
  refine ⟨hfault, hbusy, hdata hc, hvars.trans h.vars, fun herror => hphase ?_⟩
  rw [herror] at hfault
  exact hfault

theorem start_false {s : Registers σ ι} {i : Pins ι} (h : s.busy = true ∨ s.fault ≠ 0) :
    start s i = false := by
  unfold start
  rcases h with h | h
  · rw [h, Bool.not_true, Bool.and_false]
  · rw [beq_eq_false_iff_ne.mpr h, Bool.and_false, Bool.false_and]

/-- After a reset, the channel performs every access once. -/
theorem every_access_once (D : ExternalDesign σ τ ι) (r : Registers σ ι) (x : Nat → Pins ι)
    (hfirst : (x 0).reset = true) : D.Once r x where
  one n b op b' op' h h' := h.unique h'
  presented n a := presents_iff hfirst a
  waits j n b op h hlt haligned hquiet := by
    have hn := UnderWay.of_quiet h haligned hlt hquiet
    have hnext := UnderWay.begin h
    obtain ⟨y, hyes, hphase⟩ := hn.phase
    obtain ⟨y', hyes', hphase'⟩ := hnext.phase
    obtain rfl := Option.some_inj.mp (hyes.symm.trans hyes')
    exact ⟨start_false (.inl hn.busy), hphase.trans hphase'.symm, hn.vars⟩
  responds n hn hcomplete := by
    obtain ⟨-, hor, j, b, op, h⟩ := underWay_of_completes hfirst hn hcomplete
    rcases hor with hsent | haccepts
    · obtain ⟨k, hlow, hhigh, haccepts⟩ := h.sent.mp hsent
      exact ⟨k, Nat.le_of_lt hhigh, haccepts, fun m hk hm => (h.quiet m (by omega) hm).1⟩
    · exact ⟨n, Nat.le_refl n, haccepts, fun m hk hm => absurd hm (Nat.not_lt.mpr hk)⟩
  continues j n b op h hlt haligned hquiet hcomplete hreset herror hnext := by
    have hn := UnderWay.of_quiet h haligned hlt hquiet
    obtain ⟨hfault, hbusy, hdata, hvars, hphase⟩ := hn.completed hcomplete hreset
    obtain ⟨y, hyes, hold⟩ := hn.phase
    have hstart : start (D.state r x (n + 1)) (x (n + 1)) = true := by
      rw [herror] at hfault
      unfold start
      rw [hnext, hbusy, hfault]
      rfl
    exact ⟨y, hyes, hdata, hvars,
      leaving_walk hstart (Executes.continuation h hyes) ((hphase herror).trans hold)⟩
  misaligned j b op h hmis hreset := by
    have hnext := UnderWay.begin h
    obtain ⟨hfault, -⟩ := clock_busy (D := D) hreset hnext.busy hnext.fault hnext.phase_ne
    rw [hnext.saved, hmis] at hfault
    exact hfault
  failed n hn hcomplete herror := by
    obtain ⟨hreset, -, j, b, op, h⟩ := underWay_of_completes hfirst hn hcomplete
    obtain ⟨hfault, -⟩ := h.completed hcomplete hreset
    rw [herror] at hfault
    exact hfault
  silent n hn hfault := by
    have hbusy : (D.state r x n).busy = false := by
      rw [← Bool.not_eq_true]
      intro hbusy
      obtain ⟨j, b, op, h⟩ := underWay_of_busy hfirst hbusy hn
      exact hfault h.fault
    refine ⟨fun a hpresents => ?_, fun b op hexecutes => ?_, fun hreset => ?_⟩
    · have hvalid := hpresents.1
      unfold validIn at hvalid
      rw [hbusy, Bool.false_and, Bool.and_false, Bool.and_false] at hvalid
      exact Bool.false_ne_true hvalid
    · exact Bool.false_ne_true ((start_false (.inr hfault)).symm.trans hexecutes.1)
    · exact (clock_faulted hreset hbusy hfault).2

/-- A block that reads four bytes, and the one behind it. -/
def oneRead : ExternalDesign Unit Unit Unit where
  design :=
    { blocks := [⟨some 1, none, true, false⟩, ⟨none, none, false, false⟩]
      resetEntry := 0
      commandEntry := 1
      externalMemory := true
      size_lt := by decide
      resetEntry_lt := by decide
      commandEntry_lt := by decide
      target_lt := by decide }
  external := rfl
  acyclic := ScheduledDesign.acyclic_of_lt (by decide +kernel)
  body _ _ _ v := v
  condition _ _ _ _ := true
  access n := if n = 0 then some fun _ => ⟨8, 4, none⟩ else none
  noLocals := ()
  noOperands := ()
  resetVars v := v
  commit _ v := v.vars
  access_suspends n f h := by
    split_ifs at h with hn
    subst hn
    exact ⟨rfl, rfl, rfl, 1, rfl⟩
  storage_suspends _ _ _ _ := .inl rfl
  commit_idle _ _ _ := rfl

/-- A reset, and a memory that is never ready. -/
def resetFirst (n : Nat) : Pins Unit := ⟨n == 0, false, false, (), false, false, 0, false⟩

/-- The read is presented in the clock after the first one behind the reset. -/
theorem every_access_once_read :
    let r : Registers Unit Unit := ⟨0, 0, false, false, (), (), false, false, .none, 0⟩
    oneRead.Once r resetFirst ∧
      validIn (oneRead.state r resetFirst 2) (resetFirst 2) = true ∧
        (oneRead.state r resetFirst 2).saved.address = 8 :=
  ⟨every_access_once oneRead _ resetFirst rfl, by decide +kernel, by decide +kernel⟩

end ExternalDesign

end CppHdl.Synth
