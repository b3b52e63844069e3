import CppHdl.Devices.Plic

/-!
# The gateway of the interrupt controller

A source that was claimed is in service until its completion, and in between it is neither
pending nor claimed again. A clock that takes a claim and a completion together keeps only
what the completion does, so that the source that was claimed in it is not in service.
-/

namespace CppHdl.Devices

open PlicGeometry

/-- What a clock claims and what it completes, 0 for nothing. -/
structure PlicClock where
  claimed : Nat
  completed : Nat
  deriving DecidableEq

/-- Runs from a reset on, of clocks under a condition. -/
def plicRuns (g : PlicGeometry) (ok : Plic g → PlicInputs g → Prop) :
    Transitions (Plic g) PlicClock where
  init s := ∃ (s₀ : Plic g) (i : PlicInputs g), i.reset = true ∧ s = s₀.work i
  step
    | s, some c, s' => ∃ i : PlicInputs g, i.reset = false ∧ ok s i ∧
        c = ⟨s.claims i, s.completes i⟩ ∧ s' = s.work i
    | _, none, _ => False

/-- The source was claimed, and not completed since. -/
def inService (source : Nat) (clocks : List PlicClock) : Bool :=
  clocks.foldl (fun served c =>
    if c.claimed = source then true else if c.completed = source then false else served) false

namespace Plic

variable {g : PlicGeometry}

/-- A claim and a completion are not in one clock, and the source that a completion names is
in service or does not ask. -/
structure Apart (s : Plic g) (i : PlicInputs g) : Prop where
  apart : s.claims i = 0 ∨ s.completes i = 0
  named : (sourceBits i).getLsbD (s.completes i) = true →
    s.gatewayBusy.getLsbD (s.completes i) = true

/-- The gateway delivers each request once. -/
structure Delivers (ok : Plic g → PlicInputs g → Prop) (clocks : List PlicClock) (s : Plic g) :
    Prop where
  /-- No source is pending and in service. -/
  disjoint : ∀ source, ¬ (s.pending.getLsbD source = true ∧ s.gatewayBusy.getLsbD source = true)
  /-- A source in service is not pending and not claimed again. -/
  once : ∀ source ≠ 0, inService source clocks = true →
    s.pending.getLsbD source = false ∧ ∀ i, s.claims i ≠ source
  /-- A source that is pending, or asks and is not in service, is pending until its claim. -/
  kept : ∀ i, i.reset = false → ok s i → ∀ source ≠ 0,
    s.pending.getLsbD source = true ∨
      (sourceBits i).getLsbD source = true ∧ inService source clocks = false →
    (s.work i).pending.getLsbD source = true ∨ s.claims i = source
  /-- A claim answers the source whose request it takes. -/
  answer : ∀ i, i.reset = false → (i.arvalid && s.arready) = true →
    ∀ context, g.register (word i.araddr) = .claim context →
      ((s.work i).readData.extractLsb' (g.lane (word i.araddr) * 8) 32).toNat = s.claims i ∧
      (∀ source, (s.pendingNext i).getLsbD source = true ∧
          (s.work i).pending.getLsbD source = false ↔ source = s.claims i ∧ s.claims i ≠ 0)
  /-- With nothing to claim it changes nothing. -/
  empty : ∀ i, i.reset = false → s.claims i = 0 →
    (s.work i).pending = (s.work { i with arvalid := false }).pending ∧
      (s.work i).gatewayBusy = (s.work { i with arvalid := false }).gatewayBusy

variable {s : Plic g} {i : PlicInputs g}

/-! ## Bits -/

theorem getLsbD_sourceBits_zero : (sourceBits i).getLsbD 0 = false := by
  unfold sourceBits
  rw [← Bool.not_eq_true, getLsbD_foldl_or_iff]
  rintro ⟨source, -, ⟨hpos, -⟩, hbit⟩
  rw [BitVec.getLsbD_shiftLeft, decide_eq_true (by omega : 0 < source)] at hbit
  simp at hbit

theorem getLsbD_pendingNext {k : Nat} (hk : k < 32) (hne : k ≠ 0) :
    (s.pendingNext i).getLsbD k =
      (s.pending.getLsbD k ||
        (sourceBits i).getLsbD k && !decide (s.completes i = k) && !s.gatewayBusy.getLsbD k) := by
  unfold pendingNext
  rw [completionMask_eq, BitVec.getLsbD_or, BitVec.getLsbD_and, BitVec.getLsbD_and,
    BitVec.getLsbD_not, BitVec.getLsbD_not, getLsbD_bitOf hk, decide_eq_true hk, decide_eq_true hne]
  simp only [Bool.true_and, Bool.and_true]

theorem getLsbD_pending_work (hreset : i.reset = false) {k : Nat} (hk : k < 32) (hne : k ≠ 0) :
    (s.work i).pending.getLsbD k = ((s.pendingNext i).getLsbD k && !decide (s.claims i = k)) := by
  rw [(gateway_work hreset).1, BitVec.getLsbD_and, BitVec.getLsbD_not, getLsbD_bitOf hk,
    decide_eq_true hk, decide_eq_true hne, Bool.true_and, Bool.and_true]

theorem getLsbD_busy_work (hreset : i.reset = false) {k : Nat} (hk : k < 32) (hne : k ≠ 0) :
    (s.work i).gatewayBusy.getLsbD k =
      if s.completes i = 0 then s.gatewayBusy.getLsbD k || decide (s.claims i = k)
      else s.gatewayBusy.getLsbD k && !decide (s.completes i = k) := by
  rw [(gateway_work hreset).2]
  by_cases hnone : s.completes i = 0
  · rw [if_pos hnone, if_pos hnone, BitVec.getLsbD_or, getLsbD_bitOf hk, decide_eq_true hne,
      Bool.and_true]
  · rw [if_neg hnone, if_neg hnone, BitVec.getLsbD_and, BitVec.getLsbD_not, getLsbD_bitOf hk,
      decide_eq_true hk, decide_eq_true hne, Bool.true_and, Bool.and_true]

theorem readData_work (hreset : i.reset = false) (hfire : (i.arvalid && s.arready) = true)
    {context : Nat} (hregister : g.register (word i.araddr) = .claim context) :
    (s.work i).readData =
      (BitVec.ofNat 32 (s.claims i)).setWidth g.DATA_WIDTH <<< (g.lane (word i.araddr) * 8) := by
  have hwrite : ∀ n : Plic g, (s.write i n).readData = n.readData := by
    intro n
    unfold write
    dsimp only
    cases hreg : g.register (word s.writeAddr) <;> dsimp only
    split_ifs <;> rfl
  have hclaims : s.claims i = s.claimForContext context := by
    unfold claims
    rw [if_pos hfire, hregister]
  unfold work
  dsimp only
  rw [hreset, if_neg Bool.false_ne_true, if_pos hfire]
  have hread : ∀ n : Plic g, (s.read i n).readData =
      (BitVec.ofNat 32 (s.claims i)).setWidth g.DATA_WIDTH <<< (g.lane (word i.araddr) * 8) := by
    intro n
    unfold read
    dsimp only
    rw [hregister, hclaims]
  generalize { s with pending := s.pendingNext i } = n₀
  have h := hread n₀
  generalize s.read i n₀ = n₁ at h
  split_ifs <;> first | exact h | exact (hwrite _).trans h

theorem extractLsb'_lane {w start : Nat} (hfits : start + 32 ≤ w) (x : BitVec 32) :
    (x.setWidth w <<< start).extractLsb' start 32 = x := by
  apply BitVec.eq_of_getLsbD_eq
  intro j hj
  rw [BitVec.getLsbD_extractLsb', BitVec.getLsbD_shiftLeft, BitVec.getLsbD_setWidth,
    decide_eq_true hj, decide_eq_true (by omega : start + j < w),
    decide_eq_false (by omega : ¬ start + j < start), Nat.add_sub_cancel_left,
    decide_eq_true (by omega : j < w)]
  rfl

theorem lane_fits {addr context : Nat} (hregister : g.register addr = .claim context) :
    g.lane addr * 8 + 32 ≤ g.DATA_WIDTH := by
  have haddr : addr % 4 = 0 := by
    unfold register at hregister
    dsimp only [PRIORITY_BASE, PENDING_BASE, ENABLE_BASE, CONTEXT_BASE, CONTEXT_STRIDE,
      ENABLE_STRIDE, CLAIM_OFFSET] at hregister
    split_ifs at hregister with h₁ h₂ h₃ h₄ h₅ h₆
    omega
  obtain ⟨hpos, hwords⟩ := g.words
  obtain ⟨n, hn⟩ : ∃ n, g.DATA_WIDTH = 32 * n := ⟨g.DATA_WIDTH / 32, by omega⟩
  have hbytes : g.DATA_WIDTH / 8 = 4 * n := by omega
  have hlt : addr % (4 * n) < 4 * n := Nat.mod_lt _ (by omega)
  have hmod : addr % (4 * n) % 4 = 0 := by
    rw [Nat.mod_mod_of_dvd _ (Nat.dvd_mul_right 4 n)]
    exact haddr
  unfold PlicGeometry.lane
  rw [hbytes]
  omega

/-! ## Runs -/

theorem inService_snoc (source : Nat) (clocks : List PlicClock) (c : PlicClock) :
    inService source (clocks ++ [c]) =
      if c.claimed = source then true else if c.completed = source then false
      else inService source clocks := by
  unfold inService
  rw [List.foldl_append]
  rfl

/-- The sets are disjoint, and what is in service is what was claimed and not completed. -/
structure Sound (clocks : List PlicClock) (s : Plic g) : Prop where
  disjoint : ∀ source, ¬ (s.pending.getLsbD source = true ∧ s.gatewayBusy.getLsbD source = true)
  served : ∀ source ≠ 0, s.gatewayBusy.getLsbD source = inService source clocks
  zero : s.pending.getLsbD 0 = false

theorem sound_reset (s₀ : Plic g) (hreset : i.reset = true) : Sound [] (s₀.work i) := by
  have hclear : (s₀.work i).pending = 0 ∧ (s₀.work i).gatewayBusy = 0 := by
    unfold work
    dsimp only
    rw [if_pos hreset]
    exact ⟨rfl, rfl⟩
  have hzero : ∀ k, (0 : BitVec 32).getLsbD k = false := fun k => BitVec.getLsbD_zero
  refine ⟨fun source h => ?_, fun source _ => ?_, ?_⟩
  · rw [hclear.1, hzero] at h
    exact Bool.false_ne_true h.1
  · rw [hclear.2, hzero]
    rfl
  · rw [hclear.1, hzero]

theorem Sound.work {clocks : List PlicClock} (h : Sound clocks s) (hreset : i.reset = false)
    (hapart : s.claims i = 0 ∨ s.completes i = 0) :
    Sound (clocks ++ [⟨s.claims i, s.completes i⟩]) (s.work i) := by
  have hzero : (s.work i).pending.getLsbD 0 = false := by
    rw [(gateway_work hreset).1, BitVec.getLsbD_and]
    unfold pendingNext
    rw [BitVec.getLsbD_or, h.zero, BitVec.getLsbD_and, BitVec.getLsbD_and,
      getLsbD_sourceBits_zero]
    rfl
  refine ⟨fun source => ?_, fun source hne => ?_, hzero⟩
  · rintro ⟨hpending, hbusy⟩
    have hk : source < 32 := by
      by_contra hge
      rw [BitVec.getLsbD_of_ge _ _ (by omega)] at hpending
      exact Bool.false_ne_true hpending
    have hne : source ≠ 0 := by
      rintro rfl
      exact Bool.false_ne_true (hzero.symm.trans hpending)
    rw [getLsbD_pending_work hreset hk hne, getLsbD_pendingNext hk hne] at hpending
    rw [getLsbD_busy_work hreset hk hne] at hbusy
    have hdisjoint := h.disjoint source
    by_cases hnone : s.completes i = 0
    · rw [if_pos hnone] at hbusy
      simp only [Bool.and_eq_true, Bool.or_eq_true, Bool.not_eq_true', decide_eq_true_eq,
        decide_eq_false_iff_not] at hpending hbusy hdisjoint
      rcases hbusy with hbusy | hclaim
      · rcases hpending.1 with hbefore | hnew
        · exact hdisjoint ⟨hbefore, hbusy⟩
        · exact Bool.false_ne_true (hnew.2.symm.trans hbusy)
      · exact hpending.2 hclaim
    · rw [if_neg hnone] at hbusy
      simp only [Bool.and_eq_true, Bool.or_eq_true, Bool.not_eq_true',
        decide_eq_false_iff_not] at hpending hbusy hdisjoint
      rcases hpending.1 with hbefore | hnew
      · exact hdisjoint ⟨hbefore, hbusy.1⟩
      · exact Bool.false_ne_true (hnew.2.symm.trans hbusy.1)
  · rw [inService_snoc]
    dsimp only
    by_cases hk : source < 32
    · have hserved := h.served source hne
      rw [getLsbD_busy_work hreset hk hne]
      by_cases hnone : s.completes i = 0
      · rw [if_pos hnone, hnone, if_neg (Ne.symm hne)]
        by_cases hclaim : s.claims i = source
        · rw [decide_eq_true hclaim, if_pos hclaim, Bool.or_true]
        · rw [decide_eq_false hclaim, if_neg hclaim, Bool.or_false, hserved]
      · have hclaims := hapart.resolve_right hnone
        rw [if_neg hnone, hclaims, if_neg (Ne.symm hne)]
        by_cases hcomplete : s.completes i = source
        · rw [decide_eq_true hcomplete, if_pos hcomplete]
          exact Bool.and_false _
        · rw [decide_eq_false hcomplete, if_neg hcomplete, hserved]
          exact Bool.and_true _
    · -- no such source
      have hserved := h.served source hne
      rw [BitVec.getLsbD_of_ge _ _ (by omega)] at hserved
      have hclaim : s.claims i ≠ source := by
        intro hclaim
        by_cases hnone : s.claims i = 0
        · exact hne (hclaim.symm.trans hnone)
        · have := (claims_spec hnone).1
          omega
      rw [BitVec.getLsbD_of_ge _ _ (by omega), if_neg hclaim, ← hserved, ite_self]

theorem Sound.delivers {clocks : List PlicClock} (h : Sound clocks s) : Delivers Apart clocks s where
  disjoint := h.disjoint
  once source hne hserved := by
    have hbusy := (h.served source hne).trans hserved
    refine ⟨?_, fun i hclaim => ?_⟩
    · rw [← Bool.not_eq_true]
      exact fun hpending => h.disjoint source ⟨hpending, hbusy⟩
    · have hspec := claims_spec (s := s) (i := i) (by rw [hclaim]; exact hne)
      rw [hclaim] at hspec
      exact h.disjoint source ⟨hspec.2, hbusy⟩
  kept i hreset hok source hne hasks := by
    by_cases hclaim : s.claims i = source
    · exact .inr hclaim
    refine .inl ?_
    by_cases hk : source < 32
    · rw [getLsbD_pending_work hreset hk hne, decide_eq_false hclaim, getLsbD_pendingNext hk hne]
      rcases hasks with hpending | ⟨hlevel, hserved⟩
      · rw [hpending]
        rfl
      · have hbusy := (h.served source hne).trans hserved
        have hother : s.completes i ≠ source := by
          rintro rfl
          exact Bool.false_ne_true (hbusy.symm.trans (hok.named hlevel))
        rw [hlevel, hbusy, decide_eq_false hother, Bool.or_comm]
        rfl
    · rcases hasks with hbit | ⟨hbit, -⟩ <;> rw [BitVec.getLsbD_of_ge _ _ (by omega)] at hbit <;>
        exact absurd hbit Bool.false_ne_true
  answer i hreset hfire context hregister := by
    refine ⟨?_, fun source => ?_⟩
    · rw [readData_work hreset hfire hregister, extractLsb'_lane (lane_fits hregister),
        BitVec.toNat_ofNat]
      by_cases hnone : s.claims i = 0
      · rw [hnone]
      · have := (claims_spec hnone).1
        omega
    · constructor
      · rintro ⟨hbefore, hafter⟩
        have hk : source < 32 := by
          by_contra hge
          rw [BitVec.getLsbD_of_ge _ _ (by omega)] at hbefore
          exact Bool.false_ne_true hbefore
        have hne : source ≠ 0 := by
          rintro rfl
          unfold pendingNext at hbefore
          rw [BitVec.getLsbD_or, h.zero, BitVec.getLsbD_and, BitVec.getLsbD_and,
            getLsbD_sourceBits_zero] at hbefore
          exact Bool.false_ne_true hbefore
        rw [getLsbD_pending_work hreset hk hne, hbefore, Bool.true_and, Bool.not_eq_false',
          decide_eq_true_eq] at hafter
        exact ⟨hafter.symm, hafter ▸ hne⟩
      · rintro ⟨rfl, hne⟩
        obtain ⟨hk, hpending⟩ := claims_spec hne
        rw [getLsbD_pending_work hreset hk hne, getLsbD_pendingNext hk hne, hpending,
          decide_eq_true rfl]
        exact ⟨Bool.true_or _, Bool.and_false _⟩
  empty i hreset hnone := by
    have hoff : s.claims { i with arvalid := false } = 0 := rfl
    have hbefore := gateway_work (s := s) (i := i) hreset
    have hafter := gateway_work (s := s) (i := { i with arvalid := false }) hreset
    rw [hnone] at hbefore
    rw [hoff] at hafter
    exact ⟨hbefore.1.trans hafter.1.symm, hbefore.2.trans hafter.2.symm⟩

/-- In runs that keep claims and completions apart, each request is delivered once. -/
theorem gateway_delivers_once {clocks : List PlicClock}
    (h : (plicRuns g Apart).Traces clocks s) : Delivers Apart clocks s := by
  obtain ⟨s₀, ⟨s₁, i, hreset, rfl⟩, hrun⟩ := h
  have hsound : Sound clocks s := by
    refine hrun.invariant Sound (sound_reset s₁ hreset) ?_
    rintro es t (_ | c) u hinv hstep
    · exact hstep.elim
    · obtain ⟨i, hquiet, hok, rfl, rfl⟩ := hstep
      exact hinv.work hquiet hok.apart
  exact hsound.delivers

/-! ## Runs on given inputs -/

instance (s : Plic g) (i : PlicInputs g) : Decidable (Apart s i) :=
  decidable_of_iff
    ((s.claims i = 0 ∨ s.completes i = 0) ∧
      ((sourceBits i).getLsbD (s.completes i) = true →
        s.gatewayBusy.getLsbD (s.completes i) = true))
    ⟨fun h => ⟨h.1, h.2⟩, fun h => ⟨h.apart, h.named⟩⟩

/-- What the clocks of a list of inputs claim and complete. -/
def clocksAlong : Plic g → List (PlicInputs g) → List PlicClock
  | _, [] => []
  | s, i :: is => ⟨s.claims i, s.completes i⟩ :: clocksAlong (s.work i) is

theorem run_of_inputs {ok : Plic g → PlicInputs g → Prop} {is : List (PlicInputs g)}
    (h : Transitions.Along (fun s i => i.reset = false ∧ ok s i) work s is) :
    (plicRuns g ok).Run s (clocksAlong s is) (is.foldl work s) := by
  induction is generalizing s with
  | nil => exact .refl s
  | cons i is ih =>
      have hone : (plicRuns g ok).Run s [⟨s.claims i, s.completes i⟩] (s.work i) :=
        (Transitions.Run.refl s).shows ⟨i, h.1.1, h.1.2, rfl, rfl⟩
      exact hone.trans (ih h.2)

/-- A controller of four sources and one hart on a bus of one word. -/
def small : PlicGeometry := ⟨32, 4, 32, 4, 1, by decide⟩

def smallZero : Plic small where
  readAddr := 0
  readId := 0
  readValid := false
  readData := 0
  writeAddr := 0
  writeId := 0
  writeAddrValid := false
  writeRespValid := false
  priority _ := 0
  enable _ := 0
  threshold _ := 0
  pending := 0
  gatewayBusy := 0

/-- The inputs of a clock: the level of source 2, and at most one beat of each channel. -/
def smallClock (level : Bool) (aw w ar : Option (BitVec 32)) : PlicInputs small where
  reset := false
  sourceIrq source := level && source == 2
  awvalid := aw.isSome
  awaddr := aw.getD 0
  awid := 0
  wvalid := w.isSome
  wdata := w.getD 0
  bready := true
  arvalid := ar.isSome
  araddr := ar.getD 0
  arid := 0
  rready := true

def smallReset : Plic small := smallZero.work { smallClock false none none none with reset := true }

/-- Priority and enable of source 2, then the address of the claim register. -/
def smallSetup : List (PlicInputs small) :=
  [smallClock false (some 0x8) none none, smallClock false none (some 1) none,
    smallClock false none none none, smallClock false (some 0x2000) none none,
    smallClock false none (some 4) none, smallClock false none none none,
    smallClock true (some 0x200004) none none]

/-- A claim of source 2 in the clock of the completion of source 1: the source is not in
service, and is pending again while its level stays. -/
theorem claim_lost_to_completion :
    ¬ ∀ (clocks : List PlicClock) (s : Plic small),
      (plicRuns small fun _ _ => True).Traces clocks s → Delivers (fun _ _ => True) clocks s := by
  intro h
  let inputs : List (PlicInputs small) :=
    smallSetup ++ [smallClock true none (some 1) (some 0x200004), smallClock true none none none]
  have hinit : (plicRuns small fun _ _ => True).init smallReset := ⟨smallZero, _, rfl, rfl⟩
  have hrun : (plicRuns small fun _ _ => True).Run smallReset (clocksAlong smallReset inputs)
      (inputs.foldl work smallReset) := run_of_inputs (by decide +kernel)
  have hdelivers := h _ _ ⟨smallReset, hinit, hrun⟩
  have hserved : inService 2 (clocksAlong smallReset inputs) = true := by decide +kernel
  have hpending : (inputs.foldl work smallReset).pending.getLsbD 2 = true := by decide +kernel
  exact Bool.false_ne_true ((hdelivers.once 2 (by decide) hserved).1.symm.trans hpending)

/-- The claim in one clock, and the completion in a later one. -/
theorem gateway_delivers_once_small :
    let inputs := smallSetup ++ [smallClock true none none (some 0x200004),
      smallClock true none (some 2) none]
    Delivers Apart (clocksAlong smallReset inputs) (inputs.foldl work smallReset) ∧
      (clocksAlong smallReset inputs).drop 7 = [⟨2, 0⟩, ⟨0, 2⟩] := by
  refine ⟨?_, by decide +kernel⟩
  exact gateway_delivers_once ⟨smallReset, ⟨smallZero, _, rfl, rfl⟩, run_of_inputs (by decide +kernel)⟩

end Plic

end CppHdl.Devices
