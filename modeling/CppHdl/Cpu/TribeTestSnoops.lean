import CppHdl.Cpu.TribeTest

/-!
# What the cores see of stores and lines

The mailbox carries every accepted line to the cores, once and in order. A store reaches the
other cores in the next clock, unless a line takes the lane of a single store.
-/

namespace CppHdl.Cpu

namespace TribeTest

variable {CPU_CORES : Nat}

/-! ## The lane of a core -/

theorem collect_of_full (comb : L1PeerInvalidateComb) (stores : List L1PeerStoreState)
    (hvalid : comb.valid = false) (hfull : comb.full = true) :
    stores.foldl collect comb = comb := by
  induction stores with
  | nil => rfl
  | cons store stores ih =>
    rw [List.foldl_cons]
    have hstep : collect comb store = comb := by simp [collect, hvalid, hfull]
    rw [hstep]
    exact ih

/-- One store keeps its address, more are a full invalidation. -/
theorem foldl_collect (stores : List L1PeerStoreState) :
    stores.foldl collect ⟨false, false, 0⟩ = match stores with
      | [] => ⟨false, false, 0⟩
      | [store] => ⟨true, false, store.addr⟩
      | store :: _ :: _ => ⟨false, true, store.addr⟩ := by
  match stores with
  | [] => rfl
  | [store] => rfl
  | store :: second :: rest => exact collect_of_full _ rest rfl rfl

def others (s : TribeTest CPU_CORES) (target : Fin CPU_CORES) : List (Fin CPU_CORES) :=
  (List.finRange CPU_CORES).filter fun source =>
    decide (target ≠ source ∧ (s.peerStore source).valid = true)

theorem peerInvalidateComb_eq (s : TribeTest CPU_CORES) (target : Fin CPU_CORES) :
    s.peerInvalidateComb target =
      ((s.others target).map s.peerStore).foldl collect ⟨false, false, 0⟩ := by
  unfold peerInvalidateComb others
  rw [List.foldl_map, List.foldl_filter]
  simp only [decide_eq_true_eq]

theorem mem_others {s : TribeTest CPU_CORES} {target source : Fin CPU_CORES} :
    source ∈ s.others target ↔ target ≠ source ∧ (s.peerStore source).valid = true := by
  unfold others
  simp

/-- Whether the lane of a core is taken by one store alone. -/
def Alone (s : TribeTest CPU_CORES) (source target : Fin CPU_CORES) : Prop :=
  ∀ other, target ≠ other → (s.peerStore other).valid = true → other = source

theorem peerInvalidateComb_alone {s : TribeTest CPU_CORES} {source target : Fin CPU_CORES}
    (hne : target ≠ source) (hvalid : (s.peerStore source).valid = true)
    (halone : s.Alone source target) :
    s.peerInvalidateComb target = ⟨true, false, (s.peerStore source).addr⟩ := by
  have hmem : source ∈ s.others target := mem_others.mpr ⟨hne, hvalid⟩
  have hall : ∀ other ∈ s.others target, other = source := fun other hother =>
    halone other (mem_others.mp hother).1 (mem_others.mp hother).2
  have hnodup : (s.others target).Nodup := (List.nodup_finRange CPU_CORES).filter _
  rw [peerInvalidateComb_eq]
  match h : s.others target with
  | [] => simp [h] at hmem
  | [first] =>
    obtain rfl : first = source := hall first (by simp [h])
    rfl
  | first :: second :: rest =>
    have hfirst := hall first (by simp [h])
    have hsecond := hall second (by simp [h])
    rw [h, hfirst, hsecond] at hnodup
    simp at hnodup

theorem peerInvalidateComb_full {s : TribeTest CPU_CORES} {source target : Fin CPU_CORES}
    (hne : target ≠ source) (hvalid : (s.peerStore source).valid = true)
    (halone : ¬s.Alone source target) : (s.peerInvalidateComb target).full = true := by
  obtain ⟨other, hother, hothervalid, hdifferent⟩ : ∃ other, target ≠ other ∧
      (s.peerStore other).valid = true ∧ other ≠ source := by
    unfold Alone at halone
    push Not at halone
    exact halone
  have hmem : source ∈ s.others target := mem_others.mpr ⟨hne, hvalid⟩
  have hmem' : other ∈ s.others target := mem_others.mpr ⟨hother, hothervalid⟩
  rw [peerInvalidateComb_eq]
  match h : s.others target with
  | [] => simp [h] at hmem
  | [first] =>
    rw [h, List.mem_singleton] at hmem hmem'
    exact absurd (hmem'.trans hmem.symm) hdifferent
  | first :: second :: rest =>
    rw [List.map_cons, List.map_cons, foldl_collect]

/-! ## Edges -/

variable (s : TribeTest CPU_CORES) {e : Edge CPU_CORES}

theorem edge_cpu {i : CpuInputs CPU_CORES} (hcpu : e.cpu = some i) (hreset : i.reset = false) :
    (∀ core, (s.edge e).peerStore core =
      if (i.dataPath core).recorded then ⟨true, (i.dataPath core).dmemAddrOut⟩
      else ⟨false, (s.peerStore core).addr⟩) ∧
    (s.edge e).dmaInvalidatePulseCpu = s.dmaInvalidate.valid ∧
    (s.edge e).dmaInvalidateAddrCpu =
      if s.dmaInvalidate.valid then s.dmaInvalidate.payload else s.dmaInvalidateAddrCpu := by
  unfold edge
  rw [hcpu]
  dsimp only [workClk]
  rw [hreset]
  exact ⟨fun core => rfl, rfl, rfl⟩

/-- An edge of the L2 clock alone does not change what the cores see. -/
theorem edge_l2 (hcpu : e.cpu = none) :
    (s.edge e).peerStore = s.peerStore ∧
    (s.edge e).dmaInvalidatePulseCpu = s.dmaInvalidatePulseCpu ∧
    (s.edge e).dmaInvalidateAddrCpu = s.dmaInvalidateAddrCpu := by
  unfold edge
  rw [hcpu]
  match e.l2 with
  | none => exact ⟨rfl, rfl, rfl⟩
  | some i =>
    dsimp only [workL2Clock]
    split
    · exact ⟨rfl, rfl, rfl⟩
    · exact ⟨rfl, rfl, rfl⟩

theorem edge_dmaInvalidate (hrunning : e.Running) :
    (s.edge e).dmaInvalidate = s.dmaInvalidate.step
      (e.l2.map fun i => (s.dmaLineAccepted i, i.dmaLineAddrIn))
      (e.cpu.map fun _ => s.dmaInvalidate.valid) := by
  unfold edge
  match hl2 : e.l2, hcpu : e.cpu with
  | none, none => rfl
  | some i, none =>
    simp only [workL2Clock, hrunning.l2 i hl2]
    rfl
  | none, some i =>
    simp only [workClk, hrunning.cpu i hcpu]
    rfl
  | some i, some j =>
    simp only [workClk, workL2Clock, hrunning.l2 i hl2, hrunning.cpu j hcpu]
    rfl

theorem fair : s.dmaInvalidate.Fair (e.l2.map fun i => (s.dmaLineAccepted i, i.dmaLineAddrIn))
    (e.cpu.map fun _ => s.dmaInvalidate.valid) := by
  refine Mailbox.Fair.of_map ?_ ?_
  · intro i hi
    simp only [dmaLineAccepted, dmaLineReadyOut, Bool.and_eq_true] at hi
    exact hi.2.2
  · intro _ hvalid
    exact hvalid

/-! ## Lines -/

def lineOf (e : Edge CPU_CORES) : List (BitVec 32) :=
  match e.l2 with
  | some i => if s.dmaLineAccepted i then [i.dmaLineAddrIn] else []
  | none => []

/-- The invalidation that a core receives for a line in an edge. -/
def pulseOf (target : Fin CPU_CORES) (e : Edge CPU_CORES) : List (BitVec 32) :=
  if e.cpu.isSome = true ∧ s.dmaInvalidatePulseCpu = true ∧ s.peerCacheInvalidateIn target = true then
    [s.peerCacheInvalidateAddrIn target]
  else []

def lines (s : TribeTest CPU_CORES) : List (Edge CPU_CORES) → List (BitVec 32)
  | [] => []
  | e :: edges => s.lineOf e ++ lines (s.edge e) edges

/-- The invalidations that a core receives for lines. -/
def pulses (target : Fin CPU_CORES) (s : TribeTest CPU_CORES) :
    List (Edge CPU_CORES) → List (BitVec 32)
  | [] => []
  | e :: edges => s.pulseOf target e ++ pulses target (s.edge e) edges

def pulse : List (BitVec 32) := if s.dmaInvalidatePulseCpu then [s.dmaInvalidateAddrCpu] else []

/-- The lines on their way. -/
def coming : List (BitVec 32) := s.pulse ++ s.dmaInvalidate.held

theorem pulseOf_eq (target : Fin CPU_CORES) (e : Edge CPU_CORES) :
    s.pulseOf target e = if e.cpu.isSome then s.pulse else [] := by
  unfold pulseOf pulse peerCacheInvalidateIn peerCacheInvalidateAddrIn
  by_cases hpulse : s.dmaInvalidatePulseCpu = true
  · simp [hpulse]
  · simp [hpulse]

variable {s}

/-- An edge takes a line in at one end and out at the other. -/
theorem coming_edge (horderly : s.dmaInvalidate.Orderly) (hrunning : e.Running)
    (target : Fin CPU_CORES) :
    (s.edge e).dmaInvalidate.Orderly ∧
      s.coming ++ s.lineOf e = s.pulseOf target e ++ (s.edge e).coming := by
  have hmoves := horderly.moves (s.fair (e := e))
  rw [Transfer.moves_step rfl] at hmoves
  have hline : s.lineOf e = ((s.dmaInvalidate.transfer
      (e.l2.map fun i => (s.dmaLineAccepted i, i.dmaLineAddrIn))
      (e.cpu.map fun _ => s.dmaInvalidate.valid)).pushed).toList := by
    unfold lineOf Mailbox.transfer
    match e.l2 with
    | none => rfl
    | some i => cases h : s.dmaLineAccepted i <;> simp [h]
  refine ⟨edge_dmaInvalidate s hrunning ▸ horderly.step s.fair, ?_⟩
  unfold coming
  rw [List.append_assoc, hline, hmoves, pulseOf_eq, edge_dmaInvalidate s hrunning]
  match hcpu : e.cpu with
  | none =>
    unfold pulse
    rw [(edge_l2 s hcpu).2.1, (edge_l2 s hcpu).2.2]
    rfl
  | some i =>
    obtain ⟨-, hpulse, haddr⟩ := edge_cpu s hcpu (hrunning.cpu i hcpu)
    have hpopped : ((s.dmaInvalidate.transfer
        (e.l2.map fun i => (s.dmaLineAccepted i, i.dmaLineAddrIn))
        ((some i).map fun _ => s.dmaInvalidate.valid)).popped).toList = (s.edge e).pulse := by
      unfold pulse Mailbox.transfer
      rw [hpulse, haddr]
      cases hvalid : s.dmaInvalidate.valid <;> simp
    rw [hpopped]
    rfl

theorem lines_eq {edges : List (Edge CPU_CORES)} (hrunning : ∀ e ∈ edges, e.Running)
    (target : Fin CPU_CORES) (horderly : s.dmaInvalidate.Orderly) :
    (edges.foldl edge s).dmaInvalidate.Orderly ∧
      s.coming ++ lines s edges = pulses target s edges ++ (edges.foldl edge s).coming := by
  induction edges generalizing s with
  | nil => exact ⟨horderly, List.append_nil _⟩
  | cons e edges ih =>
    obtain ⟨horderly', hedge⟩ := coming_edge horderly (hrunning e List.mem_cons_self) target
    obtain ⟨hafter, hrest⟩ := ih (fun e he => hrunning e (List.mem_cons_of_mem _ he)) horderly'
    refine ⟨hafter, ?_⟩
    rw [lines, pulses, List.foldl_cons, ← List.append_assoc, hedge, List.append_assoc, hrest,
      List.append_assoc]

/-! ## How long a line takes -/

def cpuEdges (edges : List (Edge CPU_CORES)) : Nat := edges.countP (·.cpu.isSome)

theorem cpuEdges_cons (e : Edge CPU_CORES) (edges : List (Edge CPU_CORES)) :
    cpuEdges (e :: edges) = cpuEdges edges + if e.cpu.isSome then 1 else 0 := by
  unfold cpuEdges
  rw [List.countP_cons]

/-- The edges of the CPU clock until a line in the mailbox is received. -/
def stage (m : Mailbox (BitVec 32)) : Nat :=
  if m.request ≠ m.request1 then 4 else if m.request ≠ m.request2 then 3 else 2

/-- A pulse is received in the next edge of the CPU clock. -/
theorem pulse_le_pulses {edges : List (Edge CPU_CORES)} (target : Fin CPU_CORES)
    (hedges : 1 ≤ cpuEdges edges) : s.pulse.length ≤ (pulses target s edges).length := by
  induction edges generalizing s with
  | nil => simp [cpuEdges] at hedges
  | cons e edges ih =>
    rw [pulses, List.length_append, pulseOf_eq]
    match hcpu : e.cpu with
    | some i => exact Nat.le_add_right _ _
    | none =>
      rw [cpuEdges_cons, hcpu] at hedges
      have hsame : (s.edge e).pulse = s.pulse := by
        unfold pulse
        rw [(edge_l2 s hcpu).2.1, (edge_l2 s hcpu).2.2]
      rw [← hsame]
      exact (ih hedges).trans (Nat.le_add_left _ _)

/-- A line in the mailbox is received after its stage. -/
theorem coming_le_pulses {edges : List (Edge CPU_CORES)} (hrunning : ∀ e ∈ edges, e.Running)
    (target : Fin CPU_CORES) (horderly : s.dmaInvalidate.Orderly)
    (hheld : s.dmaInvalidate.request ≠ s.dmaInvalidate.ack)
    (hedges : stage s.dmaInvalidate ≤ cpuEdges edges) :
    s.pulse.length + 1 ≤ (pulses target s edges).length := by
  induction edges generalizing s with
  | nil =>
    have hpositive : 2 ≤ stage s.dmaInvalidate := by
      unfold stage
      split_ifs <;> omega
    simp only [cpuEdges, List.countP_nil] at hedges
    omega
  | cons e edges ih =>
    have he := hrunning e List.mem_cons_self
    have hrest := fun e' he' => hrunning e' (List.mem_cons_of_mem e he')
    have horderly' := (coming_edge horderly he target).1
    -- No line is accepted while one is on its way.
    have hnone : ∀ i, s.dmaLineAccepted i = false := by
      intro i
      have hready : s.dmaInvalidate.ready = false := by
        refine Bool.eq_false_iff.mpr fun hready => hheld ?_
        exact (Mailbox.orderly_empty _ _ _ _ _ _ horderly (beq_iff_eq.mp hready)).1
      simp [dmaLineAccepted, dmaLineReadyOut, hready]
    have hstep := edge_dmaInvalidate s he
    rw [pulses, List.length_append, pulseOf_eq]
    rw [cpuEdges_cons] at hedges
    match hcpu : e.cpu with
    | none =>
      have hsame : (s.edge e).dmaInvalidate.request = s.dmaInvalidate.request ∧
          (s.edge e).dmaInvalidate.request1 = s.dmaInvalidate.request1 ∧
          (s.edge e).dmaInvalidate.request2 = s.dmaInvalidate.request2 ∧
          (s.edge e).dmaInvalidate.ack = s.dmaInvalidate.ack := by
        rw [hstep, hcpu]
        match e.l2 with
        | none => exact ⟨rfl, rfl, rfl, rfl⟩
        | some i =>
          simp only [Option.map_some, hnone]
          exact ⟨rfl, rfl, rfl, rfl⟩
      obtain ⟨hrequest, hrequest1, hrequest2, hack⟩ := hsame
      have hpulse : (s.edge e).pulse = s.pulse := by
        unfold pulse
        rw [(edge_l2 s hcpu).2.1, (edge_l2 s hcpu).2.2]
      rw [hcpu] at hedges
      have hmore := ih hrest horderly' (by rw [hrequest, hack]; exact hheld) (by
        unfold stage
        rw [hrequest, hrequest1, hrequest2]
        exact hedges)
      rw [hpulse] at hmore
      exact hmore.trans (Nat.le_add_left _ _)
    | some i =>
      have hmoved : (s.edge e).dmaInvalidate.request = s.dmaInvalidate.request ∧
          (s.edge e).dmaInvalidate.request1 = s.dmaInvalidate.request ∧
          (s.edge e).dmaInvalidate.request2 = s.dmaInvalidate.request1 ∧
          (s.edge e).dmaInvalidate.ack =
            if s.dmaInvalidate.valid then s.dmaInvalidate.request2 else s.dmaInvalidate.ack := by
        rw [hstep, hcpu]
        match e.l2 with
        | none => exact ⟨rfl, rfl, rfl, rfl⟩
        | some i =>
          simp only [Option.map_some, hnone]
          exact ⟨rfl, rfl, rfl, rfl⟩
      obtain ⟨hrequest, hrequest1, hrequest2, hack⟩ := hmoved
      rw [hcpu] at hedges
      simp only [Option.isSome_some, if_true] at hedges ⊢
      refine Nat.add_le_add_left ?_ _
      by_cases hvalid : s.dmaInvalidate.valid = true
      · -- The line is seen, and the pulse follows.
        have hpulse : (s.edge e).pulse.length = 1 := by
          unfold pulse
          rw [(edge_cpu s hcpu (he.cpu i hcpu)).2.1, hvalid]
          rfl
        have hone : 1 ≤ cpuEdges edges := by
          have hpositive : 2 ≤ stage s.dmaInvalidate := by
            unfold stage
            split_ifs <;> omega
          omega
        rw [← hpulse]
        exact pulse_le_pulses target hone
      · have hack' : s.dmaInvalidate.request2 = s.dmaInvalidate.ack := by
          simpa [Mailbox.valid] using hvalid
        have hmore := ih hrest horderly' (by rw [hrequest, hack, if_neg hvalid]; exact hheld) (by
          unfold stage at hedges ⊢
          rw [hrequest, hrequest1, hrequest2]
          by_cases hfirst : s.dmaInvalidate.request ≠ s.dmaInvalidate.request1
          · rw [if_pos hfirst] at hedges
            rw [if_neg (fun h => h rfl), if_pos hfirst]
            omega
          · rw [if_neg hfirst, if_pos (by rw [hack']; exact hheld)] at hedges
            rw [if_neg (fun h => h rfl), if_neg hfirst]
            omega)
        exact (Nat.le_add_left _ _).trans hmore

theorem lines_received {edges : List (Edge CPU_CORES)} (hrunning : ∀ e ∈ edges, e.Running)
    (target : Fin CPU_CORES) (horderly : s.dmaInvalidate.Orderly) (hedges : 4 ≤ cpuEdges edges) :
    s.coming.length ≤ (pulses target s edges).length := by
  unfold coming Mailbox.held
  by_cases hheld : s.dmaInvalidate.request = s.dmaInvalidate.ack
  · rw [if_pos hheld, List.append_nil]
    exact pulse_le_pulses target (by omega)
  · rw [if_neg hheld, List.length_append]
    refine coming_le_pulses hrunning target horderly hheld (le_trans ?_ hedges)
    unfold stage
    split_ifs <;> omega

/-! ## Stores -/

/-- Two edges of the CPU clock in a run, one after the other. -/
structure Clocks (edges : List (Edge CPU_CORES)) where
  before : List (Edge CPU_CORES)
  clock : Edge CPU_CORES
  between : List (Edge CPU_CORES)
  next : Edge CPU_CORES
  later : List (Edge CPU_CORES)
  inputs : CpuInputs CPU_CORES
  nextInputs : CpuInputs CPU_CORES
  edges_eq : edges = before ++ clock :: (between ++ next :: later)
  clock_cpu : clock.cpu = some inputs
  next_cpu : next.cpu = some nextInputs
  between_cpu : ∀ e ∈ between, e.cpu = none

/-- What a core receives in an edge is an invalidation for an address. -/
def Receives (s : TribeTest CPU_CORES) (i : CpuInputs CPU_CORES) (target : Fin CPU_CORES)
    (addr : BitVec 32) : Prop :=
  s.externalCacheInvalidateIn i target = true ∨
    (s.peerCacheInvalidateIn target = true ∧ s.peerCacheInvalidateAddrIn target = addr)

/-- A line is seen in the clock of a store that is alone in the lane of another core. -/
def Conflict (s : TribeTest CPU_CORES) (i : CpuInputs CPU_CORES) : Prop :=
  s.dmaInvalidate.valid = true ∧ ∃ source target, target ≠ source ∧
    (i.dataPath source).accepted = true ∧
    (i.dataPath source).addrIn ≠ s.dmaInvalidate.payload ∧
    ∀ other, target ≠ other → (i.dataPath other).recorded = true → other = source

theorem recorded_of_accepted {d : DataPath} (h : d.accepted = true) :
    d.recorded = true ∧ d.dmemAddrOut = d.addrIn := by
  simp only [DataPath.accepted, DataPath.writeIn, Bool.and_eq_true, Option.isNone_iff_eq_none] at h
  obtain ⟨⟨hdata, hptw, hwrite⟩, hwait⟩ := h
  simp [DataPath.recorded, DataPath.addrIn, hdata, hwrite, hwait, hptw]

/-- What is received does not depend on the edges of the L2 clock in between. -/
theorem same_of_between {between : List (Edge CPU_CORES)} (hbetween : ∀ e ∈ between, e.cpu = none) :
    (between.foldl edge s).peerStore = s.peerStore ∧
    (between.foldl edge s).dmaInvalidatePulseCpu = s.dmaInvalidatePulseCpu ∧
    (between.foldl edge s).dmaInvalidateAddrCpu = s.dmaInvalidateAddrCpu := by
  induction between generalizing s with
  | nil => exact ⟨rfl, rfl, rfl⟩
  | cons e between ih =>
    obtain ⟨hstore, hpulse, haddr⟩ := ih (s := s.edge e)
      (fun e he => hbetween e (List.mem_cons_of_mem _ he))
    obtain ⟨hstore', hpulse', haddr'⟩ := edge_l2 s (hbetween e List.mem_cons_self)
    exact ⟨hstore.trans hstore', hpulse.trans hpulse', haddr.trans haddr'⟩

theorem receives_of_same {s' : TribeTest CPU_CORES} (hstore : s'.peerStore = s.peerStore)
    (hpulse : s'.dmaInvalidatePulseCpu = s.dmaInvalidatePulseCpu)
    (haddr : s'.dmaInvalidateAddrCpu = s.dmaInvalidateAddrCpu) (i : CpuInputs CPU_CORES)
    (target : Fin CPU_CORES) (addr : BitVec 32) :
    s'.Receives i target addr ↔ s.Receives i target addr := by
  unfold Receives externalCacheInvalidateIn peerCacheInvalidateIn peerCacheInvalidateAddrIn
    peerInvalidateComb
  rw [hstore, hpulse, haddr]

/-- The stores of a clock are received in the next one exactly without a conflict. -/
theorem receives_iff (i j : CpuInputs CPU_CORES) (hcpu : e.cpu = some i) (hreset : i.reset = false) :
    (∀ source target, target ≠ source → (i.dataPath source).accepted = true →
      (s.edge e).Receives j target (i.dataPath source).addrIn) ↔
    j.externalCacheInvalidateIn = true ∨ ¬s.Conflict i := by
  obtain ⟨hstore, hpulse, haddr⟩ := edge_cpu s hcpu hreset
  have hvalid : ∀ core, ((s.edge e).peerStore core).valid = true ↔
      (i.dataPath core).recorded = true := by
    intro core
    rw [hstore]
    split
    · rename_i hrecorded
      simp [hrecorded]
    · rename_i hrecorded
      simp [hrecorded]
  have halone : ∀ source target, (s.edge e).Alone source target ↔
      ∀ other, target ≠ other → (i.dataPath other).recorded = true → other = source := by
    intro source target
    unfold Alone
    simp only [hvalid]
  have hcomb : ∀ source target, target ≠ source → (i.dataPath source).accepted = true →
      (s.edge e).Alone source target →
      (s.edge e).peerInvalidateComb target = ⟨true, false, (i.dataPath source).addrIn⟩ := by
    intro source target hne haccepted hsingle
    obtain ⟨hrecorded, hsame⟩ := recorded_of_accepted haccepted
    rw [peerInvalidateComb_alone hne ((hvalid source).mpr hrecorded) hsingle, hstore, if_pos hrecorded,
      hsame]
  by_cases hexternal : j.externalCacheInvalidateIn = true
  · simp only [hexternal, true_or, iff_true]
    intro source target _ _
    exact .inl (by simp [externalCacheInvalidateIn, hexternal])
  · simp only [hexternal, Bool.false_eq_true, false_or]
    constructor
    · rintro hreceived ⟨hseen, source, target, hne, haccepted, hdifferent, hsingle⟩
      have h := hreceived source target hne haccepted
      unfold Receives externalCacheInvalidateIn peerCacheInvalidateAddrIn at h
      rw [hcomb source target hne haccepted ((halone source target).mpr hsingle), hpulse, haddr, hseen]
        at h
      simp only [hexternal, Bool.or_false, Bool.false_eq_true, if_true, false_or] at h
      exact hdifferent h.2.symm
    · intro hclear source target hne haccepted
      obtain ⟨hrecorded, -⟩ := recorded_of_accepted haccepted
      by_cases hsingle : (s.edge e).Alone source target
      · refine .inr ?_
        unfold peerCacheInvalidateIn peerCacheInvalidateAddrIn
        rw [hcomb source target hne haccepted hsingle, hpulse, haddr]
        refine ⟨rfl, ?_⟩
        split
        · rename_i hseen
          by_contra hdifferent
          exact hclear ⟨hseen, source, target, hne, haccepted, fun h => hdifferent h.symm,
            (halone source target).mp hsingle⟩
        · rfl
      · refine .inl ?_
        unfold externalCacheInvalidateIn
        rw [peerInvalidateComb_full hne ((hvalid source).mpr hrecorded) hsingle, Bool.or_true]

/-! ## Runs -/

theorem orderly_start : (start : TribeTest CPU_CORES).dmaInvalidate.Orderly := rfl

theorem lines_append (s : TribeTest CPU_CORES) (before later : List (Edge CPU_CORES)) :
    lines s (before ++ later) = lines s before ++ lines (before.foldl edge s) later := by
  induction before generalizing s with
  | nil => rfl
  | cons e before ih =>
    rw [List.cons_append, lines, lines, ih, List.append_assoc]
    rfl

theorem pulses_append (target : Fin CPU_CORES) (s : TribeTest CPU_CORES)
    (before later : List (Edge CPU_CORES)) :
    pulses target s (before ++ later) =
      pulses target s before ++ pulses target (before.foldl edge s) later := by
  induction before generalizing s with
  | nil => rfl
  | cons e before ih =>
    rw [List.cons_append, pulses, pulses, ih, List.append_assoc]
    rfl

/-- Every accepted line is received by every core, once and in order, and at the latest four
clocks later; every store is received in the next clock exactly if no line is seen in the
clock of a store that is alone in a lane. -/
theorem invalidations_exact (edges : List (Edge CPU_CORES)) (hrunning : ∀ e ∈ edges, e.Running) :
    (∀ target before later, edges = before ++ later →
      lines start before = pulses target start before ++ (run before).coming ∧
      (4 ≤ cpuEdges later → lines start before <+: pulses target start edges)) ∧
    ((∀ c : Clocks edges, ∀ source target, target ≠ source →
        (c.inputs.dataPath source).accepted = true →
        (run (c.before ++ c.clock :: c.between)).Receives c.nextInputs target
          (c.inputs.dataPath source).addrIn) ↔
      ∀ c : Clocks edges, c.nextInputs.externalCacheInvalidateIn = true ∨
        ¬(run c.before).Conflict c.inputs) := by
  constructor
  · rintro target before later rfl
    have hbefore := fun e he => hrunning e (List.mem_append_left later he)
    have hlater := fun e he => hrunning e (List.mem_append_right before he)
    obtain ⟨horderly, hlines⟩ := lines_eq hbefore target orderly_start
    refine ⟨hlines, fun hedges => ?_⟩
    have hreceived := lines_received hlater target horderly hedges
    obtain ⟨-, hall⟩ := lines_eq hrunning target orderly_start
    have hprefix : lines start before <+: lines start (before ++ later) := by
      rw [lines_append]
      exact List.prefix_append _ _
    change start.lines (before ++ later) = _ at hall
    refine List.prefix_of_prefix_length_le hprefix (hall ▸ List.prefix_append _ _) ?_
    rw [pulses_append, List.length_append]
    have hlength := congrArg List.length hlines
    rw [List.length_append, List.length_append] at hlength
    change 0 + _ = _ at hlength
    omega
  · refine forall_congr' fun c => ?_
    have hclock : c.clock ∈ edges :=
      (congrArg (c.clock ∈ ·) c.edges_eq).mpr (List.mem_append_right _ List.mem_cons_self)
    have hstate : run (c.before ++ c.clock :: c.between) =
        c.between.foldl edge ((run c.before).edge c.clock) := by
      unfold run
      rw [List.foldl_append, List.foldl_cons]
    obtain ⟨hstore, hpulse, haddr⟩ := same_of_between
      (s := (run c.before).edge c.clock) c.between_cpu
    rw [hstate, ← receives_iff c.inputs c.nextInputs c.clock_cpu
      ((hrunning c.clock hclock).cpu _ c.clock_cpu)]
    simp only [receives_of_same hstore hpulse haddr]

/-- An edge of the CPU clock in which core zero stores at an address, or no core does. -/
def storeClock (addr : Option (BitVec 32)) : Edge 2 where
  cpu := some
    { reset := false
      dataPath := fun core =>
        { dmemWriteOut := addr.isSome && decide (core = 0)
          dmemAddrOut := addr.getD 0
          l2PtwOwner := none
          atomicDataAccess := true
          waitOut := false }
      externalCacheInvalidateIn := false }
  l2 := none

/-- An edge of the L2 clock in which a line is accepted. -/
def lineClock (addr : BitVec 32) : Edge 2 where
  cpu := none
  l2 := some { reset := false, dmaLineValidIn := true, dmaLineAddrIn := addr, dmaLineReady := true }

theorem storeClock_running (addr : Option (BitVec 32)) : (storeClock addr).Running where
  cpu := by
    intro i hi
    cases hi
    rfl
  l2 := nofun

theorem lineClock_running (addr : BitVec 32) : (lineClock addr).Running where
  cpu := nofun
  l2 := by
    intro i hi
    cases hi
    rfl

/-- The store at `0x2000` takes the lane with the address of the line at `0x1000`. -/
theorem store_lost : ¬∀ edges : List (Edge 2), (∀ e ∈ edges, e.Running) → ∀ c : Clocks edges,
    ∀ source target, target ≠ source → (c.inputs.dataPath source).accepted = true →
      (run (c.before ++ c.clock :: c.between)).Receives c.nextInputs target
        (c.inputs.dataPath source).addrIn := by
  intro h
  have hlost := h [lineClock 0x1000, storeClock none, storeClock none, storeClock (some 0x2000),
    storeClock none] ?_
    { before := [lineClock 0x1000, storeClock none, storeClock none]
      clock := storeClock (some 0x2000)
      between := []
      next := storeClock none
      later := []
      inputs := _
      nextInputs := _
      edges_eq := rfl
      clock_cpu := rfl
      next_cpu := rfl
      between_cpu := nofun } 0 1 (by decide) rfl
  · unfold Receives at hlost
    revert hlost
    decide
  · simp only [List.mem_cons, List.not_mem_nil, or_false]
    rintro e (rfl | rfl | rfl | rfl | rfl)
    exacts [lineClock_running _, storeClock_running _, storeClock_running _, storeClock_running _,
      storeClock_running _]

theorem invalidations_exact_line : lines start [lineClock 0x1000] <+:
    pulses 1 start [lineClock 0x1000, storeClock none, storeClock none, storeClock none,
      storeClock none] := by
  refine ((invalidations_exact [lineClock 0x1000, storeClock none, storeClock none,
    storeClock none, storeClock none] ?_).1 1 [lineClock 0x1000] [storeClock none, storeClock none,
    storeClock none, storeClock none] rfl).2 (by decide)
  simp only [List.mem_cons, List.not_mem_nil, or_false]
  rintro e (rfl | rfl | rfl | rfl | rfl)
  exacts [lineClock_running _, storeClock_running _, storeClock_running _, storeClock_running _,
    storeClock_running _]

end TribeTest

end CppHdl.Cpu
