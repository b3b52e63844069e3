import CppHdl.Lib.Transition
import CppHdl.Lib.WordMemory

/-!
# The interrupt controller

`PLIC` turns the levels of its sources into requests. A request is pending until a hart
reads its identifier from a claim register, and from then on the source is in service
until the same identifier is written there. Both registers sit behind one AXI port whose
read and write channels act in the same clock.
-/

namespace CppHdl.Devices

/-- The parameters; the bus carries whole words. -/
structure PlicGeometry where
  ADDR_WIDTH : Nat
  ID_WIDTH : Nat
  DATA_WIDTH : Nat
  SOURCES : Nat
  HART_COUNT : Nat
  words : 0 < DATA_WIDTH ∧ DATA_WIDTH % 32 = 0

namespace PlicGeometry

abbrev PRIORITY_BASE : Nat := 0x000000
abbrev PENDING_BASE : Nat := 0x001000
abbrev ENABLE_BASE : Nat := 0x002000
abbrev CONTEXT_BASE : Nat := 0x200000
abbrev CONTEXT_STRIDE : Nat := 0x1000
abbrev ENABLE_STRIDE : Nat := 0x80
abbrev CLAIM_OFFSET : Nat := 0x4

variable (g : PlicGeometry)

/-- What is at an address. The ranges are disjoint, and both channels go through them in
this order. -/
inductive Register
  | priority (source : Nat)
  | pending
  | enable (context : Nat)
  | threshold (context : Nat)
  | claim (context : Nat)
  | nothing
  deriving DecidableEq

def register (addr : Nat) : Register :=
  if PRIORITY_BASE ≤ addr ∧ addr < PENDING_BASE then
    if (addr - PRIORITY_BASE) / 4 < g.SOURCES then .priority ((addr - PRIORITY_BASE) / 4)
    else .nothing
  else if addr = PENDING_BASE then .pending
  else if ENABLE_BASE ≤ addr ∧ addr < ENABLE_BASE + g.HART_COUNT * ENABLE_STRIDE ∧
      (addr - ENABLE_BASE) % ENABLE_STRIDE = 0 then
    .enable ((addr - ENABLE_BASE) / ENABLE_STRIDE)
  else if CONTEXT_BASE ≤ addr ∧ addr < CONTEXT_BASE + g.HART_COUNT * CONTEXT_STRIDE ∧
      (addr - CONTEXT_BASE) % CONTEXT_STRIDE = 0 then
    .threshold ((addr - CONTEXT_BASE) / CONTEXT_STRIDE)
  else if CONTEXT_BASE + CLAIM_OFFSET ≤ addr ∧
      addr < CONTEXT_BASE + g.HART_COUNT * CONTEXT_STRIDE + CLAIM_OFFSET ∧
      (addr - CONTEXT_BASE) % CONTEXT_STRIDE = CLAIM_OFFSET then
    .claim ((addr - CONTEXT_BASE) / CONTEXT_STRIDE)
  else .nothing

/-- The byte lane of a word on the bus. -/
def lane (addr : Nat) : Nat := addr % (g.DATA_WIDTH / 8)

end PlicGeometry

open PlicGeometry

structure Plic (g : PlicGeometry) where
  readAddr : BitVec g.ADDR_WIDTH
  readId : BitVec g.ID_WIDTH
  readValid : Bool
  readData : BitVec g.DATA_WIDTH
  writeAddr : BitVec g.ADDR_WIDTH
  writeId : BitVec g.ID_WIDTH
  writeAddrValid : Bool
  writeRespValid : Bool
  priority : Nat → BitVec 32
  enable : Nat → BitVec 32
  threshold : Nat → BitVec 32
  pending : BitVec 32
  gatewayBusy : BitVec 32

structure PlicInputs (g : PlicGeometry) where
  reset : Bool
  sourceIrq : Nat → Bool
  awvalid : Bool
  awaddr : BitVec g.ADDR_WIDTH
  awid : BitVec g.ID_WIDTH
  wvalid : Bool
  wdata : BitVec g.DATA_WIDTH
  bready : Bool
  arvalid : Bool
  araddr : BitVec g.ADDR_WIDTH
  arid : BitVec g.ID_WIDTH
  rready : Bool

namespace Plic

variable {g : PlicGeometry} (s : Plic g) (i : PlicInputs g)

/-- The levels of the sources; source 0 is not used. -/
def sourceBits : BitVec 32 :=
  (List.range (min g.SOURCES 32)).foldl (fun bits source =>
    if 1 ≤ source ∧ i.sourceIrq source then bits ||| 1#32 <<< source else bits) 0

/-- The lowest enabled pending source whose priority is above the threshold. -/
def claimForContext (context : Nat) : Nat :=
  ((List.range (min g.SOURCES 32)).find? fun source =>
    decide (1 ≤ source) && (s.pending &&& s.enable context).getLsbD source &&
      decide ((s.threshold context).toNat < (s.priority source).toNat)).getD 0

/-- `external_irq_per_hart_out`. -/
def externalIrq (context : Nat) : Bool := s.claimForContext context ≠ 0

def awready : Bool := !s.writeAddrValid && !s.writeRespValid

def wready : Bool := s.writeAddrValid && !s.writeRespValid

def arready : Bool := !s.readValid

/-- The address of an AXI address is its low 32 bits. -/
def word (addr : BitVec g.ADDR_WIDTH) : Nat := (addr.setWidth 32).toNat

def writeWord : BitVec 32 := i.wdata.extractLsb' (g.lane (word s.writeAddr) * 8) 32

def completionMask : BitVec 32 :=
  let addr := word s.writeAddr
  let data := s.writeWord i
  let context :=
    if CONTEXT_BASE ≤ addr ∧ addr < CONTEXT_BASE + g.HART_COUNT * CONTEXT_STRIDE then
      (addr - CONTEXT_BASE) / CONTEXT_STRIDE
    else 0
  if i.wvalid && s.wready then
    if context < g.HART_COUNT ∧ addr = CONTEXT_BASE + context * CONTEXT_STRIDE + CLAIM_OFFSET ∧
        0 < data.toNat ∧ data.toNat < 32 then
      1#32 <<< data.toNat
    else 0
  else 0

/-- The requests after the levels are sampled. -/
def pendingNext : BitVec 32 :=
  s.pending ||| sourceBits i &&& ~~~s.completionMask i &&& ~~~s.gatewayBusy

/-- The read channel takes an address: the word that it answers, and the claim. -/
def read (n : Plic g) : Plic g :=
  let addr := word i.araddr
  let answer (word : BitVec 32) (n : Plic g) : Plic g :=
    { n with
      readData := word.setWidth g.DATA_WIDTH <<< (g.lane addr * 8)
      readAddr := i.araddr
      readId := i.arid
      readValid := true }
  match g.register addr with
  | .priority source => answer (s.priority source) n
  | .pending => answer (s.pendingNext i) n
  | .enable context => answer (s.enable context) n
  | .threshold context => answer (s.threshold context) n
  | .claim context =>
      let claim := s.claimForContext context
      answer (BitVec.ofNat 32 claim)
        (if 0 < claim ∧ claim < 32 then
          { n with
            pending := s.pendingNext i &&& ~~~(1#32 <<< claim)
            gatewayBusy := s.gatewayBusy ||| 1#32 <<< claim }
        else n)
  | .nothing => answer 0 n

/-- The write channel takes its word. -/
def write (n : Plic g) : Plic g :=
  let data := s.writeWord i
  let n := { n with writeAddrValid := false, writeRespValid := true }
  match g.register (word s.writeAddr) with
  | .priority source => { n with priority := Function.update n.priority source data }
  | .enable context => { n with enable := Function.update n.enable context data }
  | .threshold context => { n with threshold := Function.update n.threshold context data }
  | .claim _ =>
      if s.completionMask i ≠ 0 then
        { n with gatewayBusy := s.gatewayBusy &&& ~~~s.completionMask i }
      else n
  | _ => n

def clear (n : Plic g) : Plic g :=
  { n with
    readAddr := 0
    readId := 0
    readValid := false
    readData := 0
    writeAddr := 0
    writeId := 0
    writeAddrValid := false
    writeRespValid := false
    pending := 0
    gatewayBusy := 0
    enable := fun context => if context < g.HART_COUNT then 0 else n.enable context
    threshold := fun context => if context < g.HART_COUNT then 0 else n.threshold context
    priority := fun source => if source < g.SOURCES then 0 else n.priority source }

/-- `_work` and the strobe after it. The later assignment of a register stays. -/
def work : Plic g :=
  let n := { s with pending := s.pendingNext i }
  let n := if i.arvalid && s.arready then s.read i n else n
  let n := if s.readValid && i.rready then { n with readValid := false } else n
  let n :=
    if i.awvalid && s.awready then
      { n with writeAddr := i.awaddr, writeId := i.awid, writeAddrValid := true }
    else n
  let n := if i.wvalid && s.wready then s.write i n else n
  let n := if s.writeRespValid && i.bready then { n with writeRespValid := false } else n
  if i.reset then n.clear else n

/-! ## Claims and completions -/

/-- The source that the read channel claims in this clock, 0 for none. -/
def claims : Nat :=
  if i.arvalid && s.arready then
    match g.register (word i.araddr) with
    | .claim context => s.claimForContext context
    | _ => 0
  else 0

/-- The source that the write channel completes, 0 for none. -/
def completes : Nat := if s.completionMask i = 0 then 0 else (s.writeWord i).toNat

/-- The bit of a source, none for source 0. -/
def bitOf (source : Nat) : BitVec 32 := if source = 0 then 0 else 1#32 <<< source

theorem getLsbD_bitOf {source k : Nat} (hk : k < 32) :
    (bitOf source).getLsbD k = (decide (source = k) && decide (k ≠ 0)) := by
  unfold bitOf
  by_cases hzero : source = 0
  · rw [if_pos hzero, hzero]
    change (0#32).getLsbD k = _
    rw [BitVec.getLsbD_zero, Bool.eq_iff_iff]
    simp only [Bool.false_eq_true, Bool.and_eq_true, decide_eq_true_eq, false_iff, not_and,
      not_not]
    exact Eq.symm
  · rw [if_neg hzero, BitVec.getLsbD_shiftLeft, BitVec.getLsbD_one, decide_eq_true hk,
      Bool.true_and, Bool.eq_iff_iff]
    simp only [Bool.and_eq_true, Bool.not_eq_true', decide_eq_false_iff_not, decide_eq_true_eq]
    omega

variable {s i}

theorem claimForContext_spec {context : Nat} (h : s.claimForContext context ≠ 0) :
    s.claimForContext context < min g.SOURCES 32 ∧
      s.pending.getLsbD (s.claimForContext context) = true := by
  unfold claimForContext at h ⊢
  cases hfound : (List.range (min g.SOURCES 32)).find? fun source =>
      decide (1 ≤ source) && (s.pending &&& s.enable context).getLsbD source &&
        decide ((s.threshold context).toNat < (s.priority source).toNat) with
  | none =>
      rw [hfound] at h
      exact absurd rfl h
  | some source =>
      have hcond := List.find?_some hfound
      rw [BitVec.getLsbD_and] at hcond
      simp only [Bool.and_eq_true] at hcond
      exact ⟨List.mem_range.mp (List.mem_of_find?_eq_some hfound), hcond.1.2.1⟩

theorem claims_spec (h : s.claims i ≠ 0) :
    s.claims i < 32 ∧ s.pending.getLsbD (s.claims i) = true := by
  have hclaim : ∃ context, s.claims i = s.claimForContext context := by
    unfold claims at h ⊢
    split_ifs at h ⊢ with hfire
    · cases hreg : g.register (word i.araddr) with
      | claim context => exact ⟨context, rfl⟩
      | _ =>
          rw [hreg] at h
          exact absurd rfl h
    · exact absurd rfl h
  obtain ⟨context, hcontext⟩ := hclaim
  rw [hcontext] at h ⊢
  have hspec := claimForContext_spec h
  exact ⟨Nat.lt_of_lt_of_le hspec.1 (Nat.min_le_right _ _), hspec.2⟩

/-- A completion is a write of an identifier to a claim register. -/
theorem completionMask_cases : s.completionMask i = 0 ∨
    (i.wvalid && s.wready) = true ∧ (∃ context, g.register (word s.writeAddr) = .claim context) ∧
      (s.writeWord i).toNat ≠ 0 ∧ s.completionMask i = 1#32 <<< (s.writeWord i).toNat := by
  have hregister : ∀ context < g.HART_COUNT,
      word s.writeAddr = CONTEXT_BASE + context * CONTEXT_STRIDE + CLAIM_OFFSET →
      g.register (word s.writeAddr) = .claim ((word s.writeAddr - CONTEXT_BASE) / CONTEXT_STRIDE) := by
    intro context hlt haddr
    unfold register
    dsimp only [PRIORITY_BASE, PENDING_BASE, ENABLE_BASE, CONTEXT_BASE, CONTEXT_STRIDE, ENABLE_STRIDE,
      CLAIM_OFFSET] at haddr ⊢
    rw [if_neg (by omega), if_neg (by omega), if_neg (by omega), if_neg (by omega),
      if_pos (by omega)]
  unfold completionMask
  dsimp only
  by_cases hfire : (i.wvalid && s.wready) = true
  · rw [if_pos hfire]
    generalize (if CONTEXT_BASE ≤ word s.writeAddr ∧
        word s.writeAddr < CONTEXT_BASE + g.HART_COUNT * CONTEXT_STRIDE then
      (word s.writeAddr - CONTEXT_BASE) / CONTEXT_STRIDE else 0) = context
    by_cases hcond : context < g.HART_COUNT ∧
        word s.writeAddr = CONTEXT_BASE + context * CONTEXT_STRIDE + CLAIM_OFFSET ∧
          0 < (s.writeWord i).toNat ∧ (s.writeWord i).toNat < 32
    · rw [if_pos hcond]
      exact .inr ⟨hfire, ⟨_, hregister context hcond.1 hcond.2.1⟩,
        Nat.pos_iff_ne_zero.mp hcond.2.2.1, rfl⟩
    · rw [if_neg hcond]
      exact .inl rfl
  · rw [if_neg hfire]
    exact .inl rfl

theorem completionMask_eq : s.completionMask i = bitOf (s.completes i) := by
  unfold completes
  by_cases hnone : s.completionMask i = 0
  · rw [if_pos hnone, hnone]
    rfl
  · obtain ⟨-, -, hdata, hmask⟩ := completionMask_cases.resolve_left hnone
    rw [if_neg hnone, hmask]
    exact (if_neg hdata).symm

theorem fires_of_completes (h : s.completes i ≠ 0) :
    (i.wvalid && s.wready) = true ∧ ∃ context, g.register (word s.writeAddr) = .claim context := by
  have hmask : s.completionMask i ≠ 0 := fun hnone => h (if_pos hnone)
  obtain ⟨hfire, hregister, -⟩ := completionMask_cases.resolve_left hmask
  exact ⟨hfire, hregister⟩

/-! ## A clock -/

/-- What the read channel does to both registers. -/
theorem read_gateway (n : Plic g) (hpending : n.pending = s.pendingNext i)
    (hbusy : n.gatewayBusy = s.gatewayBusy) (hfire : (i.arvalid && s.arready) = true) :
    (s.read i n).pending = s.pendingNext i &&& ~~~bitOf (s.claims i) ∧
      (s.read i n).gatewayBusy = s.gatewayBusy ||| bitOf (s.claims i) := by
  have hnone : ∀ x : BitVec 32, x &&& ~~~bitOf 0 = x ∧ x ||| bitOf 0 = x := by
    intro x
    constructor
    · change x &&& ~~~0#32 = x
      rw [BitVec.not_zero, BitVec.and_allOnes]
    · exact BitVec.or_zero
  unfold read claims
  rw [if_pos hfire]
  dsimp only
  cases hreg : g.register (word i.araddr) with
  | claim context =>
      dsimp only
      by_cases hclaim : s.claimForContext context = 0
      · rw [if_neg (by omega), hclaim, (hnone _).1, (hnone _).2]
        exact ⟨hpending, hbusy⟩
      · have hlt := (claimForContext_spec hclaim).1
        unfold bitOf
        rw [if_pos ⟨by omega, by omega⟩, if_neg hclaim]
        exact ⟨rfl, rfl⟩
  | _ =>
      rw [(hnone _).1, (hnone _).2]
      exact ⟨hpending, hbusy⟩

theorem write_gateway (n : Plic g) :
    (s.write i n).pending = n.pending ∧
      (s.write i n).gatewayBusy =
        if s.completes i = 0 then n.gatewayBusy
        else s.gatewayBusy &&& ~~~bitOf (s.completes i) := by
  have hmask : s.completionMask i = 0 ↔ s.completes i = 0 := by
    constructor
    · exact fun h => if_pos h
    · intro h
      rw [completionMask_eq, h]
      rfl
  unfold write
  dsimp only
  by_cases hnone : s.completes i = 0
  · rw [if_pos hnone]
    cases hreg : g.register (word s.writeAddr) with
    | claim context =>
        dsimp only
        rw [if_neg fun h => h (hmask.mpr hnone)]
        exact ⟨rfl, rfl⟩
    | _ => exact ⟨rfl, rfl⟩
  · rw [if_neg hnone]
    obtain ⟨-, context, hreg⟩ := fires_of_completes hnone
    rw [hreg]
    dsimp only
    rw [if_pos fun h => hnone (hmask.mp h), completionMask_eq]
    exact ⟨rfl, rfl⟩

/-- Both registers after a clock: the write channel has the last word on what is in
service. -/
theorem gateway_work (hreset : i.reset = false) :
    (s.work i).pending = s.pendingNext i &&& ~~~bitOf (s.claims i) ∧
      (s.work i).gatewayBusy =
        if s.completes i = 0 then s.gatewayBusy ||| bitOf (s.claims i)
        else s.gatewayBusy &&& ~~~bitOf (s.completes i) := by
  have hread : ∀ n : Plic g, n.pending = s.pendingNext i → n.gatewayBusy = s.gatewayBusy →
      (if i.arvalid && s.arready then s.read i n else n).pending =
          s.pendingNext i &&& ~~~bitOf (s.claims i) ∧
        (if i.arvalid && s.arready then s.read i n else n).gatewayBusy =
          s.gatewayBusy ||| bitOf (s.claims i) := by
    intro n hpending hbusy
    by_cases hfire : (i.arvalid && s.arready) = true
    · rw [if_pos hfire]
      exact read_gateway n hpending hbusy hfire
    · have hclaims : s.claims i = 0 := if_neg hfire
      have hones : s.pendingNext i &&& ~~~bitOf 0 = s.pendingNext i := by
        change s.pendingNext i &&& ~~~0#32 = _
        rw [BitVec.not_zero, BitVec.and_allOnes]
      have hzero : s.gatewayBusy ||| bitOf 0 = s.gatewayBusy := BitVec.or_zero
      rw [if_neg hfire, hclaims, hones, hzero]
      exact ⟨hpending, hbusy⟩
  have hwrite : ∀ n : Plic g,
      (if i.wvalid && s.wready then s.write i n else n).pending = n.pending ∧
        (if i.wvalid && s.wready then s.write i n else n).gatewayBusy =
          if s.completes i = 0 then n.gatewayBusy
          else s.gatewayBusy &&& ~~~bitOf (s.completes i) := by
    intro n
    by_cases hfire : (i.wvalid && s.wready) = true
    · rw [if_pos hfire]
      exact write_gateway n
    · have hcompletes : s.completes i = 0 := by
        by_contra h
        exact hfire (fires_of_completes h).1
      rw [if_neg hfire, if_pos hcompletes]
      exact ⟨rfl, rfl⟩
  unfold work
  dsimp only
  rw [hreset, if_neg Bool.false_ne_true]
  obtain ⟨hpending, hbusy⟩ := hread { s with pending := s.pendingNext i } rfl rfl
  generalize (if i.arvalid && s.arready then s.read i { s with pending := s.pendingNext i }
    else { s with pending := s.pendingNext i }) = n₁ at hpending hbusy
  -- the handshakes of both channels leave the two registers alone
  have hr : ∀ n : Plic g,
      (if s.readValid && i.rready then { n with readValid := false } else n).pending = n.pending ∧
        (if s.readValid && i.rready then { n with readValid := false } else n).gatewayBusy =
          n.gatewayBusy := by
    intro n
    split_ifs <;> exact ⟨rfl, rfl⟩
  have haw : ∀ n : Plic g,
      (if i.awvalid && s.awready then
          { n with writeAddr := i.awaddr, writeId := i.awid, writeAddrValid := true }
        else n).pending = n.pending ∧
        (if i.awvalid && s.awready then
          { n with writeAddr := i.awaddr, writeId := i.awid, writeAddrValid := true }
        else n).gatewayBusy = n.gatewayBusy := by
    intro n
    split_ifs <;> exact ⟨rfl, rfl⟩
  have hb : ∀ n : Plic g,
      (if s.writeRespValid && i.bready then { n with writeRespValid := false } else n).pending =
          n.pending ∧
        (if s.writeRespValid && i.bready then { n with writeRespValid := false }
          else n).gatewayBusy = n.gatewayBusy := by
    intro n
    split_ifs <;> exact ⟨rfl, rfl⟩
  rw [(hb _).1, (hb _).2, (hwrite _).1, (hwrite _).2, (haw _).1, (haw _).2, (hr _).1, (hr _).2,
    hpending, hbusy]
  exact ⟨rfl, rfl⟩

end Plic

end CppHdl.Devices
