import CppHdl.Synth.ClockWalk

/-!
# The external memory channel

A block that accesses external memory is suspended. In the next clocks the command is
presented from registers until it is accepted, and the schedule waits for the response;
what was read is in a register when the next block runs. An access that is not aligned is
never presented.

The blocks of a clock run as in `ClockWalk`; here are the registers around them.
-/

namespace CppHdl.Synth

/-- The command pins. -/
structure Access where
  address : BitVec 32
  size : BitVec 8
  data : BitVec 64
  write : Bool

namespace Access

def none : Access := ⟨0, 0, 0, false⟩

/-- The address has a bit below the size. -/
def misaligned (a : Access) : Bool :=
  (List.range 3).any fun bit =>
    a.address.getLsbD bit && decide (BitVec.ofNat 8 (1 <<< bit) < a.size)

end Access

/-- What a block does to external memory; a write has a value. -/
structure Operation where
  address : BitVec 32
  size : BitVec 8
  value : Option (BitVec 64)

def Operation.pins (op : Operation) : Access :=
  ⟨op.address, op.size, op.value.getD 0, op.value.isSome⟩

/-- What the statements of a block can change; `badStorage` is an invalid access to the port
of the storage. -/
structure Values (σ τ : Type) where
  phase : BitVec 32
  fault : BitVec 32
  pending : Bool
  booting : Bool
  vars : σ
  locals : τ
  badStorage : Bool

/-- The values of a clock: `external_read` and the pins are set by accesses. -/
structure ClockValues (σ τ : Type) extends Values σ τ where
  request : Access
  read : Bool

/-- A schedule with external memory. Its variables are in `σ`, values within a clock in `τ`,
operands of a command in `ι`. After the blocks `commit` serves the port of the storage.

A block is suspended after an access, so it has one at most, to either memory. -/
structure ExternalDesign (σ τ ι : Type) where
  design : ScheduledDesign
  external : design.externalMemory = true
  acyclic : design.Acyclic ⟨false, false⟩
  body : Nat → ι → BitVec 64 → Values σ τ → Values σ τ
  condition : Nat → ι → BitVec 64 → Values σ τ → Bool
  access : Nat → Option (Values σ τ → Operation)
  noLocals : τ
  noOperands : ι
  resetVars : σ → σ
  commit : Bool → Values σ τ → σ
  access_suspends : ∀ n f, access n = some f → (design.block n).suspend = true ∧
    (design.block n).conditional = false ∧ (design.block n).no = none ∧
    ∃ y, (design.block n).yes = some y
  storage_suspends : ∀ n o data v, (body n o data v).badStorage = v.badStorage ∨
    (design.block n).suspend = true ∧ (design.block n).conditional = false ∧
      (design.block n).no = none ∧ access n = none
  commit_idle : ∀ enable v, v.locals = noLocals → commit enable v = v.vars

structure Registers (σ ι : Type) where
  phase : BitVec 32
  fault : BitVec 32
  pending : Bool
  booting : Bool
  vars : σ
  operands : ι
  busy : Bool
  sent : Bool
  saved : Access
  readData : BitVec 64

structure Pins (ι : Type) where
  reset : Bool
  commandValid : Bool
  responseReady : Bool
  operands : ι
  ready : Bool
  valid : Bool
  data : BitVec 64
  error : Bool

namespace ExternalDesign

variable {σ τ ι : Type} (D : ExternalDesign σ τ ι) (r : Registers σ ι) (i : Pins ι)

/-- Statements run while there is no fault, those of the access after the others. -/
def statements (n : Nat) (enabled : Bool) (v : ClockValues σ τ) : ClockValues σ τ :=
  if enabled then
    let b := D.body n r.operands r.readData v.toValues
    if b.fault = 0 then
      match D.access n with
      | some f =>
          let op := f b
          ⟨b, ⟨op.address, op.size, op.value.getD v.request.data, v.request.write || op.value.isSome⟩,
            v.read || op.value.isNone⟩
      | none => ⟨b, v.request, v.read⟩
    else ⟨b, v.request, v.read⟩
  else v

def meaning : Meaning (ClockValues σ τ) where
  statements := D.statements r
  condition n v := D.condition n r.operands r.readData v.toValues
  fault v := v.fault != 0
  setPhase yes phase v := if yes then { v with phase := BitVec.ofNat 32 phase } else v

/-! ## Handshakes -/

/-- `memory_out.valid_in`. -/
def validIn : Bool := !r.saved.misaligned && (!i.reset && (r.busy && !r.sent))

def accept : Bool := validIn r i && i.ready

/-- `memory_out.ready_in`. -/
def readyIn : Bool := !i.reset && (r.busy && (r.sent || accept r i))

def complete : Bool := readyIn r i && i.valid

def commandReady : Bool := !r.booting && !r.pending && (r.phase == 0 && r.fault == 0)

def accepted : Bool := i.commandValid && commandReady r

/-- Blocks run in a clock without a reset, a fault or an access under way. -/
def start : Bool := !i.reset && r.fault == 0 && !r.busy

def legal : Bool :=
  r.phase == 0 || decide (∃ n ∈ D.design.continuations ⟨false, false⟩, r.phase = BitVec.ofNat 32 (n + 1))

/-! ## A clock -/

def entering : ClockValues σ τ where
  phase :=
    if !i.reset && accepted r i then BitVec.ofNat 32 (D.design.commandEntry + 1)
    else if i.reset then BitVec.ofNat 32 (D.design.resetEntry + 1) else r.phase
  fault := if i.reset then 0 else if start r i && !D.legal r then 4 else r.fault
  pending := if i.reset then false else if !i.reset && i.responseReady then false else r.pending
  booting := if i.reset then true else r.booting
  vars := if i.reset then D.resetVars r.vars else r.vars
  locals := D.noLocals
  badStorage := false
  request := .none
  read := false

def leaving : ClockValues σ τ :=
  (D.design.exportBlocks ⟨false, false⟩ (D.meaning r) ⟨start r i, accepted r i, r.phase⟩
    (D.entering r i)).env

def badAddress : Bool := !i.reset && (r.busy && r.saved.misaligned)

def storageFault : BitVec 32 :=
  let v := D.leaving r i
  if v.fault != 0 then v.fault else if v.badStorage then 3 else 0

/-- The fault of the program or its storage, or else of the channel. -/
def fault : BitVec 32 :=
  if D.storageFault r i != 0 then D.storageFault r i
  else if badAddress r i then 3
  else if complete r i && i.error then 5
  else 0

def acceptedIssue : Bool :=
  ((D.leaving r i).read || (D.leaving r i).request.write) && D.fault r i == 0

def clock : Registers σ ι :=
  let v := D.leaving r i
  let newlyFaulted := D.fault r i != 0 && r.fault == 0
  { phase := if newlyFaulted then 0 else v.phase
    fault := D.fault r i
    pending := if newlyFaulted then true else v.pending
    booting := if newlyFaulted then false else v.booting
    vars := D.commit (!i.reset && D.storageFault r i == 0) v.toValues
    operands := if i.reset then D.noOperands else if accepted r i then i.operands else r.operands
    busy := if i.reset || badAddress r i then false else if complete r i then false
      else if D.acceptedIssue r i then true else r.busy
    sent := if i.reset || (complete r i || D.acceptedIssue r i) then false
      else r.sent || accept r i
    saved := if i.reset then .none else if D.acceptedIssue r i then v.request else r.saved
    readData := if i.reset then 0 else if complete r i then i.data else r.readData }

/-- A block is run in this clock and accesses external memory. -/
def Executes (b : Nat) (op : Operation) : Prop :=
  start r i = true ∧ ∃ e ∈ D.design.continuations ⟨false, false⟩,
    r.phase = BitVec.ofNat 32 (e + 1) ∧ ∃ path v', D.design.Walk (D.meaning r) e (D.entering r i) path v' ∧
      ∃ v f, (b, v) ∈ path ∧ v.fault = 0 ∧ D.access b = some f ∧ op = f v.toValues

variable {D r i} {b : Nat} {op : Operation}

/-! ## Blocks -/

theorem meaning_lawful : (D.meaning r).Lawful where
  statements_off _ _ := rfl
  setPhase_off _ _ := rfl
  fault_setPhase b k v := by
    cases b with
    | false => rfl
    | true => rfl

theorem continuation_mem {e : Nat} (he : e ∈ D.design.continuations ⟨false, false⟩) :
    e ∈ D.design.reachable ⟨false, false⟩ := by
  obtain ⟨-, hfirst, hreset, hclosed⟩ :=
    ScheduledDesign.reachable_spec (d := D.design) (x := ⟨false, false⟩)
  unfold ScheduledDesign.continuations at he
  rcases Finset.mem_insert.mp he with rfl | he
  · exact hreset rfl
  · rcases Finset.mem_union.mp he with he | he
    · rw [if_pos D.external] at he
      obtain rfl := Finset.mem_singleton.mp he
      exact hfirst
    · obtain ⟨n, hn, hyes⟩ := Finset.mem_biUnion.mp he
      exact (hclosed n (Finset.mem_filter.mp hn).1).1 e (Option.mem_toFinset.mp hyes)

theorem initial_iff {n : Nat} :
    D.design.initial ⟨false, false⟩ ⟨start r i, accepted r i, r.phase⟩ n = true ↔
      n ∈ D.design.continuations ⟨false, false⟩ ∧ start r i = true ∧
        r.phase = BitVec.ofNat 32 (n + 1) := by
  unfold ScheduledDesign.initial ScheduledDesign.phaseIs
  rw [D.external]
  simp

theorem phase_inj {m n : Nat} (hm : m ∈ D.design.continuations ⟨false, false⟩)
    (hn : n ∈ D.design.continuations ⟨false, false⟩)
    (h : BitVec.ofNat 32 (m + 1) = BitVec.ofNat 32 (n + 1)) : m = n := by
  have hsize : D.design.size < 2 ^ 31 := D.design.size_lt
  have hlt := ScheduledDesign.reachable_spec (d := D.design) (x := ⟨false, false⟩) |>.1
  have hm' := hlt m (continuation_mem hm)
  have hn' := hlt n (continuation_mem hn)
  have hval := congrArg BitVec.toNat h
  rw [BitVec.toNat_ofNat, BitVec.toNat_ofNat, Nat.mod_eq_of_lt (by omega),
    Nat.mod_eq_of_lt (by omega)] at hval
  omega

/-- Without a block to start with, the blocks change nothing. -/
theorem leaving_idle (h : start r i = false ∨
    ∀ e ∈ D.design.continuations ⟨false, false⟩, r.phase ≠ BitVec.ofNat 32 (e + 1)) :
    D.leaving r i = D.entering r i := by
  refine ScheduledDesign.exportBlocks_idle D.acyclic meaning_lawful (.inr fun n => ?_)
  rw [← Bool.not_eq_true, initial_iff]
  rintro ⟨hn, hstart, hphase⟩
  rcases h with h | h
  · exact Bool.false_ne_true (h.symm.trans hstart)
  · exact h n hn hphase

theorem entering_fault (hstart : start r i = true) {e : Nat}
    (he : e ∈ D.design.continuations ⟨false, false⟩) (hphase : r.phase = BitVec.ofNat 32 (e + 1)) :
    (D.entering r i).fault = 0 := by
  unfold start at hstart
  simp only [Bool.and_eq_true, Bool.not_eq_true', beq_iff_eq] at hstart
  obtain ⟨⟨hreset, hfault⟩, -⟩ := hstart
  have hlegal : D.legal r = true := by
    unfold legal
    rw [decide_eq_true (⟨e, he, hphase⟩ : ∃ n ∈ D.design.continuations ⟨false, false⟩,
      r.phase = BitVec.ofNat 32 (n + 1)), Bool.or_true]
  unfold entering
  dsimp only
  rw [hreset, hlegal, Bool.not_true, Bool.and_false]
  exact hfault

/-- The blocks of a clock are a walk from the block of the phase. -/
theorem leaving_walk (hstart : start r i = true) {e : Nat}
    (he : e ∈ D.design.continuations ⟨false, false⟩) (hphase : r.phase = BitVec.ofNat 32 (e + 1)) :
    ∃ path, D.design.Walk (D.meaning r) e (D.entering r i) path (D.leaving r i) := by
  refine ScheduledDesign.exportBlocks_walk D.acyclic meaning_lawful (continuation_mem he) ?_
    fun n => ?_
  · change ((D.entering r i).fault != 0) = false
    rw [entering_fault hstart he hphase]
    rfl
  · rw [initial_iff]
    constructor
    · rintro ⟨hn, -, hsame⟩
      exact phase_inj hn he (hsame.symm.trans hphase)
    · rintro rfl
      exact ⟨he, hstart, hphase⟩

theorem statements_request {n : Nat} {v : ClockValues σ τ} (h : D.access n = none) :
    (D.statements r n true v).request = v.request ∧ (D.statements r n true v).read = v.read := by
  unfold statements
  rw [if_pos rfl, h]
  dsimp only
  split_ifs <;> exact ⟨rfl, rfl⟩

theorem statements_access {n : Nat} {v : ClockValues σ τ} {f : Values σ τ → Operation}
    (h : D.access n = some f) (hrequest : v.request = .none) (hread : v.read = false) :
    let w := D.statements r n true v
    (w.fault = 0 → w.request = (f w.toValues).pins ∧ w.read = (f w.toValues).value.isNone) ∧
      (w.fault ≠ 0 → w.request = .none ∧ w.read = false) := by
  intro w
  have hw : w = D.statements r n true v := rfl
  clear_value w
  unfold statements at hw
  rw [if_pos rfl, h] at hw
  dsimp only at hw
  split_ifs at hw with hfault
  · subst hw
    refine ⟨fun _ => ⟨?_, ?_⟩, fun hne => absurd hfault hne⟩
    · rw [hrequest]
      rfl
    · rw [hread]
      exact Bool.false_or _
  · subst hw
    exact ⟨fun heq => absurd heq hfault, fun _ => ⟨hrequest, hread⟩⟩

theorem statements_storage {n : Nat} {v : ClockValues σ τ} (hn : (D.design.block n).suspend = false ∨
    (∃ m, (D.design.block n).no = some m) ∨ D.access n ≠ none) :
    (D.statements r n true v).badStorage = v.badStorage := by
  have hbody : (D.body n r.operands r.readData v.toValues).badStorage = v.badStorage := by
    rcases D.storage_suspends n r.operands r.readData v.toValues with h | ⟨hs, -, hno, ha⟩
    · exact h
    · rcases hn with hn | ⟨m, hm⟩ | hn
      · exact absurd (hn.symm.trans hs) Bool.false_ne_true
      · exact absurd (hno.symm.trans hm).symm (Option.some_ne_none m)
      · exact absurd ha hn
  unfold statements
  rw [if_pos rfl]
  dsimp only
  split_ifs
  · cases D.access n with
    | none => exact hbody
    | some f => exact hbody
  · exact hbody

/-- A walk has no access, or one in its last block. -/
structure LastAccess (D : ExternalDesign σ τ ι) (path : List (Nat × ClockValues σ τ))
    (v : ClockValues σ τ) (b : Nat) (w : ClockValues σ τ) (op : Operation) : Prop where
  mem : (b, w) ∈ path
  unfaulted : w.fault = 0
  access : ∃ f, D.access b = some f ∧ op = f w.toValues
  suspended : ∃ y, (D.design.block b).yes = some y ∧
    v.toValues = { w.toValues with phase := BitVec.ofNat 32 (y + 1) }
  storage : w.badStorage = false
  request : v.request = op.pins
  read : v.read = op.value.isNone
  only : ∀ b' w' f, (b', w') ∈ path → w'.fault = 0 → D.access b' = some f → b' = b ∧ w' = w

def NoAccess (D : ExternalDesign σ τ ι) (path : List (Nat × ClockValues σ τ))
    (v : ClockValues σ τ) : Prop :=
  (∀ b w f, (b, w) ∈ path → w.fault = 0 → D.access b ≠ some f) ∧ v.request = .none ∧ v.read = false

theorem NoAccess.cons {path : List (Nat × ClockValues σ τ)} {v w : ClockValues σ τ} {n : Nat}
    (h : NoAccess D path v) (hn : D.access n = none) : NoAccess D ((n, w) :: path) v := by
  refine ⟨fun b w' f hmem hfault hf => ?_, h.2⟩
  rcases List.mem_cons.mp hmem with heq | hmem
  · obtain ⟨rfl, -⟩ := Prod.mk.inj heq
    exact Option.some_ne_none f (hf.symm.trans hn)
  · exact h.1 b w' f hmem hfault hf

theorem LastAccess.cons {path : List (Nat × ClockValues σ τ)} {v w w' : ClockValues σ τ} {n : Nat}
    (h : LastAccess D path v b w op) (hn : D.access n = none) :
    LastAccess D ((n, w') :: path) v b w op where
  mem := List.mem_cons_of_mem _ h.mem
  unfaulted := h.unfaulted
  access := h.access
  suspended := h.suspended
  storage := h.storage
  request := h.request
  read := h.read
  only b' w'' f hmem hfault hf := by
    rcases List.mem_cons.mp hmem with heq | hmem
    · obtain ⟨rfl, -⟩ := Prod.mk.inj heq
      exact absurd (hf.symm.trans hn) (Option.some_ne_none f)
    · exact h.only b' w'' f hmem hfault hf

theorem walk_access {e : Nat} {v v' : ClockValues σ τ} {path : List (Nat × ClockValues σ τ)}
    (h : D.design.Walk (D.meaning r) e v path v') (hrequest : v.request = .none)
    (hread : v.read = false) (hstorage : v.badStorage = false) :
    NoAccess D path v' ∨ ∃ b w op, LastAccess D path v' b w op := by
  induction h with
  | @fault n v hfault =>
      have hne : (D.statements r n true v).fault ≠ 0 := fun heq => by
        change ((D.statements r n true v).fault != 0) = true at hfault
        rw [heq] at hfault
        exact Bool.false_ne_true hfault
      refine .inl ⟨fun b w f hmem hzero _ => ?_, ?_⟩
      · obtain ⟨rfl, rfl⟩ := Prod.mk.inj (List.mem_singleton.mp hmem)
        exact hne hzero
      · cases ha : D.access n with
        | none =>
            obtain ⟨hreq, hrd⟩ := statements_request (r := r) (v := v) ha
            exact ⟨hreq.trans hrequest, hrd.trans hread⟩
        | some f => exact (statements_access ha hrequest hread).2 hne
  | @suspend n y v hfault _ _ hyes =>
      have hzero : (D.statements r n true v).fault = 0 := by
        change ((D.statements r n true v).fault != 0) = false at hfault
        simpa using hfault
      cases ha : D.access n with
      | none =>
          obtain ⟨hreq, hrd⟩ := statements_request (r := r) (v := v) ha
          refine .inl ⟨fun b w f hmem _ hf => ?_, hreq.trans hrequest, hrd.trans hread⟩
          obtain ⟨rfl, -⟩ := Prod.mk.inj (List.mem_singleton.mp hmem)
          exact Option.some_ne_none f (hf.symm.trans ha)
      | some f =>
          obtain ⟨hreq, hrd⟩ := (statements_access ha hrequest hread).1 hzero
          refine .inr ⟨n, D.statements r n true v, _, List.mem_singleton_self _, hzero, ⟨f, ha, rfl⟩,
            ⟨y, hyes, rfl⟩, ?_, hreq, hrd, fun b' w' f' hmem _ _ => ?_⟩
          · rw [statements_storage (.inr (.inr (by rw [ha]; exact Option.some_ne_none f)))]
            exact hstorage
          · exact Prod.mk.inj (List.mem_singleton.mp hmem)
  | @finish n v hfault hnext =>
      have ha : D.access n = none := by
        by_contra hsome
        obtain ⟨f, hf⟩ := Option.ne_none_iff_exists'.mp hsome
        obtain ⟨-, hconditional, -, y, hyes⟩ := D.access_suspends n f hf
        unfold ScheduledDesign.holds at hnext
        rw [hconditional, if_neg Bool.false_ne_true, if_pos rfl, hyes] at hnext
        exact Option.some_ne_none y hnext
      obtain ⟨hreq, hrd⟩ := statements_request (r := r) (v := v) ha
      refine .inl ⟨fun b w f hmem _ hf => ?_, hreq.trans hrequest, hrd.trans hread⟩
      obtain ⟨rfl, -⟩ := Prod.mk.inj (List.mem_singleton.mp hmem)
      exact Option.some_ne_none f (hf.symm.trans ha)
  | @yes n y v _ _ _ _ hs _ _ ih =>
      have ha : D.access n = none := by
        by_contra hsome
        obtain ⟨f, hf⟩ := Option.ne_none_iff_exists'.mp hsome
        exact Bool.false_ne_true (hs.symm.trans (D.access_suspends n f hf).1)
      obtain ⟨hreq, hrd⟩ := statements_request (r := r) (v := v) ha
      rcases ih (hreq.trans hrequest) (hrd.trans hread)
        ((statements_storage (.inl hs)).trans hstorage) with hnone | ⟨b, w, op, hlast⟩
      · exact .inl (hnone.cons ha)
      · exact .inr ⟨b, w, op, hlast.cons ha⟩
  | @no n m v _ _ _ _ hno _ ih =>
      have ha : D.access n = none := by
        by_contra hsome
        obtain ⟨f, hf⟩ := Option.ne_none_iff_exists'.mp hsome
        exact Option.some_ne_none m (hno.symm.trans (D.access_suspends n f hf).2.2.1)
      obtain ⟨hreq, hrd⟩ := statements_request (r := r) (v := v) ha
      rcases ih (hreq.trans hrequest) (hrd.trans hread)
        ((statements_storage (.inr (.inl ⟨m, hno⟩))).trans hstorage) with hnone | ⟨b, w, op, hlast⟩
      · exact .inl (hnone.cons ha)
      · exact .inr ⟨b, w, op, hlast.cons ha⟩

/-- The access that is executed is what the blocks leave. -/
theorem Executes.last (h : D.Executes r i b op) :
    ∃ path w, LastAccess D path (D.leaving r i) b w op := by
  obtain ⟨hstart, e, he, hphase, path, v', hwalk, w, f, hmem, hfault, hf, rfl⟩ := h
  obtain ⟨path', hleaving⟩ := leaving_walk hstart he hphase
  obtain ⟨rfl, rfl⟩ := hwalk.unique hleaving
  rcases walk_access hwalk rfl rfl rfl with hnone | ⟨b', w', op', hlast⟩
  · exact absurd hf (hnone.1 b w f hmem hfault)
  · obtain ⟨rfl, rfl⟩ := hlast.only b w f hmem hfault hf
    obtain ⟨f', hf', hop⟩ := hlast.access
    obtain rfl := Option.some_inj.mp (hf.symm.trans hf')
    exact ⟨path, w, hop ▸ hlast⟩

theorem Executes.unique {b' : Nat} {op' : Operation} (h : D.Executes r i b op)
    (h' : D.Executes r i b' op') : b = b' ∧ op = op' := by
  obtain ⟨-, e, he, hphase, path, v, hwalk, w, f, hmem, hfault, hf, rfl⟩ := h
  obtain ⟨-, e', he', hphase', path', v', hwalk', w', f', hmem', hfault', hf', rfl⟩ := h'
  obtain rfl := phase_inj he he' (hphase.symm.trans hphase')
  obtain ⟨rfl, rfl⟩ := hwalk.unique hwalk'
  rcases walk_access hwalk rfl rfl rfl with hnone | ⟨b₀, w₀, op₀, hlast⟩
  · exact absurd hf (hnone.1 b w f hmem hfault)
  · obtain ⟨rfl, rfl⟩ := hlast.only b w f hmem hfault hf
    obtain ⟨rfl, rfl⟩ := hlast.only b' w' f' hmem' hfault' hf'
    obtain rfl := Option.some_inj.mp (hf.symm.trans hf')
    exact ⟨rfl, rfl⟩

/-- Without an access the blocks leave no request. -/
theorem no_request (h : ∀ b op, ¬ D.Executes r i b op) :
    (D.leaving r i).request = .none ∧ (D.leaving r i).read = false := by
  by_cases hwalks : start r i = true ∧ ∃ e ∈ D.design.continuations ⟨false, false⟩,
      r.phase = BitVec.ofNat 32 (e + 1)
  · obtain ⟨hstart, e, he, hphase⟩ := hwalks
    obtain ⟨path, hwalk⟩ := leaving_walk hstart he hphase
    rcases walk_access hwalk rfl rfl rfl with hnone | ⟨b, w, op, hlast⟩
    · exact hnone.2
    · obtain ⟨f, hf, hop⟩ := hlast.access
      exact absurd ⟨hstart, e, he, hphase, path, _, hwalk, w, f, hlast.mem, hlast.unfaulted, hf, hop⟩
        (h b op)
  · rw [leaving_idle (D := D)]
    · exact ⟨rfl, rfl⟩
    · rw [not_and_or, Bool.not_eq_true] at hwalks
      exact hwalks.imp_right fun hnone e he hphase => hnone ⟨e, he, hphase⟩

/-! ## Registers -/

theorem clock_reset (h : i.reset = true) :
    (D.clock r i).busy = false ∧ (D.clock r i).fault = 0 := by
  have hstart : start r i = false := by
    unfold start
    rw [h]
    rfl
  have hstorage : D.storageFault r i = 0 := by
    unfold storageFault
    rw [leaving_idle (.inl hstart)]
    unfold entering
    simp [h]
  unfold clock fault badAddress complete readyIn
  rw [hstorage, h]
  exact ⟨rfl, rfl⟩

/-- While an access is under way, the program does nothing. -/
theorem clock_busy (hreset : i.reset = false) (hbusy : r.busy = true) (hfault : r.fault = 0)
    (hphase : r.phase ≠ 0) :
    let r' := D.clock r i
    r'.fault = (if r.saved.misaligned then 3 else if complete r i && i.error then 5 else 0) ∧
      r'.busy = (!r.saved.misaligned && !complete r i) ∧
      r'.sent = (!complete r i && (r.sent || accept r i)) ∧ r'.saved = r.saved ∧
      r'.vars = r.vars ∧ (r'.fault = 0 → r'.phase = r.phase) ∧
      (complete r i = true → r'.readData = i.data) := by
  have hstart : start r i = false := by
    unfold start
    rw [hbusy, Bool.not_true, Bool.and_false]
  have haccepted : accepted r i = false := by
    unfold accepted commandReady
    rw [beq_eq_false_iff_ne.mpr hphase, Bool.false_and, Bool.and_false, Bool.and_false]
  have hleaving := leaving_idle (D := D) (r := r) (i := i) (.inl hstart)
  have henter : (D.entering r i).fault = 0 ∧ (D.entering r i).phase = r.phase ∧
      (D.entering r i).vars = r.vars := by
    unfold entering
    rw [hreset, hstart, haccepted]
    exact ⟨hfault, rfl, rfl⟩
  have hstorage : D.storageFault r i = 0 := by
    unfold storageFault
    rw [hleaving]
    simp only [henter.1, bne_self_eq_false, Bool.false_eq_true, if_false]
    rfl
  have hbad : badAddress r i = r.saved.misaligned := by
    unfold badAddress
    rw [hreset, hbusy]
    rfl
  have hnext : D.fault r i =
      if r.saved.misaligned then 3 else if complete r i && i.error then 5 else 0 := by
    unfold fault
    rw [hstorage, hbad]
    rfl
  have hissue : D.acceptedIssue r i = false := by
    unfold acceptedIssue
    rw [hleaving]
    rfl
  intro r'
  have hr' : r' = D.clock r i := rfl
  clear_value r'
  unfold clock at hr'
  rw [hleaving, hissue, hbad, hreset, hbusy, Bool.false_or] at hr'
  subst hr'
  refine ⟨hnext, ?_, ?_, rfl, ?_, fun hzero => ?_, fun hcomplete => ?_⟩
  · cases r.saved.misaligned <;> cases complete r i <;> rfl
  · cases complete r i <;> rfl
  · exact (D.commit_idle _ (D.entering r i).toValues rfl).trans henter.2.2
  · change D.fault r i = 0 at hzero
    simp only [hzero, bne_self_eq_false, Bool.false_and, Bool.false_eq_true, if_false]
    exact henter.2.1
  · simp only [hcomplete, Bool.false_eq_true, if_false, if_true]

theorem clock_faulted (hreset : i.reset = false) (hbusy : r.busy = false) (hfault : r.fault ≠ 0) :
    (D.clock r i).busy = false ∧ (D.clock r i).fault = r.fault := by
  have hstart : start r i = false := by
    unfold start
    rw [beq_eq_false_iff_ne.mpr hfault, Bool.and_false, Bool.false_and]
  have hleaving := leaving_idle (D := D) (r := r) (i := i) (.inl hstart)
  have henter : (D.entering r i).fault = r.fault := by
    unfold entering
    rw [hreset, hstart]
    rfl
  have hstorage : D.storageFault r i = r.fault := by
    unfold storageFault
    rw [hleaving]
    dsimp only
    rw [henter, if_pos (bne_iff_ne.mpr hfault)]
  have hissue : D.acceptedIssue r i = false := by
    unfold acceptedIssue
    rw [hleaving]
    rfl
  constructor
  · unfold clock
    dsimp only
    rw [hissue, hbusy]
    simp
  · change D.fault r i = r.fault
    unfold fault
    rw [hstorage, if_pos (bne_iff_ne.mpr hfault)]

/-- An access goes to the registers, and the phase behind the block. -/
theorem clock_executes (h : D.Executes r i b op) :
    let r' := D.clock r i
    r'.busy = true ∧ r'.sent = false ∧ r'.saved = op.pins ∧ r'.fault = 0 ∧
      ∃ y, (D.design.block b).yes = some y ∧ r'.phase = BitVec.ofNat 32 (y + 1) := by
  obtain ⟨path, w, hlast⟩ := h.last
  obtain ⟨hreset, hbusy⟩ : i.reset = false ∧ r.busy = false := by
    have hstart := h.1
    unfold start at hstart
    simp only [Bool.and_eq_true, Bool.not_eq_true'] at hstart
    exact ⟨hstart.1.1, hstart.2⟩
  obtain ⟨y, hyes, hvalues⟩ := hlast.suspended
  have hstorage : D.storageFault r i = 0 := by
    unfold storageFault
    dsimp only
    rw [hvalues]
    simp [hlast.unfaulted, hlast.storage]
  have hbad : badAddress r i = false := by
    unfold badAddress
    rw [hbusy, Bool.false_and, Bool.and_false]
  have hcomplete : complete r i = false := by
    unfold complete readyIn
    rw [hbusy, Bool.false_and, Bool.and_false, Bool.false_and]
  have hfault : D.fault r i = 0 := by
    unfold fault
    rw [hstorage, hbad, hcomplete]
    rfl
  have hissue : D.acceptedIssue r i = true := by
    unfold acceptedIssue
    rw [hfault, hlast.request, hlast.read]
    unfold Operation.pins
    cases op.value with
    | none => rfl
    | some data => rfl
  intro r'
  have hr' : r' = D.clock r i := rfl
  clear_value r'
  unfold clock at hr'
  rw [hissue, hbad, hcomplete, hreset, hfault] at hr'
  subst hr'
  exact ⟨rfl, rfl, hlast.request, rfl, y, hyes, congrArg Values.phase hvalues⟩

theorem clock_idle (hbusy : r.busy = false) (h : ∀ b op, ¬ D.Executes r i b op) :
    (D.clock r i).busy = false := by
  obtain ⟨hrequest, hread⟩ := no_request h
  have hissue : D.acceptedIssue r i = false := by
    unfold acceptedIssue
    rw [hrequest, hread]
    rfl
  unfold clock
  dsimp only
  rw [hissue, hbusy]
  simp

end ExternalDesign

end CppHdl.Synth
