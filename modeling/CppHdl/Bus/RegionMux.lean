import CppHdl.Basic.Clog2
import CppHdl.Bus.Axi4

/-!
# Axi4RegionMux

One master, `N` targets, each with a window of addresses. The window of an address is
found while the address is offered; the accepted selection is kept in a register for the
data and the responses, until the response to a write is taken or the last beat of a read.

The multiplexer does not look at the last beat of a write: up to the response, data go to
the target of that write, also data of the next one.
-/

namespace CppHdl.Bus

open Basic Service

structure StrobedBeat (W : Axi4Widths) where
  data : BitVec W.DATA_WIDTH
  strb : BitVec (W.DATA_WIDTH / 8)
  last : Bool
deriving DecidableEq

/-- The parameters and the windows, which are constant inputs. Indices of targets are
`uint32_t`. -/
structure RegionMux where
  W : Axi4Widths
  N : Nat
  N_pos : 1 ≤ N
  N_le : N ≤ 2 ^ 32
  regionBase : Nat → BitVec 32
  regionSize : Nat → BitVec 32

namespace RegionMux

def SEL_BITS (m : RegionMux) : Nat := if m.N ≤ 1 then 1 else clog2 (UInt32.ofNat m.N)

structure State (m : RegionMux) where
  awSel : BitVec m.SEL_BITS
  arSel : BitVec m.SEL_BITS
  awActive : Bool
  arActive : Bool

/-- What the master and the targets drive. -/
structure Inputs (m : RegionMux) where
  slave : Axi4Driver m.W (StrobedBeat m.W)
  masters : Nat → Axi4Responder m.W

variable (m : RegionMux)

/-! ## Selection -/

/-- A selection that is no target reads as target 0. -/
def selSafe (sel : BitVec m.SEL_BITS) : Nat := if sel.toNat ≥ m.N then 0 else sel.toNat

/-- Is this address in the window of target `i`? -/
def inRegion (addr : BitVec m.W.ADDR_WIDTH) (i : Nat) : Bool :=
  decide (m.regionBase i ≤ addr.setWidth 32) &&
    decide (addr.setWidth 32 - m.regionBase i < m.regionSize i)

/-- The last window with this address; target 0 takes what is in none. -/
def next (addr : BitVec m.W.ADDR_WIDTH) : Nat :=
  (List.range m.N).foldl (fun sel i => if m.inRegion addr i then i else sel) 0

/-- The difference of the 64-bit values, cut to an address. -/
def minusBase (addr : BitVec m.W.ADDR_WIDTH) (sel : Nat) : BitVec m.W.ADDR_WIDTH :=
  (addr.setWidth 64 - (m.regionBase sel).setWidth 64).setWidth m.W.ADDR_WIDTH

def readyOf (ready : Nat → Bool) (next : Nat) : Bool :=
  (List.range m.N).foldl (fun r i => if next = i then ready i else r) false

/-! ## Outputs -/

variable {m}

def localRequest (active : Bool) (sel : BitVec m.SEL_BITS) (q : Axi4Request m.W) : Axi4Request m.W :=
  ⟨m.minusBase q.addr (if active then m.selSafe sel else m.next q.addr), q.id⟩

/-- What is driven to target `k`. -/
def State.mastersOut (s : State m) (i : Inputs m) (k : Nat) : Axi4Driver m.W (StrobedBeat m.W) where
  awvalid := !s.awActive && decide (m.next i.slave.aw.addr = k) && i.slave.awvalid
  aw := localRequest s.awActive s.awSel i.slave.aw
  wvalid := s.awActive && decide (m.selSafe s.awSel = k) && i.slave.wvalid
  w := i.slave.w
  bready := s.awActive && decide (m.selSafe s.awSel = k) && i.slave.bready
  arvalid := !s.arActive && decide (m.next i.slave.ar.addr = k) && i.slave.arvalid
  ar := localRequest s.arActive s.arSel i.slave.ar
  rready := s.arActive && decide (m.selSafe s.arSel = k) && i.slave.rready

/-- What is driven to the master. -/
def State.slaveIn (s : State m) (i : Inputs m) : Axi4Responder m.W where
  awready := !s.awActive && m.readyOf (fun k => (i.masters k).awready) (m.next i.slave.aw.addr)
  wready := if s.awActive then (i.masters (m.selSafe s.awSel)).wready else false
  bvalid := if s.awActive then (i.masters (m.selSafe s.awSel)).bvalid else false
  bid := (i.masters (m.selSafe s.awSel)).bid
  arready := !s.arActive && m.readyOf (fun k => (i.masters k).arready) (m.next i.slave.ar.addr)
  rvalid := if s.arActive then (i.masters (m.selSafe s.arSel)).rvalid else false
  r := { data := (i.masters (m.selSafe s.arSel)).r.data
         last := if s.arActive then (i.masters (m.selSafe s.arSel)).r.last else false
         id := (i.masters (m.selSafe s.arSel)).r.id }

/-! ## The clock -/

def State.work (s : State m) (reset : Bool) (i : Inputs m) : State m :=
  if reset then ⟨0#m.SEL_BITS, 0#m.SEL_BITS, false, false⟩
  else
    let n := s
    let n := if !s.awActive && i.slave.awvalid && (s.slaveIn i).awready then
      { n with awActive := true, awSel := BitVec.ofNat m.SEL_BITS (m.next i.slave.aw.addr) } else n
    let n := if s.awActive && (s.slaveIn i).bvalid && i.slave.bready then
      { n with awActive := false } else n
    let n := if !s.arActive && i.slave.arvalid && (s.slaveIn i).arready then
      { n with arActive := true, arSel := BitVec.ofNat m.SEL_BITS (m.next i.slave.ar.addr) } else n
    if s.arActive && (s.slaveIn i).rvalid && i.slave.rready && (s.slaveIn i).r.last then
      { n with arActive := false } else n

/-! ## The selected target -/

theorem foldl_choice {p : Nat → Bool} {n : Nat} (l : List Nat) (hl : ∀ i ∈ l, i < n) (sel : Nat)
    (hsel : sel < n) : l.foldl (fun sel i => if p i then i else sel) sel < n := by
  induction l generalizing sel with
  | nil => exact hsel
  | cons i l ih =>
      apply ih (fun j hj => hl j (List.mem_cons_of_mem i hj))
      beta_reduce
      split_ifs
      · exact hl i List.mem_cons_self
      · exact hsel

theorem next_lt (addr : BitVec m.W.ADDR_WIDTH) : m.next addr < m.N :=
  foldl_choice _ (fun _ => List.mem_range.mp) 0 m.N_pos

theorem selSafe_lt (sel : BitVec m.SEL_BITS) : m.selSafe sel < m.N := by
  unfold selSafe
  have := m.N_pos
  split_ifs <;> omega

theorem selSafe_next (addr : BitVec m.W.ADDR_WIDTH) :
    m.selSafe (BitVec.ofNat m.SEL_BITS (m.next addr)) = m.next addr := by
  have hlt := next_lt (m := m) addr
  have hbits : m.N ≤ 2 ^ m.SEL_BITS := by
    unfold SEL_BITS
    split_ifs with hone
    · omega
    · exact le_two_pow_clog2 m.N_pos m.N_le
  unfold selSafe
  rw [BitVec.toNat_ofNat, Nat.mod_eq_of_lt (Nat.lt_of_lt_of_le hlt hbits), if_neg (Nat.not_le.mpr hlt)]

theorem minusBase_eq (addr : BitVec m.W.ADDR_WIDTH) (sel : Nat) :
    m.minusBase addr sel = addr - (m.regionBase sel).setWidth m.W.ADDR_WIDTH := by
  have hle := m.W.addr_le
  have haddr : (addr.setWidth 64).setWidth m.W.ADDR_WIDTH = addr := by
    rw [BitVec.setWidth_setWidth_of_le _ hle, BitVec.setWidth_eq]
  unfold minusBase
  rw [BitVec.sub_eq_add_neg, BitVec.setWidth_add _ _ hle, BitVec.setWidth_neg_of_le hle, haddr,
    BitVec.setWidth_setWidth_of_le _ hle, BitVec.sub_eq_add_neg]

theorem readyOf_eq (ready : Nat → Bool) {next : Nat} (h : next < m.N) :
    m.readyOf ready next = ready next := by
  have hloop : ∀ (l : List Nat) (r : Bool), l.foldl (fun r i => if next = i then ready i else r) r =
      if next ∈ l then ready next else r := by
    intro l
    induction l with
    | nil => exact fun r => (if_neg List.not_mem_nil).symm
    | cons i l ih =>
        intro r
        rw [List.foldl_cons, ih]
        by_cases hi : next = i
        · subst hi
          rw [if_pos rfl, ite_self, if_pos List.mem_cons_self]
        · rw [if_neg hi]
          exact if_congr ⟨List.mem_cons_of_mem i, fun h => (List.mem_cons.mp h).resolve_left hi⟩ rfl rfl
  unfold readyOf
  rw [hloop, if_pos (List.mem_range.mpr h)]

/-! ## Transfers -/

def State.atMaster (s : State m) (i : Inputs m) : Axi4Transfers m.W (StrobedBeat m.W) :=
  transfers i.slave (s.slaveIn i)

def State.atTarget (s : State m) (i : Inputs m) (k : Nat) : Axi4Transfers m.W (StrobedBeat m.W) :=
  transfers (s.mastersOut i k) (i.masters k)

/-- A request as its target takes it. -/
def routed (m : RegionMux) (q : Axi4Request m.W) : Nat × Axi4Request m.W :=
  (m.next q.addr, ⟨q.addr - (m.regionBase (m.next q.addr)).setWidth m.W.ADDR_WIDTH, q.id⟩)

theorem localRequest_inactive (sel : BitVec m.SEL_BITS) (q : Axi4Request m.W) :
    localRequest false sel q = (m.routed q).2 :=
  congrArg (Axi4Request.mk · q.id) (minusBase_eq _ _)

theorem labelled_request (active : Bool) (sel : BitVec m.SEL_BITS) (valid : Bool) (ready : Nat → Bool)
    (q : Axi4Request m.W) :
    labelled (List.range m.N) (fun k => fires (!active && decide (m.next q.addr = k) && valid) (ready k)
        (localRequest active sel q)) =
      ((fires valid (!active && m.readyOf ready (m.next q.addr)) q).map m.routed).toList := by
  rw [labelled_fires (next_lt _) _ _ ready, readyOf_eq _ (next_lt _)]
  cases active with
  | true =>
      rw [fires_comm valid]
      rfl
  | false =>
      rw [localRequest_inactive]
      change ((fires valid (ready _) _).map _).toList = ((fires valid (ready _) _).map _).toList
      unfold fires
      split_ifs <;> rfl

/-- The selected target answers. -/
theorem labelled_response {α : Type} (active : Bool) (sel : BitVec m.SEL_BITS) (ready : Bool)
    (valid : Nat → Bool) (x : Nat → α) :
    labelled (List.range m.N) (fun k =>
        fires (valid k) (active && decide (m.selSafe sel = k) && ready) (x k)) =
      ((fires (if active then valid (m.selSafe sel) else false) ready (x (m.selSafe sel))).map
        (m.selSafe sel, ·)).toList := by
  have hcomm : (fun k => fires (valid k) (active && decide (m.selSafe sel = k) && ready) (x k)) =
      fun k => fires (active && decide (m.selSafe sel = k) && ready) (valid k) (x k) :=
    funext fun k => fires_comm _ _ _
  rw [hcomm, labelled_fires (selSafe_lt sel) _ _ valid, fires_comm]
  cases active with
  | true => rfl
  | false =>
      rw [fires_comm]
      rfl

section

variable (s : State m) (i : Inputs m)

theorem labelled_aw : labelled (List.range m.N) (fun k => (s.atTarget i k).aw) =
    ((s.atMaster i).aw.map m.routed).toList :=
  labelled_request s.awActive s.awSel i.slave.awvalid (fun k => (i.masters k).awready) i.slave.aw

theorem labelled_ar : labelled (List.range m.N) (fun k => (s.atTarget i k).ar) =
    ((s.atMaster i).ar.map m.routed).toList :=
  labelled_request s.arActive s.arSel i.slave.arvalid (fun k => (i.masters k).arready) i.slave.ar

theorem labelled_w : labelled (List.range m.N) (fun k => (s.atTarget i k).w) =
    ((s.atMaster i).w.map (m.selSafe s.awSel, ·)).toList := by
  refine (labelled_fires (selSafe_lt _) _ _ (fun k => (i.masters k).wready) _).trans ?_
  unfold State.atMaster State.slaveIn transfers
  dsimp only
  cases s.awActive with
  | true => rfl
  | false =>
      rw [fires_comm i.slave.wvalid]
      rfl

theorem labelled_b : labelled (List.range m.N) (fun k => (s.atTarget i k).b) =
    ((s.atMaster i).b.map (m.selSafe s.awSel, ·)).toList :=
  labelled_response s.awActive s.awSel i.slave.bready (fun k => (i.masters k).bvalid) _

theorem labelled_r : labelled (List.range m.N) (fun k => (s.atTarget i k).r) =
    ((s.atMaster i).r.map (m.selSafe s.arSel, ·)).toList := by
  refine (labelled_response s.arActive s.arSel i.slave.rready (fun k => (i.masters k).rvalid)
    _).trans ?_
  unfold State.atMaster State.slaveIn transfers
  dsimp only
  cases s.arActive <;> rfl

/-! ## Registers -/

theorem aw_isSome :
    (s.atMaster i).aw.isSome = (!s.awActive && i.slave.awvalid && (s.slaveIn i).awready) := by
  refine (fires_isSome _ _ _).trans ?_
  unfold State.slaveIn
  cases s.awActive <;> cases i.slave.awvalid <;> rfl

theorem b_isSome :
    (s.atMaster i).b.isSome = (s.awActive && (s.slaveIn i).bvalid && i.slave.bready) := by
  refine (fires_isSome _ _ _).trans ?_
  unfold State.slaveIn
  cases s.awActive <;> rfl

theorem ar_isSome :
    (s.atMaster i).ar.isSome = (!s.arActive && i.slave.arvalid && (s.slaveIn i).arready) := by
  refine (fires_isSome _ _ _).trans ?_
  unfold State.slaveIn
  cases s.arActive <;> cases i.slave.arvalid <;> rfl

theorem r_last : (s.atMaster i).r.any Axi4ReadBeat.last =
    (s.arActive && (s.slaveIn i).rvalid && i.slave.rready && (s.slaveIn i).r.last) := by
  change (fires (s.slaveIn i).rvalid i.slave.rready (s.slaveIn i).r).any _ = _
  unfold fires
  cases hactive : s.arActive with
  | false =>
      have hvalid : (s.slaveIn i).rvalid = false := by
        unfold State.slaveIn
        rw [hactive]
        rfl
      rw [hvalid]
      rfl
  | true =>
      rw [Bool.true_and]
      cases (s.slaveIn i).rvalid && i.slave.rready <;> rfl

theorem work_write : (s.work false i).awActive =
      ((s.atMaster i).aw.isSome || s.awActive && !(s.atMaster i).b.isSome) ∧
    (s.work false i).awSel =
      if (s.atMaster i).aw.isSome then BitVec.ofNat m.SEL_BITS (m.next i.slave.aw.addr)
      else s.awSel := by
  have hwork : (s.work false i).awActive =
        (if s.awActive && (s.slaveIn i).bvalid && i.slave.bready then false
        else if !s.awActive && i.slave.awvalid && (s.slaveIn i).awready then true else s.awActive) ∧
      (s.work false i).awSel =
        if !s.awActive && i.slave.awvalid && (s.slaveIn i).awready then
          BitVec.ofNat m.SEL_BITS (m.next i.slave.aw.addr) else s.awSel := by
    unfold State.work
    rw [if_neg Bool.false_ne_true]
    dsimp only
    split_ifs <;> exact ⟨rfl, rfl⟩
  rw [aw_isSome, b_isSome]
  refine ⟨hwork.1.trans ?_, hwork.2⟩
  cases s.awActive <;> cases i.slave.awvalid <;> cases (s.slaveIn i).awready <;>
    cases (s.slaveIn i).bvalid <;> cases i.slave.bready <;> rfl

theorem work_read : (s.work false i).arActive =
      ((s.atMaster i).ar.isSome || s.arActive && !(s.atMaster i).r.any Axi4ReadBeat.last) ∧
    (s.work false i).arSel =
      if (s.atMaster i).ar.isSome then BitVec.ofNat m.SEL_BITS (m.next i.slave.ar.addr)
      else s.arSel := by
  have hwork : (s.work false i).arActive =
        (if s.arActive && (s.slaveIn i).rvalid && i.slave.rready && (s.slaveIn i).r.last then false
        else if !s.arActive && i.slave.arvalid && (s.slaveIn i).arready then true else s.arActive) ∧
      (s.work false i).arSel =
        if !s.arActive && i.slave.arvalid && (s.slaveIn i).arready then
          BitVec.ofNat m.SEL_BITS (m.next i.slave.ar.addr) else s.arSel := by
    unfold State.work
    rw [if_neg Bool.false_ne_true]
    dsimp only
    split_ifs <;> exact ⟨rfl, rfl⟩
  rw [ar_isSome, r_last]
  refine ⟨hwork.1.trans ?_, hwork.2⟩
  cases s.arActive <;> cases i.slave.arvalid <;> cases (s.slaveIn i).arready <;>
    cases (s.slaveIn i).rvalid <;> cases i.slave.rready <;> cases (s.slaveIn i).r.last <;> rfl

/-! ## Idle and active -/

theorem aw_eq {q : Axi4Request m.W} (h : (s.atMaster i).aw = some q) : q = i.slave.aw := by
  change fires _ _ _ = _ at h
  unfold fires at h
  split_ifs at h
  exact (Option.some.inj h).symm

theorem ar_eq {q : Axi4Request m.W} (h : (s.atMaster i).ar = some q) : q = i.slave.ar := by
  change fires _ _ _ = _ at h
  unfold fires at h
  split_ifs at h
  exact (Option.some.inj h).symm

theorem write_active (h : s.awActive = true) : (s.atMaster i).aw = none := by
  rw [← Option.not_isSome_iff_eq_none, aw_isSome, h]
  exact Bool.false_ne_true

theorem read_active (h : s.arActive = true) : (s.atMaster i).ar = none := by
  rw [← Option.not_isSome_iff_eq_none, ar_isSome, h]
  exact Bool.false_ne_true

theorem write_idle (h : s.awActive = false) : (s.atMaster i).w = none ∧ (s.atMaster i).b = none := by
  unfold State.atMaster State.slaveIn transfers
  rw [h]
  refine ⟨?_, rfl⟩
  change fires i.slave.wvalid false _ = none
  rw [fires_comm]
  rfl

theorem read_idle (h : s.arActive = false) : (s.atMaster i).r = none := by
  unfold State.atMaster State.slaveIn transfers
  rw [h]
  rfl

theorem target_b (h : s.awActive = true) : (s.atTarget i (m.selSafe s.awSel)).b = (s.atMaster i).b := by
  change fires (i.masters _).bvalid (s.awActive && decide _ && i.slave.bready) _ =
    fires (if s.awActive then (i.masters _).bvalid else false) i.slave.bready _
  rw [h, decide_eq_true rfl]
  rfl

theorem target_r (h : s.arActive = true) : (s.atTarget i (m.selSafe s.arSel)).r = (s.atMaster i).r := by
  unfold State.atTarget State.atMaster State.mastersOut State.slaveIn transfers
  rw [h, decide_eq_true rfl]
  rfl

end

end RegionMux

end CppHdl.Bus
