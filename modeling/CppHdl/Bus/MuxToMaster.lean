import CppHdl.Basic.Clog2
import CppHdl.Bus.Axi4
import CppHdl.Lib.RoundRobin

/-!
# Axi4MuxToMaster

`N` requesters share one responder. While no request is open, the first requester in
round-robin order that is valid is passed on; what it gets accepted stays selected for the
data and the responses.

The choice is made anew in every clock, also while the responder is not ready. A pointer
behind the last requester wraps only with the width of its register; where no requester is
valid, the pointer itself is the choice.
-/

namespace CppHdl.Bus

open Basic Service RoundRobin

/-- A write beat; this version of the interface has no strobes. -/
structure PlainBeat (W : Axi4Widths) where
  data : BitVec W.DATA_WIDTH
  last : Bool
deriving DecidableEq

/-- The loops of the arbiter count in `u8`: from 256 requesters on they do not end. -/
structure MuxToMaster where
  W : Axi4Widths
  N : Nat
  two_le : 2 ≤ N
  N_lt : N < 256

namespace MuxToMaster

def selBits (m : MuxToMaster) : Nat := clog2 (UInt32.ofNat m.N)

/-- `rr_aw`, `aw_sel` and `aw_active`, or those of the reads. -/
structure Side (m : MuxToMaster) where
  rr : BitVec m.selBits
  sel : BitVec m.selBits
  active : Bool

structure State (m : MuxToMaster) where
  aw : Side m
  ar : Side m

/-- What the requesters and the responder drive. Behind the last requester is what lies in
memory behind the array. -/
structure Inputs (m : MuxToMaster) where
  slaves : Nat → Axi4Driver m.W (PlainBeat m.W)
  master : Axi4Responder m.W

variable {m : MuxToMaster}

/-! ## Arbitration -/

/-- `aw_next_comb_func` and `ar_next_comb_func`. -/
def next (rr : BitVec m.selBits) (valid : Nat → Bool) : BitVec m.selBits :=
  let (idx, _) := (List.range m.N).foldl (fun (idx, found) i =>
    let candidate := (rr.toNat + i) % m.N
    if !found && valid candidate then (candidate, true) else (idx, found)) (rr.toNat, false)
  BitVec.ofNat m.selBits idx

def State.awNext (s : State m) (i : Inputs m) : BitVec m.selBits :=
  next s.aw.rr fun k => (i.slaves k).awvalid

def State.arNext (s : State m) (i : Inputs m) : BitVec m.selBits :=
  next s.ar.rr fun k => (i.slaves k).arvalid

/-! ## Outputs -/

/-- What is driven to the responder. -/
def State.masterOut (s : State m) (i : Inputs m) : Axi4Driver m.W (PlainBeat m.W) where
  awvalid := !s.aw.active && (i.slaves (s.awNext i).toNat).awvalid
  aw := (i.slaves (s.awNext i).toNat).aw
  wvalid := if s.aw.active then (i.slaves s.aw.sel.toNat).wvalid else false
  w := (i.slaves s.aw.sel.toNat).w
  bready := (i.slaves s.aw.sel.toNat).bready
  arvalid := !s.ar.active && (i.slaves (s.arNext i).toNat).arvalid
  ar := (i.slaves (s.arNext i).toNat).ar
  rready := (i.slaves s.ar.sel.toNat).rready

/-- What is driven to requester `k`. -/
def State.slavesIn (s : State m) (i : Inputs m) (k : Nat) : Axi4Responder m.W where
  awready := if !s.aw.active && decide ((s.awNext i).toNat = k) then i.master.awready else false
  wready := if s.aw.active && decide (s.aw.sel.toNat = k) then i.master.wready else false
  bvalid := if s.aw.sel.toNat = k then i.master.bvalid else false
  bid := i.master.bid
  arready := if !s.ar.active && decide ((s.arNext i).toNat = k) then i.master.arready else false
  rvalid := if s.ar.sel.toNat = k then i.master.rvalid else false
  r := i.master.r

/-! ## The clock -/

def Side.clock (side : Side m) (accepts : Bool) (next : BitVec m.selBits) (ends reset : Bool) :
    Side m :=
  let n := side
  let n := if accepts then ⟨next + 1, next, true⟩ else n
  let n := if ends then { n with active := false } else n
  if reset then { n with active := false, rr := 0 } else n

def State.work (s : State m) (reset : Bool) (i : Inputs m) : State m where
  ar := s.ar.clock (!s.ar.active && (s.masterOut i).arvalid && i.master.arready) (s.arNext i)
    (i.master.rvalid && (i.slaves s.ar.sel.toNat).rready && i.master.r.last) reset
  aw := s.aw.clock (!s.aw.active && (s.masterOut i).awvalid && i.master.awready) (s.awNext i)
    (i.master.bvalid && (i.slaves s.aw.sel.toNat).bready) reset

/-! ## The choice -/

theorem N_le (m : MuxToMaster) : m.N ≤ 2 ^ m.selBits :=
  le_two_pow_clog2 (by have := m.two_le; omega) (by have := m.N_lt; omega)

variable {rr : BitVec m.selBits} {valid : Nat → Bool}

/-- The loop finds the first valid requester. -/
theorem next_toNat (rr : BitVec m.selBits) (valid : Nat → Bool) :
    (next rr valid).toNat = (first m.N rr.toNat valid).getD rr.toNat := by
  have hfound : ∀ (l : List Nat) (idx : Nat), l.foldl (fun (p : Nat × Bool) i =>
      if !p.2 && valid ((rr.toNat + i) % m.N) then ((rr.toNat + i) % m.N, true) else (p.1, p.2))
      (idx, true) = (idx, true) := by
    intro l idx
    induction l with
    | nil => rfl
    | cons i l ih => exact ih
  have hloop : ∀ l : List Nat, (l.foldl (fun (p : Nat × Bool) i =>
      if !p.2 && valid ((rr.toNat + i) % m.N) then ((rr.toNat + i) % m.N, true) else (p.1, p.2))
      (rr.toNat, false)).1 =
        (((l.find? fun d => valid ((rr.toNat + d) % m.N)).map fun d => (rr.toNat + d) % m.N)).getD
          rr.toNat := by
    intro l
    induction l with
    | nil => rfl
    | cons i l ih =>
        rw [List.foldl_cons, List.find?_cons]
        cases valid ((rr.toNat + i) % m.N) with
        | true => exact congrArg Prod.fst (hfound l _)
        | false => exact ih
  have hlt : (first m.N rr.toNat valid).getD rr.toNat < 2 ^ m.selBits := by
    cases h : first m.N rr.toNat valid with
    | none => exact rr.isLt
    | some c => exact Nat.lt_of_lt_of_le (first_eq_some h).1 m.N_le
  unfold next
  exact (congrArg (fun c => (BitVec.ofNat m.selBits c).toNat) (hloop _)).trans
    ((BitVec.toNat_ofNat _ _).trans (Nat.mod_eq_of_lt hlt))

/-- A requester is valid, or the pointer is not behind the last one. -/
def InRange (rr : BitVec m.selBits) (valid : Nat → Bool) : Prop :=
  rr.toNat < m.N ∨ ∃ k < m.N, valid k = true

instance (rr : BitVec m.selBits) (valid : Nat → Bool) : Decidable (InRange rr valid) :=
  inferInstanceAs (Decidable (_ ∨ _))

theorem next_lt_iff : (next rr valid).toNat < m.N ↔ InRange rr valid := by
  rw [next_toNat]
  cases h : first m.N rr.toNat valid with
  | none =>
      refine ⟨.inl, fun hrange => hrange.resolve_right ?_⟩
      rintro ⟨k, hk, hvalid⟩
      rw [first_eq_none h hk] at hvalid
      cases hvalid
  | some c =>
      obtain ⟨hc, hvalid, _⟩ := first_eq_some h
      exact ⟨fun _ => .inr ⟨c, hc, hvalid⟩, fun _ => hc⟩

theorem next_nearest (hlt : (next rr valid).toNat < m.N) (hvalid : valid (next rr valid).toNat = true) :
    ∀ k < m.N, valid k = true →
      distance m.N rr.toNat (next rr valid).toNat ≤ distance m.N rr.toNat k := by
  rw [next_toNat] at hlt hvalid ⊢
  cases h : first m.N rr.toNat valid with
  | none =>
      rw [h] at hlt hvalid
      rw [first_eq_none h hlt] at hvalid
      cases hvalid
  | some c => exact (first_eq_some h).2.2

theorem next_of_nearest {c : Nat} (hc : c < m.N) (hvalid : valid c = true)
    (hnear : ∀ k < m.N, valid k = true → distance m.N rr.toNat c ≤ distance m.N rr.toNat k) :
    (next rr valid).toNat = c := by
  rw [next_toNat, first_of_nearest hc hvalid hnear]
  rfl

/-- The pointer is behind the chosen one, round or not. -/
theorem distance_next {next : BitVec m.selBits} (h : next.toNat < m.N) (k : Nat) :
    distance m.N (next + 1).toNat k = distance m.N (next.toNat + 1) k := by
  have hle := m.N_le
  have hbits : 1 < 2 ^ m.selBits := Nat.lt_of_lt_of_le m.two_le hle
  have hone : (1 : BitVec m.selBits).toNat = 1 := by
    change 1 % 2 ^ m.selBits = 1
    exact Nat.mod_eq_of_lt hbits
  rw [BitVec.toNat_add, hone]
  rcases Nat.lt_or_ge (next.toNat + 1) (2 ^ m.selBits) with hlt | hge
  · rw [Nat.mod_eq_of_lt hlt]
  · have hfull : next.toNat + 1 = 2 ^ m.selBits := by omega
    have hN : m.N = 2 ^ m.selBits := by omega
    rw [← distance_mod m.N (next.toNat + 1), hfull, hN, Nat.mod_self]

/-! ## One side -/

/-- What is valid and not accepted stays. -/
def Holds (valid ready : Bool) (q : Axi4Request m.W) (valid' : Bool) (q' : Axi4Request m.W) : Prop :=
  valid = true → ready = false → valid' = true ∧ q' = q

instance (valid ready : Bool) (q : Axi4Request m.W) (valid' : Bool) (q' : Axi4Request m.W) :
    Decidable (Holds valid ready q valid' q') :=
  inferInstanceAs (Decidable (_ → _))

def NoneBefore (rr : BitVec m.selBits) (c : Nat) (valid : Nat → Bool) : Prop :=
  ∀ k < m.N, valid k = true → distance m.N rr.toNat c ≤ distance m.N rr.toNat k

instance (rr : BitVec m.selBits) (c : Nat) (valid : Nat → Bool) :
    Decidable (NoneBefore rr c valid) :=
  inferInstanceAs (Decidable (∀ k < m.N, _))

theorem Side.clock_eq (side : Side m) (accepts ends : Bool) (next : BitVec m.selBits) :
    side.clock accepts next ends false =
      { rr := if accepts then next + 1 else side.rr
        sel := if accepts then next else side.sel
        active := !ends && (accepts || side.active) } := by
  unfold Side.clock
  cases accepts <;> cases ends <;> rfl

/-- Where a requester was chosen and is not overtaken, it is chosen again. -/
theorem next_again {rr rr' : BitVec m.selBits} {valid valid' : Nat → Bool} (hrr : rr' = rr)
    (hlt : (next rr valid).toNat < m.N) (hvalid : valid' (next rr valid).toNat = true)
    (horder : NoneBefore rr' (next rr valid).toNat valid') :
    (next rr' valid').toNat = (next rr valid).toNat := by
  subst hrr
  exact next_of_nearest hlt hvalid horder

/-- A side that accepts nothing keeps its pointer, and does not open. -/
theorem Side.clock_refused (side : Side m) (next : BitVec m.selBits) (ends : Bool)
    (h : side.active = false) :
    (side.clock false next ends false).rr = side.rr ∧ (side.clock false next ends false).active = false := by
  rw [Side.clock_eq, h]
  exact ⟨rfl, by cases ends <;> rfl⟩

/-- One side offers again what was not accepted. -/
theorem Side.keeps {side side' : Side m} {ends ready : Bool} {valid valid' : Nat → Bool}
    {q q' : Nat → Axi4Request m.W} {c : BitVec m.selBits} (hc : c = next side.rr valid)
    (hlt : c.toNat < m.N)
    (hside : side' =
      side.clock (fires (!side.active && valid c.toNat) ready (q c.toNat)).isSome c ends false)
    (hheld : Holds (valid c.toNat) (if !side.active && decide (c.toNat = c.toNat) then ready else false)
      (q c.toNat) (valid' c.toNat) (q' c.toNat))
    (horder : (!side.active && valid c.toNat) = true → ready = false →
      NoneBefore side'.rr c.toNat valid') :
    Holds (!side.active && valid c.toNat) ready (q c.toNat)
      (!side'.active && valid' (next side'.rr valid').toNat) (q' (next side'.rr valid').toNat) := by
  intro hvalid hready
  obtain ⟨hidle, hslave⟩ := Bool.and_eq_true_iff.mp hvalid
  have hactive : side.active = false := by simpa using hidle
  rw [fires_isSome, hready, Bool.and_false] at hside
  obtain ⟨hrr, hactive'⟩ := Side.clock_refused side c ends hactive
  rw [← hside] at hrr hactive'
  obtain ⟨hvalid', hsame⟩ := hheld hslave (by rw [hready, ite_self])
  have hnext : (next side'.rr valid').toNat = c.toNat := by
    subst hc
    exact next_again hrr hlt hvalid' (horder hvalid hready)
  rw [hnext, hactive', hvalid']
  exact ⟨rfl, hsame⟩

/-- A grant to another brings a waiting requester nearer. -/
theorem Side.grant (side : Side m) {k : Nat} (hk : k < m.N) {valid : Nat → Bool} (hvalid : valid k = true)
    {q : Option (Axi4Request m.W)}
    (hq : q.isSome = true → valid (next side.rr valid).toNat = true) (ends : Bool)
    (hother : onPort k (q.map ((next side.rr valid).toNat, ·)).toList = []) :
    (q.map ((next side.rr valid).toNat, ·)).toList.length +
        distance m.N (side.clock q.isSome (next side.rr valid) ends false).rr.toNat k ≤
      distance m.N side.rr.toNat k := by
  rw [Side.clock_eq]
  cases q with
  | none => exact Nat.le_of_eq (Nat.zero_add _)
  | some q =>
      have hlt : (next side.rr valid).toNat < m.N := next_lt_iff.mpr (.inr ⟨k, hk, hvalid⟩)
      have hne : (next side.rr valid).toNat ≠ k := by
        rintro rfl
        rw [show (Option.map _ (some q)).toList = [((next side.rr valid).toNat, q)] from rfl,
          onPort_self] at hother
        cases hother
      have hnear := next_nearest hlt (hq rfl) k hk hvalid
      have hpast := distance_past hk hlt hne hnear
      rw [← distance_next hlt] at hpast
      change 1 + distance m.N (next side.rr valid + 1).toNat k ≤ _
      omega

/-! ## Transfers -/

def State.atMaster (s : State m) (i : Inputs m) : Axi4Transfers m.W (PlainBeat m.W) :=
  transfers (s.masterOut i) i.master

def State.atSlave (s : State m) (i : Inputs m) (k : Nat) : Axi4Transfers m.W (PlainBeat m.W) :=
  transfers (i.slaves k) (s.slavesIn i k)

theorem labelled_sent {α : Type} {n sel : Nat} (h : sel < n) (a r : Bool) (valid : Nat → Bool)
    (x : Nat → α) :
    labelled (List.range n) (fun k =>
        fires (valid k) (if a && decide (sel = k) then r else false) (x k)) =
      ((fires (a && valid sel) r (x sel)).map (sel, ·)).toList := by
  have hcomm : (fun k => fires (valid k) (if a && decide (sel = k) then r else false) (x k)) =
      fun k => fires (a && decide (sel = k) && r) (valid k) (x k) := by
    funext k
    rw [fires_comm]
    cases a && decide (sel = k) <;> rfl
  rw [hcomm, labelled_fires h]
  unfold fires
  rw [Bool.and_assoc, Bool.and_assoc, Bool.and_comm r]

theorem labelled_received {α : Type} {n sel : Nat} (h : sel < n) (valid : Bool) (ready : Nat → Bool)
    (x : α) :
    labelled (List.range n) (fun k => fires (if sel = k then valid else false) (ready k) x) =
      ((fires valid (ready sel) x).map (sel, ·)).toList := by
  have hcond : (fun k => fires (if sel = k then valid else false) (ready k) x) =
      fun k => fires (true && decide (sel = k) && valid) (ready k) x := by
    funext k
    by_cases hk : sel = k
    · rw [if_pos hk, decide_eq_true hk]
      rfl
    · rw [if_neg hk, decide_eq_false hk]
      rfl
  rw [hcond]
  exact labelled_fires h true valid ready fun _ => x

section

variable {s : State m} {i : Inputs m}

theorem labelled_aw (h : (s.awNext i).toNat < m.N) :
    labelled (List.range m.N) (fun k => (s.atSlave i k).aw) =
      ((s.atMaster i).aw.map ((s.awNext i).toNat, ·)).toList :=
  labelled_sent h _ i.master.awready (fun k => (i.slaves k).awvalid) _

theorem labelled_ar (h : (s.arNext i).toNat < m.N) :
    labelled (List.range m.N) (fun k => (s.atSlave i k).ar) =
      ((s.atMaster i).ar.map ((s.arNext i).toNat, ·)).toList :=
  labelled_sent h _ i.master.arready (fun k => (i.slaves k).arvalid) _

theorem labelled_w (h : s.aw.sel.toNat < m.N) :
    labelled (List.range m.N) (fun k => (s.atSlave i k).w) =
      ((s.atMaster i).w.map (s.aw.sel.toNat, ·)).toList := by
  refine (labelled_sent h s.aw.active i.master.wready (fun k => (i.slaves k).wvalid) _).trans ?_
  unfold State.atMaster State.masterOut transfers
  dsimp only
  cases s.aw.active <;> rfl

theorem labelled_b (h : s.aw.sel.toNat < m.N) :
    labelled (List.range m.N) (fun k => (s.atSlave i k).b) =
      ((s.atMaster i).b.map (s.aw.sel.toNat, ·)).toList :=
  labelled_received h i.master.bvalid (fun k => (i.slaves k).bready) i.master.bid

theorem labelled_r (h : s.ar.sel.toNat < m.N) :
    labelled (List.range m.N) (fun k => (s.atSlave i k).r) =
      ((s.atMaster i).r.map (s.ar.sel.toNat, ·)).toList :=
  labelled_received h i.master.rvalid (fun k => (i.slaves k).rready) i.master.r

end

/-! ## Registers -/

theorem work_aw (s : State m) (i : Inputs m) : (s.work false i).aw =
    s.aw.clock (s.atMaster i).aw.isSome (s.awNext i) (s.atMaster i).b.isSome false := by
  have haccepts : (s.atMaster i).aw.isSome =
      (!s.aw.active && (s.masterOut i).awvalid && i.master.awready) := by
    refine (fires_isSome _ _ _).trans ?_
    unfold State.masterOut
    cases s.aw.active <;> rfl
  have hends : (s.atMaster i).b.isSome = (i.master.bvalid && (i.slaves s.aw.sel.toNat).bready) :=
    fires_isSome _ _ _
  rw [haccepts, hends]
  rfl

theorem work_ar (s : State m) (i : Inputs m) : (s.work false i).ar =
    s.ar.clock (s.atMaster i).ar.isSome (s.arNext i) ((s.atMaster i).r.any Axi4ReadBeat.last)
      false := by
  have haccepts : (s.atMaster i).ar.isSome =
      (!s.ar.active && (s.masterOut i).arvalid && i.master.arready) := by
    refine (fires_isSome _ _ _).trans ?_
    unfold State.masterOut
    cases s.ar.active <;> rfl
  have hends : (s.atMaster i).r.any Axi4ReadBeat.last =
      (i.master.rvalid && (i.slaves s.ar.sel.toNat).rready && i.master.r.last) := by
    change (fires i.master.rvalid (i.slaves s.ar.sel.toNat).rready i.master.r).any _ = _
    unfold fires
    cases i.master.rvalid && (i.slaves s.ar.sel.toNat).rready <;> rfl
  rw [haccepts, hends]
  rfl

/-! ## Idle and active -/

section

variable {s : State m} {i : Inputs m}

theorem aw_isSome (h : (s.atMaster i).aw.isSome) :
    s.aw.active = false ∧ (i.slaves (s.awNext i).toNat).awvalid = true := by
  rw [show (s.atMaster i).aw.isSome = _ from fires_isSome _ _ _] at h
  obtain ⟨hvalid, _⟩ := Bool.and_eq_true_iff.mp h
  obtain ⟨hactive, hslave⟩ := Bool.and_eq_true_iff.mp hvalid
  exact ⟨by simpa using hactive, hslave⟩

theorem ar_isSome (h : (s.atMaster i).ar.isSome) :
    s.ar.active = false ∧ (i.slaves (s.arNext i).toNat).arvalid = true := by
  rw [show (s.atMaster i).ar.isSome = _ from fires_isSome _ _ _] at h
  obtain ⟨hvalid, _⟩ := Bool.and_eq_true_iff.mp h
  obtain ⟨hactive, hslave⟩ := Bool.and_eq_true_iff.mp hvalid
  exact ⟨by simpa using hactive, hslave⟩

theorem w_idle (h : s.aw.active = false) : (s.atMaster i).w = none := by
  change fires (if s.aw.active then _ else false) _ _ = none
  rw [h]
  rfl

/-- What is sent is what the selected requester sends. -/
theorem slave_w (h : s.aw.active = true) :
    (s.atSlave i s.aw.sel.toNat).w = (s.atMaster i).w := by
  unfold State.atSlave State.atMaster State.slavesIn State.masterOut transfers
  rw [h, decide_eq_true rfl]
  rfl

end

end MuxToMaster

end CppHdl.Bus
