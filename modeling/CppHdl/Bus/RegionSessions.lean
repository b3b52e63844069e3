import CppHdl.Bus.RegionMux
import CppHdl.Lib.Transition

/-!
# Transactions through Axi4RegionMux

A session is a run with the transfers on both sides. Its invariant has at most one open
write and one open read, whose targets are in the registers. For writes it needs a master
whose data follow their address: the multiplexer takes no notice of a last beat.
-/

namespace CppHdl.Bus

open Service

namespace RegionMux

variable {m : RegionMux}

/-! ## Sessions -/

/-- The multiplexer, and the transfers so far on its two sides. -/
structure Session (m : RegionMux) where
  state : State m
  master : Axi4Log Unit m.W (StrobedBeat m.W)
  targets : Axi4Log Nat m.W (StrobedBeat m.W)

namespace Session

def start (s : State m) : Session m := ⟨s, .empty, .empty⟩

def clock (x : Session m) (i : Inputs m) : Session m where
  state := x.state.work false i
  master := x.master.clock [()] fun _ => x.state.atMaster i
  targets := x.targets.clock (List.range m.N) (x.state.atTarget i)

/-- The data of a write follow its address, and the targets answer what they owe. -/
def Allowed (x : Session m) (i : Inputs m) : Prop :=
  x.master.DataFollows StrobedBeat.last () (x.state.atMaster i) ∧
    ∀ k < m.N, x.targets.Responds StrobedBeat.last k (x.state.atTarget i k)

instance (x : Session m) (i : Inputs m) : Decidable (Allowed x i) :=
  inferInstanceAs (Decidable (_ ∧ _))

/-- The registers name the open request. -/
structure Selected (active : Bool) (sel : BitVec m.SEL_BITS) (current : Option (Nat × Axi4Request m.W)) :
    Prop where
  active : active = current.isSome
  sel : ∀ r ∈ current, m.selSafe sel = r.1

/-- The transfers on the two sides are the same. -/
structure Matched (x : Session m) : Prop where
  aw : x.targets.aw = x.master.aw.map fun q => m.routed q.2
  w : x.targets.w.map Prod.snd = x.master.w.map Prod.snd
  b : x.targets.b.map Prod.snd = x.master.b.map Prod.snd
  ar : x.targets.ar = x.master.ar.map fun q => m.routed q.2
  r : x.targets.r.map Prod.snd = x.master.r.map Prod.snd

structure WriteSide (x : Session m) (current : Option (Nat × Axi4Request m.W)) : Prop where
  selected : Selected x.state.awActive x.state.awSel current
  written : Writing (writeData StrobedBeat.last) writeResponses x.targets.aw x.targets.w x.targets.b
    current

structure ReadSide (x : Session m) (current : Option (Nat × Axi4Request m.W)) : Prop where
  selected : Selected x.state.arActive x.state.arSel current
  read : Serial readData x.targets.ar x.targets.r current

theorem Matched.clock {x : Session m} (h : Matched x) (i : Inputs m) : Matched (x.clock i) := by
  have hrequest : ∀ {xs : List (Nat × Axi4Request m.W)} {ys : List (Unit × Axi4Request m.W)}
      (e : Option (Axi4Request m.W)), xs = ys.map (fun q => m.routed q.2) →
      xs ++ (e.map m.routed).toList = (ys ++ labelled [()] fun _ => e).map fun q => m.routed q.2 := by
    intro xs ys e hxy
    rw [List.map_append, hxy, labelled_unit]
    cases e <;> rfl
  refine ⟨?_, ?_, ?_, ?_, ?_⟩
  · refine (congrArg (x.targets.aw ++ ·) (labelled_aw x.state i)).trans (hrequest _ h.aw)
  · refine (congrArg (List.map Prod.snd <| x.targets.w ++ ·) (labelled_w x.state i)).trans (map_snd_labelled _ _ h.w)
  · refine (congrArg (List.map Prod.snd <| x.targets.b ++ ·) (labelled_b x.state i)).trans (map_snd_labelled _ _ h.b)
  · refine (congrArg (x.targets.ar ++ ·) (labelled_ar x.state i)).trans (hrequest _ h.ar)
  · refine (congrArg (List.map Prod.snd <| x.targets.r ++ ·) (labelled_r x.state i)).trans (map_snd_labelled _ _ h.r)

section

variable {x : Session m} {i : Inputs m}

theorem data_expected (hmatch : Matched x) (hok : Allowed x i) {beat : StrobedBeat m.W}
    (hbeat : (x.state.atMaster i).w = some beat) :
    ¬ Serial (writeData StrobedBeat.last) x.targets.aw x.targets.w none := by
  intro hdone
  obtain ⟨q, hq, _⟩ := hok.1 beat hbeat
  have hlt := (List.getElem?_eq_some_iff.mp hq).1
  rw [onPort_unit, onPort_unit, ← hmatch.w, ← ended_ported, List.length_map] at hlt
  have hlength : x.targets.aw.length = x.master.aw.length := by rw [hmatch.aw, List.length_map]
  exact hdone.busy (hlength ▸ hlt) rfl

theorem clock_aw : (x.clock i).targets.aw =
    x.targets.aw ++ ((x.state.atMaster i).aw.map m.routed).toList :=
  congrArg (x.targets.aw ++ ·) (labelled_aw x.state i)

theorem clock_w : (x.clock i).targets.w =
    x.targets.w ++ ((x.state.atMaster i).w.map (m.selSafe x.state.awSel, ·)).toList :=
  congrArg (x.targets.w ++ ·) (labelled_w x.state i)

theorem clock_b : (x.clock i).targets.b =
    x.targets.b ++ ((x.state.atMaster i).b.map (m.selSafe x.state.awSel, ·)).toList :=
  congrArg (x.targets.b ++ ·) (labelled_b x.state i)

theorem clock_ar : (x.clock i).targets.ar =
    x.targets.ar ++ ((x.state.atMaster i).ar.map m.routed).toList :=
  congrArg (x.targets.ar ++ ·) (labelled_ar x.state i)

theorem clock_r : (x.clock i).targets.r =
    x.targets.r ++ ((x.state.atMaster i).r.map (m.selSafe x.state.arSel, ·)).toList :=
  congrArg (x.targets.r ++ ·) (labelled_r x.state i)

/-- The registers after a clock, of what was open and is open. -/
theorem Selected.clock_write {current : Option (Nat × Axi4Request m.W)}
    (h : Selected x.state.awActive x.state.awSel current) :
    Selected (x.clock i).state.awActive (x.clock i).state.awSel
      (((x.state.atMaster i).aw.map m.routed).or
        (if (x.state.atMaster i).b.isSome then none else current)) := by
  obtain ⟨hactive, hsel⟩ := work_write x.state i
  cases hq : (x.state.atMaster i).aw with
  | some q =>
      rw [hq] at hactive hsel
      refine ⟨hactive, fun r hr => ?_⟩
      cases hr
      rw [aw_eq _ _ hq]
      exact (congrArg m.selSafe hsel).trans (selSafe_next _)
  | none =>
      rw [hq] at hactive hsel
      rw [h.active] at hactive
      change Selected _ _ (if (x.state.atMaster i).b.isSome then none else current)
      cases hb : (x.state.atMaster i).b with
      | some id =>
          rw [hb] at hactive
          exact ⟨hactive.trans (Bool.and_false _), fun r hr => by cases hr⟩
      | none =>
          rw [hb] at hactive
          exact ⟨hactive.trans (Bool.and_true _),
            fun r hr => (congrArg m.selSafe hsel).trans (h.sel r hr)⟩

theorem WriteSide.of_data {current : Option (Nat × Axi4Request m.W)} (h : WriteSide x current)
    {beat : StrobedBeat m.W} (hbeat : (x.state.atMaster i).w = some beat) :
    ∃ r, current = some r ∧ m.selSafe x.state.awSel = r.1 := by
  cases current with
  | none =>
      rw [(write_idle x.state i h.selected.active).1] at hbeat
      cases hbeat
  | some r => exact ⟨r, rfl, h.selected.sel r rfl⟩

/-- A response is to the open write, behind its data. -/
theorem WriteSide.of_response {current : Option (Nat × Axi4Request m.W)} (h : WriteSide x current)
    (hok : Allowed x i) {id : BitVec m.W.ID_WIDTH} (hid : (x.state.atMaster i).b = some id) :
    Serial (writeData StrobedBeat.last) x.targets.aw x.targets.w none ∧
      ∃ r, current = some r ∧ m.selSafe x.state.awSel = r.1 ∧ writeResponses.fits r.2 id = true := by
  cases current with
  | none =>
      rw [(write_idle x.state i h.selected.active).2] at hid
      cases hid
  | some r =>
      obtain ⟨hdue, hended⟩ := (hok.2 _ (selSafe_lt _)).1 id
        ((target_b _ _ h.selected.active).trans hid)
      rw [← ended_writeResponses] at hended
      obtain ⟨q, hq, hfits⟩ := h.written.responses.of_due hdue
      cases hq
      exact ⟨h.written.done_of_port_lt hended, _, rfl, rfl, hfits⟩

theorem WriteSide.clock {current : Option (Nat × Axi4Request m.W)} (h : WriteSide x current)
    (hmatch : Matched x) (hok : Allowed x i) : ∃ next, WriteSide (x.clock i) next := by
  have hselected := h.selected.clock_write (i := i)
  refine ⟨_, hselected, ?_⟩
  rw [clock_aw, clock_w, clock_b, ← Option.isSome_map (f := (m.selSafe x.state.awSel, ·))]
  refine h.written.clock (fun _ => rfl) (fun hopen => ?_) (fun y hy => ?_) (fun y hy => ?_)
  · have hactive : x.state.awActive = true := by
      rw [h.selected.active, Option.isSome_iff_ne_none]
      exact hopen
    rw [write_active _ _ hactive]
    rfl
  · obtain ⟨beat, hbeat, rfl⟩ := Option.map_eq_some_iff.mp hy
    obtain ⟨r, hr, hsel⟩ := h.of_data hbeat
    exact ⟨data_expected hmatch hok hbeat, r, hr, hsel, rfl⟩
  · obtain ⟨id, hid, rfl⟩ := Option.map_eq_some_iff.mp hy
    exact h.of_response hok hid

theorem Selected.clock_read {current : Option (Nat × Axi4Request m.W)}
    (h : Selected x.state.arActive x.state.arSel current) :
    Selected (x.clock i).state.arActive (x.clock i).state.arSel
      (((x.state.atMaster i).ar.map m.routed).or
        (if (x.state.atMaster i).r.any Axi4ReadBeat.last then none else current)) := by
  obtain ⟨hactive, hsel⟩ := work_read x.state i
  cases hq : (x.state.atMaster i).ar with
  | some q =>
      rw [hq] at hactive hsel
      refine ⟨hactive, fun r hr => ?_⟩
      cases hr
      rw [ar_eq _ _ hq]
      exact (congrArg m.selSafe hsel).trans (selSafe_next _)
  | none =>
      rw [hq] at hactive hsel
      rw [h.active] at hactive
      change Selected _ _ (if (x.state.atMaster i).r.any Axi4ReadBeat.last then none else current)
      cases hr : (x.state.atMaster i).r.any Axi4ReadBeat.last with
      | true =>
          rw [hr] at hactive
          exact ⟨hactive.trans (Bool.and_false _), fun r hr => by cases hr⟩
      | false =>
          rw [hr] at hactive
          exact ⟨hactive.trans (Bool.and_true _),
            fun r hr => (congrArg m.selSafe hsel).trans (h.sel r hr)⟩

theorem ReadSide.clock {current : Option (Nat × Axi4Request m.W)} (h : ReadSide x current)
    (hok : Allowed x i) : ∃ next, ReadSide (x.clock i) next := by
  have hselected := h.selected.clock_read (i := i)
  have hlast : ((x.state.atMaster i).r.map (m.selSafe x.state.arSel, ·)).any
      (fun y => readData.last y.2) = (x.state.atMaster i).r.any Axi4ReadBeat.last := by
    cases (x.state.atMaster i).r <;> rfl
  refine ⟨_, hselected, ?_⟩
  rw [clock_ar, clock_r, ← hlast]
  refine h.read.clock (fun hopen => ?_) (fun y hy => ?_)
  · have hactive : x.state.arActive = true := by
      rw [h.selected.active, Option.isSome_iff_ne_none]
      exact hopen
    rw [read_active _ _ hactive]
    rfl
  · obtain ⟨beat, hbeat, rfl⟩ := Option.map_eq_some_iff.mp hy
    cases current with
    | none =>
        rw [read_idle x.state i h.selected.active] at hbeat
        cases hbeat
    | some r =>
        have htarget := (target_r x.state i h.selected.active).trans hbeat
        obtain ⟨q, hq, hfits⟩ := h.read.of_due ((hok.2 _ (selSafe_lt _)).2 beat htarget)
        cases hq
        exact ⟨_, rfl, rfl, hfits⟩

end

/-! ## Runs -/

structure Inv (x : Session m) : Prop where
  matched : Matched x
  write : ∃ current, WriteSide x current
  read : ∃ current, ReadSide x current

theorem Inv.start {s : State m} (haw : s.awActive = false) (har : s.arActive = false) :
    Inv (start s) where
  matched := ⟨rfl, rfl, rfl, rfl, rfl⟩
  write := ⟨none, ⟨haw, fun r hr => by cases hr⟩, Writing.start⟩
  read := ⟨none, ⟨har, fun r hr => by cases hr⟩, Serial.start _⟩

theorem Inv.run {x : Session m} (h : Inv x) {ins : List (Inputs m)}
    (hok : Transitions.Along Allowed clock x ins) : Inv (ins.foldl clock x) := by
  induction ins generalizing x with
  | nil => exact h
  | cons i ins ih =>
      obtain ⟨current, hwrite⟩ := h.write
      obtain ⟨current', hread⟩ := h.read
      exact ih ⟨h.matched.clock i, hwrite.clock h.matched hok.1, hread.clock hok.1⟩ hok.2

end Session

/-! ## Independence -/

/-- The read channels carry the same. -/
structure SameReads (i i' : Inputs m) : Prop where
  arvalid : i.slave.arvalid = i'.slave.arvalid
  ar : i.slave.ar = i'.slave.ar
  rready : i.slave.rready = i'.slave.rready
  arready : ∀ k, (i.masters k).arready = (i'.masters k).arready
  rvalid : ∀ k, (i.masters k).rvalid = (i'.masters k).rvalid
  r : ∀ k, (i.masters k).r = (i'.masters k).r

/-- The state of the reads, and their transfers so far, are the same. -/
structure Session.SameReading (x x' : Session m) : Prop where
  arActive : x.state.arActive = x'.state.arActive
  arSel : x.state.arSel = x'.state.arSel
  ar : x.master.ar = x'.master.ar
  r : x.master.r = x'.master.r
  arTargets : x.targets.ar = x'.targets.ar
  rTargets : x.targets.r = x'.targets.r

namespace Session

variable {x x' : Session m} {i i' : Inputs m}

theorem SameReading.transfers (h : SameReading x x') (hi : SameReads i i') :
    (x.state.atMaster i).ar = (x'.state.atMaster i').ar ∧
      (x.state.atMaster i).r = (x'.state.atMaster i').r := by
  have harready : (fun k => (i.masters k).arready) = fun k => (i'.masters k).arready :=
    funext hi.arready
  unfold State.atMaster State.slaveIn Bus.transfers
  dsimp only
  rw [harready, hi.arvalid, hi.ar, hi.rready, h.arActive, h.arSel, hi.rvalid, hi.r]
  exact ⟨rfl, rfl⟩

theorem SameReading.clock (h : SameReading x x') (hi : SameReads i i') :
    SameReading (x.clock i) (x'.clock i') := by
  obtain ⟨har, hr⟩ := h.transfers hi
  obtain ⟨hactive, hsel⟩ := work_read x.state i
  obtain ⟨hactive', hsel'⟩ := work_read x'.state i'
  refine ⟨?_, ?_, ?_, ?_, ?_, ?_⟩
  · refine hactive.trans (Eq.trans ?_ hactive'.symm)
    rw [har, hr, h.arActive]
  · refine hsel.trans (Eq.trans ?_ hsel'.symm)
    rw [har, hi.ar, h.arSel]
  · exact congrArg₂ (· ++ labelled [()] fun _ => ·) h.ar har
  · exact congrArg₂ (· ++ labelled [()] fun _ => ·) h.r hr
  · rw [clock_ar, clock_ar, h.arTargets, har]
  · rw [clock_r, clock_r, h.rTargets, hr, h.arSel]

theorem SameReading.run (h : SameReading x x') {ins ins' : List (Inputs m)}
    (hins : List.Forall₂ SameReads ins ins') :
    SameReading (ins.foldl Session.clock x) (ins'.foldl Session.clock x') := by
  induction hins generalizing x x' with
  | nil => exact h
  | cons hi _ ih => exact ih (h.clock hi)

/-! ## Transactions -/

structure NeverCrosses (x : Session m) : Prop where
  /-- An accepted address is seen by the target of its window only. -/
  aw : x.targets.aw = x.master.aw.map fun q => m.routed q.2
  ar : x.targets.ar = x.master.ar.map fun q => m.routed q.2
  awOffered : ∀ i k, (x.state.mastersOut i k).awvalid = true →
    (k, (x.state.mastersOut i k).aw) = m.routed i.slave.aw
  arOffered : ∀ i k, (x.state.mastersOut i k).arvalid = true →
    (k, (x.state.mastersOut i k).ar) = m.routed i.slave.ar
  /-- What the master exchanges, it exchanges with a target. -/
  w : x.targets.w.map Prod.snd = x.master.w.map Prod.snd
  b : x.targets.b.map Prod.snd = x.master.b.map Prod.snd
  r : x.targets.r.map Prod.snd = x.master.r.map Prod.snd
  /-- Each is of the oldest request, at the target and with the ID of that. -/
  data : (writeData StrobedBeat.last).ported.InOrder x.targets.aw x.targets.w
  responses : writeResponses.ported.InOrder x.targets.aw x.targets.b
  reads : readData.ported.InOrder x.targets.ar x.targets.r
  /-- What a target owes and offers is offered to the master. -/
  bReaches : ∀ i k, (i.masters k).bvalid = true →
    x.targets.OwesWrite StrobedBeat.last k (i.masters k).bid →
    (x.state.slaveIn i).bvalid = true ∧ (x.state.slaveIn i).bid = (i.masters k).bid
  rReaches : ∀ i k, (i.masters k).rvalid = true → x.targets.OwesRead k (i.masters k).r →
    (x.state.slaveIn i).rvalid = true ∧ (x.state.slaveIn i).r = (i.masters k).r

/-- A request is offered to the target that would take it. -/
theorem offered_routed {active valid : Bool} {sel : BitVec m.SEL_BITS} {q : Axi4Request m.W} {k : Nat}
    (h : (!active && decide (m.next q.addr = k) && valid) = true) :
    (k, localRequest active sel q) = m.routed q := by
  obtain ⟨hsel, _⟩ := Bool.and_eq_true_iff.mp h
  obtain ⟨hactive, hk⟩ := Bool.and_eq_true_iff.mp hsel
  cases active with
  | true => cases hactive
  | false =>
      rw [localRequest_inactive, ← of_decide_eq_true hk]
      rfl

theorem Inv.neverCrosses (h : Inv x) : NeverCrosses x := by
  obtain ⟨current, hwrite⟩ := h.write
  obtain ⟨current', hread⟩ := h.read
  refine
    { aw := h.matched.aw
      ar := h.matched.ar
      awOffered := fun _ _ => offered_routed
      arOffered := fun _ _ => offered_routed
      w := h.matched.w
      b := h.matched.b
      r := h.matched.r
      data := hwrite.written.data.elim Serial.inOrder Serial.inOrder
      responses := hwrite.written.responses.inOrder
      reads := hread.read.inOrder
      bReaches := fun i k hvalid howes => ?_
      rReaches := fun i k hvalid howes => ?_ }
  · obtain ⟨q, rfl, _⟩ := hwrite.written.responses.of_due howes.1
    have hactive : x.state.awActive = true := hwrite.selected.active
    have hk : m.selSafe x.state.awSel = k := hwrite.selected.sel _ rfl
    unfold State.slaveIn
    rw [hactive, hk]
    exact ⟨hvalid, rfl⟩
  · obtain ⟨q, rfl, _⟩ := hread.read.of_due howes
    have hactive : x.state.arActive = true := hread.selected.active
    have hk : m.selSafe x.state.arSel = k := hread.selected.sel _ rfl
    unfold State.slaveIn
    rw [hactive, hk]
    exact ⟨hvalid, rfl⟩

end Session

/-- From a reset on, with data that follow their address and targets that answer what they
owe, transactions are not crossed; and the writes make no difference to the reads. -/
theorem never_crosses (m : RegionMux) (s : State m) (i : Inputs m) (ins : List (Inputs m))
    (h : Transitions.Along Session.Allowed Session.clock (Session.start (s.work true i)) ins) :
    Session.NeverCrosses (ins.foldl Session.clock (Session.start (s.work true i))) ∧
      ∀ ins', List.Forall₂ SameReads ins ins' →
        Session.SameReading (ins.foldl Session.clock (Session.start (s.work true i)))
          (ins'.foldl Session.clock (Session.start (s.work true i))) :=
  ⟨((Session.Inv.start rfl rfl).run h).neverCrosses, fun _ hins =>
    Session.SameReading.run ⟨rfl, rfl, rfl, rfl, rfl, rfl⟩ hins⟩

/-! ## Two targets -/

def twoRegions : RegionMux where
  W := ⟨8, 1, 8, byte_addr_le⟩
  N := 2
  N_pos := by decide
  N_le := by decide
  regionBase k := if k = 0 then 0 else 16
  regionSize _ := 16

/-- The writes to addresses 1 and 17; `w` is offered, and the first target may respond. -/
def twoWrites (first : Bool) (w : Option (BitVec 8)) (bvalid : Nat → Bool) : Inputs twoRegions where
  slave :=
    { awvalid := true
      aw := if first then ⟨1, 0⟩ else ⟨17, 1⟩
      wvalid := w.isSome
      w := ⟨w.getD 0, 1, true⟩
      bready := true
      arvalid := true
      ar := ⟨18, 1⟩
      rready := true }
  masters k :=
    { awready := true
      wready := true
      bvalid := bvalid k
      bid := if k = 0 then 0 else 1
      arready := first
      rvalid := !first && decide (k = 1)
      r := ⟨3, false, 1⟩ }

/-- The second address is offered while the first write waits for its response. -/
def inTurn : List (Inputs twoRegions) :=
  [twoWrites true none (fun _ => false), twoWrites false (some 5) (fun _ => false),
    twoWrites false none (fun _ => false), twoWrites false none (· = 0),
    twoWrites false none (fun _ => false), twoWrites false (some 6) (fun _ => false),
    twoWrites false none (· = 1)]

theorem never_crosses_inTurn : Session.NeverCrosses
    (inTurn.foldl Session.clock (Session.start ((⟨0, 0, true, true⟩ : State twoRegions).work true
      (twoWrites true none fun _ => false)))) :=
  (never_crosses twoRegions _ _ _ (by decide +kernel)).1

/-- With the second address come its data: the first target takes them. -/
def ahead : List (Inputs twoRegions) :=
  [twoWrites true none (fun _ => false), twoWrites false (some 5) (fun _ => false),
    twoWrites false (some 6) (fun _ => false), twoWrites false none (· = 0),
    twoWrites false none (fun _ => false)]

theorem data_ahead_crossed :
    Transitions.Along (fun x i => ∀ k < 2, x.targets.Responds StrobedBeat.last k (x.state.atTarget i k))
      Session.clock (Session.start (⟨0, 0, false, false⟩ : State twoRegions)) ahead ∧
    ¬ (writeData StrobedBeat.last).ported.InOrder
      (ahead.foldl Session.clock (Session.start (⟨0, 0, false, false⟩ : State twoRegions))).targets.aw
      (ahead.foldl Session.clock (Session.start (⟨0, 0, false, false⟩ : State twoRegions))).targets.w := by
  refine ⟨by decide +kernel, fun h => ?_⟩
  have hdue := h 1 (0, ⟨6, 1, true⟩) (by decide +kernel)
  revert hdue
  decide +kernel

end RegionMux

end CppHdl.Bus
