import CppHdl.Bus.MuxToMaster

/-!
# Transactions through Axi4MuxToMaster

Requesters that hold their addresses, and a responder that answers what is owed, are the
bus. They do not suffice: a requester nearer to the pointer takes the place of an address
that waits, the pointer may be behind the last requester, and data may come ahead of their
address. In runs without these, the arbitration is that of the bus.
-/

namespace CppHdl.Bus

open Service RoundRobin

namespace MuxToMaster

variable {m : MuxToMaster}

/-- The multiplexer, the transfers so far on both sides, and the last clock. -/
structure Session (m : MuxToMaster) where
  state : State m
  requesters : Axi4Log Nat m.W (PlainBeat m.W)
  master : Axi4Log Unit m.W (PlainBeat m.W)
  before : Option (State m × Inputs m)

namespace Session

def start (s : State m) : Session m := ⟨s, .empty, .empty, none⟩

def clock (x : Session m) (i : Inputs m) : Session m where
  state := x.state.work false i
  requesters := x.requesters.clock (List.range m.N) (x.state.atSlave i)
  master := x.master.clock [()] fun _ => x.state.atMaster i
  before := some (x.state, i)

/-! ## The bus -/

/-- Every requester holds its addresses, and the responder answers what it owes. -/
def Environment (x : Session m) (i : Inputs m) : Prop :=
  (∀ p ∈ x.before, ∀ k < m.N,
    Holds (p.2.slaves k).awvalid (p.1.slavesIn p.2 k).awready (p.2.slaves k).aw
      (i.slaves k).awvalid (i.slaves k).aw ∧
    Holds (p.2.slaves k).arvalid (p.1.slavesIn p.2 k).arready (p.2.slaves k).ar
      (i.slaves k).arvalid (i.slaves k).ar) ∧
  x.master.Responds PlainBeat.last () (x.state.atMaster i)

/-! ## The condition -/

/-- No requester overtakes the address that waits, some requester is valid while a pointer
is behind the last one, and data follow their address. -/
def Orderly (x : Session m) (i : Inputs m) : Prop :=
  (∀ p ∈ x.before,
    ((p.1.masterOut p.2).awvalid = true → p.2.master.awready = false →
      NoneBefore x.state.aw.rr (p.1.awNext p.2).toNat fun k => (i.slaves k).awvalid) ∧
    ((p.1.masterOut p.2).arvalid = true → p.2.master.arready = false →
      NoneBefore x.state.ar.rr (p.1.arNext p.2).toNat fun k => (i.slaves k).arvalid)) ∧
  InRange x.state.aw.rr (fun k => (i.slaves k).awvalid) ∧
  InRange x.state.ar.rr (fun k => (i.slaves k).arvalid) ∧
  ∀ k < m.N, x.requesters.DataFollows PlainBeat.last k (x.state.atSlave i k)

def Allowed (x : Session m) (i : Inputs m) : Prop := Environment x i ∧ Orderly x i

instance (x : Session m) (i : Inputs m) : Decidable (Environment x i) :=
  inferInstanceAs (Decidable (_ ∧ _))

instance (x : Session m) (i : Inputs m) : Decidable (Orderly x i) :=
  inferInstanceAs (Decidable (_ ∧ _ ∧ _ ∧ _))

instance (x : Session m) (i : Inputs m) : Decidable (Allowed x i) :=
  inferInstanceAs (Decidable (_ ∧ _))

section

variable {x : Session m} {i : Inputs m}

theorem Orderly.awNext_lt (h : Orderly x i) : (x.state.awNext i).toNat < m.N := next_lt_iff.mpr h.2.1

theorem Orderly.arNext_lt (h : Orderly x i) : (x.state.arNext i).toNat < m.N :=
  next_lt_iff.mpr h.2.2.1

/-! ## The invariant -/

/-- The transfers on the two sides are the same. -/
structure Matched (x : Session m) : Prop where
  aw : x.requesters.aw.map Prod.snd = x.master.aw.map Prod.snd
  w : x.requesters.w.map Prod.snd = x.master.w.map Prod.snd
  b : x.requesters.b.map Prod.snd = x.master.b.map Prod.snd
  ar : x.requesters.ar.map Prod.snd = x.master.ar.map Prod.snd
  r : x.requesters.r.map Prod.snd = x.master.r.map Prod.snd

/-- The registers of a side name a requester, that of the open request. -/
structure Selected (side : Side m) (current : Option (Nat × Axi4Request m.W)) : Prop where
  active : side.active = current.isSome
  sel : ∀ r ∈ current, side.sel.toNat = r.1
  sel_lt : side.sel.toNat < m.N

structure WriteSide (x : Session m) (current : Option (Nat × Axi4Request m.W)) : Prop where
  selected : Selected x.state.aw current
  written : Writing (writeData PlainBeat.last) writeResponses x.requesters.aw x.requesters.w
    x.requesters.b current

structure ReadSide (x : Session m) (current : Option (Nat × Axi4Request m.W)) : Prop where
  selected : Selected x.state.ar current
  read : Serial readData x.requesters.ar x.requesters.r current

/-- The last clock was an orderly one. -/
def Remembers (x : Session m) : Prop :=
  ∀ p ∈ x.before, x.state = p.1.work false p.2 ∧ (p.1.awNext p.2).toNat < m.N ∧
    (p.1.arNext p.2).toNat < m.N

/-! ## A clock -/

theorem clock_aw (h : (x.state.awNext i).toNat < m.N) : (x.clock i).requesters.aw =
    x.requesters.aw ++ ((x.state.atMaster i).aw.map ((x.state.awNext i).toNat, ·)).toList :=
  congrArg (x.requesters.aw ++ ·) (labelled_aw h)

theorem clock_w (h : x.state.aw.sel.toNat < m.N) : (x.clock i).requesters.w =
    x.requesters.w ++ ((x.state.atMaster i).w.map (x.state.aw.sel.toNat, ·)).toList :=
  congrArg (x.requesters.w ++ ·) (labelled_w h)

theorem clock_b (h : x.state.aw.sel.toNat < m.N) : (x.clock i).requesters.b =
    x.requesters.b ++ ((x.state.atMaster i).b.map (x.state.aw.sel.toNat, ·)).toList :=
  congrArg (x.requesters.b ++ ·) (labelled_b h)

theorem clock_ar (h : (x.state.arNext i).toNat < m.N) : (x.clock i).requesters.ar =
    x.requesters.ar ++ ((x.state.atMaster i).ar.map ((x.state.arNext i).toNat, ·)).toList :=
  congrArg (x.requesters.ar ++ ·) (labelled_ar h)

theorem clock_r (h : x.state.ar.sel.toNat < m.N) : (x.clock i).requesters.r =
    x.requesters.r ++ ((x.state.atMaster i).r.map (x.state.ar.sel.toNat, ·)).toList :=
  congrArg (x.requesters.r ++ ·) (labelled_r h)

theorem Matched.clock (h : Matched x) (hok : Orderly x i) (haw : x.state.aw.sel.toNat < m.N)
    (har : x.state.ar.sel.toNat < m.N) : Matched (x.clock i) := by
  refine ⟨?_, ?_, ?_, ?_, ?_⟩
  · exact (congrArg _ (clock_aw hok.awNext_lt)).trans (map_snd_labelled _ _ h.aw)
  · exact (congrArg _ (clock_w haw)).trans (map_snd_labelled _ _ h.w)
  · exact (congrArg _ (clock_b haw)).trans (map_snd_labelled _ _ h.b)
  · exact (congrArg _ (clock_ar hok.arNext_lt)).trans (map_snd_labelled _ _ h.ar)
  · exact (congrArg _ (clock_r har)).trans (map_snd_labelled _ _ h.r)

theorem Selected.clock {side : Side m} {current : Option (Nat × Axi4Request m.W)}
    (h : Selected side current) {next : BitVec m.selBits} (hlt : next.toNat < m.N)
    (q : Option (Axi4Request m.W)) (ends : Bool) (hq : current ≠ none → q = none)
    (hends : ends = true → current ≠ none) :
    Selected (side.clock q.isSome next ends false)
      ((q.map (next.toNat, ·)).or (if ends then none else current)) := by
  rw [Side.clock_eq]
  cases q with
  | some q =>
      obtain rfl : current = none := by
        by_contra hopen
        cases hq hopen
      have hnot : ends = false := by
        cases ends with
        | false => rfl
        | true => exact absurd rfl (hends rfl)
      rw [hnot]
      exact ⟨rfl, fun r hr => by cases hr; rfl, hlt⟩
  | none =>
      cases ends with
      | true => exact ⟨rfl, fun r hr => (by cases hr), h.sel_lt⟩
      | false => exact ⟨h.active, h.sel, h.sel_lt⟩

theorem Selected.active_of_open {side : Side m} {current : Option (Nat × Axi4Request m.W)}
    (h : Selected side current) (hopen : current ≠ none) : side.active = true := by
  rw [h.active, Option.isSome_iff_ne_none]
  exact hopen

/-- A response is to the open write, behind its data. -/
theorem WriteSide.of_response {current : Option (Nat × Axi4Request m.W)} (h : WriteSide x current)
    (hmatch : Matched x) (henv : Environment x i) {id : BitVec m.W.ID_WIDTH}
    (hid : (x.state.atMaster i).b = some id) :
    Serial (writeData PlainBeat.last) x.requesters.aw x.requesters.w none ∧
      ∃ r, current = some r ∧ x.state.aw.sel.toNat = r.1 ∧ writeResponses.fits r.2 id = true := by
  obtain ⟨hdue, hended⟩ := henv.2.1 id hid
  rw [onPort_unit, onPort_unit, ← hmatch.aw, ← hmatch.b] at hdue
  rw [onPort_unit, onPort_unit, ← hmatch.w, ← hmatch.b, ← ended_writeResponses] at hended
  obtain ⟨r, hr, hfits⟩ := h.written.responses.of_due_payload hdue
  exact ⟨h.written.done_of_lt hended, r, hr, h.selected.sel r hr, hfits⟩

theorem WriteSide.of_data {current : Option (Nat × Axi4Request m.W)} (h : WriteSide x current)
    (hok : Orderly x i) {beat : PlainBeat m.W} (hbeat : (x.state.atMaster i).w = some beat) :
    ¬ Serial (writeData PlainBeat.last) x.requesters.aw x.requesters.w none ∧
      ∃ r, current = some r ∧ x.state.aw.sel.toNat = r.1 := by
  cases hactive : x.state.aw.active with
  | false =>
      rw [w_idle hactive] at hbeat
      cases hbeat
  | true =>
      have hdue := hok.2.2.2 _ h.selected.sel_lt beat ((slave_w hactive).trans hbeat)
      refine ⟨fun hdone => ?_, ?_⟩
      · obtain ⟨r, hr, _⟩ := hdone.of_due hdue
        cases hr
      · rw [h.selected.active] at hactive
        obtain ⟨r, hr⟩ := Option.isSome_iff_exists.mp hactive
        exact ⟨r, hr, h.selected.sel r hr⟩

theorem WriteSide.clock {current : Option (Nat × Axi4Request m.W)} (h : WriteSide x current)
    (hmatch : Matched x) (hok : Allowed x i) : ∃ next, WriteSide (x.clock i) next := by
  have hrequest : current ≠ none → (x.state.atMaster i).aw = none := by
    intro hopen
    cases hq : (x.state.atMaster i).aw with
    | none => rfl
    | some q =>
        have hidle := (aw_isSome (s := x.state) (i := i) (by rw [hq]; rfl)).1
        rw [h.selected.active_of_open hopen] at hidle
        cases hidle
  have hends : (x.state.atMaster i).b.isSome = true → current ≠ none := by
    intro hsome
    obtain ⟨id, hid⟩ := Option.isSome_iff_exists.mp hsome
    obtain ⟨_, r, hr, _⟩ := h.of_response hmatch hok.1 hid
    rw [hr]
    exact Option.some_ne_none r
  have hselected := h.selected.clock hok.2.awNext_lt _ _ hrequest hends
  rw [← work_aw] at hselected
  refine ⟨_, hselected, ?_⟩
  rw [clock_aw hok.2.awNext_lt, clock_w h.selected.sel_lt, clock_b h.selected.sel_lt,
    ← Option.isSome_map (f := (x.state.aw.sel.toNat, ·))]
  refine h.written.clock (fun _ => rfl) (fun hopen => ?_) (fun y hy => ?_) (fun y hy => ?_)
  · rw [hrequest hopen]
    rfl
  · obtain ⟨beat, hbeat, rfl⟩ := Option.map_eq_some_iff.mp hy
    obtain ⟨hnot, r, hr, hsel⟩ := h.of_data hok.2 hbeat
    exact ⟨hnot, r, hr, hsel, rfl⟩
  · obtain ⟨id, hid, rfl⟩ := Option.map_eq_some_iff.mp hy
    exact h.of_response hmatch hok.1 hid

theorem ReadSide.of_beat {current : Option (Nat × Axi4Request m.W)} (h : ReadSide x current)
    (hmatch : Matched x) (henv : Environment x i) {beat : Axi4ReadBeat m.W}
    (hbeat : (x.state.atMaster i).r = some beat) :
    ∃ r, current = some r ∧ x.state.ar.sel.toNat = r.1 ∧ readData.fits r.2 beat = true := by
  have hdue := henv.2.2 beat hbeat
  unfold Axi4Log.OwesRead at hdue
  rw [onPort_unit, onPort_unit, ← hmatch.ar, ← hmatch.r] at hdue
  obtain ⟨r, hr, hfits⟩ := h.read.of_due_payload hdue
  exact ⟨r, hr, h.selected.sel r hr, hfits⟩

theorem ReadSide.clock {current : Option (Nat × Axi4Request m.W)} (h : ReadSide x current)
    (hmatch : Matched x) (hok : Allowed x i) : ∃ next, ReadSide (x.clock i) next := by
  have hrequest : current ≠ none → (x.state.atMaster i).ar = none := by
    intro hopen
    cases hq : (x.state.atMaster i).ar with
    | none => rfl
    | some q =>
        have hidle := (ar_isSome (s := x.state) (i := i) (by rw [hq]; rfl)).1
        rw [h.selected.active_of_open hopen] at hidle
        cases hidle
  have hends : (x.state.atMaster i).r.any Axi4ReadBeat.last = true → current ≠ none := by
    intro hany
    cases hbeat : (x.state.atMaster i).r with
    | none =>
        rw [hbeat] at hany
        cases hany
    | some beat =>
        obtain ⟨r, hr, _⟩ := h.of_beat hmatch hok.1 hbeat
        rw [hr]
        exact Option.some_ne_none r
  have hselected := h.selected.clock hok.2.arNext_lt _ _ hrequest hends
  rw [← work_ar] at hselected
  have hlast : ((x.state.atMaster i).r.map (x.state.ar.sel.toNat, ·)).any
      (fun y => readData.last y.2) = (x.state.atMaster i).r.any Axi4ReadBeat.last := by
    cases (x.state.atMaster i).r <;> rfl
  refine ⟨_, hselected, ?_⟩
  rw [clock_ar hok.2.arNext_lt, clock_r h.selected.sel_lt, ← hlast]
  refine h.read.clock (fun hopen => ?_) (fun y hy => ?_)
  · rw [hrequest hopen]
    rfl
  · obtain ⟨beat, hbeat, rfl⟩ := Option.map_eq_some_iff.mp hy
    exact h.of_beat hmatch hok.1 hbeat

theorem remembers_clock (hok : Orderly x i) : Remembers (x.clock i) := by
  intro p hp
  cases hp
  exact ⟨rfl, hok.awNext_lt, hok.arNext_lt⟩

/-! ## What waits stays -/

/-- What was offered to the responder in the last clock and not accepted is offered again. -/
def Keeps (x : Session m) (i : Inputs m) : Prop :=
  ∀ p ∈ x.before,
    Holds (p.1.masterOut p.2).awvalid p.2.master.awready (p.1.masterOut p.2).aw
      (x.state.masterOut i).awvalid (x.state.masterOut i).aw ∧
    Holds (p.1.masterOut p.2).arvalid p.2.master.arready (p.1.masterOut p.2).ar
      (x.state.masterOut i).arvalid (x.state.masterOut i).ar

theorem Remembers.keeps (h : Remembers x) (hok : Allowed x i) : Keeps x i := by
  intro p hp
  obtain ⟨hstate, hawlt, harlt⟩ := h p hp
  refine ⟨?_, ?_⟩
  · exact @Side.keeps m p.1.aw x.state.aw (p.1.atMaster p.2).b.isSome p.2.master.awready
      (fun k => (p.2.slaves k).awvalid) (fun k => (i.slaves k).awvalid) (fun k => (p.2.slaves k).aw)
      (fun k => (i.slaves k).aw) _ rfl hawlt (by rw [hstate, work_aw]; rfl)
      (hok.1.1 p hp _ hawlt).1 (hok.2.1 p hp).1
  · exact @Side.keeps m p.1.ar x.state.ar ((p.1.atMaster p.2).r.any Axi4ReadBeat.last)
      p.2.master.arready (fun k => (p.2.slaves k).arvalid) (fun k => (i.slaves k).arvalid)
      (fun k => (p.2.slaves k).ar) (fun k => (i.slaves k).ar) _ rfl harlt
      (by rw [hstate, work_ar]; rfl) (hok.1.1 p hp _ harlt).2 (hok.2.1 p hp).2

end

/-! ## Runs -/

structure Inv (x : Session m) : Prop where
  matched : Matched x
  write : ∃ current, WriteSide x current
  read : ∃ current, ReadSide x current
  remembers : Remembers x

theorem Inv.start {s : State m} (haw : s.aw.active = false) (har : s.ar.active = false)
    (hawsel : s.aw.sel.toNat < m.N) (harsel : s.ar.sel.toNat < m.N) : Inv (start s) where
  matched := ⟨rfl, rfl, rfl, rfl, rfl⟩
  write := ⟨none, ⟨haw, fun r hr => (by cases hr), hawsel⟩, Writing.start⟩
  read := ⟨none, ⟨har, fun r hr => (by cases hr), harsel⟩, Serial.start _⟩
  remembers := fun p hp => by cases hp

theorem Inv.run {x : Session m} (h : Inv x) {ins : List (Inputs m)}
    (hok : Transitions.Along Allowed Session.clock x ins) : Inv (ins.foldl Session.clock x) := by
  induction ins generalizing x with
  | nil => exact h
  | cons i ins ih =>
      obtain ⟨current, hwrite⟩ := h.write
      obtain ⟨current', hread⟩ := h.read
      exact ih
        { matched := h.matched.clock hok.1.2 hwrite.selected.sel_lt hread.selected.sel_lt
          write := hwrite.clock h.matched hok.1
          read := hread.clock h.matched hok.1
          remembers := remembers_clock hok.1.2 } hok.2

/-- The rules of the bus, in a state of a run. -/
structure Arbitrates (x : Session m) : Prop where
  /-- What is offered stays until it is accepted. -/
  keeps : ∀ i, Allowed x i → Keeps x i
  /-- What is exchanged with the responder is exchanged with one requester. -/
  aw : x.requesters.aw.map Prod.snd = x.master.aw.map Prod.snd
  w : x.requesters.w.map Prod.snd = x.master.w.map Prod.snd
  b : x.requesters.b.map Prod.snd = x.master.b.map Prod.snd
  ar : x.requesters.ar.map Prod.snd = x.master.ar.map Prod.snd
  r : x.requesters.r.map Prod.snd = x.master.r.map Prod.snd
  /-- Each is of the oldest request, with the requester and the ID of that. -/
  data : (writeData PlainBeat.last).ported.InOrder x.requesters.aw x.requesters.w
  responses : writeResponses.ported.InOrder x.requesters.aw x.requesters.b
  reads : readData.ported.InOrder x.requesters.ar x.requesters.r
  /-- While a requester waits, at most `N - 1` others are granted. -/
  awWaits : ∀ k < m.N, ∀ ins,
    Transitions.Along (fun x i => Allowed x i ∧ (i.slaves k).awvalid = true) Session.clock x ins →
    onPort k (ins.foldl Session.clock x).requesters.aw = onPort k x.requesters.aw →
    (ins.foldl Session.clock x).requesters.aw.length ≤ x.requesters.aw.length + (m.N - 1)
  arWaits : ∀ k < m.N, ∀ ins,
    Transitions.Along (fun x i => Allowed x i ∧ (i.slaves k).arvalid = true) Session.clock x ins →
    onPort k (ins.foldl Session.clock x).requesters.ar = onPort k x.requesters.ar →
    (ins.foldl Session.clock x).requesters.ar.length ≤ x.requesters.ar.length + (m.N - 1)
  /-- No selection is behind the last requester. -/
  nextInRange : ∀ i, Allowed x i → (x.state.awNext i).toNat < m.N ∧ (x.state.arNext i).toNat < m.N
  selInRange : x.state.aw.sel.toNat < m.N ∧ x.state.ar.sel.toNat < m.N

theorem awWaits {x : Session m} {k : Nat} (hk : k < m.N) {ins : List (Inputs m)}
    (h : Transitions.Along (fun x i => Allowed x i ∧ (i.slaves k).awvalid = true) Session.clock x ins)
    (hwaits : onPort k (ins.foldl Session.clock x).requesters.aw = onPort k x.requesters.aw) :
    (ins.foldl Session.clock x).requesters.aw.length ≤ x.requesters.aw.length + (m.N - 1) := by
  have hgrants := @grants_while_waiting m.N k _ _ _ _ _ (fun x => x.state.aw.rr.toNat)
    (fun x => x.requesters.aw) (fun x i hok => ?_) x ins h hwaits
  · have := distance_lt (Nat.lt_of_le_of_lt (Nat.zero_le k) hk) x.state.aw.rr.toNat k
    omega
  · refine ⟨_, clock_aw hok.1.2.awNext_lt, fun hother => ?_⟩
    have hgrant := x.state.aw.grant hk hok.2 (fun h => (aw_isSome h).2) (x.state.atMaster i).b.isSome
      hother
    rwa [show (x.clock i).state.aw = _ from work_aw x.state i]

theorem arWaits {x : Session m} {k : Nat} (hk : k < m.N) {ins : List (Inputs m)}
    (h : Transitions.Along (fun x i => Allowed x i ∧ (i.slaves k).arvalid = true) Session.clock x ins)
    (hwaits : onPort k (ins.foldl Session.clock x).requesters.ar = onPort k x.requesters.ar) :
    (ins.foldl Session.clock x).requesters.ar.length ≤ x.requesters.ar.length + (m.N - 1) := by
  have hgrants := @grants_while_waiting m.N k _ _ _ _ _ (fun x => x.state.ar.rr.toNat)
    (fun x => x.requesters.ar) (fun x i hok => ?_) x ins h hwaits
  · have := distance_lt (Nat.lt_of_le_of_lt (Nat.zero_le k) hk) x.state.ar.rr.toNat k
    omega
  · refine ⟨_, clock_ar hok.1.2.arNext_lt, fun hother => ?_⟩
    have hgrant := x.state.ar.grant hk hok.2 (fun h => (ar_isSome h).2)
      ((x.state.atMaster i).r.any Axi4ReadBeat.last) hother
    rwa [show (x.clock i).state.ar = _ from work_ar x.state i]

theorem Inv.rules {x : Session m} (h : Inv x) : Arbitrates x := by
  obtain ⟨current, hwrite⟩ := h.write
  obtain ⟨current', hread⟩ := h.read
  exact
    { keeps := fun _ => h.remembers.keeps
      aw := h.matched.aw
      w := h.matched.w
      b := h.matched.b
      ar := h.matched.ar
      r := h.matched.r
      data := hwrite.written.data.elim Serial.inOrder Serial.inOrder
      responses := hwrite.written.responses.inOrder
      reads := hread.read.inOrder
      awWaits := fun _ hk _ => awWaits hk
      arWaits := fun _ hk _ => arWaits hk
      nextInRange := fun _ hok => ⟨hok.2.awNext_lt, hok.2.arNext_lt⟩
      selInRange := ⟨hwrite.selected.sel_lt, hread.selected.sel_lt⟩ }

end Session

/-- In every run from a reset with selections of requesters, where every clock is orderly,
the arbitration keeps the rules of the bus. -/
theorem arbitrates (m : MuxToMaster) (s : State m) (i : Inputs m) (ins : List (Inputs m))
    (haw : (s.work true i).aw.sel.toNat < m.N) (har : (s.work true i).ar.sel.toNat < m.N)
    (h : Transitions.Along Session.Allowed Session.clock (Session.start (s.work true i)) ins) :
    Session.Arbitrates (ins.foldl Session.clock (Session.start (s.work true i))) :=
  ((Session.Inv.start rfl rfl haw har).run h).rules

/-! ## Three requesters -/

def threeRequesters : MuxToMaster where
  W := ⟨8, 2, 8, byte_addr_le⟩
  N := 3
  two_le := by decide
  N_lt := by decide

/-- Requester `k` has address and ID `k`; some offer an address, one data, and the responder
may respond. Nothing is behind the requesters. -/
def threeOffer (aw : List Nat) (awready : Bool) (w : Option Nat) (b : Option (BitVec 2)) :
    Inputs threeRequesters where
  slaves k :=
    { awvalid := decide (k ∈ aw)
      aw := ⟨BitVec.ofNat 8 k, BitVec.ofNat 2 k⟩
      wvalid := decide (w = some k)
      w := ⟨7, true⟩
      bready := true
      arvalid := decide (k ∈ aw)
      ar := ⟨BitVec.ofNat 8 k, BitVec.ofNat 2 k⟩
      rready := true }
  master :=
    { awready := awready
      wready := true
      bvalid := b.isSome
      bid := b.getD 0
      arready := awready
      rvalid := b.isSome
      r := ⟨9, true, b.getD 0⟩ }

def fromReset : Session threeRequesters := Session.start ⟨⟨0, 0, false⟩, ⟨0, 0, false⟩⟩

/-- Two writes and two reads, the first with back-pressure. -/
def twoInTurn : List (Inputs threeRequesters) :=
  [threeOffer [0] false none none, threeOffer [0, 1] true none none, threeOffer [1] true (some 0) none,
    threeOffer [1] true none (some 0), threeOffer [1] true none none, threeOffer [] true (some 1) none,
    threeOffer [] true none (some 1)]

theorem arbitrates_twoInTurn : Session.Arbitrates (twoInTurn.foldl Session.clock
    (Session.start ((⟨⟨3, 1, true⟩, ⟨3, 2, true⟩⟩ : State threeRequesters).work true
      (threeOffer [] false none none)))) :=
  arbitrates threeRequesters _ _ _ (by decide +kernel) (by decide +kernel) (by decide +kernel)

/-- An address of requester 1 waits, and that of requester 0 takes its place; after a grant to
requester 2, requester 3 of three is chosen. -/
theorem overtaken_and_behind :
    (Transitions.Along Session.Environment Session.clock fromReset
        [threeOffer [1] false none none, threeOffer [0, 1] false none none] ∧
      ¬ Session.Keeps (fromReset.clock (threeOffer [1] false none none))
        (threeOffer [0, 1] false none none)) ∧
    Transitions.Along Session.Environment Session.clock fromReset
        [threeOffer [2] true none none, threeOffer [] true none none] ∧
      ((fromReset.clock (threeOffer [2] true none none)).state.awNext
        (threeOffer [] true none none)).toNat = 3 := by
  have hkeeps : ¬ Session.Keeps (fromReset.clock (threeOffer [1] false none none))
      (threeOffer [0, 1] false none none) := by
    intro h
    have hsame := ((h _ rfl).1 (by decide +kernel) rfl).2
    revert hsame
    decide +kernel
  exact ⟨⟨by decide +kernel, hkeeps⟩, by decide +kernel, by decide +kernel⟩

end MuxToMaster

end CppHdl.Bus
