import CppHdl.Lib.Mailbox
import Mathlib.Data.BitVec

/-!
# AXI4 between two clocks

`Axi4SlowToFastCdc` and `Axi4FastToSlowCdc` carry each of the five channels in a
mailbox. Of the registers of a channel, `payload`, `request`, `ack1` and `ack2` are
those of the producing side, `request1`, `request2` and `ack` those of the
consuming side.
-/

namespace CppHdl.Cdc

structure Axi4Address (ADDR_WIDTH ID_WIDTH : Nat) where
  addr : BitVec ADDR_WIDTH
  id : BitVec ID_WIDTH
  deriving DecidableEq, Inhabited

structure Axi4WriteData (DATA_WIDTH : Nat) where
  data : BitVec DATA_WIDTH
  strb : BitVec (DATA_WIDTH / 8)
  last : Bool
  deriving DecidableEq, Inhabited

structure Axi4ReadData (ID_WIDTH DATA_WIDTH : Nat) where
  data : BitVec DATA_WIDTH
  last : Bool
  id : BitVec ID_WIDTH
  deriving DecidableEq, Inhabited

structure Axi4Driver (ADDR_WIDTH ID_WIDTH DATA_WIDTH : Nat) where
  awvalid : Bool
  aw : Axi4Address ADDR_WIDTH ID_WIDTH
  wvalid : Bool
  w : Axi4WriteData DATA_WIDTH
  bready : Bool
  arvalid : Bool
  ar : Axi4Address ADDR_WIDTH ID_WIDTH
  rready : Bool

/-- What a slave drives. -/
structure Axi4Responder (ID_WIDTH DATA_WIDTH : Nat) where
  awready : Bool
  wready : Bool
  bvalid : Bool
  b : BitVec ID_WIDTH
  arready : Bool
  rvalid : Bool
  r : Axi4ReadData ID_WIDTH DATA_WIDTH

/-! ## Five channels -/

structure Axi4Channels (ADDR_WIDTH ID_WIDTH DATA_WIDTH : Nat) where
  aw : Mailbox (Axi4Address ADDR_WIDTH ID_WIDTH)
  w : Mailbox (Axi4WriteData DATA_WIDTH)
  b : Mailbox (BitVec ID_WIDTH)
  ar : Mailbox (Axi4Address ADDR_WIDTH ID_WIDTH)
  r : Mailbox (Axi4ReadData ID_WIDTH DATA_WIDTH)

structure ChannelEdges (α : Type) where
  producer : Option (Bool × α)
  consumer : Option Bool

/-- The edges of a step, channel by channel. -/
structure Axi4Edges (ADDR_WIDTH ID_WIDTH DATA_WIDTH : Nat) where
  aw : ChannelEdges (Axi4Address ADDR_WIDTH ID_WIDTH)
  w : ChannelEdges (Axi4WriteData DATA_WIDTH)
  b : ChannelEdges (BitVec ID_WIDTH)
  ar : ChannelEdges (Axi4Address ADDR_WIDTH ID_WIDTH)
  r : ChannelEdges (Axi4ReadData ID_WIDTH DATA_WIDTH)

/-- What a step moves, channel by channel. -/
structure Axi4Transfers (ADDR_WIDTH ID_WIDTH DATA_WIDTH : Nat) where
  aw : Transfer (Axi4Address ADDR_WIDTH ID_WIDTH)
  w : Transfer (Axi4WriteData DATA_WIDTH)
  b : Transfer (BitVec ID_WIDTH)
  ar : Transfer (Axi4Address ADDR_WIDTH ID_WIDTH)
  r : Transfer (Axi4ReadData ID_WIDTH DATA_WIDTH)

variable {ADDR_WIDTH ID_WIDTH DATA_WIDTH : Nat}

namespace Axi4Channels

def step (c : Axi4Channels ADDR_WIDTH ID_WIDTH DATA_WIDTH)
    (e : Axi4Edges ADDR_WIDTH ID_WIDTH DATA_WIDTH) : Axi4Channels ADDR_WIDTH ID_WIDTH DATA_WIDTH where
  aw := c.aw.step e.aw.producer e.aw.consumer
  w := c.w.step e.w.producer e.w.consumer
  b := c.b.step e.b.producer e.b.consumer
  ar := c.ar.step e.ar.producer e.ar.consumer
  r := c.r.step e.r.producer e.r.consumer

def transfers (c : Axi4Channels ADDR_WIDTH ID_WIDTH DATA_WIDTH)
    (e : Axi4Edges ADDR_WIDTH ID_WIDTH DATA_WIDTH) : Axi4Transfers ADDR_WIDTH ID_WIDTH DATA_WIDTH where
  aw := c.aw.transfer e.aw.producer e.aw.consumer
  w := c.w.transfer e.w.producer e.w.consumer
  b := c.b.transfer e.b.producer e.b.consumer
  ar := c.ar.transfer e.ar.producer e.ar.consumer
  r := c.r.transfer e.r.producer e.r.consumer

structure Cleared (c : Axi4Channels ADDR_WIDTH ID_WIDTH DATA_WIDTH) : Prop where
  aw : c.aw.Cleared
  w : c.w.Cleared
  b : c.b.Cleared
  ar : c.ar.Cleared
  r : c.r.Cleared

structure Orderly (c : Axi4Channels ADDR_WIDTH ID_WIDTH DATA_WIDTH) : Prop where
  aw : c.aw.Orderly
  w : c.w.Orderly
  b : c.b.Orderly
  ar : c.ar.Orderly
  r : c.r.Orderly

structure Fair (c : Axi4Channels ADDR_WIDTH ID_WIDTH DATA_WIDTH)
    (e : Axi4Edges ADDR_WIDTH ID_WIDTH DATA_WIDTH) : Prop where
  aw : c.aw.Fair e.aw.producer e.aw.consumer
  w : c.w.Fair e.w.producer e.w.consumer
  b : c.b.Fair e.b.producer e.b.consumer
  ar : c.ar.Fair e.ar.producer e.ar.consumer
  r : c.r.Fair e.r.producer e.r.consumer

structure Delivered (es : List (Axi4Transfers ADDR_WIDTH ID_WIDTH DATA_WIDTH))
    (c : Axi4Channels ADDR_WIDTH ID_WIDTH DATA_WIDTH) : Prop where
  aw : Mailbox.Delivered (es.map fun e => e.aw) c.aw
  w : Mailbox.Delivered (es.map fun e => e.w) c.w
  b : Mailbox.Delivered (es.map fun e => e.b) c.b
  ar : Mailbox.Delivered (es.map fun e => e.ar) c.ar
  r : Mailbox.Delivered (es.map fun e => e.r) c.r

/-- On every channel what is offered stays until it is taken. -/
structure Steady (c : Axi4Channels ADDR_WIDTH ID_WIDTH DATA_WIDTH)
    (t : Axi4Transfers ADDR_WIDTH ID_WIDTH DATA_WIDTH)
    (c' : Axi4Channels ADDR_WIDTH ID_WIDTH DATA_WIDTH) : Prop where
  aw : c.aw.Steady t.aw c'.aw
  w : c.w.Steady t.w c'.w
  b : c.b.Steady t.b c'.b
  ar : c.ar.Steady t.ar c'.ar
  r : c.r.Steady t.r c'.r

variable {c : Axi4Channels ADDR_WIDTH ID_WIDTH DATA_WIDTH}
  {e : Axi4Edges ADDR_WIDTH ID_WIDTH DATA_WIDTH}

theorem Cleared.orderly (h : c.Cleared) : c.Orderly :=
  ⟨h.aw.orderly.1, h.w.orderly.1, h.b.orderly.1, h.ar.orderly.1, h.r.orderly.1⟩

theorem Orderly.step (h : c.Orderly) (hfair : c.Fair e) : (c.step e).Orderly :=
  ⟨h.aw.step hfair.aw, h.w.step hfair.w, h.b.step hfair.b, h.ar.step hfair.ar, h.r.step hfair.r⟩

theorem Orderly.steady (h : c.Orderly) (hfair : c.Fair e) : c.Steady (c.transfers e) (c.step e) :=
  ⟨h.aw.steady hfair.aw, h.w.steady hfair.w, h.b.steady hfair.b, h.ar.steady hfair.ar,
    h.r.steady hfair.r⟩

/-- A system whose steps are fair steps of the channels. -/
structure Bridges {σ : Type} (T : Transitions σ (Axi4Transfers ADDR_WIDTH ID_WIDTH DATA_WIDTH))
    (channels : σ → Axi4Channels ADDR_WIDTH ID_WIDTH DATA_WIDTH) : Prop where
  init : ∀ s, T.init s → (channels s).Cleared
  step : ∀ s t s', T.step s t s' → ∃ e, (channels s).Fair e ∧
    t = some ((channels s).transfers e) ∧ channels s' = (channels s).step e

theorem Bridges.channel {σ α : Type}
    {T : Transitions σ (Axi4Transfers ADDR_WIDTH ID_WIDTH DATA_WIDTH)}
    {channels : σ → Axi4Channels ADDR_WIDTH ID_WIDTH DATA_WIDTH} (h : Bridges T channels)
    (mailbox : Axi4Channels ADDR_WIDTH ID_WIDTH DATA_WIDTH → Mailbox α)
    (transfer : Axi4Transfers ADDR_WIDTH ID_WIDTH DATA_WIDTH → Transfer α)
    (hcleared : ∀ c, c.Cleared → (mailbox c).held = [])
    (hmoves : ∀ c e, c.Orderly → c.Fair e →
      (transfer (c.transfers e)).Moves (mailbox c).held (mailbox (c.step e)).held)
    {ts : List (Axi4Transfers ADDR_WIDTH ID_WIDTH DATA_WIDTH)} {s : σ} (hrun : T.Traces ts s) :
    (channels s).Orderly ∧ Mailbox.Delivered (ts.map transfer) (mailbox (channels s)) := by
  have hlog := @Transitions.log_eq _ _ _ T (fun s => (channels s).Orderly)
    (fun s => (mailbox (channels s)).held) transfer
    (fun s hs => ⟨(h.init s hs).orderly, hcleared _ (h.init s hs)⟩) ?_ ts s hrun
  · exact ⟨hlog.1, hlog.2, Mailbox.held_length⟩
  · intro s t s' horderly hstep
    obtain ⟨e, hfair, rfl, hs'⟩ := h.step s t s' hstep
    rw [hs']
    exact ⟨horderly.step hfair, _, rfl, hmoves _ e horderly hfair⟩

theorem Bridges.delivered {σ : Type}
    {T : Transitions σ (Axi4Transfers ADDR_WIDTH ID_WIDTH DATA_WIDTH)}
    {channels : σ → Axi4Channels ADDR_WIDTH ID_WIDTH DATA_WIDTH} (h : Bridges T channels)
    {ts : List (Axi4Transfers ADDR_WIDTH ID_WIDTH DATA_WIDTH)} {s : σ} (hrun : T.Traces ts s) :
    (channels s).Orderly ∧ Delivered ts (channels s) := by
  have haw := h.channel (fun c => c.aw) (fun t => t.aw) (fun c hc => hc.aw.orderly.2)
    (fun c e hc hf => hc.aw.moves hf.aw) hrun
  have hw := h.channel (fun c => c.w) (fun t => t.w) (fun c hc => hc.w.orderly.2)
    (fun c e hc hf => hc.w.moves hf.w) hrun
  have hb := h.channel (fun c => c.b) (fun t => t.b) (fun c hc => hc.b.orderly.2)
    (fun c e hc hf => hc.b.moves hf.b) hrun
  have har := h.channel (fun c => c.ar) (fun t => t.ar) (fun c hc => hc.ar.orderly.2)
    (fun c e hc hf => hc.ar.moves hf.ar) hrun
  have hr := h.channel (fun c => c.r) (fun t => t.r) (fun c hc => hc.r.orderly.2)
    (fun c e hc hf => hc.r.moves hf.r) hrun
  exact ⟨haw.1, haw.2, hw.2, hb.2, har.2, hr.2⟩

end Axi4Channels

/-! ## From a slow master to a fast slave -/

structure Axi4SlowToFastCdc (ADDR_WIDTH ID_WIDTH DATA_WIDTH : Nat) where
  channels : Axi4Channels ADDR_WIDTH ID_WIDTH DATA_WIDTH

namespace Axi4SlowToFastCdc

variable (s : Axi4SlowToFastCdc ADDR_WIDTH ID_WIDTH DATA_WIDTH)

/-- `work_clk_func` on the registers `n`, with the slave at `fast_out`. -/
def workClk (reset : Bool) (fastOut : Axi4Responder ID_WIDTH DATA_WIDTH)
    (n : Axi4SlowToFastCdc ADDR_WIDTH ID_WIDTH DATA_WIDTH) :
    Axi4SlowToFastCdc ADDR_WIDTH ID_WIDTH DATA_WIDTH :=
  let c := s.channels
  if reset then
    ⟨{ aw := n.channels.aw.clearConsumer
       w := n.channels.w.clearConsumer
       b := n.channels.b.clearProducer
       ar := n.channels.ar.clearConsumer
       r := n.channels.r.clearProducer }⟩
  else
    ⟨{ aw := c.aw.consume (c.aw.valid && fastOut.awready) n.channels.aw
       w := c.w.consume (c.w.valid && fastOut.wready) n.channels.w
       b := c.b.produce (fastOut.bvalid && c.b.ready) fastOut.b n.channels.b
       ar := c.ar.consume (c.ar.valid && fastOut.arready) n.channels.ar
       r := c.r.produce (fastOut.rvalid && c.r.ready) fastOut.r n.channels.r }⟩

/-- `_work_l2_clock` on the registers `n`, with the master at `slow_in`. -/
def workL2Clock (reset : Bool) (slowIn : Axi4Driver ADDR_WIDTH ID_WIDTH DATA_WIDTH)
    (n : Axi4SlowToFastCdc ADDR_WIDTH ID_WIDTH DATA_WIDTH) :
    Axi4SlowToFastCdc ADDR_WIDTH ID_WIDTH DATA_WIDTH :=
  let c := s.channels
  if reset then
    ⟨{ aw := n.channels.aw.clearProducer
       w := n.channels.w.clearProducer
       b := n.channels.b.clearConsumer
       ar := n.channels.ar.clearProducer
       r := n.channels.r.clearConsumer }⟩
  else
    ⟨{ aw := c.aw.produce (slowIn.awvalid && c.aw.ready) slowIn.aw n.channels.aw
       w := c.w.produce (slowIn.wvalid && c.w.ready) slowIn.w n.channels.w
       b := c.b.consume (c.b.valid && slowIn.bready) n.channels.b
       ar := c.ar.produce (slowIn.arvalid && c.ar.ready) slowIn.ar n.channels.ar
       r := c.r.consume (c.r.valid && slowIn.rready) n.channels.r }⟩

def clock (slow : Option (Axi4Driver ADDR_WIDTH ID_WIDTH DATA_WIDTH))
    (fast : Option (Axi4Responder ID_WIDTH DATA_WIDTH)) :
    Axi4SlowToFastCdc ADDR_WIDTH ID_WIDTH DATA_WIDTH :=
  let n := match slow with
    | some i => s.workL2Clock false i s
    | none => s
  match fast with
  | some i => s.workClk false i n
  | none => n

def edges (slow : Option (Axi4Driver ADDR_WIDTH ID_WIDTH DATA_WIDTH))
    (fast : Option (Axi4Responder ID_WIDTH DATA_WIDTH)) : Axi4Edges ADDR_WIDTH ID_WIDTH DATA_WIDTH where
  aw := ⟨slow.map fun i => (i.awvalid && s.channels.aw.ready, i.aw),
    fast.map fun i => s.channels.aw.valid && i.awready⟩
  w := ⟨slow.map fun i => (i.wvalid && s.channels.w.ready, i.w),
    fast.map fun i => s.channels.w.valid && i.wready⟩
  b := ⟨fast.map fun i => (i.bvalid && s.channels.b.ready, i.b),
    slow.map fun i => s.channels.b.valid && i.bready⟩
  ar := ⟨slow.map fun i => (i.arvalid && s.channels.ar.ready, i.ar),
    fast.map fun i => s.channels.ar.valid && i.arready⟩
  r := ⟨fast.map fun i => (i.rvalid && s.channels.r.ready, i.r),
    slow.map fun i => s.channels.r.valid && i.rready⟩

/-- Edge by edge from the resets on; the events are the transfers. -/
def system (ADDR_WIDTH ID_WIDTH DATA_WIDTH : Nat) :
    Transitions (Axi4SlowToFastCdc ADDR_WIDTH ID_WIDTH DATA_WIDTH)
      (Axi4Transfers ADDR_WIDTH ID_WIDTH DATA_WIDTH) where
  init s := s.channels.Cleared
  step s e s' := ∃ slow fast, e = some (s.channels.transfers (s.edges slow fast)) ∧
    s' = s.clock slow fast

theorem clock_channels (slow : Option (Axi4Driver ADDR_WIDTH ID_WIDTH DATA_WIDTH))
    (fast : Option (Axi4Responder ID_WIDTH DATA_WIDTH)) :
    (s.clock slow fast).channels = s.channels.step (s.edges slow fast) := by
  cases slow with
  | none => cases fast <;> rfl
  | some i => cases fast <;> rfl

theorem edges_fair (slow : Option (Axi4Driver ADDR_WIDTH ID_WIDTH DATA_WIDTH))
    (fast : Option (Axi4Responder ID_WIDTH DATA_WIDTH)) : s.channels.Fair (s.edges slow fast) :=
  ⟨.of_map (fun _ h => (Bool.and_eq_true_iff.mp h).2) (fun _ h => (Bool.and_eq_true_iff.mp h).1),
    .of_map (fun _ h => (Bool.and_eq_true_iff.mp h).2) (fun _ h => (Bool.and_eq_true_iff.mp h).1),
    .of_map (fun _ h => (Bool.and_eq_true_iff.mp h).2) (fun _ h => (Bool.and_eq_true_iff.mp h).1),
    .of_map (fun _ h => (Bool.and_eq_true_iff.mp h).2) (fun _ h => (Bool.and_eq_true_iff.mp h).1),
    .of_map (fun _ h => (Bool.and_eq_true_iff.mp h).2) (fun _ h => (Bool.and_eq_true_iff.mp h).1)⟩

theorem bridges : Axi4Channels.Bridges (system ADDR_WIDTH ID_WIDTH DATA_WIDTH) (fun s => s.channels) where
  init _ h := h
  step := by
    rintro s t s' ⟨slow, fast, rfl, rfl⟩
    exact ⟨_, s.edges_fair slow fast, rfl, s.clock_channels slow fast⟩

end Axi4SlowToFastCdc

/-! ## From a fast master to a slow slave -/

/-- One address is outstanding for writes and one for reads, and an address that
stays on the port after it was taken is not taken again. -/
structure Axi4FastToSlowCdc (ADDR_WIDTH ID_WIDTH DATA_WIDTH : Nat) where
  channels : Axi4Channels ADDR_WIDTH ID_WIDTH DATA_WIDTH
  writeOutstanding : Bool
  readOutstanding : Bool
  awSeen : Bool
  arSeen : Bool

namespace Axi4FastToSlowCdc

variable (s : Axi4FastToSlowCdc ADDR_WIDTH ID_WIDTH DATA_WIDTH)

def awreadyOut (fastIn : Axi4Driver ADDR_WIDTH ID_WIDTH DATA_WIDTH) : Bool :=
  !s.writeOutstanding && s.channels.aw.ready &&
    (!s.awSeen || !fastIn.awvalid || fastIn.aw.addr != s.channels.aw.payload.addr ||
      fastIn.aw.id != s.channels.aw.payload.id)

def arreadyOut (fastIn : Axi4Driver ADDR_WIDTH ID_WIDTH DATA_WIDTH) : Bool :=
  !s.readOutstanding && s.channels.ar.ready &&
    (!s.arSeen || !fastIn.arvalid || fastIn.ar.addr != s.channels.ar.payload.addr ||
      fastIn.ar.id != s.channels.ar.payload.id)

/-- `work_clk_func` on the registers `n`, with the master at `fast_in`. -/
def workClk (reset : Bool) (fastIn : Axi4Driver ADDR_WIDTH ID_WIDTH DATA_WIDTH)
    (n : Axi4FastToSlowCdc ADDR_WIDTH ID_WIDTH DATA_WIDTH) :
    Axi4FastToSlowCdc ADDR_WIDTH ID_WIDTH DATA_WIDTH :=
  let c := s.channels
  let awTaken := fastIn.awvalid && s.awreadyOut fastIn
  let arTaken := fastIn.arvalid && s.arreadyOut fastIn
  let bTaken := c.b.valid && fastIn.bready
  let rTaken := c.r.valid && fastIn.rready
  if reset then
    { channels :=
        { aw := n.channels.aw.clearProducer
          w := n.channels.w.clearProducer
          b := n.channels.b.clearConsumer
          ar := n.channels.ar.clearProducer
          r := n.channels.r.clearConsumer }
      writeOutstanding := false
      readOutstanding := false
      awSeen := false
      arSeen := false }
  else
    { channels :=
        { aw := c.aw.produce awTaken fastIn.aw n.channels.aw
          w := c.w.produce (fastIn.wvalid && c.w.ready) fastIn.w n.channels.w
          b := c.b.consume bTaken n.channels.b
          ar := c.ar.produce arTaken fastIn.ar n.channels.ar
          r := c.r.consume rTaken n.channels.r }
      writeOutstanding := if bTaken then false else if awTaken then true else n.writeOutstanding
      readOutstanding := if rTaken then false else if arTaken then true else n.readOutstanding
      awSeen := if !fastIn.awvalid then false else if awTaken then true else n.awSeen
      arSeen := if !fastIn.arvalid then false else if arTaken then true else n.arSeen }

/-- `_work_l2_clock` on the registers `n`, with the slave at `slow_out`. -/
def workL2Clock (reset : Bool) (slowOut : Axi4Responder ID_WIDTH DATA_WIDTH)
    (n : Axi4FastToSlowCdc ADDR_WIDTH ID_WIDTH DATA_WIDTH) :
    Axi4FastToSlowCdc ADDR_WIDTH ID_WIDTH DATA_WIDTH :=
  let c := s.channels
  { n with
    channels :=
      if reset then
        { aw := n.channels.aw.clearConsumer
          w := n.channels.w.clearConsumer
          b := n.channels.b.clearProducer
          ar := n.channels.ar.clearConsumer
          r := n.channels.r.clearProducer }
      else
        { aw := c.aw.consume (c.aw.valid && slowOut.awready) n.channels.aw
          w := c.w.consume (c.w.valid && slowOut.wready) n.channels.w
          b := c.b.produce (slowOut.bvalid && c.b.ready) slowOut.b n.channels.b
          ar := c.ar.consume (c.ar.valid && slowOut.arready) n.channels.ar
          r := c.r.produce (slowOut.rvalid && c.r.ready) slowOut.r n.channels.r } }

def clock (fast : Option (Axi4Driver ADDR_WIDTH ID_WIDTH DATA_WIDTH))
    (slow : Option (Axi4Responder ID_WIDTH DATA_WIDTH)) :
    Axi4FastToSlowCdc ADDR_WIDTH ID_WIDTH DATA_WIDTH :=
  let n := match fast with
    | some i => s.workClk false i s
    | none => s
  match slow with
  | some i => s.workL2Clock false i n
  | none => n

def edges (fast : Option (Axi4Driver ADDR_WIDTH ID_WIDTH DATA_WIDTH))
    (slow : Option (Axi4Responder ID_WIDTH DATA_WIDTH)) : Axi4Edges ADDR_WIDTH ID_WIDTH DATA_WIDTH where
  aw := ⟨fast.map fun i => (i.awvalid && s.awreadyOut i, i.aw),
    slow.map fun i => s.channels.aw.valid && i.awready⟩
  w := ⟨fast.map fun i => (i.wvalid && s.channels.w.ready, i.w),
    slow.map fun i => s.channels.w.valid && i.wready⟩
  b := ⟨slow.map fun i => (i.bvalid && s.channels.b.ready, i.b),
    fast.map fun i => s.channels.b.valid && i.bready⟩
  ar := ⟨fast.map fun i => (i.arvalid && s.arreadyOut i, i.ar),
    slow.map fun i => s.channels.ar.valid && i.arready⟩
  r := ⟨slow.map fun i => (i.rvalid && s.channels.r.ready, i.r),
    fast.map fun i => s.channels.r.valid && i.rready⟩

def system (ADDR_WIDTH ID_WIDTH DATA_WIDTH : Nat) :
    Transitions (Axi4FastToSlowCdc ADDR_WIDTH ID_WIDTH DATA_WIDTH)
      (Axi4Transfers ADDR_WIDTH ID_WIDTH DATA_WIDTH) where
  init s := s.channels.Cleared ∧ s.writeOutstanding = false ∧ s.readOutstanding = false ∧
    s.awSeen = false ∧ s.arSeen = false
  step s e s' := ∃ fast slow, e = some (s.channels.transfers (s.edges fast slow)) ∧
    s' = s.clock fast slow

theorem awreadyOut_ready {fastIn : Axi4Driver ADDR_WIDTH ID_WIDTH DATA_WIDTH}
    (h : s.awreadyOut fastIn = true) : s.channels.aw.ready = true := by
  unfold awreadyOut at h
  rw [Bool.and_eq_true, Bool.and_eq_true] at h
  exact h.1.2

theorem arreadyOut_ready {fastIn : Axi4Driver ADDR_WIDTH ID_WIDTH DATA_WIDTH}
    (h : s.arreadyOut fastIn = true) : s.channels.ar.ready = true := by
  unfold arreadyOut at h
  rw [Bool.and_eq_true, Bool.and_eq_true] at h
  exact h.1.2

theorem clock_channels (fast : Option (Axi4Driver ADDR_WIDTH ID_WIDTH DATA_WIDTH))
    (slow : Option (Axi4Responder ID_WIDTH DATA_WIDTH)) :
    (s.clock fast slow).channels = s.channels.step (s.edges fast slow) := by
  cases fast with
  | none => cases slow <;> rfl
  | some i => cases slow <;> rfl

theorem edges_fair (fast : Option (Axi4Driver ADDR_WIDTH ID_WIDTH DATA_WIDTH))
    (slow : Option (Axi4Responder ID_WIDTH DATA_WIDTH)) : s.channels.Fair (s.edges fast slow) :=
  ⟨.of_map (fun _ h => s.awreadyOut_ready (Bool.and_eq_true_iff.mp h).2)
      (fun _ h => (Bool.and_eq_true_iff.mp h).1),
    .of_map (fun _ h => (Bool.and_eq_true_iff.mp h).2) (fun _ h => (Bool.and_eq_true_iff.mp h).1),
    .of_map (fun _ h => (Bool.and_eq_true_iff.mp h).2) (fun _ h => (Bool.and_eq_true_iff.mp h).1),
    .of_map (fun _ h => s.arreadyOut_ready (Bool.and_eq_true_iff.mp h).2)
      (fun _ h => (Bool.and_eq_true_iff.mp h).1),
    .of_map (fun _ h => (Bool.and_eq_true_iff.mp h).2) (fun _ h => (Bool.and_eq_true_iff.mp h).1)⟩

theorem bridges : Axi4Channels.Bridges (system ADDR_WIDTH ID_WIDTH DATA_WIDTH) (fun s => s.channels) where
  init _ h := h.1
  step := by
    rintro s t s' ⟨fast, slow, rfl, rfl⟩
    exact ⟨_, s.edges_fair fast slow, rfl, s.clock_channels fast slow⟩

end Axi4FastToSlowCdc

/-- In every order of edges both bridges deliver every channel, each word once and
in order, and keep what they offer until it is taken. -/
theorem axi4Cdc_delivers (ts : List (Axi4Transfers ADDR_WIDTH ID_WIDTH DATA_WIDTH)) :
    (∀ s, (Axi4SlowToFastCdc.system ADDR_WIDTH ID_WIDTH DATA_WIDTH).Traces ts s →
        s.channels.Delivered ts ∧ ∀ slow fast, s.channels.Steady
          (s.channels.transfers (s.edges slow fast)) (s.clock slow fast).channels) ∧
      ∀ s, (Axi4FastToSlowCdc.system ADDR_WIDTH ID_WIDTH DATA_WIDTH).Traces ts s →
        s.channels.Delivered ts ∧ ∀ fast slow, s.channels.Steady
          (s.channels.transfers (s.edges fast slow)) (s.clock fast slow).channels := by
  constructor
  · intro s hrun
    obtain ⟨horderly, hdelivered⟩ := Axi4SlowToFastCdc.bridges.delivered hrun
    refine ⟨hdelivered, fun slow fast => ?_⟩
    rw [s.clock_channels]
    exact horderly.steady (s.edges_fair slow fast)
  · intro s hrun
    obtain ⟨horderly, hdelivered⟩ := Axi4FastToSlowCdc.bridges.delivered hrun
    refine ⟨hdelivered, fun fast slow => ?_⟩
    rw [s.clock_channels]
    exact horderly.steady (s.edges_fair fast slow)

def idleChannels : Axi4Channels 8 1 8 where
  aw := ⟨default, false, false, false, false, false, false⟩
  w := ⟨default, false, false, false, false, false, false⟩
  b := ⟨default, false, false, false, false, false, false⟩
  ar := ⟨default, false, false, false, false, false, false⟩
  r := ⟨default, false, false, false, false, false, false⟩

theorem idleChannels_cleared : idleChannels.Cleared :=
  ⟨⟨rfl, rfl, rfl, rfl, rfl, rfl⟩, ⟨rfl, rfl, rfl, rfl, rfl, rfl⟩, ⟨rfl, rfl, rfl, rfl, rfl, rfl⟩,
    ⟨rfl, rfl, rfl, rfl, rfl, rfl⟩, ⟨rfl, rfl, rfl, rfl, rfl, rfl⟩⟩

/-- One write address into either bridge. -/
theorem axi4Cdc_delivers_one :
    let i : Axi4Driver 8 1 8 := ⟨true, ⟨5, 0⟩, false, default, true, false, default, true⟩
    let s : Axi4SlowToFastCdc 8 1 8 := ⟨idleChannels⟩
    let f : Axi4FastToSlowCdc 8 1 8 := ⟨idleChannels, false, false, false, false⟩
    (s.clock (some i) none).channels.aw.held = [⟨5, 0⟩] ∧
      (s.clock (some i) none).channels.Delivered [s.channels.transfers (s.edges (some i) none)] ∧
      (f.clock (some i) none).channels.aw.held = [⟨5, 0⟩] ∧
      (f.clock (some i) none).channels.Delivered [f.channels.transfers (f.edges (some i) none)] := by
  intro i s f
  have hrun : (Axi4SlowToFastCdc.system 8 1 8).Traces
      [s.channels.transfers (s.edges (some i) none)] (s.clock (some i) none) :=
    ⟨s, idleChannels_cleared, (Transitions.Run.refl s).shows ⟨some i, none, rfl, rfl⟩⟩
  have hrun' : (Axi4FastToSlowCdc.system 8 1 8).Traces
      [f.channels.transfers (f.edges (some i) none)] (f.clock (some i) none) :=
    ⟨f, ⟨idleChannels_cleared, rfl, rfl, rfl, rfl⟩,
      (Transitions.Run.refl f).shows ⟨some i, none, rfl, rfl⟩⟩
  exact ⟨by decide +kernel, ((axi4Cdc_delivers _).1 _ hrun).1, by decide +kernel,
    ((axi4Cdc_delivers _).2 _ hrun').1⟩

end CppHdl.Cdc
