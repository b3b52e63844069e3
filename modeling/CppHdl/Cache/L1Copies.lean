import CppHdl.Cache.L1Edge
import CppHdl.Lib.Generation
import CppHdl.Lib.Transition

/-!
# Copies in the first-level cache

Every place that holds the data of a line is followed with the line the data are
from and whether they are outdated: the rows of the ways, what their RAMs read, the
refill, the selected line and the response. What is outdated never comes back as a
response, as long as no clock cuts a walk short, drops an invalidation or has a
store write the tag of a refill.
-/

namespace CppHdl.Cache

open L1Geometry

/-- Where data came from, and whether they are outdated. -/
structure Copy where
  line : BitVec 32
  stale : Bool
  deriving DecidableEq

/-- The copies in the rows of the ways, in the read registers of their RAMs, in the
refill, in the selected line and in the response. -/
structure L1Copies where
  rows : Nat → Nat → Copy
  read : Nat → Copy
  refill : Copy
  selected : Copy
  response : Copy

/-- What outdates copies besides a reset: `invalidate_in` all of them,
`invalidate_line_in` those of the line, a store those of the lines it writes. -/
structure Outdating where
  whole : Bool
  line : Bool
  store : Bool

/-- The store of this clock has a byte in a line. -/
def L1Inputs.stores (i : L1Inputs) (line : BitVec 32) : Bool :=
  i.write && (List.range 4).any fun k =>
    i.writeMask.getLsbD k && lineBase (i.addr + BitVec.ofNat 32 k) == line

namespace Outdating

variable (o : Outdating)

/-- It matters which line a copy is of. -/
def byLine : Bool := o.line || o.store

def outdates (i : L1Inputs) (line : BitVec 32) : Bool :=
  o.whole && i.invalidate ||
    (o.line && (i.invalidateLine && lineBase i.invalidateAddr == line) || o.store && i.stores line)

theorem outdates_cases {o : Outdating} {i : L1Inputs} {line : BitVec 32}
    (h : o.outdates i line = true) : (o.whole = true ∧ i.invalidate = true) ∨
      (o.line = true ∧ i.invalidateLine = true ∧ lineBase i.invalidateAddr = line) ∨
      (o.store = true ∧ i.stores line = true) := by
  unfold outdates at h
  simpa only [Bool.or_eq_true, Bool.and_eq_true, beq_iff_eq] using h

end Outdating

theorem L1Inputs.write_of_stores {i : L1Inputs} {line : BitVec 32} (h : i.stores line = true) :
    i.write = true := (Bool.and_eq_true_iff.mp h).1

def Copy.outdate (o : Outdating) (i : L1Inputs) (k : Copy) : Copy :=
  { k with stale := k.stale || o.outdates i k.line }

/-! ## Following the data -/

namespace L1Copies

variable (g : L1Geometry) (s : L1Cache) (i : L1Inputs) (k : L1Copies)

/-- The first beat of a line begins a copy. -/
def fetched : Copy :=
  if s.accepts i && s.req.cacheable && decide (s.refill.beat = 0) then
    ⟨lineBase s.req.addr, false⟩
  else k.refill

/-- The copies move as the data do. -/
def follow : L1Copies where
  rows way set :=
    if s.installs g i = true ∧ s.victim = way ∧ set = s.dataAddr g i then k.fetched s i
    else k.rows way set
  read way := if s.ramRead g i then k.rows way (s.dataAddr g i) else k.read way
  refill := k.fetched s i
  selected :=
    if s.branch i = .select ∧ s.lookup.hit = true then k.read s.lookup.way.toNat
    else if s.branch i = .refill ∧ s.installs g i = true then k.fetched s i
    else k.selected
  response :=
    if s.branch i = .assemble then k.selected
    else if s.branch i = .refill ∧ s.installs g i = true then k.fetched s i
    else if s.branch i = .refill ∧ s.accepts i = true ∧ s.req.cacheable = false then
      ⟨lineBase s.req.addr, false⟩
    else k.response

def map (f : Copy → Copy) : L1Copies where
  rows way set := f (k.rows way set)
  read way := f (k.read way)
  refill := f k.refill
  selected := f k.selected
  response := f k.response

end L1Copies

structure L1World where
  cache : L1Cache
  copies : L1Copies

namespace L1World

variable (g : L1Geometry) (o : Outdating)

/-- A clock. What was there before a reset is outdated. -/
def next (w : L1World) (i : L1Inputs) : L1World where
  cache := w.cache.work g i
  copies :=
    if i.reset then w.copies.map fun k => { k with stale := true }
    else (w.copies.follow g w.cache i).map (Copy.outdate o i)

def served (w : L1World) : Copy :=
  if w.cache.response.valid then w.copies.response else w.copies.selected

end L1World

/-! ## Regular clocks -/

namespace L1Cache

variable (g : L1Geometry) (s : L1Cache) (i : L1Inputs)

/-- A flush ends a walk over the tags before its last set. -/
def CutsWalk : Prop :=
  s.state = .init ∧ s.epochWrapPending = false ∧ i.invalidate = false ∧ i.flush = true ∧
    s.initSet ≠ g.SETS - 1 ∧ s.invalidateEpochWrap g i = false

/-- The invalidation of the line that is read goes before that of the whole cache. -/
def DropsInvalidate : Prop :=
  i.invalidate = true ∧ s.epochWrapPending = false ∧ s.invalidateConflict i = true ∧
    s.invalidateEpochWrap g i = false

/-- The tag of a refill is what a store writes then. -/
def StoresInRefill : Prop := i.write = true ∧ s.state = .refill

instance : Decidable (s.CutsWalk g i) :=
  inferInstanceAs (Decidable (_ ∧ _ ∧ _ ∧ _ ∧ _ ∧ _))

instance : Decidable (s.DropsInvalidate g i) := inferInstanceAs (Decidable (_ ∧ _ ∧ _ ∧ _))

instance : Decidable (s.StoresInRefill i) := inferInstanceAs (Decidable (_ ∧ _))

/-- A lookup of the line begins or is under way. -/
def LooksUp (line : BitVec 32) : Prop :=
  (s.req.read = true ∧ s.state ∈ [.lookup, .compare, .select] ∧ line = lineBase s.req.addr) ∨
    (s.ramRead g i = true ∧ line = lineBase i.addr)

/-- None of this happens, as far as it matters. -/
structure Regular (o : Outdating) : Prop where
  walk : ¬ s.CutsWalk g i
  invalidate : o.whole = true → ¬ s.DropsInvalidate g i
  refill : ¬ s.StoresInRefill i
  tag : o.byLine = true → s.ramRead g i = true → g.tagValue i.addr < 2 ^ g.TAG_BITS
  inLine : o.store = true → ∀ line, i.stores line = true → line = lineBase i.addr
  lookup : o.store = true → ∀ line, i.stores line = true → ¬ s.LooksUp g i line

end L1Cache

/-- Runs from a reset, of regular clocks and resets. -/
def l1Runs (g : L1Geometry) (o : Outdating) : Transitions L1World L1Inputs where
  init w := ∃ (w₀ : L1World) (i : L1Inputs), i.reset = true ∧ w = w₀.next g o i
  step
    | w, some i, w' => (i.reset = false → w.cache.Regular g i o) ∧ w' = w.next g o i
    | _, none, _ => False

/-! ## The invariant -/

/-- The copy is of the line of an address, and not outdated. -/
structure Copy.Current (o : Outdating) (k : Copy) (addr : BitVec 32) : Prop where
  fresh : k.stale = false
  line : o.byLine = true → k.line = lineBase addr

/-- A valid tag is that of its row, and of an earlier generation if the row is outdated. -/
structure TagEntry.Sound (g : L1Geometry) (o : Outdating) (s : L1Cache) (set : Nat)
    (entry : TagEntry) (k : Copy) : Prop where
  dated : entry.valid = true → Dated entry.setEpoch (s.tagSetEpoch set) (k.stale = true)
  line : entry.valid = true → o.byLine = true →
    g.setIndex k.line = set ∧ g.tagValue k.line = entry.tag ∧ lineBase k.line = k.line

/-- So is a tag read for a request, if it has the tag of the request. -/
structure TagEntry.Answers (g : L1Geometry) (o : Outdating) (s : L1Cache) (req : BitVec 32)
    (entry : TagEntry) (k : Copy) : Prop where
  dated : entry.valid = true → entry.tag = g.tagValue req →
    Dated entry.setEpoch (s.tagSetEpoch (g.setIndex req)) (k.stale = true)
  line : entry.valid = true → entry.tag = g.tagValue req → o.byLine = true → k.line = lineBase req

theorem TagEntry.Sound.answers {g : L1Geometry} {o : Outdating} {s : L1Cache} {req : BitVec 32}
    {entry : TagEntry} {k : Copy} (h : entry.Sound g o s (g.setIndex req) k) :
    entry.Answers g o s req k where
  dated hvalid _ := h.dated hvalid
  line hvalid htag hline := by
    obtain ⟨hset, hktag, hbase⟩ := h.line hvalid hline
    rw [← hbase]
    exact lineBase_eq_of_set_tag g hset (hktag.trans htag)

structure L1World.Coherent (g : L1Geometry) (o : Outdating) (w : L1World) : Prop where
  initRead : w.cache.state = .init → w.cache.req.read = false
  initSet : w.cache.state = .init → w.cache.initSet < g.SETS
  cleared : w.cache.state = .init → w.cache.epochWrapPending = false →
    ∀ way < g.WAYS, ∀ set < w.cache.initSet, ((w.cache.tagRam way).buffer set).valid = false
  fits : o.byLine = true → w.cache.req.read = true → w.cache.req.cacheable = true →
    g.tagValue w.cache.req.addr < 2 ^ g.TAG_BITS
  rows : w.cache.state ≠ .init → w.cache.epochWrapPending = false →
    ∀ way < g.WAYS, ∀ set < g.SETS,
      ((w.cache.tagRam way).buffer set).Sound g o w.cache set (w.copies.rows way set)
  looked : w.cache.state = .lookup → w.cache.epochWrapPending = false →
    w.cache.req.read = true → w.cache.req.cacheable = true →
      ∀ way < g.WAYS, (w.cache.tagRam way).q.Answers g o w.cache w.cache.req.addr (w.copies.read way)
  compared : w.cache.state = .compare → w.cache.epochWrapPending = false →
    w.cache.req.read = true → w.cache.req.cacheable = true →
      ∀ way < g.WAYS,
        (w.cache.tagEntries way).Answers g o w.cache w.cache.req.addr (w.copies.read way)
  chosen : w.cache.state = .select → w.cache.req.read = true → w.cache.lookup.hit = true →
    (w.copies.read w.cache.lookup.way.toNat).Current o w.cache.req.addr
  loaded : w.cache.state = .assemble → w.cache.req.read = true →
    w.copies.selected.Current o w.cache.req.addr
  beat : w.cache.state = .compare ∨ w.cache.state = .select → w.cache.req.read = true →
    w.cache.refill.beat = 0
  filling : w.cache.state = .refill → w.cache.req.read = true → w.cache.req.cacheable = true →
    w.cache.refill.beat ≠ 0 → w.copies.refill.Current o w.cache.req.addr
  selected : w.cache.selectedLine.valid = true →
    w.copies.selected.Current o w.cache.selectedLine.addr ∧
      lineBase w.cache.selectedLine.addr = w.cache.selectedLine.addr
  response : w.cache.response.valid = true → w.cache.state = .done ∧ w.cache.req.read = true ∧
    w.copies.response.Current o w.cache.req.addr ∧ w.cache.response.addr = w.cache.req.addr

/-! ## What a clock keeps -/

section

variable {g : L1Geometry} {o : Outdating} {s : L1Cache} {i : L1Inputs} {k : Copy}

theorem Copy.Current.outdate {addr : BitVec 32} (h : k.Current o addr)
    (hout : o.outdates i k.line = false) : (k.outdate o i).Current o addr where
  fresh := by
    unfold Copy.outdate
    rw [h.fresh, hout]
    rfl
  line := h.line

/-- What is read is not outdated while it is read. -/
theorem outdates_of_quiet (hquiet : s.Quiet i) (hread : s.req.read = true)
    (hline : o.byLine = true → k.line = lineBase s.req.addr)
    (hstore : o.store = true → i.stores (lineBase s.req.addr) = false) :
    o.outdates i k.line = false := by
  rw [← Bool.not_eq_true]
  intro hout
  rcases Outdating.outdates_cases hout with ⟨-, hwhole⟩ | ⟨hby, hinv, hbase⟩ | ⟨hby, hstores⟩
  · exact Bool.false_ne_true (hquiet.invalidate.symm.trans hwhole)
  · -- then the request conflicts with the invalidation
    have hk : k.line = lineBase s.req.addr := hline (by unfold Outdating.byLine; rw [hby]; rfl)
    have hconflict : s.invalidateConflict i = true := by
      unfold L1Cache.invalidateConflict
      rw [hinv, hread, hbase, hk, beq_self_eq_true]
      rfl
    exact Bool.false_ne_true (hquiet.conflict.symm.trans hconflict)
  · have hk : k.line = lineBase s.req.addr :=
      hline (by unfold Outdating.byLine; rw [hby]; exact Bool.or_true _)
    rw [hk] at hstores
    exact Bool.false_ne_true ((hstore hby).symm.trans hstores)

/-- The generations of a set move on with the invalidations of its lines. -/
theorem dated_work {gen : BitVec 8} {set : Nat} {p q : Prop} (hreset : i.reset = false)
    (hwrap : s.invalidateEpochWrap g i = false) (h : Dated gen (s.tagSetEpoch set) p)
    (hpq : q → p ∨ (i.invalidateLine = true ∧ set = g.setIndex i.invalidateAddr)) :
    Dated gen ((s.work g i).tagSetEpoch set) q := by
  rw [L1Cache.work_tagSetEpoch hreset]
  by_cases hinv : i.invalidateLine = true ∧ set = g.setIndex i.invalidateAddr
  · rw [if_pos hinv]
    refine h.advance fun hones => ?_
    unfold L1Cache.invalidateEpochWrap at hwrap
    rw [hinv.1, ← hinv.2, hones] at hwrap
    exact absurd hwrap (by decide)
  · rw [if_neg hinv]
    exact h.mono fun hq => (hpq hq).resolve_right hinv

theorem TagEntry.Answers.work {req : BitVec 32} {entry : TagEntry} (hreset : i.reset = false)
    (hwrap : s.invalidateEpochWrap g i = false) (h : entry.Answers g o s req k)
    (hout : (o.byLine = true → k.line = lineBase req) → o.outdates i k.line = false) :
    entry.Answers g o (s.work g i) req (k.outdate o i) where
  dated hvalid htag := by
    refine dated_work hreset hwrap (h.dated hvalid htag) fun hstale => .inl ?_
    change (k.stale || o.outdates i k.line) = true at hstale
    rwa [hout (h.line hvalid htag), Bool.or_false] at hstale
  line := h.line

theorem TagEntry.Sound.work {set : Nat} {entry : TagEntry} (hreset : i.reset = false)
    (hwrap : s.invalidateEpochWrap g i = false) (h : entry.Sound g o s set k)
    (hwhole : o.whole = true → i.invalidate = false)
    (hstore : o.store = true → i.stores k.line = false) :
    entry.Sound g o (s.work g i) set (k.outdate o i) where
  dated hvalid := by
    refine dated_work hreset hwrap (h.dated hvalid) fun hstale => ?_
    rcases Bool.or_eq_true_iff.mp hstale with hbefore | hout
    · exact .inl hbefore
    · rcases Outdating.outdates_cases hout with ⟨hby, hinv⟩ | ⟨hby, hinv, hbase⟩ | ⟨hby, hst⟩
      · exact absurd ((hwhole hby).symm.trans hinv) Bool.false_ne_true
      · -- the line is of this set, whose generation moves on
        have hline : o.byLine = true := by
          unfold Outdating.byLine
          rw [hby]
          rfl
        obtain ⟨hset, -, hself⟩ := h.line hvalid hline
        refine .inr ⟨hinv, hset.symm.trans (setIndex_congr g ?_)⟩
        rw [hself, hbase]
      · exact absurd ((hstore hby).symm.trans hst) Bool.false_ne_true
  line := h.line

end

/-- The way of a hit has the tag of the request in its generation. -/
theorem L1Cache.lookupComb_hit {g : L1Geometry} {s : L1Cache} (h : (s.lookupComb g).hit = true) :
    s.req.cacheable = true ∧ ∃ way < g.WAYS, s.tagMatches g (s.tagEntries way) = true ∧
      (s.lookupComb g).way = BitVec.ofNat 8 way := by
  unfold L1Cache.lookupComb at h ⊢
  split_ifs at h ⊢ with hcond
  refine ⟨hcond.2.2, ?_⟩
  have key : ∀ ways : List Nat, (∀ way ∈ ways, way < g.WAYS) →
      ∀ found : L1LookupState,
        (found.hit = true → ∃ way < g.WAYS, s.tagMatches g (s.tagEntries way) = true ∧
          found.way = BitVec.ofNat 8 way) →
        (ways.foldl (s.lookupWay g) found).hit = true →
        ∃ way < g.WAYS, s.tagMatches g (s.tagEntries way) = true ∧
          (ways.foldl (s.lookupWay g) found).way = BitVec.ofNat 8 way := by
    intro ways
    induction ways with
    | nil => exact fun _ found hfound hhit => hfound hhit
    | cons way ways ih =>
        intro hlt found hfound hhit
        refine ih (fun w hw => hlt w (List.mem_cons_of_mem _ hw)) _ ?_ hhit
        unfold L1Cache.lookupWay
        by_cases hmatch : s.tagMatches g (s.tagEntries way) = true
        · rw [if_pos hmatch]
          exact fun _ => ⟨way, hlt way List.mem_cons_self, hmatch, rfl⟩
        · rw [if_neg hmatch]
          exact hfound
  exact key _ (fun way hway => List.mem_range.mp hway) _ (fun hfalse => by cases hfalse) h

namespace L1World.Coherent

variable {g : L1Geometry} {o : Outdating} {w : L1World} {i : L1Inputs}

theorem no_wrap (hreset : i.reset = false)
    (hpending : (w.next g o i).cache.epochWrapPending = false) :
    w.cache.epochWrapPending = true ∨ w.cache.invalidateEpochWrap g i = false := by
  change (w.cache.work g i).epochWrapPending = false at hpending
  rw [L1Cache.work_pending hreset] at hpending
  revert hpending
  cases w.cache.epochWrapPending <;> cases w.cache.invalidateEpochWrap g i <;> simp

theorem copies_next (hreset : i.reset = false) :
    (w.next g o i).copies = (w.copies.follow g w.cache i).map (Copy.outdate o i) :=
  if_neg (Bool.eq_false_iff.mp hreset)

/-- A read is accepted in `IDLE` and in `DONE`. -/
theorem start_state (h : w.cache.start g i = true) :
    w.cache.state = .idle ∨ w.cache.state = .done := by
  unfold L1Cache.start at h
  simp only [Bool.and_eq_true, Bool.or_eq_true, decide_eq_true_eq] at h
  rcases h.2 with hidle | hdone
  · exact .inl hidle
  · exact .inr hdone.1.1

theorem ramRead_of_state (hidle : w.cache.state ≠ .idle) (hdone : w.cache.state ≠ .done) :
    w.cache.ramRead g i = false := by
  rw [← Bool.not_eq_true]
  intro hread
  rcases start_state (Bool.and_eq_true_iff.mp hread).1 with h | h
  · exact hidle h
  · exact hdone h

/-- With a read accepted the RAMs see the live address. -/
theorem addr_of_start (h : w.cache.start g i = true) :
    w.cache.dataAddr g i = g.setIndex i.addr ∧ w.cache.tagAddr g i = g.setIndex i.addr := by
  have hstate := start_state h
  have hdata : w.cache.dataAddr g i = g.setIndex i.addr := by
    unfold L1Cache.dataAddr
    refine if_neg ?_
    rcases hstate with hs | hs <;> rw [hs] <;> simp
  refine ⟨hdata, ?_⟩
  unfold L1Cache.tagAddr
  rw [hdata, if_neg (by rcases hstate with hs | hs <;> rw [hs] <;> simp), ite_self]

section

variable (h : w.Coherent g o) (hreset : i.reset = false) (hregular : w.cache.Regular g i o)
include h hreset hregular

theorem looked_next (hstate : (w.next g o i).cache.state = .lookup)
    (hpending : (w.next g o i).cache.epochWrapPending = false)
    (hread : (w.next g o i).cache.req.read = true)
    (hcacheable : (w.next g o i).cache.req.cacheable = true) (way : Nat) (hway : way < g.WAYS) :
    ((w.next g o i).cache.tagRam way).q.Answers g o (w.next g o i).cache
      (w.next g o i).cache.req.addr ((w.next g o i).copies.read way) := by
  obtain ⟨hquiet, hstart, hreq⟩ := L1Cache.enter_lookup hreset hread hstate
  have hwrap := (no_wrap hreset hpending).resolve_left (Bool.eq_false_iff.mp hquiet.pending)
  have hram : w.cache.ramRead g i = true := by
    change ((w.cache.work g i).req).cacheable = true at hcacheable
    rw [hreq] at hcacheable
    exact Bool.and_eq_true_iff.mpr ⟨hstart, hcacheable⟩
  obtain ⟨hdata, htag⟩ := addr_of_start hstart
  have hsound := h.rows (by rcases start_state hstart with hs | hs <;> rw [hs] <;> simp)
    hquiet.pending way hway (g.setIndex i.addr) (g.setIndex_lt i.addr)
  have hkept : ((w.cache.tagRam way).buffer (g.setIndex i.addr)).Sound g o (w.cache.work g i)
      (g.setIndex i.addr) ((w.copies.rows way (g.setIndex i.addr)).outdate o i) := by
    refine hsound.work hreset hwrap (fun _ => hquiet.invalidate) fun hby => ?_
    rw [← Bool.not_eq_true]
    intro hstores
    exact hregular.lookup hby _ hstores (.inr ⟨hram, hregular.inLine hby _ hstores⟩)
  have haddr : (w.next g o i).cache.req.addr = i.addr := congrArg L1RequestState.addr hreq
  have hq : ((w.next g o i).cache.tagRam way).q =
      (w.cache.tagRam way).buffer (g.setIndex i.addr) := by
    change ((w.cache.work g i).tagRam way).q = _
    rw [L1Cache.work_tagRam hreset, Ram.q_work, if_pos hram, htag]
  have hcopy : (w.next g o i).copies.read way =
      (w.copies.rows way (g.setIndex i.addr)).outdate o i := by
    rw [copies_next hreset]
    change Copy.outdate o i (if w.cache.ramRead g i then _ else _) = _
    rw [if_pos hram, hdata]
  rw [haddr, hq, hcopy]
  exact hkept.answers

theorem compared_next (hstate : (w.next g o i).cache.state = .compare)
    (hpending : (w.next g o i).cache.epochWrapPending = false)
    (hread : (w.next g o i).cache.req.read = true)
    (hcacheable : (w.next g o i).cache.req.cacheable = true) (way : Nat) (hway : way < g.WAYS) :
    ((w.next g o i).cache.tagEntries way).Answers g o (w.next g o i).cache
      (w.next g o i).cache.req.addr ((w.next g o i).copies.read way) := by
  obtain ⟨hbranch, hreq⟩ := L1Cache.enter_compare hreset hread hstate
  obtain ⟨hquiet, hlookup, hreadBefore⟩ := L1Cache.taken_of_branch hbranch
  have hwrap := (no_wrap hreset hpending).resolve_left (Bool.eq_false_iff.mp hquiet.pending)
  have hanswers := h.looked hlookup hquiet.pending hreadBefore
    ((congrArg L1RequestState.cacheable hreq).symm.trans hcacheable) way hway
  have hkept := hanswers.work hreset hwrap fun hline =>
    outdates_of_quiet hquiet hreadBefore hline fun hby => by
      rw [← Bool.not_eq_true]
      intro hstores
      exact hregular.lookup hby _ hstores (.inl ⟨hreadBefore, by rw [hlookup]; decide, rfl⟩)
  have hentry : (w.next g o i).cache.tagEntries way = (w.cache.tagRam way).q := by
    change (w.cache.work g i).tagEntries way = _
    rw [L1Cache.work_tagEntries hreset, hbranch]
    rfl
  have hcopy : (w.next g o i).copies.read way = (w.copies.read way).outdate o i := by
    rw [copies_next hreset]
    change Copy.outdate o i (if w.cache.ramRead g i then _ else _) = _
    rw [ramRead_of_state (by rw [hlookup]; decide) (by rw [hlookup]; decide)]
    rfl
  rw [hentry, hcopy, show (w.next g o i).cache.req.addr = w.cache.req.addr from
    congrArg L1RequestState.addr hreq]
  exact hkept

omit h hreset in
/-- No store meets a lookup that is under way. -/
theorem no_store (hread : w.cache.req.read = true)
    (hstate : w.cache.state ∈ [.lookup, .compare, .select]) (hby : o.store = true) :
    i.stores (lineBase w.cache.req.addr) = false := by
  rw [← Bool.not_eq_true]
  intro hstores
  exact hregular.lookup hby _ hstores (.inl ⟨hread, hstate, rfl⟩)

omit h hreset in
theorem no_write (hstate : w.cache.state = .refill) : i.write = false := by
  rw [← Bool.not_eq_true]
  exact fun hwrite => hregular.refill ⟨hwrite, hstate⟩

theorem chosen_next (hways : g.WAYS ≤ 256) (hstate : (w.next g o i).cache.state = .select)
    (hread : (w.next g o i).cache.req.read = true)
    (hhit : (w.next g o i).cache.lookup.hit = true) :
    ((w.next g o i).copies.read (w.next g o i).cache.lookup.way.toNat).Current o
      (w.next g o i).cache.req.addr := by
  obtain ⟨hbranch, hreq⟩ := L1Cache.enter_select hreset hread hstate
  obtain ⟨hquiet, hcompare, hreadBefore⟩ := L1Cache.taken_of_branch hbranch
  have hlookup : (w.next g o i).cache.lookup = w.cache.lookupComb g := by
    change (w.cache.work g i).lookup = _
    rw [L1Cache.work_lookup hreset, hbranch]
    rfl
  rw [hlookup] at hhit ⊢
  obtain ⟨hcacheable, way, hway, hmatch, hwayEq⟩ := L1Cache.lookupComb_hit hhit
  have hanswers := h.compared hcompare hquiet.pending hreadBefore hcacheable way hway
  simp only [L1Cache.tagMatches, Bool.and_eq_true, beq_iff_eq, decide_eq_true_eq] at hmatch
  obtain ⟨⟨⟨hvalid, -⟩, hgen⟩, htag⟩ := hmatch
  -- the generation of the tag is that of the set, so the copy is not outdated
  have hdated := hanswers.dated hvalid htag
  rw [hgen] at hdated
  have hcurrent : (w.copies.read way).Current o w.cache.req.addr :=
    ⟨Bool.eq_false_iff.mpr hdated.current, hanswers.line hvalid htag⟩
  have hcopy : (w.next g o i).copies.read way = (w.copies.read way).outdate o i := by
    rw [copies_next hreset]
    change Copy.outdate o i (if w.cache.ramRead g i then _ else _) = _
    rw [ramRead_of_state (by rw [hcompare]; decide) (by rw [hcompare]; decide)]
    rfl
  have htoNat : (w.cache.lookupComb g).way.toNat = way := by
    rw [hwayEq, BitVec.toNat_ofNat]
    exact Nat.mod_eq_of_lt (lt_of_lt_of_le hway hways)
  rw [htoNat, hcopy, show (w.next g o i).cache.req.addr = w.cache.req.addr from
    congrArg L1RequestState.addr hreq]
  exact hcurrent.outdate (outdates_of_quiet hquiet hreadBefore hcurrent.line
    (no_store hregular hreadBefore (by rw [hcompare]; decide)))

theorem loaded_next (hstate : (w.next g o i).cache.state = .assemble)
    (hread : (w.next g o i).cache.req.read = true) :
    (w.next g o i).copies.selected.Current o (w.next g o i).cache.req.addr := by
  obtain ⟨hbranch, hhit, hreq⟩ := L1Cache.enter_assemble hreset hread hstate
  obtain ⟨hquiet, hselect, hreadBefore⟩ := L1Cache.taken_of_branch hbranch
  have hcurrent := h.chosen hselect hreadBefore hhit
  have hcopy : (w.next g o i).copies.selected =
      (w.copies.read w.cache.lookup.way.toNat).outdate o i := by
    rw [copies_next hreset]
    change Copy.outdate o i (w.copies.follow g w.cache i).selected = _
    exact congrArg (Copy.outdate o i) (if_pos ⟨hbranch, hhit⟩)
  rw [hcopy, show (w.next g o i).cache.req.addr = w.cache.req.addr from
    congrArg L1RequestState.addr hreq]
  exact hcurrent.outdate (outdates_of_quiet hquiet hreadBefore hcurrent.line
    (no_store hregular hreadBefore (by rw [hselect]; decide)))

omit hregular in
theorem beat_next
    (hstate : (w.next g o i).cache.state = .compare ∨ (w.next g o i).cache.state = .select)
    (hread : (w.next g o i).cache.req.read = true) : (w.next g o i).cache.refill.beat = 0 := by
  change (w.cache.work g i).refill.beat = 0
  rw [L1Cache.work_refill hreset]
  unfold L1Cache.base
  rw [L1Cache.advanceEpoch_eq, L1Cache.clearRefill_eq]
  rcases hstate with hstate | hstate
  · obtain ⟨hbranch, -⟩ := L1Cache.enter_compare hreset hread hstate
    obtain ⟨-, hlookup, hreadBefore⟩ := L1Cache.taken_of_branch hbranch
    rw [hbranch, if_pos ⟨hlookup, hreadBefore⟩]
    rfl
  · obtain ⟨hbranch, -⟩ := L1Cache.enter_select hreset hread hstate
    obtain ⟨-, hcompare, hreadBefore⟩ := L1Cache.taken_of_branch hbranch
    rw [hbranch, if_neg (by rw [hcompare]; simp)]
    exact h.beat (.inl hcompare) hreadBefore

omit hreset hregular in
/-- What a refill has fetched is of the line of its request. -/
theorem fetched_current (hstate : w.cache.state = .refill)
    (hread : w.cache.req.read = true) (hcacheable : w.cache.req.cacheable = true)
    (haccepts : w.cache.accepts i = true ∨ w.cache.refill.beat ≠ 0) :
    (w.copies.fetched w.cache i).Current o w.cache.req.addr := by
  unfold L1Copies.fetched
  by_cases hbeat : w.cache.refill.beat = 0
  · rw [if_pos]
    · exact ⟨rfl, fun _ => rfl⟩
    · rw [haccepts.resolve_right (fun hne => hne hbeat), hcacheable, decide_eq_true hbeat]
      rfl
  · rw [if_neg fun hall => hbeat (of_decide_eq_true (Bool.and_eq_true_iff.mp hall).2)]
    exact h.filling hstate hread hcacheable hbeat

theorem filling_next (hstate : (w.next g o i).cache.state = .refill)
    (hread : (w.next g o i).cache.req.read = true)
    (hcacheable : (w.next g o i).cache.req.cacheable = true)
    (hbeat : (w.next g o i).cache.refill.beat ≠ 0) :
    (w.next g o i).copies.refill.Current o (w.next g o i).cache.req.addr := by
  obtain ⟨hbranch, hreq⟩ := L1Cache.enter_refill hreset hread hstate
  have hrefill : (w.next g o i).cache.refill =
      (w.cache.sequence g i (w.cache.base g i) (w.cache.branch i)).refill :=
    L1Cache.work_refill hreset
  unfold L1Cache.base at hrefill
  rw [L1Cache.advanceEpoch_eq, L1Cache.clearRefill_eq] at hrefill
  rcases hbranch with hselect | ⟨hfill, hmore⟩
  · -- the first beat is still to come
    obtain ⟨-, hstateBefore, hreadBefore⟩ := L1Cache.taken_of_branch hselect
    rw [hselect, if_neg (by rw [hstateBefore]; simp)] at hrefill
    have hzero : (w.next g o i).cache.refill.beat = w.cache.refill.beat := by
      rw [hrefill]
      simp only [L1Cache.sequence]
      split_ifs <;> rfl
    exact absurd (hzero.trans (h.beat (.inr hstateBefore) hreadBefore)) hbeat
  · obtain ⟨hquiet, hstateBefore, hreadBefore⟩ := L1Cache.taken_of_branch hfill
    have hcacheableBefore : w.cache.req.cacheable = true :=
      (congrArg L1RequestState.cacheable hreq).symm.trans hcacheable
    rw [hfill, if_neg (by rw [hstateBefore]; simp)] at hrefill
    have hfetched : (w.copies.fetched w.cache i).Current o w.cache.req.addr := by
      refine fetched_current h hstateBefore hreadBefore hcacheableBefore ?_
      cases hwait : i.memWait with
      | false =>
          refine .inl ?_
          unfold L1Cache.accepts
          rw [hstateBefore, hreadBefore, hwait]
          rfl
      | true =>
          refine .inr ?_
          rw [hrefill] at hbeat
          simpa only [L1Cache.sequence, hwait, if_true] using hbeat
    have hcopy : (w.next g o i).copies.refill = (w.copies.fetched w.cache i).outdate o i := by
      rw [copies_next hreset]
      rfl
    rw [hcopy, show (w.next g o i).cache.req.addr = w.cache.req.addr from
      congrArg L1RequestState.addr hreq]
    refine hfetched.outdate (outdates_of_quiet hquiet hreadBefore hfetched.line fun _ => ?_)
    unfold L1Inputs.stores
    rw [no_write hregular hstateBefore]
    rfl

omit hreset in
/-- A line that is completed fills its copies. -/
theorem installed_current (hbranch : w.cache.branch i = .refill)
    (hinstalls : w.cache.installs g i = true) :
    ((w.copies.fetched w.cache i).outdate o i).Current o w.cache.req.addr := by
  obtain ⟨hquiet, hstate, hread⟩ := L1Cache.taken_of_branch hbranch
  obtain ⟨hboth, -⟩ := Bool.and_eq_true_iff.mp hinstalls
  obtain ⟨haccepts, hcacheable⟩ := Bool.and_eq_true_iff.mp hboth
  have hfetched := fetched_current h hstate hread hcacheable (.inl haccepts)
  refine hfetched.outdate (outdates_of_quiet hquiet hread hfetched.line fun _ => ?_)
  unfold L1Inputs.stores
  rw [no_write hregular hstate]
  rfl

/-- The selected line is dropped when it is outdated. -/
theorem selected_next (hvalid : (w.next g o i).cache.selectedLine.valid = true) :
    (w.next g o i).copies.selected.Current o (w.next g o i).cache.selectedLine.addr ∧
      lineBase (w.next g o i).cache.selectedLine.addr =
        (w.next g o i).cache.selectedLine.addr := by
  obtain ⟨-, -, haddr, hvalidEq⟩ := L1Cache.work_selectedLine (g := g) (s := w.cache) hreset
  change (w.cache.work g i).selectedLine.valid = true at hvalid
  rw [hvalidEq] at hvalid
  simp only [Bool.and_eq_true, Bool.not_eq_true', Bool.or_eq_false_iff] at hvalid
  obtain ⟨⟨⟨hbefore, hwrite⟩, hinvalidate, -⟩, hset⟩ := hvalid
  change (w.next g o i).copies.selected.Current o (w.cache.work g i).selectedLine.addr ∧
    lineBase (w.cache.work g i).selectedLine.addr = (w.cache.work g i).selectedLine.addr
  rw [haddr, copies_next hreset]
  -- the line that was selected before, if no other is
  have hkept : w.cache.selectedLine.valid = true →
      (w.copies.selected.outdate o i).Current o w.cache.selectedLine.addr ∧
        lineBase w.cache.selectedLine.addr = w.cache.selectedLine.addr := by
    intro hold
    obtain ⟨hcurrent, hbase⟩ := h.selected hold
    refine ⟨hcurrent.outdate ?_, hbase⟩
    rw [← Bool.not_eq_true]
    intro hout
    rcases Outdating.outdates_cases hout with ⟨-, hinv⟩ | ⟨hby, hinv, hline⟩ | ⟨-, hstores⟩
    · exact Bool.false_ne_true (hinvalidate.symm.trans hinv)
    · have hself := hcurrent.line (by unfold Outdating.byLine; rw [hby]; rfl)
      have heq : g.setIndex w.cache.selectedLine.addr = g.setIndex i.invalidateAddr :=
        setIndex_congr g (hself.symm.trans hline.symm)
      rw [hinv, hold, decide_eq_true heq] at hset
      cases hset
    · exact Bool.false_ne_true (hwrite.symm.trans (L1Inputs.write_of_stores hstores))
  change Copy.Current o (Copy.outdate o i (w.copies.follow g w.cache i).selected) _ ∧ _
  unfold L1Copies.follow
  dsimp only
  rw [L1Cache.sequence_selectedLine] at hbefore ⊢
  by_cases hselect : w.cache.branch i = .select ∧ w.cache.lookup.hit = true
  · -- the line of a hit
    rw [if_pos hselect] at hbefore ⊢
    rw [if_pos hselect]
    obtain ⟨hquiet, hstate, hread⟩ := L1Cache.taken_of_branch hselect.1
    have hcurrent := h.chosen hstate hread hselect.2
    have hout := outdates_of_quiet hquiet hread hcurrent.line
      (no_store hregular hread (by rw [hstate]; decide))
    have haddr' : (w.cache.selectedLineComb g).addr = lineBase w.cache.req.addr := by
      unfold L1Cache.selectedLineComb at hbefore ⊢
      split_ifs at hbefore ⊢
      · rfl
      · cases hbefore
    rw [haddr']
    exact ⟨⟨(hcurrent.outdate hout).fresh,
      fun hby => (hcurrent.line hby).trans (lineBase_lineBase _).symm⟩, lineBase_lineBase _⟩
  · rw [if_neg hselect] at hbefore ⊢
    rw [if_neg hselect]
    by_cases hfinish : w.cache.branch i = .refill ∧ w.cache.installs g i = true
    · -- the line of a refill
      rw [if_pos hfinish, if_pos hfinish]
      have hcurrent := installed_current h hregular hfinish.1 hfinish.2
      exact ⟨⟨hcurrent.fresh, fun hby => (hcurrent.line hby).trans (lineBase_lineBase _).symm⟩,
        lineBase_lineBase _⟩
    · rw [if_neg hfinish] at hbefore ⊢
      rw [if_neg hfinish]
      exact hkept hbefore

/-- The response is that of the request, and dropped when it is outdated. -/
theorem response_next (hvalid : (w.next g o i).cache.response.valid = true) :
    (w.next g o i).cache.state = .done ∧ (w.next g o i).cache.req.read = true ∧
      (w.next g o i).copies.response.Current o (w.next g o i).cache.req.addr ∧
      (w.next g o i).cache.response.addr = (w.next g o i).cache.req.addr := by
  obtain ⟨haddrEq, -, hvalidEq⟩ := L1Cache.work_response (g := g) (s := w.cache) hreset
  change (w.cache.work g i).response.valid = true at hvalid
  rw [hvalidEq] at hvalid
  obtain ⟨hbefore, hwrite⟩ := Bool.and_eq_true_iff.mp hvalid
  have hnone : ∀ line, i.stores line = false := fun line => by
    unfold L1Inputs.stores
    rw [show i.write = false by simpa using hwrite]
    rfl
  change (w.cache.work g i).state = .done ∧ (w.cache.work g i).req.read = true ∧
    (w.next g o i).copies.response.Current o (w.cache.work g i).req.addr ∧
    (w.cache.work g i).response.addr = (w.cache.work g i).req.addr
  rw [L1Cache.work_nextState hreset, L1Cache.work_nextReq hreset, copies_next hreset, haddrEq]
  change _ ∧ _ ∧ Copy.Current o (Copy.outdate o i (w.copies.follow g w.cache i).response) _ ∧ _
  unfold L1Copies.follow
  dsimp only
  rcases L1Cache.sequence_response_valid g w.cache i hbefore with
    ⟨hassemble, hresponse⟩ | ⟨hrefill, hinstalls, hresponse⟩ | ⟨hrefill, haccepts, hdirect, hresponse⟩ |
      ⟨hold, hstays, hresponse⟩
  · obtain ⟨hquiet, hstate, hread⟩ := L1Cache.taken_of_branch hassemble
    have hcurrent := h.loaded hstate hread
    rw [hresponse, if_pos hassemble, hassemble]
    exact ⟨rfl, hread, hcurrent.outdate
      (outdates_of_quiet hquiet hread hcurrent.line fun _ => hnone _), rfl⟩
  · have hcurrent := installed_current h hregular hrefill hinstalls
    obtain ⟨-, -, hread⟩ := L1Cache.taken_of_branch hrefill
    rw [hresponse, if_neg (by rw [hrefill]; simp), if_pos ⟨hrefill, hinstalls⟩, hrefill]
    rw [L1Cache.installs_of_refill g w.cache i hrefill] at hinstalls
    simp only [Bool.and_eq_true, Bool.not_eq_true', decide_eq_true_eq] at hinstalls
    refine ⟨if_neg ?_, hread, hcurrent, rfl⟩
    rw [hinstalls.1.1, hinstalls.2]
    simp
  · obtain ⟨hquiet, hstate, hread⟩ := L1Cache.taken_of_branch hrefill
    have hinstalls : ¬ (w.cache.branch i = .refill ∧ w.cache.installs g i = true) := by
      rintro ⟨-, hinstalls⟩
      rw [L1Cache.installs_of_refill g w.cache i hrefill, hdirect] at hinstalls
      simp at hinstalls
    have hwait : i.memWait = false := by
      simpa using (Bool.and_eq_true_iff.mp haccepts).2
    rw [hresponse, if_neg (by rw [hrefill]; simp), if_neg hinstalls,
      if_pos ⟨hrefill, haccepts, hdirect⟩, hrefill]
    refine ⟨if_neg (by rw [hwait, hdirect]; simp), hread, ?_, rfl⟩
    refine Copy.Current.outdate ⟨rfl, fun _ => rfl⟩ ?_
    exact outdates_of_quiet hquiet hread (fun _ => rfl) fun _ => hnone _
  · -- only a stall keeps a response
    obtain ⟨hdone, hread, hcurrent, haddr⟩ := h.response hold
    have hhold : w.cache.branch i = .hold := hstays.resolve_right fun hne => hne hdone
    have hquiet := (L1Cache.taken_of_branch hhold).1
    rw [hresponse, hhold]
    refine ⟨hdone, hread, ?_, haddr⟩
    rw [if_neg (by simp), if_neg (by simp), if_neg (by simp)]
    exact hcurrent.outdate (outdates_of_quiet hquiet hread hcurrent.line fun _ => hnone _)

omit hregular in
theorem init_next (hstate : (w.next g o i).cache.state = .init) :
    (w.next g o i).cache.req.read = false ∧ (w.next g o i).cache.initSet < g.SETS := by
  change (w.cache.work g i).req.read = false ∧ (w.cache.work g i).initSet < g.SETS
  have hpos := g.sets_pos
  rw [L1Cache.work_nextReq hreset, L1Cache.work_initSet hreset]
  rcases L1Cache.enter_init hreset hstate with (hb | hb) | ⟨hb, hlast⟩
  · rw [hb]
    exact ⟨rfl, hpos⟩
  · rw [hb]
    exact ⟨rfl, hpos⟩
  · have hlt := h.initSet (L1Cache.taken_of_branch hb).2
    rw [hb]
    refine ⟨rfl, ?_⟩
    simp only [L1Cache.sequence, L1Cache.dropRequest, if_neg hlast]
    omega

omit hregular in
/-- In the walk every clock clears a set. -/
theorem walked (hstate : w.cache.state = .init) (hpending : w.cache.epochWrapPending = false)
    (way : Nat) (hway : way < g.WAYS) (set : Nat) (hset : set ≤ w.cache.initSet) :
    (((w.next g o i).cache.tagRam way).buffer set).valid = false := by
  change (((w.cache.work g i).tagRam way).buffer set).valid = false
  have hwrite : w.cache.tagWrite g i way = true := by
    unfold L1Cache.tagWrite
    rw [hstate]
    rfl
  have haddr : w.cache.tagAddr g i = w.cache.initSet := if_pos hstate
  have hdata : w.cache.tagData g = default := by
    unfold L1Cache.tagData
    rw [hstate]
    rfl
  rw [L1Cache.work_tagRam hreset, Ram.buffer_work, hwrite, haddr, hdata]
  by_cases hhere : set = w.cache.initSet
  · rw [if_pos ⟨rfl, hhere⟩]
    rfl
  · rw [if_neg fun hboth => hhere hboth.2]
    exact h.cleared hstate hpending way hway set (by omega)

omit hregular in
theorem cleared_next (hstate : (w.next g o i).cache.state = .init) (way : Nat)
    (hway : way < g.WAYS) (set : Nat) (hset : set < (w.next g o i).cache.initSet) :
    (((w.next g o i).cache.tagRam way).buffer set).valid = false := by
  have hinitSet : (w.next g o i).cache.initSet =
      (w.cache.sequence g i w.cache (w.cache.branch i)).initSet := L1Cache.work_initSet hreset
  rcases L1Cache.enter_init hreset hstate with (hb | hb) | ⟨hb, hlast⟩
  · rw [hinitSet, hb] at hset
    exact absurd hset (Nat.not_lt_zero _)
  · rw [hinitSet, hb] at hset
    exact absurd hset (Nat.not_lt_zero _)
  · obtain ⟨hquiet, hstateBefore⟩ := L1Cache.taken_of_branch hb
    rw [hinitSet, hb] at hset
    simp only [L1Cache.sequence, L1Cache.dropRequest, if_neg hlast] at hset
    exact walked h hreset hstateBefore hquiet.pending way hway set (by omega)

/-- A walk ends with all sets cleared, if nothing starts the next one. -/
theorem walk_complete (hstate : w.cache.state = .init) (hnext : (w.next g o i).cache.state ≠ .init)
    (hpending : (w.next g o i).cache.epochWrapPending = false) (way : Nat) (hway : way < g.WAYS)
    (set : Nat) (hset : set < g.SETS) :
    (((w.next g o i).cache.tagRam way).buffer set).valid = false := by
  have hnextState : (w.next g o i).cache.state = w.cache.nextState g i (w.cache.branch i) :=
    L1Cache.work_nextState hreset
  rw [hnextState] at hnext
  have htaken := L1Cache.branch_taken w.cache i
  cases hb : w.cache.branch i with
  | wrap =>
      rw [hb] at hnext
      exact absurd rfl hnext
  | invalidate =>
      rw [hb] at hnext
      exact absurd rfl hnext
  | conflict =>
      -- the walk serves no request
      rw [hb] at htaken
      have hconflict := htaken.2
      unfold L1Cache.invalidateConflict at hconflict
      rw [h.initRead hstate, Bool.and_false] at hconflict
      cases hconflict
  | flush =>
      rw [hb] at htaken
      obtain ⟨hquiet, -, hinvalidate, hflush⟩ := htaken
      have hwrap := (no_wrap hreset hpending).resolve_left (Bool.eq_false_iff.mp hquiet)
      have hlast : w.cache.initSet = g.SETS - 1 := by
        by_contra hne
        exact hregular.walk ⟨hstate, hquiet, hinvalidate, hflush, hne, hwrap⟩
      exact walked h hreset hstate hquiet way hway set (by omega)
  | init =>
      rw [hb] at hnext htaken
      have hlast : w.cache.initSet = g.SETS - 1 := by
        by_contra hne
        exact hnext (if_neg hne)
      exact walked h hreset hstate htaken.1.pending way hway set (by omega)
  | hold =>
      rw [hb] at htaken
      have hhold := htaken.2
      rw [hstate] at hhold
      exact absurd hhold.symm (by simp)
  | _ =>
      rw [hb] at htaken
      have hother := htaken.2
      first
        | exact absurd (hstate.symm.trans hother) (by simp)
        | exact absurd (hstate.symm.trans hother.1) (by simp)

theorem rows_next (hnext : (w.next g o i).cache.state ≠ .init)
    (hpending : (w.next g o i).cache.epochWrapPending = false) (way : Nat) (hway : way < g.WAYS)
    (set : Nat) (hset : set < g.SETS) :
    (((w.next g o i).cache.tagRam way).buffer set).Sound g o (w.next g o i).cache set
      ((w.next g o i).copies.rows way set) := by
  by_cases hstate : w.cache.state = .init
  · have hinvalid := walk_complete h hreset hregular hstate hnext hpending way hway set hset
    exact ⟨fun hvalid => absurd (hinvalid.symm.trans hvalid) Bool.false_ne_true,
      fun hvalid => absurd (hinvalid.symm.trans hvalid) Bool.false_ne_true⟩
  -- neither a wrap nor an invalidation of the whole cache: they start a walk
  have hbranch : w.cache.branch i ≠ .wrap ∧ w.cache.branch i ≠ .invalidate := by
    have hnextState : (w.next g o i).cache.state = w.cache.nextState g i (w.cache.branch i) :=
      L1Cache.work_nextState hreset
    rw [hnextState] at hnext
    constructor <;>
    · intro hb
      rw [hb] at hnext
      exact hnext rfl
  have hquiet : w.cache.epochWrapPending = false := by
    rw [← Bool.not_eq_true]
    exact fun hp => hbranch.1 (if_pos hp)
  have hwrap := (no_wrap hreset hpending).resolve_left (Bool.eq_false_iff.mp hquiet)
  have hwhole : o.whole = true → i.invalidate = false := by
    intro hby
    rw [← Bool.not_eq_true]
    intro hinvalidate
    cases hconflict : w.cache.invalidateConflict i with
    | true => exact hregular.invalidate hby ⟨hinvalidate, hquiet, hconflict, hwrap⟩
    | false =>
        refine hbranch.2 ?_
        unfold L1Cache.branch
        rw [hquiet, hconflict, hinvalidate]
        rfl
  have hentry : ((w.next g o i).cache.tagRam way).buffer set =
      if w.cache.tagWrite g i way ∧ set = w.cache.tagAddr g i then w.cache.tagData g
      else (w.cache.tagRam way).buffer set := by
    change ((w.cache.work g i).tagRam way).buffer set = _
    rw [L1Cache.work_tagRam hreset, Ram.buffer_work]
  have hcopy : (w.next g o i).copies.rows way set = Copy.outdate o i
      (if w.cache.installs g i = true ∧ w.cache.victim = way ∧ set = w.cache.dataAddr g i then
        w.copies.fetched w.cache i
      else w.copies.rows way set) := by
    rw [copies_next hreset]
    rfl
  have hold := h.rows hstate hquiet way hway set hset
  rw [hentry, hcopy]
  by_cases hinstall : w.cache.installs g i = true ∧ w.cache.victim = way ∧
      set = w.cache.dataAddr g i
  · -- the row a refill completes
    obtain ⟨hinstalls, hvictim, hsetEq⟩ := hinstall
    obtain ⟨hboth, hlast⟩ := Bool.and_eq_true_iff.mp hinstalls
    obtain ⟨haccepts, hcacheable⟩ := Bool.and_eq_true_iff.mp hboth
    obtain ⟨hrefill, hread⟩ : w.cache.state = .refill ∧ w.cache.req.read = true := by
      have := (Bool.and_eq_true_iff.mp haccepts).1
      simpa using this
    have hwrite := no_write hregular hrefill
    have haddr : w.cache.dataAddr g i = g.setIndex w.cache.req.addr := if_pos (.inl hrefill)
    have htagAddr : w.cache.tagAddr g i = w.cache.dataAddr g i := by
      unfold L1Cache.tagAddr
      rw [if_neg hstate, if_neg (Bool.eq_false_iff.mp hwrite)]
    have htagWrite : w.cache.tagWrite g i way = true := by
      unfold L1Cache.tagWrite
      rw [hinstalls, decide_eq_true hvictim]
      simp
    rw [if_pos ⟨htagWrite, hsetEq.trans htagAddr.symm⟩, if_pos ⟨hinstalls, hvictim, hsetEq⟩]
    have hcurrent := fetched_current h hrefill hread hcacheable (.inl haccepts)
    have hdata : w.cache.tagData g = w.cache.refillTag g := if_pos hrefill
    rw [hdata]
    have hsound : (w.cache.refillTag g).Sound g o w.cache set (w.copies.fetched w.cache i) := by
      rw [hsetEq, haddr]
      refine ⟨fun _ => Dated.fresh _ (Bool.eq_false_iff.mp hcurrent.fresh), fun _ hby => ?_⟩
      rw [hcurrent.line hby]
      refine ⟨setIndex_congr g (lineBase_lineBase _), ?_, lineBase_lineBase _⟩
      rw [tagValue_congr g (lineBase_lineBase _)]
      exact (Nat.mod_eq_of_lt (h.fits hby hread hcacheable)).symm
    refine hsound.work hreset hwrap hwhole fun _ => ?_
    unfold L1Inputs.stores
    rw [hwrite]
    rfl
  · rw [if_neg hinstall]
    by_cases hwritten : w.cache.tagWrite g i way ∧ set = w.cache.tagAddr g i
    · -- a store clears the set
      rw [if_pos hwritten]
      have hdefault : w.cache.tagData g = default := by
        refine if_neg fun hrefill => hinstall ?_
        have hwrite := no_write hregular hrefill
        obtain ⟨htagWrite, hsetEq⟩ := hwritten
        unfold L1Cache.tagWrite at htagWrite
        rw [hwrite, decide_eq_false hstate] at htagWrite
        unfold L1Cache.tagAddr at hsetEq
        rw [if_neg hstate, if_neg (Bool.eq_false_iff.mp hwrite)] at hsetEq
        simp only [Bool.false_or, Bool.or_false, Bool.and_eq_true, decide_eq_true_eq] at htagWrite
        exact ⟨htagWrite.1, htagWrite.2, hsetEq⟩
      rw [hdefault]
      exact ⟨fun hvalid => Bool.noConfusion hvalid, fun hvalid => Bool.noConfusion hvalid⟩
    · rw [if_neg hwritten]
      by_cases hvalid : ((w.cache.tagRam way).buffer set).valid = true
      · refine hold.work hreset hwrap hwhole fun hby => ?_
        rw [← Bool.not_eq_true]
        intro hstores
        -- the set of the line would have been cleared
        have hwrite := L1Inputs.write_of_stores hstores
        have hline : o.byLine = true := by
          unfold Outdating.byLine
          rw [hby]
          exact Bool.or_true _
        obtain ⟨hsetEq, -, -⟩ := hold.line hvalid hline
        refine hwritten ⟨?_, ?_⟩
        · unfold L1Cache.tagWrite
          rw [hwrite]
          exact Bool.or_true _
        · unfold L1Cache.tagAddr
          rw [if_neg hstate, if_pos hwrite, ← hsetEq, hregular.inLine hby _ hstores]
          exact setIndex_congr g (lineBase_lineBase _)
      · exact ⟨fun h' => absurd h' hvalid, fun h' => absurd h' hvalid⟩

omit h hregular in
/-- A request that is read was read before, or is the live one. -/
theorem capture_of_read (hread : (w.next g o i).cache.req.read = true) :
    (w.next g o i).cache.req = w.cache.req ∧ w.cache.req.read = true ∨
      (w.next g o i).cache.req = L1Cache.capture g i ∧ w.cache.start g i = true := by
  change (w.cache.work g i).req.read = true at hread
  change (w.cache.work g i).req = _ ∧ _ ∨ (w.cache.work g i).req = _ ∧ _
  rw [L1Cache.work_nextReq hreset] at hread ⊢
  cases hb : w.cache.branch i with
  | idle =>
      rw [hb] at hread
      by_cases hstart : w.cache.start g i = true
      · exact .inr ⟨if_pos hstart, hstart⟩
      · rw [show w.cache.nextReq g i .idle = w.cache.req from if_neg hstart] at hread ⊢
        exact .inl ⟨rfl, hread⟩
  | done =>
      rw [hb] at hread
      by_cases hstart : w.cache.start g i = true
      · exact .inr ⟨if_pos hstart, hstart⟩
      · rw [show w.cache.nextReq g i .done =
          { w.cache.req with read := false, cacheable := false } from if_neg hstart] at hread
        cases hread
  | _ =>
      rw [hb] at hread
      first | exact .inl ⟨rfl, hread⟩ | cases hread

theorem fits_next (hby : o.byLine = true) (hread : (w.next g o i).cache.req.read = true)
    (hcacheable : (w.next g o i).cache.req.cacheable = true) :
    g.tagValue (w.next g o i).cache.req.addr < 2 ^ g.TAG_BITS := by
  rcases capture_of_read hreset hread with ⟨hreq, hreadBefore⟩ | ⟨hreq, hstart⟩
  · rw [hreq] at hcacheable ⊢
    exact h.fits hby hreadBefore hcacheable
  · rw [hreq] at hcacheable ⊢
    exact hregular.tag hby (Bool.and_eq_true_iff.mpr ⟨hstart, hcacheable⟩)

/-- A regular clock keeps the copies. -/
theorem next (hways : g.WAYS ≤ 256) : (w.next g o i).Coherent g o where
  initRead hstate := (init_next h hreset hstate).1
  initSet hstate := (init_next h hreset hstate).2
  cleared hstate _ := cleared_next h hreset hstate
  fits := fits_next h hreset hregular
  rows := rows_next h hreset hregular
  looked := looked_next h hreset hregular
  compared := compared_next h hreset hregular
  chosen := chosen_next h hreset hregular hways
  loaded := loaded_next h hreset hregular
  beat := beat_next h hreset
  filling := filling_next h hreset hregular
  selected := selected_next h hreset hregular
  response := response_next h hreset hregular

end

theorem of_reset (hreset : i.reset = true) : (w.next g o i).Coherent g o := by
  obtain ⟨hstate, hreq, hpending, hinitSet, hresponse, hselected⟩ :=
    L1Cache.work_reset (g := g) (s := w.cache) hreset
  have hread : (w.cache.work g i).req.read = false := by
    rw [hreq]
    rfl
  have hother : ∀ st, (w.cache.work g i).state = st → st = .init := fun st hst => hst.symm.trans hstate
  exact
    { initRead := fun _ => hread
      initSet := fun _ => by
        change (w.cache.work g i).initSet < _
        rw [hinitSet]
        exact g.sets_pos
      cleared := fun _ _ _ _ set hset => by
        change set < (w.cache.work g i).initSet at hset
        rw [hinitSet] at hset
        exact absurd hset (Nat.not_lt_zero _)
      fits := fun _ hr => absurd (hread.symm.trans hr) Bool.false_ne_true
      rows := fun hne => absurd hstate hne
      looked := fun hst => absurd (hother _ hst) (by simp)
      compared := fun hst => absurd (hother _ hst) (by simp)
      chosen := fun hst => absurd (hother _ hst) (by simp)
      loaded := fun hst => absurd (hother _ hst) (by simp)
      beat := fun _ hr => absurd (hread.symm.trans hr) Bool.false_ne_true
      filling := fun hst => absurd (hother _ hst) (by simp)
      selected := fun hvalid => by
        change (w.cache.work g i).selectedLine.valid = true at hvalid
        rw [hselected] at hvalid
        cases hvalid
      response := fun hvalid => by
        change (w.cache.work g i).response.valid = true at hvalid
        rw [hresponse] at hvalid
        cases hvalid }

end L1World.Coherent

theorem coherent_of_runs {g : L1Geometry} {o : Outdating} (hways : g.WAYS ≤ 256)
    {es : List L1Inputs} {w : L1World} (hrun : (l1Runs g o).Traces es w) : w.Coherent g o := by
  obtain ⟨w₀, ⟨before, i, hreset, rfl⟩, hrun⟩ := hrun
  refine hrun.invariant (fun _ w => w.Coherent g o) (L1World.Coherent.of_reset hreset) ?_
  rintro es w (_ | i) w' hcoherent hstep
  · exact absurd hstep id
  · obtain ⟨hregular, rfl⟩ := hstep
    cases hreset : i.reset with
    | true => exact L1World.Coherent.of_reset hreset
    | false => exact hcoherent.next hreset (hregular hreset) hways

theorem L1World.Coherent.served_fresh {g : L1Geometry} {o : Outdating} {w : L1World}
    (h : w.Coherent g o) (i : L1Inputs) (hvalid : (w.cache.cpuResponse g i).valid = true) :
    w.served.stale = false := by
  unfold L1World.served
  by_cases hresponse : w.cache.response.valid = true
  · rw [if_pos hresponse]
    exact (h.response hresponse).2.2.1.fresh
  · rw [if_neg hresponse]
    have hhit : w.cache.selectedLineHit g i = true := by
      have hor := (Bool.and_eq_true_iff.mp hvalid).1
      rwa [Bool.eq_false_iff.mpr hresponse, Bool.false_or] at hor
    unfold L1Cache.selectedLineHit at hhit
    simp only [Bool.and_eq_true] at hhit
    exact (h.selected hhit.1.1.2).1.fresh

end CppHdl.Cache
