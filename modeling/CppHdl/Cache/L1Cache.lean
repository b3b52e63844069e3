import CppHdl.Basic.Clog2
import CppHdl.Cache.Line
import CppHdl.Cache.Ram

/-!
# The first-level cache

`L1Cache` answers the reads of a CPU from a set-associative store of lines that it
fills from memory. A read goes from `IDLE` through the registered steps of a lookup
to a hit, or to a refill; stores go through to memory and clear the tags of their
set. A tag carries the generation of its set and the epoch of the whole cache it
was written in: a peer's store advances the generation, and when the counter comes
round the tags are cleared one set after another, as after a reset.
-/

namespace CppHdl.Cache

open Basic

/-! ## Geometry -/

/-- The parameters, with what the code asserts of them; a cache has a set. -/
structure L1Geometry where
  TOTAL_CACHE_SIZE : Nat
  WAYS : Nat
  DCACHE : Nat
  ADDR_BITS : Nat
  PORT_BITWIDTH : Nat
  port_whole : 32 ≤ PORT_BITWIDTH ∧ PORT_BITWIDTH % 32 = 0
  port_divides : (32 * 8) % PORT_BITWIDTH = 0
  ways_pos : 0 < WAYS
  ways_divide : TOTAL_CACHE_SIZE % (32 * WAYS) = 0
  size_pos : 0 < TOTAL_CACHE_SIZE
  tag_pos : clog2 (UInt32.ofNat (TOTAL_CACHE_SIZE / 32 / WAYS)) + clog2 32 < ADDR_BITS

namespace L1Geometry

variable (g : L1Geometry)

def SETS : Nat := g.TOTAL_CACHE_SIZE / CACHE_LINE_SIZE / g.WAYS

def TAG_BITS : Nat :=
  g.ADDR_BITS - clog2 (UInt32.ofNat g.SETS) - clog2 (UInt32.ofNat CACHE_LINE_SIZE)

def PORT_BYTES : Nat := g.PORT_BITWIDTH / 8

def PORT_WORDS : Nat := g.PORT_BITWIDTH / 32

def REFILL_BEATS : Nat := CACHE_LINE_SIZE / g.PORT_BYTES

def setIndex (addr : BitVec 32) : Nat := addr.toNat / CACHE_LINE_SIZE % g.SETS

def tagValue (addr : BitVec 32) : Nat := addr.toNat / (CACHE_LINE_SIZE * g.SETS)

/-- `(addr & (CACHE_LINE_SIZE - 1)) / PORT_BYTES`. -/
def refillBeat (addr : BitVec 32) : Nat := addr.toNat % CACHE_LINE_SIZE / g.PORT_BYTES

/-- `addr & ~(PORT_BYTES - 1)`. -/
def beatBase (addr : BitVec 32) : BitVec 32 := addr &&& ~~~BitVec.ofNat 32 (g.PORT_BYTES - 1)

def beatWord (addr : BitVec 32) : Nat := addr.toNat % g.PORT_BYTES / 4

def directCrossBeat (addr : BitVec 32) (cacheDisabled : Bool) : Bool :=
  !cacheDisabled && decide (addr.toNat % 4 ≠ 0) && decide (g.PORT_WORDS ≤ g.beatWord addr + 1)

/-- The banks of 16 bits can represent the read. -/
def cacheable (addr : BitVec 32) (cacheDisabled : Bool) : Bool :=
  !cacheDisabled && decide (addr.toNat % 2 = 0) &&
    !(decide (g.DCACHE ≠ 0) && decide (addr.toNat % 4 ≠ 0) &&
      decide (wordIndex addr = LINE_WORDS - 1)) &&
    !(decide (g.DCACHE = 0) && decide (addr.toNat / 2 % 2 = 1) &&
      decide (wordIndex addr = LINE_WORDS - 1))

theorem setIndex_congr {a b : BitVec 32} (h : lineBase a = lineBase b) :
    g.setIndex a = g.setIndex b := by
  unfold setIndex
  rw [lineBase_eq_iff.mp h]

theorem tagValue_congr {a b : BitVec 32} (h : lineBase a = lineBase b) :
    g.tagValue a = g.tagValue b := by
  unfold tagValue
  rw [← Nat.div_div_eq_div_mul, ← Nat.div_div_eq_div_mul, lineBase_eq_iff.mp h]

theorem lineBase_eq_of_set_tag {a b : BitVec 32} (hset : g.setIndex a = g.setIndex b)
    (htag : g.tagValue a = g.tagValue b) : lineBase a = lineBase b :=
  lineBase_eq_iff.mpr (div_eq_of_set_tag htag hset)

theorem sets_pos : 0 < g.SETS := by
  have hdvd : 32 * g.WAYS ∣ g.TOTAL_CACHE_SIZE := Nat.dvd_of_mod_eq_zero g.ways_divide
  obtain ⟨n, hn⟩ := hdvd
  have hpos := g.size_pos
  have hways := g.ways_pos
  unfold SETS
  rw [Nat.div_div_eq_div_mul, hn, Nat.mul_div_cancel_left _ (by omega)]
  exact Nat.pos_of_mul_pos_left (hn ▸ hpos)

theorem setIndex_lt (addr : BitVec 32) : g.setIndex addr < g.SETS := Nat.mod_lt _ g.sets_pos

def port : PortWidth := ⟨g.PORT_BITWIDTH, g.port_whole, g.port_divides⟩

theorem port_cases : g.PORT_WORDS = 1 ∨ g.PORT_WORDS = 2 ∨ g.PORT_WORDS = 4 ∨ g.PORT_WORDS = 8 :=
  g.port.words_cases

theorem port_bytes : g.PORT_BYTES = 4 * g.PORT_WORDS ∧ g.REFILL_BEATS * g.PORT_WORDS = 8 :=
  ⟨g.port.bytes_eq, g.port.beats_mul⟩

end L1Geometry

/-! ## Registers -/

inductive L1CacheFsmState
  | idle
  | lookup
  | done
  | refill
  | init
  | select
  | assemble
  | compare
  deriving DecidableEq, Inhabited

/-- The low or the high 16 bits of every word of a line. -/
abbrev HalfLine : Type := Nat → BitVec 16

/-- The fields of `logic<TAG_BITS + 10>`, low bits first. -/
structure TagEntry where
  tag : Nat
  setEpoch : BitVec 8
  epoch : Bool
  valid : Bool
  deriving DecidableEq, Inhabited

structure L1RequestState where
  addr : BitVec 32
  read : Bool
  cacheable : Bool
  cacheDisable : Bool
  deriving Inhabited

structure L1RefillState where
  beat : Nat
  evenLine : HalfLine
  oddLine : HalfLine
  reqData : BitVec 32
  reqDataValid : Bool
  deriving Inhabited

structure L1HeldResponse where
  addr : BitVec 32
  data : BitVec 32
  valid : Bool
  deriving Inhabited

structure L1LookupState where
  hit : Bool
  way : BitVec 8
  deriving Inhabited

structure L1SelectedLineState where
  even : HalfLine
  odd : HalfLine
  addr : BitVec 32
  valid : Bool
  deriving Inhabited

structure L1Cache where
  state : L1CacheFsmState
  req : L1RequestState
  tagEpoch : Bool
  epochWrapPending : Bool
  tagSetEpoch : Nat → BitVec 8
  refill : L1RefillState
  victim : Nat
  initSet : Nat
  response : L1HeldResponse
  lookup : L1LookupState
  selectedLine : L1SelectedLineState
  tagEntries : Nat → TagEntry
  evenRam : Nat → Ram HalfLine
  oddRam : Nat → Ram HalfLine
  tagRam : Nat → Ram TagEntry

/-- The ports of the CPU and the peers, and what the memory shows: `read_data_out` by
words and `wait_out`. -/
structure L1Inputs where
  reset : Bool
  write : Bool
  writeData : BitVec 32
  writeMask : BitVec 8
  read : Bool
  addr : BitVec 32
  stall : Bool
  flush : Bool
  invalidate : Bool
  invalidateLine : Bool
  invalidateAddr : BitVec 32
  cacheDisable : Bool
  memData : Nat → BitVec 32
  memWait : Bool
  deriving Inhabited

structure L1MemDriver where
  read : Bool
  write : Bool
  addr : BitVec 32
  writeData : BitVec 32
  writeMask : BitVec 8
  cacheDisable : Bool
  deriving DecidableEq

structure L1CpuResponse where
  data : BitVec 32
  addr : BitVec 32
  valid : Bool
  busy : Bool
  deriving DecidableEq

namespace L1Cache

open L1Geometry

def assembleLineWord (even odd : HalfLine) (word byteOffset : Nat) : BitVec 32 :=
  let wordData := odd word ++ even word
  let nextWordData :=
    if byteOffset ≠ 0 ∧ word + 1 < LINE_WORDS then odd (word + 1) ++ even (word + 1) else 0#32
  if byteOffset = 0 then wordData
  else wordData >>> (byteOffset * 8) ||| nextWordData <<< (32 - byteOffset * 8)

variable (g : L1Geometry) (s : L1Cache) (i : L1Inputs)

/-! ## Combinational logic -/

def accepts : Bool := s.state = .refill && s.req.read && !i.memWait

def refillWord (lines : HalfLine × HalfLine) (k : Nat) : HalfLine × HalfLine :=
  let word := s.refill.beat * g.PORT_WORDS + k
  if word < LINE_WORDS then
    (Function.update lines.1 word ((i.memData k).setWidth 16),
      Function.update lines.2 word ((i.memData k >>> 16).setWidth 16))
  else lines

/-- `refill_lines_comb`, even and odd. -/
def refillLines : HalfLine × HalfLine :=
  (List.range g.PORT_WORDS).foldl (s.refillWord g i) (s.refill.evenLine, s.refill.oddLine)

def refillData : BitVec 32 :=
  assembleLineWord (s.refillLines g i).1 (s.refillLines g i).2 (wordIndex s.req.addr)
    (s.req.addr.toNat % 4)

def directData : BitVec 32 :=
  let byte := s.req.addr.toNat % 4
  let word := g.beatWord s.req.addr
  if !s.req.cacheable && g.directCrossBeat s.req.addr s.req.cacheDisable then i.memData 0
  else if byte ≠ 0 ∧ word + 1 < g.PORT_WORDS then
    i.memData word >>> (byte * 8) ||| i.memData (word + 1) <<< (32 - byte * 8)
  else if byte ≠ 0 then i.memData word >>> (byte * 8) ||| i.memData 0 <<< (32 - byte * 8)
  else i.memData word >>> (byte * 8)

/-- Valid, epoch, generation and tag agree. -/
def tagMatches (entry : TagEntry) : Bool :=
  entry.valid && entry.epoch == s.tagEpoch &&
    entry.setEpoch == s.tagSetEpoch (g.setIndex s.req.addr) &&
    decide (entry.tag = g.tagValue s.req.addr)

/-- The loop over the ways; the last match stays. -/
def lookupWay (found : L1LookupState) (way : Nat) : L1LookupState :=
  if s.tagMatches g (s.tagEntries way) then ⟨true, BitVec.ofNat 8 way⟩ else found

def lookupComb : L1LookupState :=
  if s.state = .compare ∧ s.req.read ∧ s.req.cacheable then
    (List.range g.WAYS).foldl (s.lookupWay g) ⟨false, 0⟩
  else ⟨false, 0⟩

/-- `selected_line_comb`, `lookup_reg.way == i` for the way it is. -/
def selectedLineComb : L1SelectedLineState :=
  if s.state = .select ∧ s.lookup.hit ∧ s.lookup.way.toNat < g.WAYS then
    { even := (s.evenRam s.lookup.way.toNat).q
      odd := (s.oddRam s.lookup.way.toNat).q
      addr := lineBase s.req.addr
      valid := true }
  else default

def selectedLineHit : Bool :=
  decide (s.state = .idle) && i.read && !i.write && !i.flush && s.selectedLine.valid &&
    g.cacheable i.addr i.cacheDisable && lineBase i.addr == s.selectedLine.addr

def selectedLineData : BitVec 32 :=
  assembleLineWord s.selectedLine.even s.selectedLine.odd (wordIndex i.addr) (i.addr.toNat % 4)

def lookupData : BitVec 32 :=
  assembleLineWord s.selectedLine.even s.selectedLine.odd (wordIndex s.req.addr)
    (s.req.addr.toNat % 4)

/-- A read is accepted, and the RAMs read its set. -/
def start : Bool :=
  i.read && !i.stall && !s.selectedLineHit g i &&
    (decide (s.state = .idle) ||
      decide (s.state = .done) && s.req.cacheable && i.addr != s.response.addr)

/-- The tag is cut to its field. -/
def refillTag : TagEntry where
  tag := g.tagValue s.req.addr % 2 ^ g.TAG_BITS
  setEpoch := s.tagSetEpoch (g.setIndex s.req.addr)
  epoch := s.tagEpoch
  valid := true

def memDriver : L1MemDriver where
  read := decide (s.state = .refill) && s.req.read
  write := i.write
  addr :=
    if s.state = .refill ∧ s.req.read ∧ s.req.cacheable then
      lineBase s.req.addr + BitVec.ofNat 32 (s.refill.beat * g.PORT_BYTES)
    else if s.state = .refill ∧ s.req.read then
      if g.DCACHE ≠ 0 ∧ !s.req.cacheDisable ∧ !g.directCrossBeat s.req.addr s.req.cacheDisable then
        g.beatBase s.req.addr
      else s.req.addr
    else i.addr
  writeData := i.writeData
  writeMask := i.writeMask
  cacheDisable := if i.write then i.cacheDisable else s.req.cacheDisable

def cpuResponse : L1CpuResponse where
  data :=
    if s.response.valid then s.response.data
    else if s.selectedLineHit g i then s.selectedLineData i
    else s.directData g i
  addr :=
    if s.response.valid then s.response.addr
    else if s.selectedLineHit g i then i.addr
    else s.req.addr
  valid := (s.response.valid || s.selectedLineHit g i) && !s.epochWrapPending
  busy := s.epochWrapPending || s.state ∈ [.init, .refill, .lookup, .compare, .select, .assemble]

/-! ## RAM ports -/

/-- The last beat of a refill goes into the victim. -/
def installs : Bool :=
  s.accepts i && s.req.cacheable && decide (s.refill.beat = g.REFILL_BEATS - 1)

/-- The set of the request or of the live address. -/
def dataAddr : Nat :=
  if s.state = .refill ∨ s.state = .lookup ∧ !s.start g i then g.setIndex s.req.addr
  else g.setIndex i.addr

def tagAddr : Nat :=
  if s.state = .init then s.initSet
  else if i.write then g.setIndex i.addr
  else s.dataAddr g i

def tagData : TagEntry := if s.state = .refill then s.refillTag g else default

def tagWrite (way : Nat) : Bool :=
  decide (s.state = .init) || (s.installs g i && decide (s.victim = way)) || i.write

def ramRead : Bool := s.start g i && g.cacheable i.addr i.cacheDisable

/-! ## The clock edge -/

/-- The line of the request that is under way is invalidated. -/
def invalidateConflict : Bool :=
  i.invalidateLine && s.req.read && lineBase s.req.addr == lineBase i.invalidateAddr

def invalidateEpochWrap : Bool :=
  i.invalidateLine && s.tagSetEpoch (g.setIndex i.invalidateAddr) == 0xff#8

/-- The branches of `_work`, in the order they are tried. -/
inductive Branch
  | wrap
  | conflict
  | invalidate
  | flush
  | init
  | idle
  | lookup
  | compare
  | select
  | assemble
  | refill
  | done
  | hold
  deriving DecidableEq

def branch : Branch :=
  if s.epochWrapPending then .wrap
  else if s.invalidateConflict i then .conflict
  else if i.invalidate then .invalidate
  else if i.flush then .flush
  else match s.state with
    | .init => .init
    | .idle => .idle
    | .lookup => if s.req.read then .lookup else .hold
    | .compare => if s.req.read then .compare else .hold
    | .select => if s.req.read then .select else .hold
    | .assemble => if s.req.read then .assemble else .hold
    | .refill => if s.req.read then .refill else .hold
    | .done => if i.stall then .hold else .done

/-- The refill bookkeeping starts over in every lookup. -/
def clearRefill (n : L1Cache) : L1Cache :=
  if s.state = .lookup ∧ s.req.read then
    { n with refill := { n.refill with beat := 0, reqDataValid := false } }
  else n

/-- A peer's store advances the generation of its set. -/
def advanceEpoch (n : L1Cache) : L1Cache :=
  if i.invalidateLine then
    let set := g.setIndex i.invalidateAddr
    let n := { n with
      tagSetEpoch := Function.update s.tagSetEpoch set (s.tagSetEpoch set + 1) }
    if s.invalidateEpochWrap g i then
      { n with tagEpoch := !s.tagEpoch, epochWrapPending := true }
    else n
  else n

/-- No read, no response and no saved word. -/
def dropRequest (n : L1Cache) : L1Cache :=
  { n with
    req := { n.req with read := false }
    response := { n.response with valid := false }
    refill := { n.refill with reqDataValid := false } }

/-- The live read becomes the request. -/
def capture : L1RequestState where
  addr := i.addr
  read := true
  cacheable := g.cacheable i.addr i.cacheDisable
  cacheDisable := i.cacheDisable

/-- The last beat of a line fills the response, the selected line and the victim. -/
def finishRefill (n : L1Cache) : L1Cache :=
  let lines := s.refillLines g i
  { n with
    response :=
      { addr := s.req.addr
        data :=
          if s.refill.beat = g.refillBeat s.req.addr then s.directData g i
          else if s.refill.reqDataValid then s.refill.reqData
          else s.refillData g i
        valid := true }
    selectedLine :=
      { even := lines.1, odd := lines.2, addr := lineBase s.req.addr, valid := true }
    refill := { n.refill with reqDataValid := false }
    victim := if s.victim = g.WAYS - 1 then 0 else s.victim + 1
    state := .done }

/-- An accepted beat of a line. -/
def refillLine (n : L1Cache) : L1Cache :=
  let lines := s.refillLines g i
  let saves := s.refill.beat = g.refillBeat s.req.addr ∧ s.req.addr.toNat % 4 = 0
  let n := { n with
    refill := { n.refill with
      evenLine := lines.1
      oddLine := lines.2
      reqData := if saves then s.directData g i else n.refill.reqData
      reqDataValid := if saves then true else n.refill.reqDataValid } }
  if s.refill.beat = g.REFILL_BEATS - 1 then s.finishRefill g i n
  else { n with refill := { n.refill with beat := s.refill.beat + 1 } }

def sequence (n : L1Cache) : Branch → L1Cache
  | .wrap => { dropRequest n with initSet := 0, state := .init, epochWrapPending := false }
  | .conflict => { dropRequest n with state := .idle }
  | .invalidate => { dropRequest n with initSet := 0, state := .init }
  | .flush =>
      { n with
        req := { n.req with read := false, cacheable := false }
        response := { n.response with valid := false }
        state := .idle }
  | .init =>
      let n := dropRequest n
      if s.initSet = g.SETS - 1 then { n with state := .idle }
      else { n with initSet := s.initSet + 1 }
  | .idle =>
      let n := { n with response := { n.response with valid := false } }
      if s.start g i then { n with req := capture g i, state := .lookup } else n
  | .lookup => { n with tagEntries := fun way => (s.tagRam way).q, state := .compare }
  | .compare => { n with lookup := s.lookupComb g, state := .select }
  | .select =>
      if s.lookup.hit then
        { n with selectedLine := s.selectedLineComb g, state := .assemble }
      else { n with state := .refill }
  | .assemble =>
      { n with
        response := { addr := s.req.addr, data := s.lookupData, valid := true }
        state := .done }
  | .refill =>
      if i.memWait then n
      else if s.req.cacheable then s.refillLine g i n
      else { n with
        response := { addr := s.req.addr, data := s.directData g i, valid := true }
        state := .done }
  | .done =>
      let n := { n with response := { n.response with valid := false } }
      if s.start g i then { n with req := capture g i, state := .lookup }
      else { n with req := { n.req with read := false, cacheable := false }, state := .idle }
  | .hold => n

/-- Stores drop the response and the selected line, invalidations the selected line. -/
def dropCopies (n : L1Cache) : L1Cache :=
  { n with
    response := { n.response with valid := n.response.valid && !i.write }
    selectedLine := { n.selectedLine with
      valid := n.selectedLine.valid && !i.write && !(i.invalidate || s.epochWrapPending) &&
        !(i.invalidateLine && s.selectedLine.valid &&
          decide (g.setIndex s.selectedLine.addr = g.setIndex i.invalidateAddr)) } }

def ramWork (n : L1Cache) : L1Cache :=
  let addr := s.dataAddr g i
  let lines := s.refillLines g i
  let installs way := s.installs g i && decide (s.victim = way)
  { n with
    evenRam := fun way =>
      (s.evenRam way).work i.reset (installs way) (s.ramRead g i) addr lines.1
    oddRam := fun way =>
      (s.oddRam way).work i.reset (installs way) (s.ramRead g i) addr lines.2
    tagRam := fun way =>
      (s.tagRam way).work i.reset (s.tagWrite g i way) (s.ramRead g i) (s.tagAddr g i)
        (s.tagData g) }

/-- What a reset leaves: `state_reg` starts the walk over the tags. -/
def clear (n : L1Cache) : L1Cache :=
  { n with
    state := .init
    req := default
    tagEpoch := false
    epochWrapPending := false
    tagSetEpoch := fun _ => 0
    refill := default
    victim := 0
    initSet := 0
    response := default
    lookup := default
    selectedLine := default
    tagEntries := fun _ => default }

/-- `_work` and the strobe after it. -/
def work : L1Cache :=
  let n := s.clearRefill s
  let n := s.advanceEpoch g i n
  let n := s.sequence g i n (s.branch i)
  let n := s.dropCopies g i n
  let n := s.ramWork g i n
  if i.reset then n.clear else n

end L1Cache

end CppHdl.Cache
