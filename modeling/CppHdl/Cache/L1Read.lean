import CppHdl.Cache.L1Invalidation

/-!
# What the first-level cache reads

The cache in front of a memory of bytes. The memory answers a read with its beat, or
with the word itself when that runs past the beat; it performs a store in any of the
clocks the store is presented. Every response is then the word at its address, from
whichever place it is served.
-/

namespace CppHdl.Cache

open L1Geometry

def storeOutdated : Outdating := ⟨false, false, true⟩

structure L1System where
  world : L1World
  mem : BitVec 32 → BitVec 8

/-- The inputs of a clock, and whether the memory performs the store. -/
structure L1Clock where
  inputs : L1Inputs
  commits : Bool

/-- The words of a beat that answers a read. A bypassed read has no word past the beat. -/
def Serves (g : L1Geometry) (mem : BitVec 32 → BitVec 8) (d : L1MemDriver)
    (data : Nat → BitVec 32) : Prop :=
  if g.directCrossBeat d.addr d.cacheDisable then data 0 = wordAt mem d.addr
  else ∀ j < g.PORT_WORDS, data j = wordAt mem (g.beatBase d.addr + BitVec.ofNat 32 (4 * j))

namespace L1System

variable (g : L1Geometry)

def memNext (x : L1System) (e : L1Clock) : BitVec 32 → BitVec 8 :=
  if e.inputs.write && e.commits then
    storeAt x.mem e.inputs.addr e.inputs.writeData e.inputs.writeMask
  else x.mem

def next (x : L1System) (e : L1Clock) : L1System where
  world := x.world.next g storeOutdated e.inputs
  mem := x.memNext e

/-- The memory answers, and the clock is regular; the bytes of a bypassed read are in
one beat. -/
structure Allowed (x : L1System) (e : L1Clock) : Prop where
  regular : x.world.cache.Regular g e.inputs storeOutdated
  memory : (x.world.cache.memDriver g e.inputs).read = true → e.inputs.memWait = false →
    Serves g x.mem (x.world.cache.memDriver g e.inputs) e.inputs.memData
  bypass : x.world.cache.start g e.inputs = true → e.inputs.cacheDisable = true →
    e.inputs.addr.toNat % 4 = 0 ∨ g.beatWord e.inputs.addr + 1 < g.PORT_WORDS

end L1System

/-- Runs from a reset, of allowed clocks and resets. -/
def l1Reads (g : L1Geometry) : Transitions L1System L1Clock where
  init x := ∃ (x₀ : L1System) (e : L1Clock), e.inputs.reset = true ∧ x = x₀.next g e
  step
    | x, some e, x' => (e.inputs.reset = false → x.Allowed g e) ∧ x' = x.next g e
    | _, none, _ => False

/-! ## Words of a line -/

namespace L1Geometry

variable (g : L1Geometry)

/-- A read that the banks represent ends in its line. -/
theorem fits_of_cacheable {a : BitVec 32} {disabled : Bool} (h : g.cacheable a disabled = true) :
    a.toNat % 4 = 0 ∨ wordIndex a + 1 < LINE_WORDS := by
  unfold cacheable at h
  simp only [Bool.and_eq_true, Bool.not_eq_true', decide_eq_true_eq, Bool.and_eq_false_iff,
    decide_eq_false_iff_not] at h
  obtain ⟨⟨⟨-, heven⟩, hdata⟩, hinstruction⟩ := h
  have hlt : wordIndex a < LINE_WORDS := Nat.mod_lt _ (by decide)
  have hwords : LINE_WORDS = 8 := rfl
  by_cases hport : g.DCACHE = 0 <;> omega

end L1Geometry

/-- The words of the lines of both banks are those of the memory. -/
def HoldsTo (mem : BitVec 32 → BitVec 8) (line : BitVec 32) (even odd : HalfLine) (n : Nat) : Prop :=
  ∀ word < n, odd word ++ even word = wordAt mem (line + BitVec.ofNat 32 (4 * word))

theorem assembleLineWord_eq {mem : BitVec 32 → BitVec 8} {a : BitVec 32} {even odd : HalfLine}
    (h : HoldsTo mem (lineBase a) even odd LINE_WORDS)
    (hfits : a.toNat % 4 = 0 ∨ wordIndex a + 1 < LINE_WORDS) :
    L1Cache.assembleLineWord even odd (wordIndex a) (a.toNat % 4) = wordAt mem a := by
  have hword := h (wordIndex a) (Nat.mod_lt _ (by decide))
  have haddr := addr_eq a
  unfold L1Cache.assembleLineWord
  by_cases hbyte : a.toNat % 4 = 0
  · rw [hbyte, BitVec.add_zero] at haddr
    rw [if_pos hbyte, hword, haddr]
  · have hnext := hfits.resolve_left hbyte
    dsimp only
    rw [if_neg hbyte, if_pos ⟨hbyte, hnext⟩, hword, h _ hnext]
    have hadd : lineBase a + BitVec.ofNat 32 (4 * (wordIndex a + 1)) =
        lineBase a + BitVec.ofNat 32 (4 * wordIndex a) + BitVec.ofNat 32 4 := by
      rw [BitVec.add_assoc, ← BitVec.ofNat_add]
      rfl
    rw [hadd, wordAt_unaligned mem _ (Nat.mod_lt _ (by decide)), haddr]

/-! ## Beats -/

namespace L1Geometry

variable (g : L1Geometry)

/-- No word at the start of a beat runs past it. -/
theorem directCrossBeat_beatBase (a : BitVec 32) (disabled : Bool) :
    g.directCrossBeat (g.beatBase a) disabled = false := by
  have haligned : (g.beatBase a).toNat % 4 = 0 := g.port.beatBase_aligned a
  unfold directCrossBeat
  rw [haligned]
  simp

end L1Geometry

theorem halves_append (x : BitVec 32) :
    (x >>> 16).setWidth 16 ++ x.setWidth 16 = (x : BitVec (16 + 16)) := by
  apply BitVec.eq_of_getLsbD_eq
  intro j hj
  rw [BitVec.getLsbD_append, BitVec.getLsbD_setWidth, BitVec.getLsbD_setWidth,
    BitVec.getLsbD_ushiftRight]
  by_cases hlow : j < 16
  · rw [if_pos hlow, decide_eq_true hlow, Bool.true_and]
  · rw [if_neg hlow, decide_eq_true (by omega : j - 16 < 16), Bool.true_and,
      Nat.add_sub_cancel' (Nat.not_lt.mp hlow)]

namespace L1Cache

variable {g : L1Geometry} {s : L1Cache} {i : L1Inputs}

theorem refillLines_apply {word : Nat} (hword : word < LINE_WORDS) :
    (s.refillLines g i).2 word ++ (s.refillLines g i).1 word =
      if s.refill.beat * g.PORT_WORDS ≤ word ∧ word < s.refill.beat * g.PORT_WORDS + g.PORT_WORDS then
        i.memData (word - s.refill.beat * g.PORT_WORDS)
      else s.refill.oddLine word ++ s.refill.evenLine word := by
  have key : ∀ n, ((List.range n).foldl (s.refillWord g i) (s.refill.evenLine, s.refill.oddLine)).2
        word ++ ((List.range n).foldl (s.refillWord g i) (s.refill.evenLine, s.refill.oddLine)).1
        word =
      if s.refill.beat * g.PORT_WORDS ≤ word ∧ word < s.refill.beat * g.PORT_WORDS + n then
        i.memData (word - s.refill.beat * g.PORT_WORDS)
      else s.refill.oddLine word ++ s.refill.evenLine word := by
    intro n
    induction n with
    | zero =>
        rw [if_neg (by omega)]
        rfl
    | succ n ih =>
        rw [List.range_succ, List.foldl_append, List.foldl_cons, List.foldl_nil]
        generalize (List.range n).foldl (s.refillWord g i)
          (s.refill.evenLine, s.refill.oddLine) = lines at ih
        unfold refillWord
        by_cases hhere : word = s.refill.beat * g.PORT_WORDS + n
        · rw [if_pos (hhere ▸ hword), if_pos (by omega), hhere]
          dsimp only
          rw [Function.update_self, Function.update_self, Nat.add_sub_cancel_left]
          exact halves_append (i.memData n)
        · have hcond : (s.refill.beat * g.PORT_WORDS ≤ word ∧
              word < s.refill.beat * g.PORT_WORDS + (n + 1)) ↔
              (s.refill.beat * g.PORT_WORDS ≤ word ∧ word < s.refill.beat * g.PORT_WORDS + n) := by
            omega
          rw [if_congr hcond rfl rfl, ← ih]
          by_cases hlast : s.refill.beat * g.PORT_WORDS + n < LINE_WORDS
          · rw [if_pos hlast]
            dsimp only
            rw [Function.update_of_ne hhere, Function.update_of_ne hhere]
          · rw [if_neg hlast]
  exact key g.PORT_WORDS

/-- What a beat answers directly, a word that is in it. -/
theorem directData_eq {mem : BitVec 32 → BitVec 8}
    (hdata : ∀ j < g.PORT_WORDS,
      i.memData j = wordAt mem (g.beatBase s.req.addr + BitVec.ofNat 32 (4 * j)))
    (hcross : (!s.req.cacheable && g.directCrossBeat s.req.addr s.req.cacheDisable) = false)
    (hfits : s.req.addr.toNat % 4 = 0 ∨ g.beatWord s.req.addr + 1 < g.PORT_WORDS) :
    s.directData g i = wordAt mem s.req.addr := by
  have hword : g.beatWord s.req.addr < g.PORT_WORDS := g.port.beatWord_lt _
  have haddr : g.beatBase s.req.addr + BitVec.ofNat 32 (4 * g.beatWord s.req.addr) +
      BitVec.ofNat 32 (s.req.addr.toNat % 4) = s.req.addr := g.port.beat_eq _
  unfold directData
  dsimp only
  rw [hcross, if_neg Bool.false_ne_true, hdata _ hword]
  by_cases hbyte : s.req.addr.toNat % 4 = 0
  · rw [hbyte, BitVec.add_zero] at haddr
    rw [if_neg fun hne => hne.1 hbyte, if_neg fun hne => hne hbyte, hbyte, haddr, Nat.zero_mul,
      BitVec.ushiftRight_zero]
  · have hnext := hfits.resolve_left hbyte
    have hadd : g.beatBase s.req.addr + BitVec.ofNat 32 (4 * (g.beatWord s.req.addr + 1)) =
        g.beatBase s.req.addr + BitVec.ofNat 32 (4 * g.beatWord s.req.addr) +
          BitVec.ofNat 32 4 := by
      rw [BitVec.add_assoc, ← BitVec.ofNat_add]
      rfl
    rw [if_pos ⟨hbyte, hnext⟩, hdata _ hnext, hadd,
      wordAt_unaligned mem _ (Nat.mod_lt _ (by decide)), haddr]

theorem memDriver_addr_direct (hstate : s.state = .refill) (hread : s.req.read = true)
    (hdirect : s.req.cacheable = false) :
    (s.memDriver g i).addr = s.req.addr ∨ (s.memDriver g i).addr = g.beatBase s.req.addr ∧
      g.directCrossBeat s.req.addr s.req.cacheDisable = false := by
  unfold memDriver
  dsimp only
  rw [if_neg (by rw [hdirect]; simp), if_pos ⟨hstate, hread⟩]
  split_ifs with hbase
  · exact .inr ⟨rfl, by simpa using hbase.2.2⟩
  · exact .inl rfl

/-- A read that goes past the banks. -/
theorem directData_of_serves {mem : BitVec 32 → BitVec 8} (hstate : s.state = .refill)
    (hread : s.req.read = true) (hdirect : s.req.cacheable = false) (hwrite : i.write = false)
    (hserves : Serves g mem (s.memDriver g i) i.memData)
    (hbypass : s.req.cacheDisable = true →
      s.req.addr.toNat % 4 = 0 ∨ g.beatWord s.req.addr + 1 < g.PORT_WORDS) :
    s.directData g i = wordAt mem s.req.addr := by
  have hdisable : (s.memDriver g i).cacheDisable = s.req.cacheDisable :=
    if_neg (Bool.eq_false_iff.mp hwrite)
  have haddr := memDriver_addr_direct (g := g) (i := i) hstate hread hdirect
  unfold Serves at hserves
  rw [hdisable] at hserves
  cases hcross : g.directCrossBeat s.req.addr s.req.cacheDisable with
  | true =>
      -- the memory answers with the word itself
      rw [hcross] at haddr
      have hself := haddr.resolve_right fun hbase => by cases hbase.2
      rw [hself, hcross, if_pos rfl] at hserves
      unfold directData
      rw [hdirect, hcross]
      exact hserves
  | false =>
      have hbeat : g.directCrossBeat (s.memDriver g i).addr s.req.cacheDisable = false ∧
          g.beatBase (s.memDriver g i).addr = g.beatBase s.req.addr := by
        rcases haddr with hself | ⟨hbase, -⟩
        · rw [hself]
          exact ⟨hcross, rfl⟩
        · rw [hbase]
          exact ⟨g.directCrossBeat_beatBase _ _, g.port.beatBase_beatBase _⟩
      rw [hbeat.1, if_neg Bool.false_ne_true, hbeat.2] at hserves
      refine directData_eq hserves (by rw [hcross, Bool.and_false]) ?_
      cases hdisabled : s.req.cacheDisable with
      | true => exact hbypass hdisabled
      | false =>
          unfold directCrossBeat at hcross
          rw [hdisabled] at hcross
          simp only [Bool.not_false, Bool.true_and, Bool.and_eq_false_iff, decide_eq_false_iff_not]
            at hcross
          omega

theorem memData_of_serves {mem : BitVec 32 → BitVec 8} (hstate : s.state = .refill)
    (hread : s.req.read = true) (hcacheable : s.req.cacheable = true)
    (hbeat : s.refill.beat < g.REFILL_BEATS)
    (hserves : Serves g mem (s.memDriver g i) i.memData) {j : Nat} (hj : j < g.PORT_WORDS) :
    i.memData j = wordAt mem
      (lineBase s.req.addr + BitVec.ofNat 32 (4 * (s.refill.beat * g.PORT_WORDS + j))) := by
  have haddr : (s.memDriver g i).addr =
      lineBase s.req.addr + BitVec.ofNat 32 (s.refill.beat * g.PORT_BYTES) :=
    if_pos ⟨hstate, hread, hcacheable⟩
  have hbase : g.beatBase (lineBase s.req.addr + BitVec.ofNat 32 (s.refill.beat * g.PORT_BYTES)) =
      lineBase s.req.addr + BitVec.ofNat 32 (s.refill.beat * g.PORT_BYTES) :=
    g.port.beatBase_lineBase_add s.req.addr hbeat
  unfold Serves at hserves
  rw [haddr, ← hbase, g.directCrossBeat_beatBase, if_neg Bool.false_ne_true, hbase, hbase]
    at hserves
  rw [hserves j hj, BitVec.add_assoc, ← BitVec.ofNat_add, g.port_bytes.1, Nat.mul_add 4,
    Nat.mul_left_comm 4]

/-- Outside of a lookup the branches start from the refill as it is. -/
theorem base_refill (h : s.state ≠ .lookup) : (s.base g i).refill = s.refill := by
  unfold base
  rw [advanceEpoch_eq, clearRefill_eq]
  exact if_neg fun hlookup => h hlookup.1

/-- In a lookup the saved word is dropped, and it stays so until the first beat. -/
theorem reqDataValid_work (hreset : i.reset = false) :
    (s.branch i = .lookup → (s.work g i).refill.reqDataValid = false) ∧
      (s.branch i = .compare → (s.work g i).refill = s.refill) ∧
      (s.branch i = .select → (s.work g i).refill = s.refill) := by
  rw [work_refill hreset]
  refine ⟨fun hbranch => ?_, fun hbranch => ?_, fun hbranch => ?_⟩ <;>
    obtain ⟨-, hstate, hread⟩ := taken_of_branch hbranch <;> rw [hbranch]
  · unfold base
    rw [advanceEpoch_eq, clearRefill_eq, if_pos ⟨hstate, hread⟩]
    rfl
  · exact base_refill (by rw [hstate]; decide)
  · rw [← base_refill (g := g) (s := s) (i := i) (by rw [hstate]; decide)]
    simp only [sequence]
    split_ifs <;> rfl

theorem refill_work (hreset : i.reset = false) (hbranch : s.branch i = .refill)
    (hcacheable : s.req.cacheable = true) (hmore : s.refill.beat ≠ g.REFILL_BEATS - 1)
    (hwait : i.memWait = false) :
    (s.work g i).refill =
      { beat := s.refill.beat + 1
        evenLine := (s.refillLines g i).1
        oddLine := (s.refillLines g i).2
        reqData :=
          if s.refill.beat = g.refillBeat s.req.addr ∧ s.req.addr.toNat % 4 = 0 then
            s.directData g i
          else s.refill.reqData
        reqDataValid :=
          if s.refill.beat = g.refillBeat s.req.addr ∧ s.req.addr.toNat % 4 = 0 then true
          else s.refill.reqDataValid } := by
  obtain ⟨-, hstate, -⟩ := taken_of_branch hbranch
  have hbase := base_refill (g := g) (s := s) (i := i) (by rw [hstate]; decide)
  rw [work_refill hreset, hbranch]
  simp only [sequence, hwait, hcacheable, refillLine, if_neg hmore, if_true, Bool.false_eq_true,
    if_false, hbase]

/-- While the memory waits nothing changes. -/
theorem refill_work_wait (hreset : i.reset = false) (hbranch : s.branch i = .refill)
    (hwait : i.memWait = true) : (s.work g i).refill = s.refill := by
  obtain ⟨-, hstate, -⟩ := taken_of_branch hbranch
  rw [work_refill hreset, hbranch, ← base_refill (g := g) (s := s) (i := i) (by rw [hstate]; decide)]
  simp only [sequence, hwait, if_true]

end L1Cache

/-! ## Correct copies -/

def Copy.Holds (mem : BitVec 32 → BitVec 8) (k : Copy) (even odd : HalfLine) : Prop :=
  k.stale = false → lineBase k.line = k.line ∧ HoldsTo mem k.line even odd LINE_WORDS

/-- Every copy is of its line, and so is every response. -/
structure L1System.Correct (g : L1Geometry) (x : L1System) : Prop where
  coherent : x.world.Coherent g storeOutdated
  cacheable : x.world.cache.req.read = true →
    x.world.cache.req.cacheable =
      g.cacheable x.world.cache.req.addr x.world.cache.req.cacheDisable
  bypass : x.world.cache.req.read = true → x.world.cache.req.cacheDisable = true →
    x.world.cache.req.addr.toNat % 4 = 0 ∨
      g.beatWord x.world.cache.req.addr + 1 < g.PORT_WORDS
  rows : ∀ way set, (x.world.copies.rows way set).Holds x.mem
    ((x.world.cache.evenRam way).buffer set) ((x.world.cache.oddRam way).buffer set)
  read : ∀ way, (x.world.copies.read way).Holds x.mem
    (x.world.cache.evenRam way).q (x.world.cache.oddRam way).q
  selected : x.world.copies.selected.Holds x.mem
    x.world.cache.selectedLine.even x.world.cache.selectedLine.odd
  chosen : x.world.cache.state = .select → x.world.cache.req.read = true →
    x.world.cache.lookup.hit = true →
      x.world.cache.req.cacheable = true ∧ x.world.cache.lookup.way.toNat < g.WAYS
  loaded : x.world.cache.state = .assemble → x.world.cache.req.read = true →
    x.world.cache.req.cacheable = true
  saved : x.world.cache.state = .compare ∨ x.world.cache.state = .select →
    x.world.cache.req.read = true → x.world.cache.refill.reqDataValid = false
  filling : x.world.cache.state = .refill → x.world.cache.req.read = true →
    x.world.cache.req.cacheable = true → x.world.cache.refill.beat < g.REFILL_BEATS ∧
      HoldsTo x.mem (lineBase x.world.cache.req.addr) x.world.cache.refill.evenLine
        x.world.cache.refill.oddLine (x.world.cache.refill.beat * g.PORT_WORDS) ∧
      (x.world.cache.refill.reqDataValid = true →
        x.world.cache.refill.reqData = wordAt x.mem x.world.cache.req.addr)
  response : x.world.cache.response.valid = true →
    x.world.cache.response.data = wordAt x.mem x.world.cache.req.addr

/-! ## What a clock keeps -/

section

variable {g : L1Geometry} {x : L1System} {e : L1Clock} {k : Copy} {even odd : HalfLine}

/-- A store changes the bytes of the lines it writes. -/
theorem memNext_of_stores {b : BitVec 32} (h : e.inputs.stores (lineBase b) = false) :
    x.memNext e b = x.mem b := by
  unfold L1System.memNext
  split_ifs with hcommit
  · have hwrite := (Bool.and_eq_true_iff.mp hcommit).1
    refine storeAt_of_forall_ne fun n hn hmask hhere => ?_
    unfold L1Inputs.stores at h
    rw [hwrite, Bool.true_and, List.any_eq_false] at h
    refine h n (List.mem_range.mpr hn) ?_
    rw [hmask, hhere, beq_self_eq_true]
    rfl
  · rfl

theorem memNext_of_write (h : e.inputs.write = false) : x.memNext e = x.mem := by
  unfold L1System.memNext
  rw [h]
  rfl

theorem HoldsTo.next {line : BitVec 32} (hline : lineBase line = line)
    (h : HoldsTo x.mem line even odd LINE_WORDS) (hstores : e.inputs.stores line = false) :
    HoldsTo (x.memNext e) line even odd LINE_WORDS := by
  intro word hword
  rw [h word hword]
  refine wordAt_congr fun n hn => (memNext_of_stores ?_).symm
  have hwords : LINE_WORDS = 8 := rfl
  rw [BitVec.add_assoc, ← BitVec.ofNat_add, lineBase_add hline (by omega)]
  exact hstores

theorem Copy.Holds.outdate (h : k.Holds x.mem even odd) :
    (k.outdate storeOutdated e.inputs).Holds (x.memNext e) even odd := by
  intro hfresh
  obtain ⟨hbefore, hout⟩ := Bool.or_eq_false_iff.mp hfresh
  obtain ⟨hbase, hholds⟩ := h hbefore
  refine ⟨hbase, hholds.next hbase ?_⟩
  rw [← Bool.not_eq_true]
  intro (hstores : e.inputs.stores k.line = true)
  have hoff : storeOutdated.outdates e.inputs k.line = true := by
    change (false && e.inputs.invalidate || (false && _ || true && e.inputs.stores k.line)) = true
    rw [hstores]
    rfl
  exact Bool.false_ne_true (hout.symm.trans hoff)

end

namespace L1System.Correct

variable {g : L1Geometry} {x : L1System} {e : L1Clock}

section

variable (h : x.Correct g)
include h

theorem filled (hallowed : x.Allowed g e) (haccepts : x.world.cache.accepts e.inputs = true)
    (hcacheable : x.world.cache.req.cacheable = true) :
    HoldsTo x.mem (lineBase x.world.cache.req.addr) (x.world.cache.refillLines g e.inputs).1
      (x.world.cache.refillLines g e.inputs).2
      (x.world.cache.refill.beat * g.PORT_WORDS + g.PORT_WORDS) := by
  obtain ⟨⟨hstate, hread⟩, hwait⟩ : (x.world.cache.state = .refill ∧
      x.world.cache.req.read = true) ∧ e.inputs.memWait = false := by
    simpa [L1Cache.accepts] using haccepts
  obtain ⟨hbeat, hholds, -⟩ := h.filling hstate hread hcacheable
  have hserves := hallowed.memory (by simp [L1Cache.memDriver, hstate, hread]) hwait
  have hbeats := g.port_bytes.2
  have hwords : LINE_WORDS = 8 := rfl
  intro word hword
  have hlt : word < LINE_WORDS := by
    have hle : (x.world.cache.refill.beat + 1) * g.PORT_WORDS ≤ g.REFILL_BEATS * g.PORT_WORDS :=
      Nat.mul_le_mul_right _ hbeat
    rw [Nat.add_mul, Nat.one_mul] at hle
    omega
  rw [L1Cache.refillLines_apply hlt]
  by_cases hold : x.world.cache.refill.beat * g.PORT_WORDS ≤ word
  · rw [if_pos ⟨hold, hword⟩, L1Cache.memData_of_serves hstate hread hcacheable hbeat hserves
      (by omega), Nat.add_sub_cancel' hold]
  · rw [if_neg fun hin => hold hin.1]
    exact hholds word (by omega)

/-- The last beat completes the line. -/
theorem installed (hallowed : x.Allowed g e) (hinstalls : x.world.cache.installs g e.inputs = true) :
    (x.world.copies.fetched x.world.cache e.inputs).Holds x.mem
      (x.world.cache.refillLines g e.inputs).1 (x.world.cache.refillLines g e.inputs).2 := by
  obtain ⟨hboth, hlast⟩ := Bool.and_eq_true_iff.mp hinstalls
  obtain ⟨haccepts, hcacheable⟩ := Bool.and_eq_true_iff.mp hboth
  obtain ⟨hstate, hread⟩ : x.world.cache.state = .refill ∧ x.world.cache.req.read = true := by
    simpa using (Bool.and_eq_true_iff.mp haccepts).1
  have hcurrent := L1World.Coherent.fetched_current h.coherent hstate hread hcacheable
    (.inl haccepts)
  have hbeat := (h.filling hstate hread hcacheable).1
  have hall : x.world.cache.refill.beat * g.PORT_WORDS + g.PORT_WORDS = LINE_WORDS := by
    have hbeats := g.port_bytes.2
    have hsucc : x.world.cache.refill.beat + 1 = g.REFILL_BEATS := by
      have := of_decide_eq_true hlast
      omega
    calc x.world.cache.refill.beat * g.PORT_WORDS + g.PORT_WORDS
        = (x.world.cache.refill.beat + 1) * g.PORT_WORDS := (Nat.succ_mul _ _).symm
      _ = g.REFILL_BEATS * g.PORT_WORDS := by rw [hsucc]
      _ = LINE_WORDS := hbeats
  intro _
  rw [hcurrent.line rfl, ← hall]
  exact ⟨lineBase_lineBase _, h.filled hallowed haccepts hcacheable⟩

/-- The word of a line is in the beat of its address. -/
theorem direct_line (hallowed : x.Allowed g e) (haccepts : x.world.cache.accepts e.inputs = true)
    (hcacheable : x.world.cache.req.cacheable = true)
    (hbeat : x.world.cache.refill.beat = g.refillBeat x.world.cache.req.addr)
    (hfits : x.world.cache.req.addr.toNat % 4 = 0 ∨
      g.beatWord x.world.cache.req.addr + 1 < g.PORT_WORDS) :
    x.world.cache.directData g e.inputs = wordAt x.mem x.world.cache.req.addr := by
  obtain ⟨⟨hstate, hread⟩, hwait⟩ : (x.world.cache.state = .refill ∧
      x.world.cache.req.read = true) ∧ e.inputs.memWait = false := by
    simpa [L1Cache.accepts] using haccepts
  have hserves := hallowed.memory (by simp [L1Cache.memDriver, hstate, hread]) hwait
  refine L1Cache.directData_eq (fun j hj => ?_) (by rw [hcacheable]; rfl) hfits
  have hbase : lineBase x.world.cache.req.addr +
      BitVec.ofNat 32 (g.refillBeat x.world.cache.req.addr * g.PORT_BYTES) =
        g.beatBase x.world.cache.req.addr := g.port.lineBase_add_beat _
  rw [L1Cache.memData_of_serves hstate hread hcacheable (h.filling hstate hread hcacheable).1
    hserves hj, ← hbase, ← hbeat, BitVec.add_assoc, ← BitVec.ofNat_add,
    g.port_bytes.1, Nat.mul_add 4, Nat.mul_left_comm 4]

variable (hreset : e.inputs.reset = false)
include hreset

theorem request_next (hallowed : x.Allowed g e)
    (hread : (x.next g e).world.cache.req.read = true) :
    (x.next g e).world.cache.req.cacheable =
        g.cacheable (x.next g e).world.cache.req.addr (x.next g e).world.cache.req.cacheDisable ∧
      ((x.next g e).world.cache.req.cacheDisable = true →
        (x.next g e).world.cache.req.addr.toNat % 4 = 0 ∨
          g.beatWord (x.next g e).world.cache.req.addr + 1 < g.PORT_WORDS) := by
  rcases L1World.Coherent.capture_of_read (o := storeOutdated) hreset hread with
    ⟨hreq, hbefore⟩ | ⟨hreq, hstart⟩
  · rw [show (x.next g e).world.cache.req = x.world.cache.req from hreq]
    exact ⟨h.cacheable hbefore, h.bypass hbefore⟩
  · rw [show (x.next g e).world.cache.req = L1Cache.capture g e.inputs from hreq]
    exact ⟨rfl, hallowed.bypass hstart⟩

theorem rows_next (hallowed : x.Allowed g e) (way set : Nat) :
    ((x.next g e).world.copies.rows way set).Holds (x.next g e).mem
      (((x.next g e).world.cache.evenRam way).buffer set)
      (((x.next g e).world.cache.oddRam way).buffer set) := by
  have hcopy : (x.next g e).world.copies.rows way set = Copy.outdate storeOutdated e.inputs
      (if x.world.cache.installs g e.inputs = true ∧ x.world.cache.victim = way ∧
          set = x.world.cache.dataAddr g e.inputs then
        x.world.copies.fetched x.world.cache e.inputs
      else x.world.copies.rows way set) :=
    congrArg (fun copies => L1Copies.rows copies way set)
      (L1World.Coherent.copies_next (o := storeOutdated) hreset)
  have heven : ((x.next g e).world.cache.evenRam way).buffer set =
      if x.world.cache.installs g e.inputs = true ∧ x.world.cache.victim = way ∧
          set = x.world.cache.dataAddr g e.inputs then
        (x.world.cache.refillLines g e.inputs).1
      else (x.world.cache.evenRam way).buffer set := by
    change ((x.world.cache.work g e.inputs).evenRam way).buffer set = _
    rw [L1Cache.work_evenRam hreset, Ram.buffer_work]
    simp only [Bool.and_eq_true, decide_eq_true_eq, and_assoc]
  have hodd : ((x.next g e).world.cache.oddRam way).buffer set =
      if x.world.cache.installs g e.inputs = true ∧ x.world.cache.victim = way ∧
          set = x.world.cache.dataAddr g e.inputs then
        (x.world.cache.refillLines g e.inputs).2
      else (x.world.cache.oddRam way).buffer set := by
    change ((x.world.cache.work g e.inputs).oddRam way).buffer set = _
    rw [L1Cache.work_oddRam hreset, Ram.buffer_work]
    simp only [Bool.and_eq_true, decide_eq_true_eq, and_assoc]
  rw [hcopy, heven, hodd]
  by_cases hinstall : x.world.cache.installs g e.inputs = true ∧ x.world.cache.victim = way ∧
      set = x.world.cache.dataAddr g e.inputs
  · rw [if_pos hinstall, if_pos hinstall, if_pos hinstall]
    exact Copy.Holds.outdate (h.installed hallowed hinstall.1)
  · rw [if_neg hinstall, if_neg hinstall, if_neg hinstall]
    exact Copy.Holds.outdate (h.rows way set)

theorem read_next (way : Nat) : ((x.next g e).world.copies.read way).Holds (x.next g e).mem
    ((x.next g e).world.cache.evenRam way).q ((x.next g e).world.cache.oddRam way).q := by
  have hcopy : (x.next g e).world.copies.read way = Copy.outdate storeOutdated e.inputs
      (if x.world.cache.ramRead g e.inputs then
        x.world.copies.rows way (x.world.cache.dataAddr g e.inputs)
      else x.world.copies.read way) :=
    congrArg (fun copies => L1Copies.read copies way)
      (L1World.Coherent.copies_next (o := storeOutdated) hreset)
  have heven : ((x.next g e).world.cache.evenRam way).q =
      if x.world.cache.ramRead g e.inputs then
        (x.world.cache.evenRam way).buffer (x.world.cache.dataAddr g e.inputs)
      else (x.world.cache.evenRam way).q := by
    change ((x.world.cache.work g e.inputs).evenRam way).q = _
    rw [L1Cache.work_evenRam hreset, Ram.q_work]
  have hodd : ((x.next g e).world.cache.oddRam way).q =
      if x.world.cache.ramRead g e.inputs then
        (x.world.cache.oddRam way).buffer (x.world.cache.dataAddr g e.inputs)
      else (x.world.cache.oddRam way).q := by
    change ((x.world.cache.work g e.inputs).oddRam way).q = _
    rw [L1Cache.work_oddRam hreset, Ram.q_work]
  rw [hcopy, heven, hodd]
  by_cases hram : x.world.cache.ramRead g e.inputs = true
  · rw [if_pos hram, if_pos hram, if_pos hram]
    exact Copy.Holds.outdate (h.rows way _)
  · rw [if_neg hram, if_neg hram, if_neg hram]
    exact Copy.Holds.outdate (h.read way)

theorem selected_next (hallowed : x.Allowed g e) :
    (x.next g e).world.copies.selected.Holds (x.next g e).mem
      (x.next g e).world.cache.selectedLine.even (x.next g e).world.cache.selectedLine.odd := by
  obtain ⟨heven, hodd, -, -⟩ := L1Cache.work_selectedLine (g := g) (s := x.world.cache) hreset
  have hcopy : (x.next g e).world.copies.selected = Copy.outdate storeOutdated e.inputs
      (x.world.copies.follow g x.world.cache e.inputs).selected :=
    congrArg L1Copies.selected (L1World.Coherent.copies_next (o := storeOutdated) hreset)
  change (x.next g e).world.copies.selected.Holds (x.next g e).mem
    (x.world.cache.work g e.inputs).selectedLine.even
    (x.world.cache.work g e.inputs).selectedLine.odd
  rw [hcopy, heven, hodd, L1Cache.sequence_selectedLine]
  apply Copy.Holds.outdate
  unfold L1Copies.follow
  dsimp only
  by_cases hselect : x.world.cache.branch e.inputs = .select ∧ x.world.cache.lookup.hit = true
  · -- the way of a hit
    obtain ⟨-, hstate, hread⟩ := L1Cache.taken_of_branch hselect.1
    have hline : x.world.cache.selectedLineComb g =
        { even := (x.world.cache.evenRam x.world.cache.lookup.way.toNat).q
          odd := (x.world.cache.oddRam x.world.cache.lookup.way.toNat).q
          addr := lineBase x.world.cache.req.addr
          valid := true } :=
      if_pos ⟨hstate, hselect.2, (h.chosen hstate hread hselect.2).2⟩
    rw [if_pos hselect, if_pos hselect, hline]
    exact h.read _
  · rw [if_neg hselect, if_neg hselect]
    by_cases hfinish : x.world.cache.branch e.inputs = .refill ∧
        x.world.cache.installs g e.inputs = true
    · rw [if_pos hfinish, if_pos hfinish]
      exact h.installed hallowed hfinish.2
    · rw [if_neg hfinish, if_neg hfinish]
      exact h.selected

omit h in
theorem chosen_next (hways : g.WAYS ≤ 256) (hstate : (x.next g e).world.cache.state = .select)
    (hread : (x.next g e).world.cache.req.read = true)
    (hhit : (x.next g e).world.cache.lookup.hit = true) :
    (x.next g e).world.cache.req.cacheable = true ∧
      (x.next g e).world.cache.lookup.way.toNat < g.WAYS := by
  obtain ⟨hbranch, hreq⟩ := L1Cache.enter_select hreset hread hstate
  have hlookup : (x.next g e).world.cache.lookup = x.world.cache.lookupComb g := by
    change (x.world.cache.work g e.inputs).lookup = _
    rw [L1Cache.work_lookup hreset, hbranch]
    rfl
  rw [hlookup] at hhit ⊢
  obtain ⟨hcacheable, way, hway, -, hwayEq⟩ := L1Cache.lookupComb_hit hhit
  refine ⟨(congrArg L1RequestState.cacheable hreq).trans hcacheable, ?_⟩
  rw [hwayEq, BitVec.toNat_ofNat, Nat.mod_eq_of_lt (by omega)]
  exact hway

theorem loaded_next (hstate : (x.next g e).world.cache.state = .assemble)
    (hread : (x.next g e).world.cache.req.read = true) :
    (x.next g e).world.cache.req.cacheable = true := by
  obtain ⟨hbranch, hhit, hreq⟩ := L1Cache.enter_assemble hreset hread hstate
  obtain ⟨-, hselect, hreadBefore⟩ := L1Cache.taken_of_branch hbranch
  exact (congrArg L1RequestState.cacheable hreq).trans (h.chosen hselect hreadBefore hhit).1

theorem saved_next (hstate : (x.next g e).world.cache.state = .compare ∨
      (x.next g e).world.cache.state = .select)
    (hread : (x.next g e).world.cache.req.read = true) :
    (x.next g e).world.cache.refill.reqDataValid = false := by
  obtain ⟨hlookup, hcompare, -⟩ := L1Cache.reqDataValid_work (g := g) (s := x.world.cache) hreset
  rcases hstate with hstate | hstate
  · exact hlookup (L1Cache.enter_compare hreset hread hstate).1
  · obtain ⟨hbranch, -⟩ := L1Cache.enter_select hreset hread hstate
    obtain ⟨-, hbefore, hreadBefore⟩ := L1Cache.taken_of_branch hbranch
    exact (congrArg L1RefillState.reqDataValid (hcompare hbranch)).trans
      (h.saved (.inl hbefore) hreadBefore)

theorem filling_next (hallowed : x.Allowed g e)
    (hstate : (x.next g e).world.cache.state = .refill)
    (hread : (x.next g e).world.cache.req.read = true)
    (hcacheable : (x.next g e).world.cache.req.cacheable = true) :
    (x.next g e).world.cache.refill.beat < g.REFILL_BEATS ∧
      HoldsTo (x.next g e).mem (lineBase (x.next g e).world.cache.req.addr)
        (x.next g e).world.cache.refill.evenLine (x.next g e).world.cache.refill.oddLine
        ((x.next g e).world.cache.refill.beat * g.PORT_WORDS) ∧
      ((x.next g e).world.cache.refill.reqDataValid = true →
        (x.next g e).world.cache.refill.reqData =
          wordAt (x.next g e).mem (x.next g e).world.cache.req.addr) := by
  obtain ⟨hbranch, hreq⟩ := L1Cache.enter_refill hreset hread hstate
  have hreq' : (x.next g e).world.cache.req = x.world.cache.req := hreq
  rw [hreq'] at hcacheable ⊢
  change (x.world.cache.work g e.inputs).refill.beat < _ ∧
    HoldsTo _ _ (x.world.cache.work g e.inputs).refill.evenLine
      (x.world.cache.work g e.inputs).refill.oddLine
      ((x.world.cache.work g e.inputs).refill.beat * g.PORT_WORDS) ∧
    ((x.world.cache.work g e.inputs).refill.reqDataValid = true →
      (x.world.cache.work g e.inputs).refill.reqData = _)
  rcases hbranch with hselect | ⟨hfill, hmore⟩
  · -- no beat yet
    obtain ⟨-, hbefore, hreadBefore⟩ := L1Cache.taken_of_branch hselect
    have hbeat := h.coherent.beat (.inr hbefore) hreadBefore
    have hsaved := h.saved (.inr hbefore) hreadBefore
    rw [(L1Cache.reqDataValid_work hreset).2.2 hselect, hbeat, hsaved]
    refine ⟨?_, fun word hword => ?_, fun hfalse => by cases hfalse⟩
    · have hbeats := g.port_bytes.2
      by_contra hnone
      rw [Nat.eq_zero_of_not_pos hnone, Nat.zero_mul] at hbeats
      cases hbeats
    · rw [Nat.zero_mul] at hword
      exact absurd hword (Nat.not_lt_zero _)
  · obtain ⟨-, hbefore, hreadBefore⟩ := L1Cache.taken_of_branch hfill
    have hwrite := L1World.Coherent.no_write hallowed.regular hbefore
    have hmem : (x.next g e).mem = x.mem := memNext_of_write hwrite
    obtain ⟨hbeat, hholds, hsaved⟩ := h.filling hbefore hreadBefore hcacheable
    rw [hmem]
    cases hwait : e.inputs.memWait with
    | true =>
        rw [L1Cache.refill_work_wait hreset hfill hwait]
        exact ⟨hbeat, hholds, hsaved⟩
    | false =>
        have hmore' := (hmore.resolve_left (by rw [hwait]; exact Bool.false_ne_true)).2
        have haccepts : x.world.cache.accepts e.inputs = true := by
          simp [L1Cache.accepts, hbefore, hreadBefore, hwait]
        rw [L1Cache.refill_work hreset hfill hcacheable hmore' hwait]
        refine ⟨show x.world.cache.refill.beat + 1 < g.REFILL_BEATS by omega, ?_, ?_⟩
        · dsimp only
          rw [Nat.succ_mul]
          exact h.filled hallowed haccepts hcacheable
        · dsimp only
          split_ifs with hsaves
          · exact fun _ => h.direct_line hallowed haccepts hcacheable hsaves.1 (.inl hsaves.2)
          · exact hsaved

omit hreset in
theorem finished (hallowed : x.Allowed g e) (hinstalls : x.world.cache.installs g e.inputs = true) :
    (if x.world.cache.refill.beat = g.refillBeat x.world.cache.req.addr then
        x.world.cache.directData g e.inputs
      else if x.world.cache.refill.reqDataValid then x.world.cache.refill.reqData
      else x.world.cache.refillData g e.inputs) = wordAt x.mem x.world.cache.req.addr := by
  obtain ⟨hboth, hlast⟩ := Bool.and_eq_true_iff.mp hinstalls
  obtain ⟨haccepts, hcacheable⟩ := Bool.and_eq_true_iff.mp hboth
  obtain ⟨hstate, hread⟩ : x.world.cache.state = .refill ∧ x.world.cache.req.read = true := by
    simpa using (Bool.and_eq_true_iff.mp haccepts).1
  have hfits := g.fits_of_cacheable ((h.cacheable hread).symm.trans hcacheable)
  split_ifs with hhere hsaved
  · refine h.direct_line hallowed haccepts hcacheable hhere ?_
    -- in the last beat the line ends with the beat
    refine hfits.imp id fun hnext => ?_
    have hbeats := g.port_bytes.2
    have hbeat := (of_decide_eq_true hlast).symm.trans hhere
    have hwords : LINE_WORDS = 8 := rfl
    have hline : CACHE_LINE_SIZE = 32 := rfl
    unfold wordIndex at hnext
    unfold refillBeat at hbeat
    unfold beatWord
    rw [g.port_bytes.1, hline] at hbeat
    rw [g.port_bytes.1]
    rw [hwords] at hnext
    rcases g.port_cases with hport | hport | hport | hport <;> rw [hport] at hbeats hbeat ⊢ <;> omega
  · exact (h.filling hstate hread hcacheable).2.2 hsaved
  · have hholds := h.installed hallowed hinstalls
    have hcurrent := L1World.Coherent.fetched_current h.coherent hstate hread hcacheable
      (.inl haccepts)
    have hlines := (hholds hcurrent.fresh).2
    rw [hcurrent.line rfl] at hlines
    exact assembleLineWord_eq hlines hfits

theorem response_next (hallowed : x.Allowed g e)
    (hvalid : (x.next g e).world.cache.response.valid = true) :
    (x.next g e).world.cache.response.data =
      wordAt (x.next g e).mem (x.next g e).world.cache.req.addr := by
  obtain ⟨-, hdata, hvalidEq⟩ := L1Cache.work_response (g := g) (s := x.world.cache) hreset
  change (x.world.cache.work g e.inputs).response.valid = true at hvalid
  change (x.world.cache.work g e.inputs).response.data =
    wordAt (x.next g e).mem (x.world.cache.work g e.inputs).req.addr
  rw [hvalidEq] at hvalid
  obtain ⟨hbefore, hnone⟩ := Bool.and_eq_true_iff.mp hvalid
  have hwrite : e.inputs.write = false := by simpa using hnone
  rw [hdata, show (x.next g e).mem = x.mem from memNext_of_write hwrite, L1Cache.work_nextReq hreset]
  rcases L1Cache.sequence_response_valid g x.world.cache e.inputs hbefore with
    ⟨hassemble, hresponse⟩ | ⟨hrefill, hinstalls, hresponse⟩ | ⟨hrefill, haccepts, hdirect, hresponse⟩ |
      ⟨hold, hstays, hresponse⟩
  · obtain ⟨-, hstate, hread⟩ := L1Cache.taken_of_branch hassemble
    have hcurrent := h.coherent.loaded hstate hread
    have hlines := (h.selected hcurrent.fresh).2
    rw [hcurrent.line rfl] at hlines
    rw [hresponse, hassemble]
    exact assembleLineWord_eq hlines
      (g.fits_of_cacheable ((h.cacheable hread).symm.trans (h.loaded hstate hread)))
  · rw [hresponse, hrefill]
    exact h.finished hallowed hinstalls
  · obtain ⟨-, hstate, hread⟩ := L1Cache.taken_of_branch hrefill
    have hwait : e.inputs.memWait = false := by simpa using (Bool.and_eq_true_iff.mp haccepts).2
    rw [hresponse, hrefill]
    exact L1Cache.directData_of_serves hstate hread hdirect hwrite
      (hallowed.memory (by simp [L1Cache.memDriver, hstate, hread]) hwait) (h.bypass hread)
  · -- only a stall keeps a response
    have hhold : x.world.cache.branch e.inputs = .hold :=
      hstays.resolve_right fun hne => hne (h.coherent.response hold).1
    rw [hresponse, hhold]
    exact h.response hold

theorem next (hallowed : x.Allowed g e) (hways : g.WAYS ≤ 256) : (x.next g e).Correct g where
  coherent := h.coherent.next hreset hallowed.regular hways
  cacheable hread := (h.request_next hreset hallowed hread).1
  bypass hread := (h.request_next hreset hallowed hread).2
  rows := h.rows_next hreset hallowed
  read := h.read_next hreset
  selected := h.selected_next hreset hallowed
  chosen := chosen_next hreset hways
  loaded := h.loaded_next hreset
  saved := h.saved_next hreset
  filling := h.filling_next hreset hallowed
  response := h.response_next hreset hallowed

end

theorem of_reset (hreset : e.inputs.reset = true) : (x.next g e).Correct g := by
  obtain ⟨hstate, hreq, -, -, hresponse, -⟩ :=
    L1Cache.work_reset (g := g) (s := x.world.cache) hreset
  have hread : (x.next g e).world.cache.req.read = false := congrArg L1RequestState.read hreq
  have hno : (x.next g e).world.cache.req.read ≠ true := Bool.eq_false_iff.mp hread
  have hcopies : (x.next g e).world.copies = x.world.copies.map fun k => { k with stale := true } :=
    if_pos hreset
  exact
    { coherent := L1World.Coherent.of_reset hreset
      cacheable := fun hr => absurd hr hno
      bypass := fun hr => absurd hr hno
      rows := fun way set => by
        rw [hcopies]
        exact fun hfresh => by cases hfresh
      read := fun way => by
        rw [hcopies]
        exact fun hfresh => by cases hfresh
      selected := by
        rw [hcopies]
        exact fun hfresh => by cases hfresh
      chosen := fun _ hr => absurd hr hno
      loaded := fun _ hr => absurd hr hno
      saved := fun _ hr => absurd hr hno
      filling := fun _ hr => absurd hr hno
      response := fun hvalid => by
        change (x.world.cache.work g e.inputs).response.valid = true at hvalid
        rw [hresponse] at hvalid
        cases hvalid }

theorem served (h : x.Correct g) (i : L1Inputs)
    (hvalid : (x.world.cache.cpuResponse g i).valid = true) :
    (x.world.cache.cpuResponse g i).data = wordAt x.mem (x.world.cache.cpuResponse g i).addr := by
  by_cases hresponse : x.world.cache.response.valid = true
  · have haddr := (h.coherent.response hresponse).2.2.2
    change (if _ then _ else _) = wordAt x.mem (if _ then _ else _)
    rw [if_pos hresponse, if_pos hresponse, haddr]
    exact h.response hresponse
  · have hhit : x.world.cache.selectedLineHit g i = true := by
      have hor := (Bool.and_eq_true_iff.mp hvalid).1
      rwa [Bool.eq_false_iff.mpr hresponse, Bool.false_or] at hor
    change (if _ then _ else _) = wordAt x.mem (if _ then _ else _)
    rw [if_neg hresponse, if_neg hresponse, if_pos hhit, if_pos hhit]
    unfold L1Cache.selectedLineHit at hhit
    simp only [Bool.and_eq_true, beq_iff_eq] at hhit
    obtain ⟨⟨⟨-, hselected⟩, hcacheable⟩, hline⟩ := hhit
    obtain ⟨hcurrent, hbase⟩ := h.coherent.selected hselected
    have hlines := (h.selected hcurrent.fresh).2
    rw [hcurrent.line rfl, hbase, ← hline] at hlines
    exact assembleLineWord_eq hlines (g.fits_of_cacheable hcacheable)

end L1System.Correct

/-- In a run of allowed clocks every response is the word at its address as last
written, whichever place serves it. -/
theorem read_correct (g : L1Geometry) (hways : g.WAYS ≤ 256) {es : List L1Clock} {x : L1System}
    (hrun : (l1Reads g).Traces es x) (i : L1Inputs)
    (hvalid : (x.world.cache.cpuResponse g i).valid = true) :
    (x.world.cache.cpuResponse g i).data = wordAt x.mem (x.world.cache.cpuResponse g i).addr := by
  have hcorrect : x.Correct g := by
    obtain ⟨x₀, ⟨before, e, hreset, rfl⟩, hrun⟩ := hrun
    refine hrun.invariant (fun _ x => x.Correct g) (L1System.Correct.of_reset hreset) ?_
    rintro es x (_ | e) x' hcorrect hstep
    · exact absurd hstep id
    · obtain ⟨hallowed, rfl⟩ := hstep
      cases hreset : e.inputs.reset with
      | true => exact L1System.Correct.of_reset hreset
      | false => exact hcorrect.next hreset (hallowed hreset) hways
  exact hcorrect.served i hvalid

/-! ## Runs of given clocks -/

instance {g : L1Geometry} {mem : BitVec 32 → BitVec 8} {d : L1MemDriver} {data : Nat → BitVec 32} :
    Decidable (Serves g mem d data) :=
  inferInstanceAs (Decidable (if g.directCrossBeat d.addr d.cacheDisable = true then
    data 0 = wordAt mem d.addr
  else ∀ j < g.PORT_WORDS, data j = wordAt mem (g.beatBase d.addr + BitVec.ofNat 32 (4 * j))))

/-- The lines a store writes, by its bytes. -/
theorem stores_iff {i : L1Inputs} {line : BitVec 32} : i.stores line = true ↔
    i.write = true ∧ ∃ k < 4, i.writeMask.getLsbD k = true ∧
      lineBase (i.addr + BitVec.ofNat 32 k) = line := by
  unfold L1Inputs.stores
  rw [Bool.and_eq_true, List.any_eq_true]
  simp only [List.mem_range, Bool.and_eq_true, beq_iff_eq]

theorem regular_store_iff {g : L1Geometry} {s : L1Cache} {i : L1Inputs} :
    s.Regular g i storeOutdated ↔ ¬ s.CutsWalk g i ∧ ¬ s.StoresInRefill i ∧
      (s.ramRead g i = true → g.tagValue i.addr < 2 ^ g.TAG_BITS) ∧
      (i.write = true → ∀ k < 4, i.writeMask.getLsbD k = true →
        lineBase (i.addr + BitVec.ofNat 32 k) = lineBase i.addr ∧
          ¬ s.LooksUp g i (lineBase (i.addr + BitVec.ofNat 32 k))) := by
  refine ⟨fun h => ⟨h.walk, h.refill, h.tag rfl, fun hwrite k hk hmask => ?_⟩, fun h => ?_⟩
  · have hstores : i.stores (lineBase (i.addr + BitVec.ofNat 32 k)) = true :=
      stores_iff.mpr ⟨hwrite, k, hk, hmask, rfl⟩
    exact ⟨h.inLine rfl _ hstores, h.lookup rfl _ hstores⟩
  · have hbytes : ∀ line, i.stores line = true → line = lineBase i.addr ∧ ¬ s.LooksUp g i line := by
      intro line hstores
      obtain ⟨hwrite, k, hk, hmask, rfl⟩ := stores_iff.mp hstores
      exact h.2.2.2 hwrite k hk hmask
    exact
      { walk := h.1
        invalidate := fun hby => by cases hby
        refill := h.2.1
        tag := fun _ => h.2.2.1
        inLine := fun _ line hstores => (hbytes line hstores).1
        lookup := fun _ line hstores => (hbytes line hstores).2 }

instance {g : L1Geometry} {s : L1Cache} {i : L1Inputs} {line : BitVec 32} :
    Decidable (s.LooksUp g i line) :=
  inferInstanceAs (Decidable
    ((s.req.read = true ∧ s.state ∈ [.lookup, .compare, .select] ∧ line = lineBase s.req.addr) ∨
      (s.ramRead g i = true ∧ line = lineBase i.addr)))

instance {g : L1Geometry} {s : L1Cache} {i : L1Inputs} : Decidable (s.Regular g i storeOutdated) :=
  decidable_of_iff _ regular_store_iff.symm

instance {g : L1Geometry} {x : L1System} {e : L1Clock} : Decidable (x.Allowed g e) :=
  decidable_of_iff (x.world.cache.Regular g e.inputs storeOutdated ∧
      ((x.world.cache.memDriver g e.inputs).read = true → e.inputs.memWait = false →
        Serves g x.mem (x.world.cache.memDriver g e.inputs) e.inputs.memData) ∧
      (x.world.cache.start g e.inputs = true → e.inputs.cacheDisable = true →
        e.inputs.addr.toNat % 4 = 0 ∨ g.beatWord e.inputs.addr + 1 < g.PORT_WORDS))
    ⟨fun h => ⟨h.1, h.2.1, h.2.2⟩, fun h => ⟨h.regular, h.memory, h.bypass⟩⟩

/-- Registers and rows of zero in front of a memory in which every byte is the low byte
of its address. -/
def L1System.zero : L1System := ⟨L1World.zero, fun b => b.setWidth 8⟩

def L1System.after (g : L1Geometry) (es : List L1Clock) (x : L1System) : L1System :=
  es.foldl (L1System.next g) x

theorem reads_of_along {g : L1Geometry} {x₀ : L1System} {e : L1Clock} {es : List L1Clock}
    (hreset : e.inputs.reset = true)
    (h : Transitions.Along (fun x e => e.inputs.reset = false → x.Allowed g e)
      (L1System.next g) (x₀.next g e) es) :
    (l1Reads g).Traces es (x₀.after g (e :: es)) := by
  refine ⟨x₀.next g e, ⟨x₀, e, hreset, rfl⟩, ?_⟩
  have hstep : ∀ (x : L1System) (e : L1Clock), (e.inputs.reset = false → x.Allowed g e) →
      (l1Reads g).step x (some e) (x.next g e) := fun _ _ hok => ⟨hok, rfl⟩
  exact .of_along hstep h

/-- A read that a memory of lines answers at once. -/
def readClock (mem : BitVec 32 → BitVec 8) (addr : BitVec 32) : L1Clock :=
  ⟨{ readInputs addr with memData := fun j => wordAt mem (lineBase addr + BitVec.ofNat 32 (4 * j)) },
    false⟩

def quietClock : L1Clock := ⟨quietInputs, false⟩

def resetClock : L1Clock := ⟨resetInputs, false⟩

/-- A bypassed read of the word at 29 in the lines of 32 bytes. -/
def bypassedRead : List L1Clock :=
  [resetClock, quietClock, quietClock] ++ List.replicate 5
    { readClock L1System.zero.mem 29#32 with
      inputs.cacheDisable := true }

/-- The memory answers with the line, and the response has its first byte for the byte
past it. -/
theorem bypassed_read_rotates :
    Transitions.Along (fun x e => (x.world.cache.memDriver smallL1 e.inputs).read = true →
        Serves smallL1 x.mem (x.world.cache.memDriver smallL1 e.inputs) e.inputs.memData)
      (L1System.next smallL1) L1System.zero bypassedRead ∧
    (L1System.zero.after smallL1 bypassedRead).world.cache.cpuResponse smallL1 quietInputs =
      ⟨0x001f1e1d#32, 29#32, true, false⟩ ∧
    wordAt (L1System.zero.after smallL1 bypassedRead).mem 29#32 = 0x201f1e1d#32 := by
  decide +kernel

/-- The word at 34 is read, its second byte stored, and the word read again. -/
def storedWord : List L1Clock :=
  [quietClock, quietClock] ++ List.replicate 5 (readClock L1System.zero.mem 34#32) ++
    [⟨{ quietInputs with write := true, addr := 35#32, writeData := 0xee#32, writeMask := 1 }, true⟩] ++
    List.replicate 5 (readClock (storeAt L1System.zero.mem 35#32 0xee#32 1) 34#32)

theorem read_correct_stored :
    ((L1System.zero.after smallL1 (resetClock :: storedWord)).world.cache.cpuResponse smallL1
        quietInputs).valid = true ∧
      ((L1System.zero.after smallL1 (resetClock :: storedWord)).world.cache.cpuResponse smallL1
          quietInputs).data =
        wordAt (L1System.zero.after smallL1 (resetClock :: storedWord)).mem
          ((L1System.zero.after smallL1 (resetClock :: storedWord)).world.cache.cpuResponse smallL1
            quietInputs).addr := by
  have hvalid : ((L1System.zero.after smallL1 (resetClock :: storedWord)).world.cache.cpuResponse
      smallL1 quietInputs).valid = true := by
    decide +kernel
  exact ⟨hvalid, read_correct smallL1 (by decide) (reads_of_along rfl (by decide +kernel))
    quietInputs hvalid⟩

end CppHdl.Cache
