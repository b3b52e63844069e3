import CppHdl.Cache.L1Copies

/-!
# Invalidations of the first-level cache

An invalidation of the whole cache starts a walk that clears the tags; that of a
line advances the generation of its set. Neither lets an outdated line come back in
a run of regular clocks. A flush that ends the walk early, or a store that meets a
refill, brings one back.
-/

namespace CppHdl.Cache

open L1Geometry

/-- What the addressed copy is a copy of. -/
theorem L1World.Coherent.served_line {g : L1Geometry} {o : Outdating} {w : L1World}
    (h : w.Coherent g o) (hby : o.byLine = true) (i : L1Inputs)
    (hvalid : (w.cache.cpuResponse g i).valid = true) :
    w.served.line = lineBase (w.cache.cpuResponse g i).addr := by
  unfold L1World.served
  by_cases hresponse : w.cache.response.valid = true
  · obtain ⟨-, -, hcurrent, haddr⟩ := h.response hresponse
    have hserved : (w.cache.cpuResponse g i).addr = w.cache.req.addr :=
      (if_pos hresponse).trans haddr
    rw [if_pos hresponse, hserved]
    exact hcurrent.line hby
  · have hhit : w.cache.selectedLineHit g i = true := by
      have hor := (Bool.and_eq_true_iff.mp hvalid).1
      rwa [Bool.eq_false_iff.mpr hresponse, Bool.false_or] at hor
    have hserved : (w.cache.cpuResponse g i).addr = i.addr :=
      (if_neg hresponse).trans (if_pos hhit)
    rw [if_neg hresponse, hserved]
    unfold L1Cache.selectedLineHit at hhit
    simp only [Bool.and_eq_true, beq_iff_eq] at hhit
    obtain ⟨hcurrent, hbase⟩ := h.selected hhit.1.1.2
    rw [hcurrent.line hby, hbase]
    exact hhit.2.symm

/-! ## Runs of given inputs -/

/-- Two sets of one way, a line a beat. -/
def smallL1 : L1Geometry where
  TOTAL_CACHE_SIZE := 64
  WAYS := 1
  DCACHE := 0
  ADDR_BITS := 32
  PORT_BITWIDTH := 256
  port_whole := by decide
  port_divides := by decide
  ways_pos := by decide
  ways_divide := by decide
  size_pos := by decide
  tag_pos := by decide

/-- All registers and rows zero. -/
def L1World.zero : L1World where
  cache :=
    { state := .idle
      req := default
      tagEpoch := false
      epochWrapPending := false
      tagSetEpoch := fun _ => 0
      refill := default
      victim := 0
      initSet := 0
      response := default
      lookup := default
      selectedLine := default
      tagEntries := fun _ => default
      evenRam := fun _ => ⟨fun _ _ => 0, fun _ => 0⟩
      oddRam := fun _ => ⟨fun _ _ => 0, fun _ => 0⟩
      tagRam := fun _ => ⟨fun _ => default, default⟩ }
  copies := ⟨fun _ _ => ⟨0, true⟩, fun _ => ⟨0, true⟩, ⟨0, true⟩, ⟨0, true⟩, ⟨0, true⟩⟩

def L1World.after (g : L1Geometry) (o : Outdating) (is : List L1Inputs) (w : L1World) : L1World :=
  is.foldl (L1World.next g o) w

/-- A run from a reset, of given regular clocks. -/
theorem traces_of_along {g : L1Geometry} {o : Outdating} {w₀ : L1World} {i : L1Inputs}
    {is : List L1Inputs} (hreset : i.reset = true)
    (h : Transitions.Along (fun w i => i.reset = false → w.cache.Regular g i o)
      (L1World.next g o) (w₀.next g o i) is) :
    (l1Runs g o).Traces is (w₀.after g o (i :: is)) := by
  refine ⟨w₀.next g o i, ⟨w₀, i, hreset, rfl⟩, ?_⟩
  have hstep : ∀ (w : L1World) (i : L1Inputs), (i.reset = false → w.cache.Regular g i o) →
      (l1Runs g o).step w (some i) (w.next g o i) := fun _ _ hok => ⟨hok, rfl⟩
  exact .of_along hstep h

def quietInputs : L1Inputs := default

def resetInputs : L1Inputs := { quietInputs with reset := true }

def readInputs (addr : BitVec 32) : L1Inputs := { quietInputs with read := true, addr := addr }

/-! ## The whole cache -/

/-- Copies are outdated by `invalidate_in`, and by a reset. -/
def wholeOutdated : Outdating := ⟨true, false, false⟩

theorem regular_whole_iff {g : L1Geometry} {s : L1Cache} {i : L1Inputs} :
    s.Regular g i wholeOutdated ↔
      ¬ s.CutsWalk g i ∧ ¬ s.DropsInvalidate g i ∧ ¬ s.StoresInRefill i :=
  ⟨fun h => ⟨h.walk, h.invalidate rfl, h.refill⟩, fun h =>
    { walk := h.1
      invalidate := fun _ => h.2.1
      refill := h.2.2
      tag := fun hby => by cases hby
      inLine := fun hby => by cases hby
      lookup := fun hby => by cases hby }⟩

instance {g : L1Geometry} {s : L1Cache} {i : L1Inputs} : Decidable (s.Regular g i wholeOutdated) :=
  decidable_of_iff _ regular_whole_iff.symm

/-- In a run of regular clocks nothing from before an invalidation of the whole cache
is served after it, and the walk ends only when all sets are cleared or a new walk is
due. -/
theorem invalidate_complete (g : L1Geometry) (hways : g.WAYS ≤ 256) {es : List L1Inputs}
    {w : L1World} (hrun : (l1Runs g wholeOutdated).Traces es w) (i : L1Inputs) :
    ((w.cache.cpuResponse g i).valid = true → w.served.stale = false) ∧
      (i.reset = false → w.cache.Regular g i wholeOutdated → w.cache.state = .init →
        (w.cache.work g i).state ≠ .init → (w.cache.work g i).epochWrapPending = true ∨
          ∀ way < g.WAYS, ∀ set < g.SETS,
            (((w.cache.work g i).tagRam way).buffer set).valid = false) := by
  have hcoherent := coherent_of_runs hways hrun
  refine ⟨hcoherent.served_fresh i, fun hreset hregular hstate hnext => ?_⟩
  cases hpending : (w.cache.work g i).epochWrapPending with
  | true => exact .inl rfl
  | false =>
      exact .inr fun way hway set hset =>
        hcoherent.walk_complete hreset hregular hstate hnext hpending way hway set hset

/-- The line at 32 is read, the cache invalidated, and the walk over the second set
flushed; then the line is read again. -/
def flushedWalk : List L1Inputs :=
  [resetInputs, quietInputs, quietInputs] ++ List.replicate 5 (readInputs 32#32) ++
    [{ quietInputs with invalidate := true }, { quietInputs with flush := true }] ++
    List.replicate 5 (readInputs 32#32)

/-- It is served from before the invalidation. -/
theorem flush_revives_line :
    ((L1World.zero.after smallL1 wholeOutdated flushedWalk).cache.cpuResponse smallL1
        quietInputs).valid = true ∧
      (L1World.zero.after smallL1 wholeOutdated flushedWalk).served.stale = true := by
  decide +kernel

/-- The line at 32 is read, the cache invalidated and walked, and the line read again. -/
def walkedLine : List L1Inputs :=
  [quietInputs, quietInputs] ++ List.replicate 5 (readInputs 32#32) ++
    [{ quietInputs with invalidate := true }, quietInputs, quietInputs] ++
    List.replicate 5 (readInputs 32#32)

theorem invalidate_complete_walked :
    ((L1World.zero.after smallL1 wholeOutdated (resetInputs :: walkedLine)).cache.cpuResponse
        smallL1 quietInputs).valid = true ∧
      (L1World.zero.after smallL1 wholeOutdated (resetInputs :: walkedLine)).served.stale =
        false := by
  have hvalid : ((L1World.zero.after smallL1 wholeOutdated
      (resetInputs :: walkedLine)).cache.cpuResponse smallL1 quietInputs).valid = true := by
    decide +kernel
  exact ⟨hvalid, (invalidate_complete smallL1 (by decide)
    (traces_of_along rfl (by decide +kernel)) quietInputs).1 hvalid⟩

/-! ## Lines -/

/-- The copies of a line are outdated by its `invalidate_line_in`, all by a reset. -/
def lineOutdated : Outdating := ⟨false, true, false⟩

theorem regular_line_iff {g : L1Geometry} {s : L1Cache} {i : L1Inputs} :
    s.Regular g i lineOutdated ↔ ¬ s.CutsWalk g i ∧ ¬ s.StoresInRefill i ∧
      (s.ramRead g i = true → g.tagValue i.addr < 2 ^ g.TAG_BITS) :=
  ⟨fun h => ⟨h.walk, h.refill, h.tag rfl⟩, fun h =>
    { walk := h.1
      invalidate := fun hby => by cases hby
      refill := h.2.1
      tag := fun _ => h.2.2
      inLine := fun hby => by cases hby
      lookup := fun hby => by cases hby }⟩

instance {g : L1Geometry} {s : L1Cache} {i : L1Inputs} : Decidable (s.Regular g i lineOutdated) :=
  decidable_of_iff _ regular_line_iff.symm

/-- The lines at 32 and at 0 are invalidated after the first was read. While the second
is refilled a store goes to the set of the first. -/
def storeInRefill : List L1Inputs :=
  [resetInputs, quietInputs, quietInputs] ++ List.replicate 5 (readInputs 32#32) ++
    [{ quietInputs with invalidateLine := true, invalidateAddr := 32#32 },
      { quietInputs with invalidateLine := true, invalidateAddr := 0#32 }] ++
    List.replicate 4 (readInputs 0#32) ++
    [{ quietInputs with write := true, addr := 96#32, writeMask := 1, memWait := true },
      quietInputs] ++ List.replicate 5 (readInputs 32#32)

/-- The line at 32 is read, invalidated and read again. -/
def invalidatedLine : List L1Inputs :=
  [quietInputs, quietInputs] ++ List.replicate 5 (readInputs 32#32) ++
    [{ quietInputs with invalidateLine := true, invalidateAddr := 36#32 }] ++
    List.replicate 5 (readInputs 32#32)

end CppHdl.Cache
