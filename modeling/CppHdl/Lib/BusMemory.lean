import Mathlib.Data.BitVec

/-!
# A memory of bytes behind a bus

A beat of `n` bytes is at a multiple of `n`. The memory takes one read and one write at a
time, each after any delay, and its bytes may also be written by others than the master of
the bus.
-/

namespace CppHdl

variable {w n k : Nat}

/-! ## Fields of a word -/

def withBits (x : BitVec n) (lo : Nat) (v : BitVec k) : BitVec n :=
  x &&& ~~~((BitVec.allOnes k).setWidth n <<< lo) ||| v.setWidth n <<< lo

theorem getLsbD_withBits (x : BitVec n) (lo : Nat) (v : BitVec k) {j : Nat} (hj : j < n) :
    (withBits x lo v).getLsbD j =
      if lo ≤ j ∧ j < lo + k then v.getLsbD (j - lo) else x.getLsbD j := by
  unfold withBits
  rw [BitVec.getLsbD_or, BitVec.getLsbD_and, BitVec.getLsbD_not, BitVec.getLsbD_shiftLeft,
    BitVec.getLsbD_shiftLeft, BitVec.getLsbD_setWidth, BitVec.getLsbD_setWidth,
    BitVec.getLsbD_allOnes, decide_eq_true hj, decide_eq_true (by omega : j - lo < n)]
  by_cases hlow : j < lo
  · rw [decide_eq_true hlow, if_neg (by omega)]
    simp
  · by_cases hhigh : j < lo + k
    · rw [decide_eq_false hlow, decide_eq_true (by omega : j - lo < k), if_pos ⟨by omega, hhigh⟩]
      simp
    · rw [decide_eq_false hlow, decide_eq_false (by omega : ¬ j - lo < k), if_neg (by omega),
        BitVec.getLsbD_of_ge v _ (by omega)]
      simp

/-- A field that does not meet the replaced bits. -/
theorem extractLsb'_withBits_of_disjoint (x : BitVec n) (lo : Nat) (v : BitVec k) {at' m : Nat}
    (hfits : at' + m ≤ n) (h : at' + m ≤ lo ∨ lo + k ≤ at') :
    (withBits x lo v).extractLsb' at' m = x.extractLsb' at' m := by
  apply BitVec.eq_of_getLsbD_eq
  intro j hj
  rw [BitVec.getLsbD_extractLsb', BitVec.getLsbD_extractLsb',
    getLsbD_withBits _ _ _ (by omega), if_neg (by omega)]

theorem extractLsb'_withBits (x : BitVec n) (lo : Nat) (v : BitVec k) (hfits : lo + k ≤ n) :
    (withBits x lo v).extractLsb' lo k = v := by
  apply BitVec.eq_of_getLsbD_eq
  intro j hj
  rw [BitVec.getLsbD_extractLsb', decide_eq_true hj, getLsbD_withBits _ _ _ (by omega),
    if_pos (by omega), Nat.add_sub_cancel_left, Bool.true_and]

/-- Fields of `k` bits replaced one after another, as `p` says. -/
theorem getLsbD_foldl_withBits (p : Nat → Bool) (f : Nat → BitVec k) (x : BitVec n) (m : Nat)
    {j : Nat} (hj : j < n) :
    ((List.range m).foldl (fun x i => if p i then withBits x (k * i) (f i) else x) x).getLsbD j =
      if j < k * m ∧ p (j / k) = true then (f (j / k)).getLsbD (j % k) else x.getLsbD j := by
  induction m with
  | zero => rw [if_neg (by omega)]; rfl
  | succ m ih =>
      rw [List.range_succ, List.foldl_append]
      change (if p m = true then withBits _ (k * m) (f m) else _).getLsbD j = _
      have hsucc : k * (m + 1) = k * m + k := Nat.mul_succ k m
      by_cases hin : k * m ≤ j ∧ j < k * m + k
      · -- the field of this step
        have hdiv : j / k = m := by
          rw [Nat.div_eq_iff (by omega), Nat.mul_comm m k]
          omega
        have hmod : j % k = j - k * m := by
          rw [Nat.mod_eq_sub, hdiv]
        rw [hdiv, hmod]
        by_cases hp : p m = true
        · rw [if_pos hp, getLsbD_withBits _ _ _ hj, if_pos hin, if_pos ⟨by omega, hp⟩]
        · rw [if_neg hp, ih, if_neg (by omega), if_neg (fun h => hp h.2)]
      · have hkept : ∀ y : BitVec n, (if p m = true then withBits y (k * m) (f m) else y).getLsbD j =
            y.getLsbD j := by
          intro y
          split
          · rw [getLsbD_withBits _ _ _ hj, if_neg hin]
          · rfl
        rw [hkept, ih]
        have hiff : j < k * (m + 1) ↔ j < k * m := by omega
        exact (if_congr (and_congr_left' hiff) rfl rfl).symm

/-! ## Beats -/

/-- Bytes side by side, the first one lowest. -/
def joinBytes (bytes : Nat → BitVec 8) : (n : Nat) → BitVec (8 * n)
  | 0 => 0
  | n + 1 => (bytes n ++ joinBytes bytes n).cast (Nat.add_comm 8 (8 * n))

theorem getLsbD_joinBytes (bytes : Nat → BitVec 8) {j : Nat} (hj : j < 8 * n) :
    (joinBytes bytes n).getLsbD j = (bytes (j / 8)).getLsbD (j % 8) := by
  induction n with
  | zero => omega
  | succ n ih =>
      unfold joinBytes
      rw [BitVec.getLsbD_cast, BitVec.getLsbD_append]
      by_cases hlow : j < 8 * n
      · rw [if_pos hlow, ih hlow]
      · rw [if_neg hlow, show j / 8 = n by omega, show j - 8 * n = j % 8 by omega]

theorem extractLsb'_joinBytes (bytes : Nat → BitVec 8) {lane : Nat} (hlane : lane < n) :
    (joinBytes bytes n).extractLsb' (8 * lane) 8 = bytes lane := by
  apply BitVec.eq_of_getLsbD_eq
  intro j hj
  rw [BitVec.getLsbD_extractLsb', decide_eq_true hj, Bool.true_and,
    getLsbD_joinBytes bytes (by omega), show (8 * lane + j) / 8 = lane by omega,
    show (8 * lane + j) % 8 = j by omega]

/-- The beat with the byte at an address. -/
def beatAt (n : Nat) (mem : BitVec w → BitVec 8) (a : BitVec w) : BitVec (8 * n) :=
  joinBytes (fun lane => mem (BitVec.ofNat w (a.toNat / n * n + lane))) n

/-- The 32-bit lane of that beat that holds the byte at the address. -/
def laneAt (n : Nat) (mem : BitVec w → BitVec 8) (a : BitVec w) : BitVec 32 :=
  (beatAt n mem a).extractLsb' (a.toNat % n / 4 * 32) 32

/-- A write of the enabled bytes of a beat. -/
def storeBeat (mem : BitVec w → BitVec 8) (a : BitVec w) (data : BitVec (8 * n))
    (strobe : BitVec n) : BitVec w → BitVec 8 := fun b =>
  if b.toNat / n = a.toNat / n ∧ strobe.getLsbD (b.toNat % n) then
    data.extractLsb' (8 * (b.toNat % n)) 8
  else mem b

/-- Others write some bytes. -/
def overlay (mem : BitVec w → BitVec 8) (others : BitVec w → Option (BitVec 8)) :
    BitVec w → BitVec 8 := fun b => (others b).getD (mem b)

theorem overlay_of_none {mem : BitVec w → BitVec 8} {others : BitVec w → Option (BitVec 8)}
    {b : BitVec w} (h : others b = none) : overlay mem others b = mem b := by
  unfold overlay
  rw [h]
  rfl

section

variable {mem : BitVec w → BitVec 8} {a b : BitVec w} (hn : n ∣ 2 ^ w)

include hn

theorem toNat_beatByte {lane : Nat} (hlane : lane < n) :
    (BitVec.ofNat w (a.toNat / n * n + lane)).toNat = a.toNat / n * n + lane := by
  obtain ⟨m, hm⟩ := hn
  have hlt : a.toNat / n < m := by
    apply Nat.div_lt_of_lt_mul
    rw [← hm]
    exact a.isLt
  have hle : (a.toNat / n + 1) * n ≤ m * n := Nat.mul_le_mul_right n hlt
  rw [Nat.add_mul, Nat.one_mul, Nat.mul_comm m n, ← hm] at hle
  rw [BitVec.toNat_ofNat, Nat.mod_eq_of_lt (by omega)]

theorem beatByte_div {lane : Nat} (hlane : lane < n) :
    (BitVec.ofNat w (a.toNat / n * n + lane)).toNat / n = a.toNat / n := by
  rw [toNat_beatByte hn hlane, Nat.mul_comm, Nat.mul_add_div (by omega), Nat.div_eq_of_lt hlane,
    Nat.add_zero]

theorem beatByte_mod {lane : Nat} (hlane : lane < n) :
    (BitVec.ofNat w (a.toNat / n * n + lane)).toNat % n = lane := by
  rw [toNat_beatByte hn hlane, Nat.mul_comm, Nat.mul_add_mod, Nat.mod_eq_of_lt hlane]

theorem laneAt_storeBeat {data : BitVec (8 * n)} {strobe : BitVec n}
    (hbeat : b.toNat / n = a.toNat / n) (hfits : b.toNat % n / 4 * 4 + 4 ≤ n)
    (hstrobe : ∀ q < 4, strobe.getLsbD (b.toNat % n / 4 * 4 + q) = true) :
    laneAt n (storeBeat mem a data strobe) b = data.extractLsb' (b.toNat % n / 4 * 32) 32 := by
  apply BitVec.eq_of_getLsbD_eq
  intro j hj
  unfold laneAt beatAt
  generalize b.toNat % n / 4 = lane at hfits hstrobe ⊢
  have hq : (lane * 32 + j) / 8 = lane * 4 + j / 8 := by omega
  have hlt : lane * 4 + j / 8 < n := by omega
  rw [BitVec.getLsbD_extractLsb', BitVec.getLsbD_extractLsb', decide_eq_true hj, Bool.true_and,
    Bool.true_and, getLsbD_joinBytes _ (by omega), hq]
  have hon : (storeBeat mem a data strobe) (BitVec.ofNat w (b.toNat / n * n + (lane * 4 + j / 8))) =
      data.extractLsb' (8 * (lane * 4 + j / 8)) 8 := by
    unfold storeBeat
    rw [beatByte_div hn hlt, beatByte_mod hn hlt, if_pos ⟨hbeat, hstrobe _ (by omega)⟩]
  rw [hon, BitVec.getLsbD_extractLsb', decide_eq_true (Nat.mod_lt _ (by decide)), Bool.true_and]
  congr 1
  omega

end

/-! ## The bus -/

inductive WriteStage (w : Nat)
  | free
  | addressed (a : BitVec w)
  | stored
  deriving DecidableEq

structure BusMemory (w : Nat) where
  mem : BitVec w → BitVec 8
  reading : Option (BitVec w)
  writing : WriteStage w

/-- What the memory is ready to do in a clock. -/
structure BusTiming where
  ar : Bool
  r : Bool
  aw : Bool
  w : Bool
  b : Bool

structure BusMaster (w n : Nat) where
  arvalid : Bool
  araddr : BitVec w
  rready : Bool
  awvalid : Bool
  awaddr : BitVec w
  wvalid : Bool
  wdata : BitVec (8 * n)
  wstrb : BitVec n
  bready : Bool

namespace BusMemory

variable (m : BusMemory w) (t : BusTiming)

def arready : Bool := t.ar && m.reading.isNone

def rvalid : Bool := t.r && m.reading.isSome

def rdata (n : Nat) : BitVec (8 * n) :=
  match m.reading with
  | some a => beatAt n m.mem a
  | none => 0

def awready : Bool := t.aw && decide (m.writing = .free)

def wready : Bool :=
  match m.writing with
  | .addressed _ => t.w
  | _ => false

def bvalid : Bool := t.b && decide (m.writing = .stored)

def memNext (d : BusMaster w n) (others : BitVec w → Option (BitVec 8)) : BitVec w → BitVec 8 :=
  match m.writing with
  | .addressed a =>
      if d.wvalid && t.w then storeBeat (overlay m.mem others) a d.wdata d.wstrb
      else overlay m.mem others
  | _ => overlay m.mem others

def readingNext (d : BusMaster w n) : Option (BitVec w) :=
  if d.arvalid && m.arready t then some d.araddr
  else if m.rvalid t && d.rready then none
  else m.reading

def writingNext (d : BusMaster w n) : WriteStage w :=
  match m.writing with
  | .free => if d.awvalid && t.aw then .addressed d.awaddr else .free
  | .addressed a => if d.wvalid && t.w then .stored else .addressed a
  | .stored => if t.b && d.bready then .free else .stored

def next (d : BusMaster w n) (others : BitVec w → Option (BitVec 8)) : BusMemory w where
  mem := m.memNext t d others
  reading := m.readingNext t d
  writing := m.writingNext t d

variable {m : BusMemory w} {t : BusTiming} {d : BusMaster w n}

theorem rvalid_of_none (h : m.reading = none) : m.rvalid t = false := by
  unfold rvalid
  rw [h]
  exact Bool.and_false _

theorem readingNext_of_none (h : m.reading = none) :
    m.readingNext t d = if d.arvalid && t.ar then some d.araddr else none := by
  unfold readingNext arready
  rw [rvalid_of_none h, h, Option.isNone_none, Bool.and_true, Bool.false_and,
    if_neg Bool.false_ne_true]

theorem readingNext_of_some {a : BitVec w} (h : m.reading = some a) :
    m.readingNext t d = if t.r && d.rready then none else some a := by
  unfold readingNext arready rvalid
  rw [h, Option.isNone_some, Option.isSome_some, Bool.and_false, Bool.and_false, Bool.and_true,
    if_neg Bool.false_ne_true]

theorem bvalid_of_ne (h : m.writing ≠ .stored) : m.bvalid t = false := by
  unfold bvalid
  rw [decide_eq_false h, Bool.and_false]

end BusMemory

end CppHdl
