import Mathlib.Algebra.Group.Nat.Defs
import Mathlib.Data.List.Basic
import Mathlib.Tactic.Common
import CppHdl.Lib.Cells

/-!
# The block arena of a scheduled design

`Arena<Bytes>` hands out 16-byte blocks of a fixed store, first fit, with one
flag for each block; `Allocator<T, Bytes>` is the typed front end containers
use. A fault of the source does not return, so it is an error here.

`base` is the address of the store: `alignas(Block)` makes it a multiple of 16.
Machine sizes are naturals that wrap at 2^64 where the code adds or multiplies;
`blockCount_eq` says that rounding up to blocks never does.
-/

namespace CppHdl.Hls

def block : Nat := 16

/-- `cpphdl_hls_fault(code)`. -/
structure Fault where
  code : Nat
  deriving DecidableEq

/-- The values of `size_t`. -/
def wrap (n : Nat) : Nat := n % 2 ^ 64

/-- The store of an arena: where it is and how large. -/
structure Storage where
  base : Nat
  bytes : Nat
  pos : 0 < bytes
  whole : bytes % block = 0
  aligned : base % block = 0
  /-- It lies in the address space. -/
  fits : base + bytes < 2 ^ 64

/-- `used`: one flag for each block. -/
structure Arena (S : Storage) where
  used : List Bool
  size : used.length = S.bytes / block

/-- The blocks that hold a number of bytes, as both calls compute it. -/
def blockCount (bytes : Nat) : Nat := wrap (bytes + block - 1) / block

namespace Arena

variable {S : Storage}

def empty (S : Storage) : Arena S := ⟨List.replicate (S.bytes / block) false, by simp⟩

def fill (a : Arena S) (first count : Nat) (value : Bool) : Arena S :=
  ⟨fillRun a.used first count value, by rw [length_fillRun, a.size]⟩

def allocate (a : Arena S) (bytes : Nat) : Except Fault (Nat × Arena S) :=
  if bytes = 0 ∨ S.bytes < bytes then .error ⟨1⟩
  else
    let needed := blockCount bytes
    match findRun needed a.used 0 0 with
    | some first => .ok (S.base + first * block, a.fill first needed true)
    | none => .error ⟨1⟩

/-- Free block by block; a block that is free already is a fault. -/
def release (a : Arena S) (first : Nat) : Nat → Except Fault (Arena S)
  | 0 => .ok a
  | count + 1 =>
      match a.used[first]? with
      | some true => release (a.fill first 1 false) (first + 1) count
      | _ => .error ⟨2⟩

def deallocate (a : Arena S) (address bytes : Nat) : Except Fault (Arena S) :=
  if address < S.base ∨ S.bytes ≤ address - S.base ∨ (address - S.base) % block ≠ 0 ∨
      bytes = 0 ∨ S.bytes - (address - S.base) < bytes then .error ⟨2⟩
  else a.release ((address - S.base) / block) (blockCount bytes)

end Arena

/-- What an allocator reads of its element type. -/
structure ValueType where
  size : Nat
  align : Nat
  pos : 0 < size
  /-- Alignments are powers of two, and above 16 they do not compile. -/
  align_dvd : align ∣ block

namespace Allocator

variable {S : Storage}

def allocate (T : ValueType) (a : Arena S) (count : Nat) : Except Fault (Nat × Arena S) :=
  if S.bytes / T.size < count then .error ⟨1⟩ else a.allocate (wrap (count * T.size))

def deallocate (T : ValueType) (a : Arena S) (address count : Nat) : Except Fault (Arena S) :=
  a.deallocate address (wrap (count * T.size))

end Allocator

/-! ## Runs -/

def blocks (bytes : Nat) : Nat := (bytes + block - 1) / block

structure Allocation where
  type : ValueType
  address : Nat
  count : Nat

namespace Allocation

def bytes (l : Allocation) : Nat := l.count * l.type.size

/-- The blocks of an allocation: the first and how many. -/
def run (S : Storage) (l : Allocation) : Nat × Nat :=
  ((l.address - S.base) / block, blocks l.bytes)

end Allocation

/-- The arenas a program can reach by calls that return, with the allocations
live there. Every deallocation names a live allocation. -/
inductive Reachable (S : Storage) : Arena S → List Allocation → Prop
  | empty : Reachable S (Arena.empty S) []
  | allocate {a a' : Arena S} {live : List Allocation} {T : ValueType} {count address : Nat} :
      Reachable S a live → Allocator.allocate T a count = .ok (address, a') →
      Reachable S a' (⟨T, address, count⟩ :: live)
  | deallocate {a a' : Arena S} {before after : List Allocation} {l : Allocation} :
      Reachable S a (before ++ l :: after) →
      Allocator.deallocate l.type a l.address l.count = .ok a' →
      Reachable S a' (before ++ after)

/-- An allocation lies in the store, in whole blocks of its own. -/
structure Allocation.Placed (S : Storage) (l : Allocation) : Prop where
  pos : 0 < l.bytes
  base_le : S.base ≤ l.address
  aligned : l.address % block = 0
  end_le : l.address + l.bytes ≤ S.base + S.bytes

structure Arena.Sound {S : Storage} (a : Arena S) (live : List Allocation) : Prop where
  placed : ∀ l ∈ live, l.Placed S
  apart : (live.map (Allocation.run S)).Pairwise Apart
  marks : Marks a.used (live.map (Allocation.run S))

/-! ## Steps -/

theorem blocks_pos {bytes : Nat} (h : 0 < bytes) : 0 < blocks bytes := by
  unfold blocks block
  omega

theorem le_blocks (bytes : Nat) : bytes ≤ blocks bytes * block := by
  unfold blocks block
  omega

/-- No size the arena takes overflows when it is rounded up. -/
theorem blockCount_eq {S : Storage} {bytes : Nat} (h : bytes ≤ S.bytes) :
    blockCount bytes = blocks bytes := by
  have hfits := S.fits
  have hwhole := S.whole
  unfold blockCount blocks wrap
  unfold block at *
  rw [Nat.mod_eq_of_lt]
  omega

/-- Bytes that the store has no room for need more blocks than it has. -/
theorem bytes_le_of_blocks_le {S : Storage} {bytes : Nat} (h : blocks bytes ≤ S.bytes / block) :
    bytes ≤ S.bytes := by
  have hle := le_blocks bytes
  have hwhole := S.whole
  unfold block at *
  omega

/-- A count that passes the check of `allocate` gives a size that does not wrap. -/
theorem wrap_bytes {S : Storage} {T : ValueType} {count : Nat} (h : count ≤ S.bytes / T.size) :
    wrap (count * T.size) = count * T.size := by
  have hle := (Nat.le_div_iff_mul_le T.pos).mp h
  have hfits := S.fits
  exact Nat.mod_eq_of_lt (by omega)

namespace Arena

variable {S : Storage} {a a' : Arena S}

theorem allocate_ok {bytes address : Nat} (h : a.allocate bytes = .ok (address, a')) :
    0 < bytes ∧ bytes ≤ S.bytes ∧ ∃ first, FreeRun a.used first (blocks bytes) ∧
      address = S.base + first * block ∧ a' = a.fill first (blocks bytes) true := by
  unfold allocate at h
  split_ifs at h with hsize
  simp only [not_or, Nat.not_lt] at hsize
  refine ⟨Nat.pos_of_ne_zero hsize.1, hsize.2, ?_⟩
  rw [blockCount_eq hsize.2] at h
  dsimp only at h
  cases hfind : findRun (blocks bytes) a.used 0 0 with
  | none => rw [hfind] at h; cases h
  | some first =>
      rw [hfind] at h
      obtain ⟨rfl, rfl⟩ := Prod.mk.inj (Except.ok.inj h)
      have hpos := blocks_pos (Nat.pos_of_ne_zero hsize.1)
      exact ⟨first, findRun_eq_some hpos hfind, rfl, rfl⟩

/-- Allocation fails exactly when no run of free blocks is long enough. -/
theorem allocate_faults_iff {bytes : Nat} (hbytes : 0 < bytes) :
    a.allocate bytes = .error ⟨1⟩ ↔ ∀ first, ¬ FreeRun a.used first (blocks bytes) := by
  unfold allocate
  split_ifs with hsize
  · refine ⟨fun _ first hrun => ?_, fun _ => rfl⟩
    have hlen := hrun.1
    rw [a.size] at hlen
    have hle : bytes ≤ S.bytes := bytes_le_of_blocks_le (by omega)
    omega
  · have hle : bytes ≤ S.bytes := by omega
    rw [blockCount_eq hle, ← findRun_eq_none (blocks_pos hbytes)]
    dsimp only
    cases findRun (blocks bytes) a.used 0 0 with
    | none => simp
    | some first => simp

/-- Freeing taken blocks frees them all. -/
theorem release_eq {first count : Nat} (hlen : first + count ≤ a.used.length)
    (htaken : ∀ j < count, a.used[first + j]? = some true) :
    a.release first count = .ok (a.fill first count false) := by
  induction count generalizing a first with
  | zero => rfl
  | succ count ih =>
      have hfirst := htaken 0 (by omega)
      rw [Nat.add_zero] at hfirst
      have hstep : (a.fill first 1 false).release (first + 1) count =
          .ok ((a.fill first 1 false).fill (first + 1) count false) := by
        apply ih
        · change first + 1 + count ≤ (fillRun a.used first 1 false).length
          rw [length_fillRun]
          omega
        · intro j hj
          change (fillRun a.used first 1 false)[first + 1 + j]? = some true
          rw [getElem?_fillRun false (by omega), if_neg (by omega),
            show first + 1 + j = first + (j + 1) by omega]
          exact htaken (j + 1) (by omega)
      have hjoin : (a.fill first 1 false).fill (first + 1) count false =
          a.fill first (count + 1) false := by
        have : fillRun (fillRun a.used first 1 false) (first + 1) count false =
            fillRun a.used first (count + 1) false := by
          apply List.ext_getElem?
          intro i
          by_cases hi : i < a.used.length
          · rw [getElem?_fillRun false (by rwa [length_fillRun]), getElem?_fillRun false hi,
              getElem?_fillRun false hi]
            split_ifs <;> first | rfl | omega
          · rw [List.getElem?_eq_none (by simp; omega), List.getElem?_eq_none (by simp; omega)]
        simp only [fill, this]
      unfold release
      rw [hfirst]
      exact hstep.trans (by rw [hjoin])

end Arena

/-- A typed allocation fails exactly when it asks for nothing or no run of free
blocks is long enough. -/
theorem Allocator.allocate_faults_iff {S : Storage} {a : Arena S} {T : ValueType} {count : Nat} :
    Allocator.allocate T a count = .error ⟨1⟩ ↔
      count = 0 ∨ ∀ first, ¬ FreeRun a.used first (blocks (count * T.size)) := by
  rcases Nat.eq_zero_or_pos count with rfl | hcount
  · unfold Allocator.allocate Arena.allocate
    simp [wrap]
  have hbytes := Nat.mul_pos hcount T.pos
  rw [or_iff_right (by omega)]
  unfold Allocator.allocate
  split_ifs with hmany
  · refine ⟨fun _ first hrun => ?_, fun _ => rfl⟩
    have hlarge : S.bytes < count * T.size := (Nat.div_lt_iff_lt_mul T.pos).mp hmany
    have hlen := hrun.1
    rw [a.size] at hlen
    have hle : count * T.size ≤ S.bytes := bytes_le_of_blocks_le (by omega)
    omega
  · rw [wrap_bytes (Nat.not_lt.mp hmany)]
    exact Arena.allocate_faults_iff hbytes

namespace Arena.Sound

variable {S : Storage} {a a' : Arena S} {live : List Allocation}

theorem empty (S : Storage) : (Arena.empty S).Sound [] where
  placed := by simp
  apart := .nil
  marks i hi := by
    change i < (List.replicate (S.bytes / block) false).length at hi
    rw [List.length_replicate] at hi
    simp [Arena.empty, hi]

theorem allocate (h : a.Sound live) {T : ValueType} {count address : Nat}
    (hrun : Allocator.allocate T a count = .ok (address, a')) :
    a'.Sound (⟨T, address, count⟩ :: live) := by
  unfold Allocator.allocate at hrun
  split_ifs at hrun with hmany
  rw [wrap_bytes (Nat.not_lt.mp hmany)] at hrun
  obtain ⟨hpos, -, first, hfree, rfl, rfl⟩ := Arena.allocate_ok hrun
  have hblock : Allocation.run S ⟨T, S.base + first * block, count⟩ =
      (first, blocks (count * T.size)) := by
    unfold Allocation.run Allocation.bytes
    rw [Nat.add_sub_cancel_left, Nat.mul_div_cancel _ (by decide : 0 < block)]
  refine ⟨?_, ?_, ?_⟩
  · rintro l (_ | ⟨_, hl⟩)
    · refine ⟨hpos, Nat.le_add_right _ _, ?_, ?_⟩
      · rw [Nat.add_mul_mod_self_right]
        exact S.aligned
      · have hlen := hfree.1
        rw [a.size] at hlen
        have hle := le_blocks (count * T.size)
        have hwhole := Nat.div_mul_cancel (Nat.dvd_of_mod_eq_zero S.whole)
        have hmul := Nat.mul_le_mul_right block hlen
        rw [Nat.add_mul, hwhole] at hmul
        change S.base + first * block + count * T.size ≤ S.base + S.bytes
        omega
    · exact h.placed l hl
  · rw [List.map_cons, List.pairwise_cons, hblock]
    exact ⟨h.marks.apart hfree, h.apart⟩
  · rw [List.map_cons, hblock]
    exact h.marks.take first _

/-- The blocks of a live allocation exist and are taken. -/
theorem run_taken (h : a.Sound live) {l : Allocation} (hl : l ∈ live) :
    (l.run S).1 + (l.run S).2 ≤ a.used.length ∧
      ∀ j < (l.run S).2, a.used[(l.run S).1 + j]? = some true := by
  have hplaced := h.placed l hl
  have hlen : (l.run S).1 + (l.run S).2 ≤ a.used.length := by
    have hbase := hplaced.base_le
    have hend := hplaced.end_le
    have h₁ := S.whole
    have h₂ := S.aligned
    have h₃ := hplaced.aligned
    rw [a.size]
    unfold Allocation.run blocks block at *
    simp only
    omega
  refine ⟨hlen, fun j hj => (h.marks _ (by omega)).mpr ⟨l.run S, List.mem_map_of_mem hl, ?_⟩⟩
  exact ⟨Nat.le_add_right _ _, by omega⟩

theorem deallocate_eq (h : a.Sound live) {l : Allocation} (hl : l ∈ live) :
    Allocator.deallocate l.type a l.address l.count =
      .ok (a.fill (l.run S).1 (l.run S).2 false) := by
  have hplaced := h.placed l hl
  have hbase := hplaced.base_le
  have hend := hplaced.end_le
  have hpos := hplaced.pos
  have hmod : (l.address - S.base) % block = 0 := by
    have h₁ := hplaced.aligned
    have h₂ := S.aligned
    unfold block at *
    omega
  obtain ⟨hlen, htaken⟩ := h.run_taken hl
  have hfits := S.fits
  have hle : l.bytes ≤ S.bytes := by omega
  have hwrap : wrap (l.count * l.type.size) = l.bytes :=
    Nat.mod_eq_of_lt (by change l.bytes < _; omega)
  unfold Allocator.deallocate Arena.deallocate
  rw [hwrap, blockCount_eq hle, if_neg (by omega)]
  exact Arena.release_eq hlen htaken

theorem free (h : a.Sound live) {before after : List Allocation} {l : Allocation}
    (hlive : live = before ++ l :: after) :
    (a.fill (l.run S).1 (l.run S).2 false).Sound (before ++ after) := by
  have hl : l ∈ live := by simp [hlive]
  have hperm : (live.map (Allocation.run S)).Perm
      (l.run S :: (before ++ after).map (Allocation.run S)) := by
    rw [hlive, ← List.map_cons]
    exact List.perm_middle.map _
  have hapart := hperm.pairwise h.apart Apart.symm
  refine ⟨fun k hk => h.placed k ?_, hapart.of_cons, ?_⟩
  · rw [hlive, List.perm_middle.mem_iff]
    exact List.mem_cons_of_mem l hk
  · have hmarks := h.marks.free (List.mem_map_of_mem hl) h.apart
    have herase := (hperm.erase (l.run S)).trans (by rw [List.erase_cons_head])
    intro i hi
    change (fillRun a.used (l.run S).1 (l.run S).2 false)[i]? = some true ↔ _
    rw [hmarks i hi]
    simp only [herase.mem_iff]

end Arena.Sound

theorem Reachable.sound {S : Storage} {a : Arena S} {live : List Allocation}
    (h : Reachable S a live) : a.Sound live := by
  induction h with
  | empty => exact Arena.Sound.empty S
  | allocate _ hrun ih => exact ih.allocate hrun
  | @deallocate _ _ before after l _ hrun ih =>
      rw [ih.deallocate_eq (by simp)] at hrun
      cases hrun
      exact ih.free rfl

def Allocation.Covers (l : Allocation) (address : Nat) : Prop :=
  l.address ≤ address ∧ address < l.address + l.bytes

theorem Allocation.covers_block {S : Storage} {l : Allocation} (h : l.Placed S) {address : Nat}
    (hcover : l.Covers address) : InRun (l.run S) ((address - S.base) / block) := by
  obtain ⟨hle, hlt⟩ := hcover
  have h₁ := h.base_le
  have h₂ := h.aligned
  have h₃ := S.aligned
  unfold InRun Allocation.run blocks block at *
  simp only
  omega

end CppHdl.Hls
