import CppHdl.Lib.Requests
import Mathlib.Data.BitVec

/-!
# Interfaces of the AXI bus

The signals of `Axi4If` in the two directions. Its users have write beats of their own
(one version has a strobe, the other has none), so the type of a write beat is a parameter.
There are no burst lengths: a last beat ends a burst.

A transfer takes place where valid and ready meet in a clock. The transfers of the clocks
so far are a log, labelled with the interfaces they took place at.
-/

namespace CppHdl.Bus

open Service

/-- Addresses and IDs are bit-fields of 64-bit words. -/
structure Axi4Widths where
  ADDR_WIDTH : Nat
  ID_WIDTH : Nat
  DATA_WIDTH : Nat
  addr_le : ADDR_WIDTH ≤ 64

theorem byte_addr_le : 8 ≤ 64 := by decide

structure Axi4Request (W : Axi4Widths) where
  addr : BitVec W.ADDR_WIDTH
  id : BitVec W.ID_WIDTH
deriving DecidableEq

structure Axi4ReadBeat (W : Axi4Widths) where
  data : BitVec W.DATA_WIDTH
  last : Bool
  id : BitVec W.ID_WIDTH
deriving DecidableEq

/-- What the side of the requests drives. -/
structure Axi4Driver (W : Axi4Widths) (δ : Type) where
  awvalid : Bool
  aw : Axi4Request W
  wvalid : Bool
  w : δ
  bready : Bool
  arvalid : Bool
  ar : Axi4Request W
  rready : Bool

/-- What the side of the responses drives. -/
structure Axi4Responder (W : Axi4Widths) where
  awready : Bool
  wready : Bool
  bvalid : Bool
  bid : BitVec W.ID_WIDTH
  arready : Bool
  rvalid : Bool
  r : Axi4ReadBeat W

/-! ## Transfers -/

variable {W : Axi4Widths} {δ : Type} {ι : Type}

/-- The transfers at an interface in a clock. -/
structure Axi4Transfers (W : Axi4Widths) (δ : Type) where
  aw : Option (Axi4Request W)
  w : Option δ
  b : Option (BitVec W.ID_WIDTH)
  ar : Option (Axi4Request W)
  r : Option (Axi4ReadBeat W)

def fires {α : Type} (valid ready : Bool) (x : α) : Option α := if valid && ready then some x else none

theorem fires_comm {α : Type} (valid ready : Bool) (x : α) :
    fires valid ready x = fires ready valid x := by
  unfold fires
  rw [Bool.and_comm]

theorem fires_isSome {α : Type} (valid ready : Bool) (x : α) :
    (fires valid ready x).isSome = (valid && ready) := by
  unfold fires
  cases valid && ready <;> rfl

/-- Of `n` interfaces only the selected one transfers. -/
theorem labelled_fires {α : Type} {n sel : Nat} (h : sel < n) (a v : Bool) (ready : Nat → Bool)
    (x : Nat → α) :
    labelled (List.range n) (fun k => fires (a && decide (sel = k) && v) (ready k) (x k)) =
      ((fires (a && v) (ready sel) (x sel)).map (sel, ·)).toList := by
  rw [labelled_chosen List.nodup_range (List.mem_range.mpr h), decide_eq_true rfl, Bool.and_true]
  intro k hk
  rw [decide_eq_false (Ne.symm hk), Bool.and_false]
  rfl

def transfers (d : Axi4Driver W δ) (r : Axi4Responder W) : Axi4Transfers W δ where
  aw := fires d.awvalid r.awready d.aw
  w := fires d.wvalid r.wready d.w
  b := fires r.bvalid d.bready r.bid
  ar := fires d.arvalid r.arready d.ar
  r := fires r.rvalid d.rready r.r

/-- The transfers of the clocks so far. -/
structure Axi4Log (ι : Type) (W : Axi4Widths) (δ : Type) where
  aw : List (ι × Axi4Request W)
  w : List (ι × δ)
  b : List (ι × BitVec W.ID_WIDTH)
  ar : List (ι × Axi4Request W)
  r : List (ι × Axi4ReadBeat W)

namespace Axi4Log

def empty : Axi4Log ι W δ := ⟨[], [], [], [], []⟩

def clock (log : Axi4Log ι W δ) (ports : List ι) (t : ι → Axi4Transfers W δ) : Axi4Log ι W δ where
  aw := log.aw ++ labelled ports fun i => (t i).aw
  w := log.w ++ labelled ports fun i => (t i).w
  b := log.b ++ labelled ports fun i => (t i).b
  ar := log.ar ++ labelled ports fun i => (t i).ar
  r := log.r ++ labelled ports fun i => (t i).r

end Axi4Log

/-! ## The rules of the bus -/

/-- Write beats carry no ID. -/
def writeData (last : δ → Bool) : Service (Axi4Request W) δ where
  last := last
  fits _ _ := true

def writeResponses : Service (Axi4Request W) (BitVec W.ID_WIDTH) where
  last _ := true
  fits q id := decide (id = q.id)

theorem ended_writeResponses (ids : List (BitVec W.ID_WIDTH)) :
    (@writeResponses W).ended ids = ids.length := congrFun List.countP_true ids

def readData : Service (Axi4Request W) (Axi4ReadBeat W) where
  last := Axi4ReadBeat.last
  fits q beat := decide (beat.id = q.id)

namespace Axi4Log

variable [DecidableEq ι]

/-- At this interface, the data of a write follow its address. -/
def DataFollows (log : Axi4Log ι W δ) (last : δ → Bool) (i : ι) (t : Axi4Transfers W δ) : Prop :=
  ∀ beat ∈ t.w, (writeData last).Due (onPort i log.aw) (onPort i log.w) beat

/-- A response to a write is for the oldest write without one, behind the last of its data. -/
def OwesWrite (log : Axi4Log ι W δ) (last : δ → Bool) (i : ι) (id : BitVec W.ID_WIDTH) : Prop :=
  writeResponses.Due (onPort i log.aw) (onPort i log.b) id ∧
    (onPort i log.b).length < (@writeData W δ last).ended (onPort i log.w)

/-- A read beat is of the oldest read that is not ended. -/
def OwesRead (log : Axi4Log ι W δ) (i : ι) (beat : Axi4ReadBeat W) : Prop :=
  readData.Due (onPort i log.ar) (onPort i log.r) beat

/-- The responses at this interface are owed. -/
def Responds (log : Axi4Log ι W δ) (last : δ → Bool) (i : ι) (t : Axi4Transfers W δ) : Prop :=
  (∀ id ∈ t.b, log.OwesWrite last i id) ∧ ∀ beat ∈ t.r, log.OwesRead i beat

instance (log : Axi4Log ι W δ) (last : δ → Bool) (i : ι) (t : Axi4Transfers W δ) :
    Decidable (log.DataFollows last i t) :=
  inferInstanceAs (Decidable (∀ beat ∈ t.w, (writeData last).Due (onPort i log.aw) (onPort i log.w) beat))

instance (log : Axi4Log ι W δ) (last : δ → Bool) (i : ι) (id : BitVec W.ID_WIDTH) :
    Decidable (log.OwesWrite last i id) :=
  inferInstanceAs (Decidable (writeResponses.Due (onPort i log.aw) (onPort i log.b) id ∧
    (onPort i log.b).length < (@writeData W δ last).ended (onPort i log.w)))

instance (log : Axi4Log ι W δ) (i : ι) (beat : Axi4ReadBeat W) : Decidable (log.OwesRead i beat) :=
  inferInstanceAs (Decidable (readData.Due (onPort i log.ar) (onPort i log.r) beat))

instance (log : Axi4Log ι W δ) (last : δ → Bool) (i : ι) (t : Axi4Transfers W δ) :
    Decidable (log.Responds last i t) :=
  inferInstanceAs (Decidable ((∀ id ∈ t.b, log.OwesWrite last i id) ∧ ∀ beat ∈ t.r, log.OwesRead i beat))

end Axi4Log

end CppHdl.Bus
