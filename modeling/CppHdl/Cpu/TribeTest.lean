import CppHdl.Lib.Mailbox
import Mathlib.Data.List.FinRange
import Mathlib.Data.BitVec

/-!
# Invalidations between cores

`TribeTest` composes cores with private data caches around a shared L2. A store that is
accepted on the data path of a core is a snoop of one clock for the other cores, and a line
that the L2 accepts from a DMA master crosses into the CPU clock by a mailbox with toggles.
Both share one invalidation lane of each core.
-/

namespace CppHdl.Cpu

structure L1PeerStoreState where
  valid : Bool
  addr : BitVec 32
  deriving DecidableEq

structure L1PeerInvalidateComb where
  valid : Bool
  full : Bool
  addr : BitVec 32
  deriving DecidableEq

/-- The registers of the snoops. In the mailbox `dma_invalidate_request_l2` and
`dma_invalidate_addr_l2` are the request and the payload, `dma_invalidate_seen_cpu` is the
acknowledgement. -/
structure TribeTest (CPU_CORES : Nat) where
  peerStore : Fin CPU_CORES → L1PeerStoreState
  dmaInvalidate : Mailbox (BitVec 32)
  dmaInvalidatePulseCpu : Bool
  dmaInvalidateAddrCpu : BitVec 32

/-- The data path of a core in a CPU clock; `l2PtwOwner` is the address of a page table walk
that has it. -/
structure DataPath where
  dmemWriteOut : Bool
  dmemAddrOut : BitVec 32
  l2PtwOwner : Option (BitVec 32)
  atomicDataAccess : Bool
  waitOut : Bool

namespace DataPath

variable (d : DataPath)

/-- `d_mem_out.write_in` behind the gate of the arbiter. -/
def writeIn : Bool := d.atomicDataAccess && (d.l2PtwOwner.isNone && d.dmemWriteOut)

def addrIn : BitVec 32 := d.l2PtwOwner.getD d.dmemAddrOut

def accepted : Bool := d.writeIn && !d.waitOut

/-- A store is taken for a snoop. -/
def recorded : Bool := d.dmemWriteOut && d.atomicDataAccess && !d.waitOut

end DataPath

structure CpuInputs (CPU_CORES : Nat) where
  reset : Bool
  dataPath : Fin CPU_CORES → DataPath
  externalCacheInvalidateIn : Bool

/-- The inputs of an edge of the L2 clock; `dmaLineReady` is that of the L2 cache. -/
structure L2Inputs where
  reset : Bool
  dmaLineValidIn : Bool
  dmaLineAddrIn : BitVec 32
  dmaLineReady : Bool

structure Edge (CPU_CORES : Nat) where
  cpu : Option (CpuInputs CPU_CORES)
  l2 : Option L2Inputs

namespace TribeTest

variable {CPU_CORES : Nat} (s : TribeTest CPU_CORES)

/-- One peer store takes the lane, two become a full invalidation. -/
def collect (comb : L1PeerInvalidateComb) (store : L1PeerStoreState) : L1PeerInvalidateComb :=
  if comb.valid then { comb with valid := false, full := true }
  else if !comb.full then { comb with valid := true, addr := store.addr }
  else comb

def peerInvalidateComb (target : Fin CPU_CORES) : L1PeerInvalidateComb :=
  (List.finRange CPU_CORES).foldl (fun comb source =>
    if target ≠ source ∧ (s.peerStore source).valid = true then collect comb (s.peerStore source)
    else comb) ⟨false, false, 0⟩

/-! ## The invalidation inputs of a core -/

def externalCacheInvalidateIn (i : CpuInputs CPU_CORES) (target : Fin CPU_CORES) : Bool :=
  i.externalCacheInvalidateIn || (s.peerInvalidateComb target).full

def peerCacheInvalidateIn (target : Fin CPU_CORES) : Bool :=
  (s.peerInvalidateComb target).valid || s.dmaInvalidatePulseCpu

def peerCacheInvalidateAddrIn (target : Fin CPU_CORES) : BitVec 32 :=
  if s.dmaInvalidatePulseCpu then s.dmaInvalidateAddrCpu else (s.peerInvalidateComb target).addr

/-! ## Edges -/

def dmaLineReadyOut (i : L2Inputs) : Bool := i.dmaLineReady && s.dmaInvalidate.ready

def dmaLineAccepted (i : L2Inputs) : Bool := i.dmaLineValidIn && s.dmaLineReadyOut i

/-- The snoops of `work_clk_func`, on the registers `n`. -/
def workClk (i : CpuInputs CPU_CORES) (n : TribeTest CPU_CORES) : TribeTest CPU_CORES :=
  let n := { n with
    dmaInvalidate := s.dmaInvalidate.consume s.dmaInvalidate.valid n.dmaInvalidate
    dmaInvalidatePulseCpu := s.dmaInvalidate.valid
    dmaInvalidateAddrCpu :=
      if s.dmaInvalidate.valid then s.dmaInvalidate.payload else s.dmaInvalidateAddrCpu
    peerStore := fun core =>
      if (i.dataPath core).recorded then ⟨true, (i.dataPath core).dmemAddrOut⟩
      else ⟨false, (s.peerStore core).addr⟩ }
  if i.reset then
    { n with
      dmaInvalidate := n.dmaInvalidate.clearConsumer
      dmaInvalidatePulseCpu := false
      dmaInvalidateAddrCpu := 0
      peerStore := fun _ => ⟨false, 0⟩ }
  else n

def workL2Clock (i : L2Inputs) (n : TribeTest CPU_CORES) : TribeTest CPU_CORES :=
  let n := { n with
    dmaInvalidate := s.dmaInvalidate.produce (s.dmaLineAccepted i) i.dmaLineAddrIn n.dmaInvalidate }
  if i.reset then { n with dmaInvalidate := n.dmaInvalidate.clearProducer } else n

def edge (e : Edge CPU_CORES) : TribeTest CPU_CORES :=
  let n := match e.l2 with
    | some i => s.workL2Clock i s
    | none => s
  match e.cpu with
  | some i => s.workClk i n
  | none => n

/-- After the resets of both clocks. -/
def start : TribeTest CPU_CORES where
  peerStore _ := ⟨false, 0⟩
  dmaInvalidate := ⟨0, false, false, false, false, false, false⟩
  dmaInvalidatePulseCpu := false
  dmaInvalidateAddrCpu := 0

def run (edges : List (Edge CPU_CORES)) : TribeTest CPU_CORES := edges.foldl edge start

end TribeTest

structure Edge.Running {CPU_CORES : Nat} (e : Edge CPU_CORES) : Prop where
  cpu : ∀ i, e.cpu = some i → i.reset = false
  l2 : ∀ i, e.l2 = some i → i.reset = false

end CppHdl.Cpu
