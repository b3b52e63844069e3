import Mathlib.Data.List.Chain
import CppHdl.Lib.FrameStream

/-!
# The receive side of the Ethernet PHY

A byte comes in as two nibbles, the low one first; the last byte of a frame has the last
marker at one of its nibbles or at both. The link behind takes a byte when it is ready, but
the nibbles can not wait: when a byte is complete and the one before it still stands in the
data register, the rest of its frame is dropped and a marked byte is put behind what is left.
-/

namespace CppHdl.Devices

structure EthGigPhy where
  rxDropFrame : Bool
  rxAbortPending : Bool
  rxHaveLow : Bool
  rxLow : BitVec 4
  rxLowLast : Bool
  rxValid : Bool
  rxData : BitVec 8
  rxLast : Bool
  deriving DecidableEq

structure PhyInputs where
  reset : Bool
  rgmiiRxCtl : Bool
  rgmiiRxd : BitVec 4
  rgmiiRxLast : Bool
  rxReady : Bool

namespace EthGigPhy

variable (s : EthGigPhy) (i : PhyInputs)

/-- The data register is free at the end of the clock. -/
def rxFree : Bool := !s.rxValid || i.rxReady

/-- The marker that ends a frame which overflowed. -/
def rxAbort (n : EthGigPhy) : EthGigPhy :=
  if s.rxAbortPending && s.rxFree i then
    { n with rxData := 0, rxLast := true, rxValid := true, rxAbortPending := false }
  else n

def rxNibble (n : EthGigPhy) : EthGigPhy :=
  if i.rgmiiRxCtl then
    if !s.rxHaveLow then
      { n with rxLow := i.rgmiiRxd, rxLowLast := i.rgmiiRxLast, rxHaveLow := true }
    else
      let n := { n with rxHaveLow := false }
      if s.rxDropFrame || s.rxAbortPending then
        { n with rxDropFrame := !(i.rgmiiRxLast || s.rxLowLast) }
      else if s.rxFree i then
        { n with
          rxData := i.rgmiiRxd ++ s.rxLow
          rxLast := i.rgmiiRxLast || s.rxLowLast
          rxValid := true }
      else
        { n with rxDropFrame := !(i.rgmiiRxLast || s.rxLowLast), rxAbortPending := true }
  else n

def cleared : EthGigPhy where
  rxDropFrame := false
  rxAbortPending := false
  rxHaveLow := false
  rxLow := 0
  rxLowLast := false
  rxValid := false
  rxData := 0
  rxLast := false

def work : EthGigPhy :=
  if i.reset then cleared
  else
    let n := if s.rxValid && i.rxReady then { s with rxValid := false } else s
    s.rxNibble i (s.rxAbort i n)

def run (s : EthGigPhy) : List PhyInputs → EthGigPhy
  | [] => s
  | i :: is => (s.work i).run is

/-- The byte that the link behind takes. -/
def gives : List (BitVec 8 × Bool) :=
  if s.rxValid && i.rxReady then [(s.rxData, s.rxLast)] else []

/-- The bytes that the link behind takes in a run. -/
def delivered (s : EthGigPhy) : List PhyInputs → List (BitVec 8 × Bool)
  | [] => []
  | i :: is => s.gives i ++ (s.work i).delivered is

/-- The bytes that are still to be given: the one in the data register, and the marker. -/
def waiting : List (BitVec 8 × Bool) :=
  (if s.rxValid then [(s.rxData, s.rxLast)] else []) ++
    (if s.rxAbortPending then [(0, true)] else [])

def losing : Bool := s.rxDropFrame || s.rxAbortPending

end EthGigPhy

/-! ## Nibbles -/

structure Nibble where
  data : BitVec 4
  last : Bool
  deriving DecidableEq

def PhyInputs.nibble (i : PhyInputs) : List Nibble :=
  if i.rgmiiRxCtl then [⟨i.rgmiiRxd, i.rgmiiRxLast⟩] else []

/-- Two nibbles make a byte. -/
def joined (low high : Nibble) : BitVec 8 × Bool := (high.data ++ low.data, high.last || low.last)

def joinedBytes : List Nibble → List (BitVec 8 × Bool)
  | low :: high :: rest => joined low high :: joinedBytes rest
  | _ => []

theorem joinedBytes_append {ns : List Nibble} (h : ns.length % 2 = 0) (ms : List Nibble) :
    joinedBytes (ns ++ ms) = joinedBytes ns ++ joinedBytes ms := by
  induction ns using joinedBytes.induct with
  | case1 low high rest ih =>
      rw [List.length_cons, List.length_cons] at h
      exact congrArg (joined low high :: ·) (ih (by omega))
  | case2 ns hne =>
      match ns, h, hne with
      | [], _, _ => rfl
      | [_], h, _ => cases h
      | low :: high :: rest, _, hne => exact absurd rfl (hne low high rest)

theorem joinedBytes_prefix {ns ms : List Nibble} (h : ns <+: ms) :
    joinedBytes ns <+: joinedBytes ms := by
  obtain ⟨rest, rfl⟩ := h
  induction ns using joinedBytes.induct with
  | case1 low high tail ih => exact (List.prefix_cons_inj _).mpr ih
  | case2 ns hne =>
      rw [show joinedBytes ns = [] from joinedBytes.eq_2 ns hne]
      exact List.nil_prefix

def byteNibbles (b : BitVec 8) (lowLast highLast : Bool) : List Nibble :=
  [⟨b.extractLsb' 0 4, lowLast⟩, ⟨b.extractLsb' 4 4, highLast⟩]

theorem joinedBytes_byteNibbles (b : BitVec 8) (lowLast highLast : Bool) (ns : List Nibble) :
    joinedBytes (byteNibbles b lowLast highLast ++ ns) =
      (b, highLast || lowLast) :: joinedBytes ns := by
  have hdata : b.extractLsb' 4 4 ++ b.extractLsb' 0 4 = b := by
    ext k hk
    rw [BitVec.getElem_append, ← BitVec.getLsbD_eq_getElem]
    split_ifs with hlow
    · rw [BitVec.getElem_extractLsb', Nat.zero_add]
    · rw [BitVec.getElem_extractLsb', Nat.add_sub_cancel' (by omega)]
  change (b.extractLsb' 4 4 ++ b.extractLsb' 0 4, highLast || lowLast) :: joinedBytes ns = _
  rw [hdata]

structure RgmiiFrame where
  body : List (BitVec 8)
  final : BitVec 8
  lowLast : Bool
  highLast : Bool
  /-- The last byte has the marker. -/
  ended : (highLast || lowLast) = true

namespace RgmiiFrame

variable (f : RgmiiFrame)

def bytes : List (BitVec 8) := f.body ++ [f.final]

def nibbles : List Nibble :=
  f.body.flatMap (byteNibbles · false false) ++ byteNibbles f.final f.lowLast f.highLast

theorem bytes_ne_nil : f.bytes ≠ [] := List.append_ne_nil_of_right_ne_nil _ (by simp)

theorem joinedBytes_nibbles (ns : List Nibble) :
    joinedBytes (f.nibbles ++ ns) = marked f.bytes ++ joinedBytes ns := by
  have hbody : ∀ (bs : List (BitVec 8)) (ns : List Nibble),
      joinedBytes (bs.flatMap (byteNibbles · false false) ++ ns) =
        unmarked bs ++ joinedBytes ns := by
    intro bs
    induction bs with
    | nil => exact fun _ => rfl
    | cons b bs ih =>
        intro ns
        rw [List.flatMap_cons, List.append_assoc, joinedBytes_byteNibbles, ih]
        rfl
  unfold nibbles bytes
  rw [List.append_assoc, hbody, joinedBytes_byteNibbles, f.ended, marked_append_singleton,
    List.append_assoc]
  rfl

theorem joinedBytes_frames (frames : List RgmiiFrame) :
    joinedBytes (frames.flatMap nibbles) = (frames.map bytes).flatMap marked := by
  induction frames with
  | nil => rfl
  | cons f frames ih => rw [List.flatMap_cons, joinedBytes_nibbles, ih]; rfl

end RgmiiFrame

/-! ## The link -/

namespace EthGigPhy

variable {s : EthGigPhy} {i : PhyInputs}

/-- What a clock adds to the bytes that were given or are to be given: the byte that is
complete, or the marker in its place, or nothing. -/
def adds (s : EthGigPhy) (i : PhyInputs) : List (BitVec 8 × Bool) :=
  if i.rgmiiRxCtl && s.rxHaveLow && !s.losing then
    if s.rxFree i then [joined ⟨s.rxLow, s.rxLowLast⟩ ⟨i.rgmiiRxd, i.rgmiiRxLast⟩]
    else [(0, true)]
  else []

theorem gives_waiting_work (h : i.reset = false) :
    s.gives i ++ (s.work i).waiting = s.waiting ++ s.adds i := by
  obtain ⟨drop, abort, low?, low, lowLast, valid, data, last⟩ := s
  obtain ⟨reset, ctl, rxd, rxLast, ready⟩ := i
  obtain rfl : reset = false := h
  cases valid <;> cases abort <;> cases ready <;> cases ctl <;> cases low? <;> cases drop <;> rfl

theorem haveLow_work (h : i.reset = false) :
    (s.work i).rxHaveLow = (s.rxHaveLow ^^ i.rgmiiRxCtl) := by
  obtain ⟨drop, abort, low?, low, lowLast, valid, data, last⟩ := s
  obtain ⟨reset, ctl, rxd, rxLast, ready⟩ := i
  obtain rfl : reset = false := h
  cases valid <;> cases abort <;> cases ready <;> cases ctl <;> cases low? <;> cases drop <;> rfl

theorem low_work (h : i.reset = false) :
    (⟨(s.work i).rxLow, (s.work i).rxLowLast⟩ : Nibble) =
      if i.rgmiiRxCtl && !s.rxHaveLow then ⟨i.rgmiiRxd, i.rgmiiRxLast⟩
      else ⟨s.rxLow, s.rxLowLast⟩ := by
  obtain ⟨drop, abort, low?, low, lowLast, valid, data, last⟩ := s
  obtain ⟨reset, ctl, rxd, rxLast, ready⟩ := i
  obtain rfl : reset = false := h
  cases valid <;> cases abort <;> cases ready <;> cases ctl <;> cases low? <;> cases drop <;> rfl

/-- A frame that is being lost is dropped up to its last byte. -/
theorem drop_work (h : i.reset = false) :
    (s.work i).rxDropFrame =
      if i.rgmiiRxCtl && s.rxHaveLow && (s.losing || !s.rxFree i) then
        !(i.rgmiiRxLast || s.rxLowLast)
      else s.rxDropFrame := by
  obtain ⟨drop, abort, low?, low, lowLast, valid, data, last⟩ := s
  obtain ⟨reset, ctl, rxd, rxLast, ready⟩ := i
  obtain rfl : reset = false := h
  cases valid <;> cases abort <;> cases ready <;> cases ctl <;> cases low? <;> cases drop <;> rfl

theorem abort_work (h : i.reset = false) :
    (s.work i).rxAbortPending =
      (!s.rxFree i && (s.rxAbortPending || i.rgmiiRxCtl && s.rxHaveLow && !s.losing)) := by
  obtain ⟨drop, abort, low?, low, lowLast, valid, data, last⟩ := s
  obtain ⟨reset, ctl, rxd, rxLast, ready⟩ := i
  obtain rfl : reset = false := h
  cases valid <;> cases abort <;> cases ready <;> cases ctl <;> cases low? <;> cases drop <;> rfl

/-- After the nibbles `ns` the bytes `out` were given. -/
structure Follows (s : EthGigPhy) (ns : List Nibble) (out : List (BitVec 8 × Bool)) : Prop where
  aligned : s.rxHaveLow = decide (ns.length % 2 = 1)
  low : s.rxHaveLow = true → ∃ ms, ns = ms ++ [⟨s.rxLow, s.rxLowLast⟩]
  link : Link ((joinedBytes ns).foldl FrameReader.read .empty) (out ++ s.waiting) s.losing
  drop : s.losing = true →
    (s.rxDropFrame = true ↔ ((joinedBytes ns).foldl FrameReader.read .empty).part ≠ [])

theorem follows_cleared : Follows cleared [] [] :=
  ⟨rfl, fun h => absurd h Bool.false_ne_true, Link.start, fun h => absurd h Bool.false_ne_true⟩

theorem Follows.of_same {ns ms : List Nibble} {out out' : List (BitVec 8 × Bool)} {n : EthGigPhy}
    (h : Follows s ns out) (hbytes : joinedBytes ms = joinedBytes ns)
    (haligned : n.rxHaveLow = decide (ms.length % 2 = 1))
    (hlow : n.rxHaveLow = true → ∃ ns', ms = ns' ++ [⟨n.rxLow, n.rxLowLast⟩])
    (hout : out' ++ n.waiting = out ++ s.waiting) (hdrop : n.rxDropFrame = s.rxDropFrame)
    (habort : n.rxAbortPending = true → s.rxAbortPending = true) : Follows n ms out' := by
  have hmono : n.losing = true → s.losing = true := by
    unfold losing
    rw [hdrop, Bool.or_eq_true, Bool.or_eq_true]
    exact Or.imp_right habort
  refine ⟨haligned, hlow, ?_, fun hlosing => ?_⟩
  · rw [hbytes, hout]
    cases hlosing : n.losing with
    | true => exact hmono hlosing ▸ h.link
    | false =>
        cases hbefore : s.losing with
        | false => exact hbefore ▸ h.link
        | true =>
            refine Link.resume (hbefore ▸ h.link) (not_not.mp fun hpart => ?_)
            have hdropped := (h.drop hbefore).mpr hpart
            rw [← hdrop] at hdropped
            unfold losing at hlosing
            rw [hdropped] at hlosing
            cases hlosing
  · rw [hdrop, hbytes]
    exact h.drop (hmono hlosing)

/-- The frames that a byte leaves open. -/
theorem part_read (r : FrameReader (BitVec 8)) (w : BitVec 8 × Bool) :
    (r.read w).part ≠ [] ↔ w.2 = false := by
  obtain ⟨x, last⟩ := w
  cases last with
  | false => exact iff_of_true (List.append_ne_nil_of_right_ne_nil _ (by simp)) rfl
  | true => exact iff_of_false (fun h => h rfl) (by simp)

theorem Follows.joinedBytes_low {ns : List Nibble} {out : List (BitVec 8 × Bool)}
    (h : Follows s ns out) (hhave : s.rxHaveLow = false) (n : Nibble) :
    joinedBytes (ns ++ [n]) = joinedBytes ns := by
  have hodd := of_decide_eq_false (h.aligned.symm.trans hhave)
  rw [joinedBytes_append (by omega)]
  exact List.append_nil _

theorem Follows.joinedBytes_high {ns : List Nibble} {out : List (BitVec 8 × Bool)}
    (h : Follows s ns out) (hhave : s.rxHaveLow = true) (n : Nibble) :
    joinedBytes (ns ++ [n]) = joinedBytes ns ++ [joined ⟨s.rxLow, s.rxLowLast⟩ n] := by
  have hodd : ns.length % 2 = 1 := of_decide_eq_true (h.aligned.symm.trans hhave)
  obtain ⟨ms, hns⟩ := h.low hhave
  have heven : ms.length % 2 = 0 := by
    rw [hns, List.length_append, List.length_singleton] at hodd
    omega
  have hbefore : joinedBytes ns = joinedBytes ms := by
    rw [hns, joinedBytes_append heven]
    exact List.append_nil _
  rw [hbefore, hns, List.append_assoc, joinedBytes_append heven]
  rfl

theorem Follows.of_byte {ns : List Nibble} {out : List (BitVec 8 × Bool)} (h : Follows s ns out)
    (hreset : i.reset = false) (hctl : i.rgmiiRxCtl = true) (hhave : s.rxHaveLow = true) :
    Follows (s.work i) (ns ++ [⟨i.rgmiiRxd, i.rgmiiRxLast⟩]) (out ++ s.gives i) := by
  have hhave' : (s.work i).rxHaveLow = false := by rw [haveLow_work hreset, hhave, hctl]; rfl
  have hout : out ++ s.gives i ++ (s.work i).waiting = out ++ s.waiting ++ s.adds i := by
    rw [List.append_assoc, gives_waiting_work hreset, List.append_assoc]
  have hdrop := drop_work (s := s) hreset
  have habort := abort_work (s := s) hreset
  have hodd : ns.length % 2 = 1 := of_decide_eq_true (h.aligned.symm.trans hhave)
  obtain ⟨w, hw⟩ : ∃ w, w = joined ⟨s.rxLow, s.rxLowLast⟩ ⟨i.rgmiiRxd, i.rgmiiRxLast⟩ := ⟨_, rfl⟩
  have hbytes := h.joinedBytes_high hhave ⟨i.rgmiiRxd, i.rgmiiRxLast⟩
  rw [← hw] at hbytes
  obtain ⟨r, hr⟩ : ∃ r, r = (joinedBytes ns).foldl FrameReader.read .empty := ⟨_, rfl⟩
  have hread : (joinedBytes (ns ++ [⟨i.rgmiiRxd, i.rgmiiRxLast⟩])).foldl FrameReader.read .empty =
      r.read w := by
    rw [hbytes, List.foldl_append, ← hr]
    rfl
  have hlink := h.link
  rw [← hr] at hlink
  have hadds : s.adds i = if s.losing then [] else if s.rxFree i then [w] else [(0, true)] := by
    unfold adds
    rw [hctl, hhave, ← hw]
    cases s.losing <;> rfl
  have hmark : (!(i.rgmiiRxLast || s.rxLowLast)) = !w.2 := by rw [hw]; rfl
  rw [hctl, hhave, Bool.true_and, hmark] at hdrop
  rw [hctl, hhave, Bool.true_and] at habort
  have hopen : (!w.2) = true ↔ (r.read w).part ≠ [] := by rw [part_read, Bool.not_eq_true']
  refine ⟨?_, fun hlow => absurd (hhave'.symm.trans hlow) Bool.false_ne_true, ?_, ?_⟩
  · rw [hhave', List.length_append, List.length_singleton, eq_comm, decide_eq_false_iff_not]
    omega
  · rw [hread, hout, hadds]
    cases hlosing : s.losing with
    | true =>
        rw [if_pos rfl, List.append_nil]
        rw [hlosing] at hlink hdrop
        have hmiss := hlink.miss w
        cases hnext : (s.work i).losing with
        | true => exact hmiss
        | false =>
            refine hmiss.resume (not_not.mp fun hpart => ?_)
            have hdropped := hdrop.trans (hopen.mpr hpart)
            unfold losing at hnext
            rw [hdropped] at hnext
            cases hnext
    | false =>
        rw [if_neg Bool.false_ne_true]
        rw [hlosing] at hlink hdrop habort
        have hkept : s.rxDropFrame = false ∧ s.rxAbortPending = false := by
          unfold losing at hlosing
          rwa [Bool.or_eq_false_iff] at hlosing
        unfold losing
        cases hfree : s.rxFree i <;> rw [hfree] at hdrop habort
        · have hafter : ((s.work i).rxDropFrame || (s.work i).rxAbortPending) = true := by
            rw [habort, Bool.not_false, Bool.and_self, Bool.or_true, Bool.and_self, Bool.or_true]
          rw [hafter]
          exact hlink.cut w 0
        · rw [hdrop, habort, hkept.1]
          exact hlink.deliver w
  · intro hlosing
    rw [hread, ← hopen, hdrop]
    cases hbefore : s.losing with
    | true => rfl
    | false =>
        cases hfree : s.rxFree i with
        | false => rfl
        | true =>
            have hkept : s.rxDropFrame = false := by
              unfold EthGigPhy.losing at hbefore
              exact (Bool.or_eq_false_iff.mp hbefore).1
            rw [hbefore, hfree] at hdrop
            unfold EthGigPhy.losing at hlosing
            rw [hdrop, habort, hfree, if_neg (by decide), hkept] at hlosing
            cases hlosing

theorem Follows.work {ns : List Nibble} {out : List (BitVec 8 × Bool)} (h : Follows s ns out)
    (hreset : i.reset = false) : Follows (s.work i) (ns ++ i.nibble) (out ++ s.gives i) := by
  have hout : s.adds i = [] → out ++ s.gives i ++ (s.work i).waiting = out ++ s.waiting := by
    intro hadds
    rw [List.append_assoc, gives_waiting_work hreset, hadds, List.append_nil]
  have hdrop := drop_work (s := s) hreset
  have habort := abort_work (s := s) hreset
  have hhave := haveLow_work (s := s) hreset
  have hlow := low_work (s := s) hreset
  unfold PhyInputs.nibble
  cases hctl : i.rgmiiRxCtl with
  | false =>
      rw [if_neg Bool.false_ne_true, List.append_nil]
      rw [hctl] at hdrop habort hhave hlow
      rw [Bool.xor_false] at hhave
      refine h.of_same rfl (hhave.trans h.aligned) (fun hnext => ?_)
        (hout (by unfold adds; rw [hctl]; rfl)) hdrop (fun hpending => ?_)
      · rw [hlow]
        exact h.low (hhave ▸ hnext)
      · rw [habort, Bool.false_and, Bool.false_and, Bool.or_false, Bool.and_eq_true] at hpending
        exact hpending.2
  | true =>
      rw [if_pos rfl]
      cases hfirst : s.rxHaveLow with
      | true => exact h.of_byte hreset hctl hfirst
      | false =>
          rw [hctl, hfirst] at hdrop habort hhave hlow
          refine h.of_same (h.joinedBytes_low hfirst _) ?_ (fun _ => ⟨ns, by rw [hlow]; rfl⟩)
            (hout (by unfold adds; rw [hctl, hfirst]; rfl)) hdrop (fun hpending => ?_)
          · have heven := of_decide_eq_false (h.aligned.symm.trans hfirst)
            rw [hhave, List.length_append, List.length_singleton, eq_comm]
            exact decide_eq_true (by omega)
          · rw [habort, Bool.and_false, Bool.false_and, Bool.or_false, Bool.and_eq_true] at hpending
            exact hpending.2

theorem Follows.run {is : List PhyInputs} (his : ∀ i ∈ is, i.reset = false) {ns : List Nibble}
    {out : List (BitVec 8 × Bool)} (h : Follows s ns out) :
    Follows (s.run is) (ns ++ is.flatMap PhyInputs.nibble) (out ++ s.delivered is) := by
  induction is generalizing s ns out with
  | nil =>
      rw [List.flatMap_nil, List.append_nil]
      change Follows s ns (out ++ [])
      rwa [List.append_nil]
  | cons i is ih =>
      have hrest := ih (fun j hj => his j (List.mem_cons_of_mem _ hj))
        (h.work (his i List.mem_cons_self))
      rw [List.append_assoc, List.append_assoc] at hrest
      exact hrest

def overflowFrames : List RgmiiFrame :=
  [⟨[0x11, 0x22], 0x33, false, true, rfl⟩, ⟨[0x44], 0x55, true, false, rfl⟩,
    ⟨[0x66], 0x77, true, true, rfl⟩]

/-- The link behind stalls while the end of the first frame and the second frame come in. -/
def overflowClocks : List PhyInputs :=
  (overflowFrames.flatMap RgmiiFrame.nibbles).zipIdx.map fun (n, k) =>
    ⟨false, true, n.data, n.last, k < 3 || 9 < k⟩

theorem keeps_up (h : i.reset = false) (hlosing : s.losing = false)
    (hfree : s.rxHaveLow = true → s.rxFree i = true) : (s.work i).losing = false ∧
      ((s.work i).rxHaveLow = true → (s.work i).rxValid = true → i.rxReady = false) := by
  obtain ⟨drop, abort, low?, low, lowLast, valid, data, last⟩ := s
  obtain ⟨reset, ctl, rxd, rxLast, ready⟩ := i
  obtain rfl : reset = false := h
  obtain ⟨rfl, rfl⟩ : drop = false ∧ abort = false := Bool.or_eq_false_iff.mp hlosing
  cases valid <;> cases ready <;> cases ctl <;> cases low? <;>
    simp_all [losing, rxFree, work, rxAbort, rxNibble]

theorem Follows.joinedBytes_adds {ns : List Nibble} {out : List (BitVec 8 × Bool)}
    (h : Follows s ns out) (hlosing : s.losing = false)
    (hfree : s.rxHaveLow = true → s.rxFree i = true) :
    joinedBytes (ns ++ i.nibble) = joinedBytes ns ++ s.adds i := by
  unfold PhyInputs.nibble adds
  cases hctl : i.rgmiiRxCtl with
  | false => simp
  | true =>
      rw [if_pos rfl]
      cases hhave : s.rxHaveLow with
      | true =>
          rw [h.joinedBytes_high hhave, hlosing, hfree hhave]
          rfl
      | false =>
          rw [h.joinedBytes_low hhave]
          exact (List.append_nil _).symm

theorem Follows.run_ready {is : List PhyInputs} (his : ∀ j ∈ is, j.reset = false)
    (hready : is.IsChain fun j k => j.rxReady = true ∨ k.rxReady = true) {ns : List Nibble}
    {out : List (BitVec 8 × Bool)} (h : Follows s ns out) (hlosing : s.losing = false)
    (hfirst : s.rxHaveLow = true → s.rxValid = true → ∀ j ∈ is.head?, j.rxReady = true)
    (hout : out ++ s.waiting = joinedBytes ns) :
    out ++ s.delivered is ++ (s.run is).waiting = joinedBytes (ns ++ is.flatMap PhyInputs.nibble) := by
  induction is generalizing s ns out with
  | nil =>
      rw [List.flatMap_nil, List.append_nil]
      change out ++ [] ++ s.waiting = joinedBytes ns
      rw [List.append_nil]
      exact hout
  | cons i is ih =>
      have hreset := his i List.mem_cons_self
      have hfree : s.rxHaveLow = true → s.rxFree i = true := by
        intro hhave
        unfold rxFree
        cases hvalid : s.rxValid with
        | false => rfl
        | true => exact hfirst hhave hvalid i rfl
      obtain ⟨hnext, hstalled⟩ := keeps_up hreset hlosing hfree
      obtain ⟨hpair, htail⟩ := List.isChain_cons.mp hready
      have hrest := ih (fun j hj => his j (List.mem_cons_of_mem _ hj)) htail (h.work hreset) hnext
        (fun hhave hvalid j hj => (hpair j hj).resolve_left (by simp [hstalled hhave hvalid]))
        (by rw [List.append_assoc, gives_waiting_work hreset, ← List.append_assoc, hout,
          h.joinedBytes_adds hlosing hfree])
      rw [List.append_assoc ns, List.append_assoc out] at hrest
      exact hrest

/-- A link that is ready in one of any two clocks gets every byte. -/
theorem receive_lossless (s : EthGigPhy) {i : PhyInputs} (hreset : i.reset = true)
    {is : List PhyInputs} (his : ∀ j ∈ is, j.reset = false)
    (hready : is.IsChain fun j k => j.rxReady = true ∨ k.rxReady = true) :
    (s.work i).delivered is ++ ((s.work i).run is).waiting =
      joinedBytes (is.flatMap PhyInputs.nibble) := by
  have hstart : s.work i = cleared := by
    unfold EthGigPhy.work
    rw [if_pos hreset]
  rw [hstart]
  exact follows_cleared.run_ready his hready rfl (fun hhave => absurd hhave Bool.false_ne_true) rfl

theorem receive_lossless_twoBytes :
    let is : List PhyInputs := [⟨false, true, 1, false, false⟩, ⟨false, true, 2, false, true⟩,
      ⟨false, true, 3, false, false⟩, ⟨false, true, 4, true, true⟩]
    (cleared.work ⟨true, false, 0, false, false⟩).delivered is ++
      ((cleared.work ⟨true, false, 0, false, false⟩).run is).waiting =
        [(0x21, false), (0x43, true)] :=
  receive_lossless cleared rfl (by decide) (by decide)

end EthGigPhy

end CppHdl.Devices
