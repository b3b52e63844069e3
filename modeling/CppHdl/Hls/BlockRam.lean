import CppHdl.Lib.Machine
import CppHdl.Hls.StorageBanks

/-!
# Storage accesses

An access moves bytes between the arena and a value, at an address the guard
accepts. It is done by the loads and stores on eight banks, directly or through the
memory port, or by eight block RAMs behind the port: these read a row of each lane,
register what they read and rotate it in the next clock.

All of them do what a flat memory does. A block RAM reports a row outside its depth
whenever its read is enabled, and a read enables all eight of them.
-/

namespace CppHdl.Hls

/-- A load or store; a store gives its bytes from the lowest on. -/
inductive Access (s : StorageBanks)
  | read (address : s.Address) (size : Nat)
  | write (address : s.Address) (size : Nat) (data : Nat → BitVec 8)

namespace Access

variable {s : StorageBanks}

def address : Access s → s.Address
  | read address _ => address
  | write address _ _ => address

def size : Access s → Nat
  | read _ size => size
  | write _ size _ => size

end Access

namespace StorageBanks

variable (s : StorageBanks)

def valid (address : s.Address) (count : BitVec 32) : Bool :=
  !decide (BitVec.ofNat 32 s.memoryBytes < count) &&
    (!decide (address < BitVec.ofNat _ 16) &&
      !decide (BitVec.ofNat s.addressBits s.memoryBytes - count.setWidth _ < address))

/-- Bytes an access moves: a port moves at most eight, and the scheduler takes a port of
eight bytes where something larger is accessed. -/
def moved (port : Option Nat) (size : Nat) : Nat := min size (port.getD size)

/-- An access inside the arena, of a size the port supports. -/
structure InRange (port : Option Nat) (x : Access s) : Prop where
  low : 16 ≤ x.address.toNat
  high : x.address.toNat + x.size ≤ s.memoryBytes
  size : 0 < x.size
  port : ∀ p ∈ port, 0 < p ∧ p ≤ 8 ∧ (x.size ≤ p ∨ p = 8)

instance (port : Option Nat) (x : Access s) : Decidable (s.InRange port x) :=
  decidable_of_iff (16 ≤ x.address.toNat ∧ x.address.toNat + x.size ≤ s.memoryBytes ∧ 0 < x.size ∧
      ∀ p ∈ port, 0 < p ∧ p ≤ 8 ∧ (x.size ≤ p ∨ p = 8))
    ⟨fun h => ⟨h.1, h.2.1, h.2.2.1, h.2.2.2⟩, fun h => ⟨h.low, h.high, h.size, h.port⟩⟩

/-- Where the byte of every lane is one of a row inside the arena. -/
def Clear (x : Access s) : Prop :=
  ∀ address size, x = .read address size →
    address.toNat % 8 = 0 ∨ address.toNat / 8 + 1 < s.rows ∨ s.rows = 2 ^ s.indexBits

/-! ## The eight block RAMs -/

/-- Their bytes, the bytes read last and the offset of the first of them. -/
structure BlockRam where
  lanes : Banks
  read : Nat → BitVec 8
  offset : BitVec 3

structure Port where
  reset : Bool
  fault : Bool
  memoryRead : Bool
  memoryWrite : Bool
  memoryAddress : s.Address
  memorySize : BitVec 32
  memoryWriteData : BitVec 64

namespace Port

variable {s} (i : s.Port)

/-- The guard of the port is part of the fault. -/
def enable : Bool :=
  !i.reset && !(i.fault || (i.memoryRead || i.memoryWrite) && !s.valid i.memoryAddress i.memorySize)

def readEnable : Bool := i.enable && (i.memoryRead && !i.memoryWrite)

/-- `slice(memory_address, 0, 3)`. -/
def low : BitVec 3 := i.memoryAddress.extractLsb' 0 3

/-- The byte of the access that lies in the lane, modulo 8. -/
def laneOffset (lane : Nat) : BitVec 3 := BitVec.ofNat 3 lane - i.low

def writeEnable (lane : Nat) : Bool :=
  i.enable && (i.memoryWrite && decide ((i.laneOffset lane).setWidth 32 < i.memorySize))

/-- The address at the block RAM of a lane. -/
def row (lane : Nat) : BitVec s.indexBits :=
  i.memoryAddress.extractLsb' 3 s.indexBits +
    (BitVec.ofBool (decide (BitVec.ofNat 3 lane < i.low))).setWidth s.indexBits

def writeData (lane : Nat) : BitVec 8 :=
  (i.memoryWriteData >>> (8 * (i.laneOffset lane).toNat)).setWidth 8

/-- A simulation reports an enabled access outside the depth of its block RAM. -/
def reports : Bool :=
  (List.range 8).any fun lane =>
    i.readEnable && decide (s.rows ≤ (i.row lane).toNat) ||
      i.writeEnable lane && decide (s.rows ≤ (i.row lane).toNat)

end Port

namespace BlockRam

variable {s} (ram : BlockRam) (i : s.Port)

def clock : BlockRam where
  lanes lane :=
    if i.writeEnable lane then
      Function.update (ram.lanes lane) (i.row lane).toNat (i.writeData lane)
    else ram.lanes lane
  read lane := if i.readEnable then s.slice (ram.lanes lane) (i.row lane).toNat else ram.read lane
  offset := if i.readEnable then i.low else ram.offset

def readData (portBytes : Nat) : BitVec (8 * portBytes) :=
  ((ofBytes 8 ram.read ++ ofBytes 8 ram.read) >>> (8 * ram.offset.toNat)).setWidth _

end BlockRam

/-! ## Machines -/

/-- How accesses to the banks are written. -/
inductive Form
  | graph (known : Bool)
  | functions

def load (form : Form) (banks : Banks) (address : s.Address) (count : Nat) : List (BitVec 8) :=
  match form with
  | .graph known => s.bankLoad known banks address count
  | .functions => s.storageLoad banks address count

def store (form : Form) (banks : Banks) (address : s.Address) (data : Nat → BitVec 8) (count : Nat)
    (size : Option Nat) : Banks := fun lane =>
  match form with
  | .graph known => s.bankWrite known (banks lane) address data false lane count size
  | .functions => s.storageWrite (banks lane) address data false lane count size

/-- Accesses to banks; through a port all of its bytes are loaded and the size limits
what is stored. -/
def bankMachine (form : Form) (port : Option Nat) : Machine (Access s) (List (BitVec 8)) Banks where
  step x banks :=
    if s.InRange port x then
      match x with
      | .read address size =>
          some ((s.load form banks address (port.getD size)).take size, banks)
      | .write address size data =>
          some ([], s.store form banks address data (port.getD size) (port.map fun _ => size))
    else none

def portOf (portBytes : Nat) : Access s → s.Port
  | .read address size => ⟨false, false, true, false, address, BitVec.ofNat 32 size, 0⟩
  | .write address size data =>
      ⟨false, false, false, true, address, BitVec.ofNat 32 size,
        (ofBytes portBytes data).setWidth 64⟩

/-- Accesses to block RAMs: what the port shows in the next clock, and whether an
address outside the depth is reported. -/
def blockMachine (portBytes : Nat) :
    Machine (Access s) (List (BitVec 8) × Bool) BlockRam where
  step x ram :=
    if s.InRange (some portBytes) x then
      let i := s.portOf portBytes x
      let next := ram.clock i
      match x with
      | .read _ size =>
          some ((((List.range portBytes).map (wordByte (next.readData portBytes))).take size,
            i.reports), next)
      | .write _ _ _ => some (([], i.reports), next)
    else none

/-- Accesses to a flat memory, with the access itself for reference. -/
def flatMachine (port : Option Nat) :
    Machine (Access s) (Access s × List (BitVec 8)) (Nat → BitVec 8) where
  step x mem :=
    if s.InRange port x then
      match x with
      | .read address size => some ((x, loadCells mem address.toNat (moved port size)), mem)
      | .write address size data =>
          some ((x, []), storeCells mem address.toNat (moved port size) data)
    else none

def Holds (banks : Banks) (mem : Nat → BitVec 8) : Prop :=
  ∀ b < s.memoryBytes, flat 8 banks b = mem b

variable {s} {address : s.Address} {banks : Banks} {mem : Nat → BitVec 8}

theorem Holds.load (h : s.Holds banks mem) {a count : Nat} (hin : a + count ≤ s.memoryBytes) :
    loadCells (flat 8 banks) a count = loadCells mem a count :=
  List.map_congr_left fun k hk => h _ (by have := List.mem_range.mp hk; omega)

theorem Holds.store (h : s.Holds banks mem) {banks' : Banks} {a count : Nat} {data : Nat → BitVec 8}
    (hstored : ∀ b < s.memoryBytes,
      flat 8 banks' b = storeCells (flat 8 banks) a count data b) :
    s.Holds banks' (storeCells mem a count data) := fun b hb => by
  rw [hstored b hb]
  unfold storeCells
  rw [h b hb]

/-! ## Banks -/

theorem load_take (form : Form) (n size : Nat) :
    (s.load form banks address n).take size = s.load form banks address (min size n) := by
  cases form with
  | graph known =>
      change (List.map _ _).take size = List.map _ _
      rw [← List.map_take, List.take_range]
  | functions =>
      change (List.map _ _).take size = List.map _ _
      rw [← List.map_take, List.take_range]

theorem load_flat (form : Form) {count : Nat} (h : address.toNat + count ≤ s.memoryBytes) :
    s.load form banks address count = loadCells (flat 8 banks) address.toNat count := by
  cases form with
  | graph known => exact bankLoad_flat h
  | functions => exact storageLoad_flat h

theorem store_flat (form : Form) {port : Option Nat} {size : Nat} {data : Nat → BitVec 8}
    (h : s.InRange port (.write address size data)) {b : Nat} (hb : b < s.memoryBytes) :
    flat 8 (s.store form banks address data (port.getD size) (port.map fun _ => size)) b =
      storeCells (flat 8 banks) address.toNat (moved port size) data b := by
  have hhigh : address.toNat + size ≤ s.memoryBytes := h.high
  have hmoved : moved port size ≤ size := Nat.min_le_left _ _
  cases form with
  | graph known =>
      have henable : ∀ k < port.getD size,
          byteEnable false (port.map fun _ => size) k = decide (k < moved port size) := by
        intro k hk
        unfold moved byteEnable
        cases port with
        | none =>
            have hlt : k < size := hk
            simp [hlt]
        | some p =>
            simp only [Option.getD_some, Option.map_some, Option.all_some, Bool.not_false,
              Bool.true_and] at hk ⊢
            exact decide_eq_decide.mpr (by omega)
      refine flat_stored (fun lane hlane => bankWrite_stored hlane fun k hk hon => ?_)
        (Nat.min_le_right _ _) henable hb
      rw [henable k hk, decide_eq_true_iff] at hon
      omega
  | functions =>
      have hgroups : moved port size ≤ (port.getD size + 7) / 8 * 8 := by
        have := Nat.min_le_right size (port.getD size)
        unfold moved
        omega
      have henable : ∀ k < (port.getD size + 7) / 8 * 8,
          functionEnable false (port.getD size) (port.map fun _ => size) k =
            decide (k < moved port size) := by
        intro k hk
        unfold moved functionEnable
        cases port with
        | none =>
            simp only [Option.getD_none, Option.map_none, groupEnable, Nat.min_self, Bool.not_false,
              Bool.true_and]
            split_ifs with hlast
            · rfl
            · exact (decide_eq_true (by omega)).symm
        | some p =>
            obtain ⟨hp, hp8, hsize⟩ := h.port p rfl
            change size ≤ p ∨ p = 8 at hsize
            simp only [Option.getD_some, Option.map_some, groupEnable, Bool.not_false,
              Bool.true_and] at hk ⊢
            exact decide_eq_decide.mpr (by omega)
      refine flat_stored (fun lane hlane => storageWrite_stored hlane fun k hk hon => ?_) hgroups
        henable hb
      rw [henable k hk, decide_eq_true_iff] at hon
      omega

theorem bank_bisimulates (form : Form) (port : Option Nat) :
    Machine.Bisimulates (s.bankMachine form port) (s.flatMachine port) Eq (fun o p => o = p.2)
      s.Holds := by
  rintro x _ banks mem rfl hholds
  unfold bankMachine flatMachine
  dsimp only
  by_cases h : s.InRange port x
  · rw [if_pos h, if_pos h]
    cases x with
    | read address size =>
        have hin : address.toNat + moved port size ≤ s.memoryBytes := by
          have hhigh : address.toNat + size ≤ s.memoryBytes := h.high
          have hmoved : moved port size ≤ size := Nat.min_le_left _ _
          omega
        refine .some ⟨?_, hholds⟩
        change (s.load form banks address (port.getD size)).take size = _
        rw [load_take]
        exact (load_flat form hin).trans (hholds.load hin)
    | write address size data =>
        exact .some ⟨rfl, hholds.store fun b hb => store_flat form h hb⟩
  · rw [if_neg h, if_neg h]
    exact .none

/-! ## Block RAMs -/

theorem valid_iff {size : Nat} (hsize : size < 2 ^ 32) :
    s.valid address (BitVec.ofNat 32 size) = true ↔
      16 ≤ address.toNat ∧ address.toNat + size ≤ s.memoryBytes := by
  have hword := s.word
  have hfits := s.fits
  have hpos := s.pos
  have haligned := s.aligned
  have hcount : (BitVec.ofNat 32 size).toNat = size := by
    rw [BitVec.toNat_ofNat, Nat.mod_eq_of_lt hsize]
  unfold valid
  simp only [Bool.and_eq_true, Bool.not_eq_true', decide_eq_false_iff_not, BitVec.lt_def,
    BitVec.toNat_ofNat, BitVec.toNat_sub, BitVec.toNat_setWidth, Nat.mod_eq_of_lt hword,
    Nat.mod_eq_of_lt hsize, Nat.mod_eq_of_lt hfits]
  rw [@Nat.mod_eq_of_lt 16 _ (by omega), Nat.not_lt, Nat.not_lt, Nat.not_lt]
  -- the difference does not wrap once the size is in the arena
  have hdiff (hle : size ≤ s.memoryBytes) :
      (2 ^ s.addressBits - size % 2 ^ s.addressBits + s.memoryBytes) % 2 ^ s.addressBits =
        s.memoryBytes - size := by
    rw [Nat.mod_eq_of_lt (by omega : size < 2 ^ s.addressBits), Nat.mod_eq_sub_mod (by omega),
      Nat.mod_eq_of_lt (by omega)]
    omega
  constructor
  · rintro ⟨hle, hlow, hhigh⟩
    rw [hdiff hle] at hhigh
    omega
  · rintro ⟨hlow, hhigh⟩
    have hle : size ≤ s.memoryBytes := by omega
    rw [hdiff hle]
    omega

namespace Port

variable {i : s.Port} {lane : Nat}

theorem toNat_low : i.low.toNat = i.memoryAddress.toNat % 8 := by
  unfold low
  rw [BitVec.extractLsb'_toNat, Nat.shiftRight_zero]

theorem toNat_laneOffset (hlane : lane < 8) :
    (i.laneOffset lane).toNat = CppHdl.laneOffset 8 i.memoryAddress.toNat lane := by
  unfold laneOffset CppHdl.laneOffset
  rw [BitVec.toNat_sub, BitVec.toNat_ofNat, toNat_low]
  split_ifs <;> omega

theorem toNat_row (hlane : lane < 8) :
    (i.row lane).toNat = laneRow 8 i.memoryAddress.toNat lane % 2 ^ s.indexBits := by
  have hlt : BitVec.ofNat 3 lane < i.low ↔ lane < i.memoryAddress.toNat % 8 := by
    rw [BitVec.lt_def, BitVec.toNat_ofNat, toNat_low]
    omega
  unfold row laneRow
  rw [BitVec.toNat_add, BitVec.extractLsb'_toNat, BitVec.toNat_setWidth, BitVec.toNat_ofBool,
    ← Nat.add_mod, Nat.shiftRight_eq_div_pow, decide_eq_decide.mpr hlt]
  by_cases h : lane < i.memoryAddress.toNat % 8
  · rw [decide_eq_true h, if_pos h]
    rfl
  · rw [decide_eq_false h, if_neg h]
    rfl

/-- An enabled row is outside its block RAM. -/
theorem reports_iff : i.reports = true ↔ ∃ lane < 8,
    (i.readEnable || i.writeEnable lane) = true ∧ s.rows ≤ (i.row lane).toNat := by
  unfold reports
  rw [List.any_eq_true]
  constructor
  · rintro ⟨lane, hlane, hout⟩
    rw [← Bool.and_or_distrib_right, Bool.and_eq_true, decide_eq_true_iff] at hout
    exact ⟨lane, List.mem_range.mp hlane, hout⟩
  · rintro ⟨lane, hlane, henable, hout⟩
    refine ⟨lane, List.mem_range.mpr hlane, ?_⟩
    rw [← Bool.and_or_distrib_right, henable, decide_eq_true hout]
    rfl

end Port

variable {portBytes size : Nat} {data : Nat → BitVec 8} {ram : BlockRam} {lane : Nat}

theorem enable_portOf {x : Access s} (h : s.InRange (some portBytes) x) :
    (s.portOf portBytes x).enable = true := by
  have hword := s.word
  have hhigh := h.high
  have hvalid : s.valid x.address (BitVec.ofNat 32 x.size) = true :=
    (valid_iff (by omega)).mpr ⟨h.low, h.high⟩
  cases x with
  | read address size =>
      change (!false && !(false || (true || false) && !s.valid address (BitVec.ofNat 32 size))) = true
      rw [show s.valid address (BitVec.ofNat 32 size) = true from hvalid]
      rfl
  | write address size data =>
      change (!false && !(false || (false || true) && !s.valid address (BitVec.ofNat 32 size))) = true
      rw [show s.valid address (BitVec.ofNat 32 size) = true from hvalid]
      rfl

/-! ### Reads -/

theorem readEnable_read (h : s.InRange (some portBytes) (.read address size)) :
    (s.portOf portBytes (.read address size)).readEnable = true := by
  unfold Port.readEnable
  rw [enable_portOf h]
  rfl

theorem writeEnable_read (lane : Nat) :
    (s.portOf portBytes (.read address size)).writeEnable lane = false := by
  unfold Port.writeEnable
  exact Bool.and_false _

theorem clock_read_lanes : (ram.clock (s.portOf portBytes (.read address size))).lanes =
    ram.lanes := by
  funext lane
  unfold BlockRam.clock
  dsimp only
  rw [writeEnable_read, if_neg Bool.false_ne_true]

theorem readData_byte (h : s.InRange (some portBytes) (.read address size)) {k : Nat}
    (hk : k < min size portBytes) :
    wordByte ((ram.clock (s.portOf portBytes (.read address size))).readData portBytes) k =
      flat 8 ram.lanes (address.toNat + k) := by
  obtain ⟨-, hp8, -⟩ := h.port portBytes rfl
  have hhigh : address.toNat + size ≤ s.memoryBytes := h.high
  have hread : ∀ lane < 8,
      (ram.clock (s.portOf portBytes (.read address size))).read lane =
        s.slice (ram.lanes lane) (laneRow 8 address.toNat lane % 2 ^ s.indexBits) := by
    intro lane hlane
    unfold BlockRam.clock
    dsimp only
    rw [if_pos (readEnable_read h), Port.toNat_row hlane]
    rfl
  have hoffset : (ram.clock (s.portOf portBytes (.read address size))).offset.toNat =
      address.toNat % 8 := by
    unfold BlockRam.clock
    dsimp only
    rw [if_pos (readEnable_read h), Port.toNat_low]
    rfl
  have hword := wordByte_lanes (n := 8) (fun l row => s.slice (ram.lanes l) (row % 2 ^ s.indexBits))
    address.toNat (k := k) (by omega)
  unfold BlockRam.readData
  rw [wordByte_setWidth _ (by omega), ofBytes_congr hread, hoffset]
  refine hword.trans ?_
  have hin : address.toNat + k < s.memoryBytes := by omega
  unfold flat
  dsimp only
  rw [index_mod hin, slice_of_lt (row_lt hin)]

/-- All lanes are enabled, so a lane of the row after the last one is reported, unless it
wraps to the first row. -/
theorem reports_read (h : s.InRange (some portBytes) (.read address size)) :
    (s.portOf portBytes (.read address size)).reports = true ↔ ¬ s.Clear (.read address size) := by
  have hhigh : address.toNat + size ≤ s.memoryBytes := h.high
  have hsize : 0 < size := h.size
  have height := s.eight_rows
  have hrows := s.rows_le
  have htwo := s.two_le_rows
  have hclear : s.Clear (.read address size) ↔ address.toNat % 8 = 0 ∨
      address.toNat / 8 + 1 < s.rows ∨ s.rows = 2 ^ s.indexBits :=
    ⟨fun hc => hc address size rfl, fun hc a n heq => by cases heq; exact hc⟩
  rw [Port.reports_iff, hclear]
  constructor
  · rintro ⟨lane, hlane, -, hout⟩ hc
    rw [Port.toNat_row hlane] at hout
    change s.rows ≤ laneRow 8 address.toNat lane % 2 ^ s.indexBits at hout
    have hmod : laneRow 8 address.toNat lane % 2 ^ s.indexBits ≤ laneRow 8 address.toNat lane :=
      Nat.mod_le _ _
    have hlt := Nat.mod_lt (laneRow 8 address.toNat lane) (Nat.two_pow_pos s.indexBits)
    unfold laneRow at hmod hout hlt
    split_ifs at hmod hout hlt <;> omega
  · intro hc
    obtain ⟨halign, hlast, hpow⟩ := by simpa only [not_or] using hc
    refine ⟨0, by decide, by rw [readEnable_read h]; rfl, ?_⟩
    rw [Port.toNat_row (by decide)]
    change s.rows ≤ laneRow 8 address.toNat 0 % 2 ^ s.indexBits
    unfold laneRow
    rw [if_pos (Nat.pos_of_ne_zero halign), Nat.mod_eq_of_lt (by omega)]
    omega

/-! ### Writes -/

theorem readEnable_write :
    (s.portOf portBytes (.write address size data)).readEnable = false := by
  unfold Port.readEnable
  exact Bool.and_false _

theorem writeEnable_write (h : s.InRange (some portBytes) (.write address size data))
    (hlane : lane < 8) :
    (s.portOf portBytes (.write address size data)).writeEnable lane =
      decide (laneOffset 8 address.toNat lane < size) := by
  have hword := s.word
  have hhigh : address.toNat + size ≤ s.memoryBytes := h.high
  have hoffset := Port.toNat_laneOffset (i := s.portOf portBytes (.write address size data)) hlane
  have hlt := laneOffset_lt (a := address.toNat) hlane
  unfold Port.writeEnable
  rw [enable_portOf h]
  change (true && (true && decide (_ < BitVec.ofNat 32 size))) = _
  rw [Bool.true_and, Bool.true_and]
  refine decide_eq_decide.mpr ?_
  rw [BitVec.lt_def, BitVec.toNat_setWidth, hoffset, BitVec.toNat_ofNat,
    Nat.mod_eq_of_lt (by omega : size < 2 ^ 32)]
  change CppHdl.laneOffset 8 address.toNat lane % 2 ^ 32 < size ↔ _
  rw [Nat.mod_eq_of_lt (by omega)]

theorem writeData_write (hp8 : portBytes ≤ 8) (hlane : lane < 8)
    (hin : laneOffset 8 address.toNat lane < portBytes) :
    (s.portOf portBytes (.write address size data)).writeData lane =
      data (laneOffset 8 address.toNat lane) := by
  have hoffset := Port.toNat_laneOffset (i := s.portOf portBytes (.write address size data)) hlane
  unfold Port.writeData
  rw [hoffset]
  change (((ofBytes portBytes data).setWidth 64) >>> (8 * laneOffset 8 address.toNat lane)).setWidth 8
    = _
  have hbyte : ∀ x : BitVec 64, x.setWidth 8 = wordByte x 0 := fun x => by
    unfold wordByte
    rw [Nat.mul_zero, BitVec.setWidth_eq_extractLsb' (by decide)]
  rw [hbyte, wordByte_shiftRight, Nat.add_zero, wordByte_setWidth _ (by omega), wordByte_ofBytes hin]

/-- The enabled lanes store the bytes of the access, at rows inside their block RAMs. -/
theorem clock_write (h : s.InRange (some portBytes) (.write address size data)) :
    ∀ lane < 8, Stored s address data (fun k => decide (k < size)) lane (ram.lanes lane) 8
      ((ram.clock (s.portOf portBytes (.write address size data))).lanes lane) := by
  intro lane hlane row hrow
  obtain ⟨-, hp8, hport⟩ := h.port portBytes rfl
  change size ≤ portBytes ∨ portBytes = 8 at hport
  have hhigh : address.toNat + size ≤ s.memoryBytes := h.high
  have hlt := laneOffset_lt (a := address.toNat) hlane
  have haddress := lane_address (a := address.toNat) hlane
  unfold BlockRam.clock
  dsimp only
  rw [writeEnable_write h hlane]
  by_cases hnew : laneOffset 8 address.toNat lane < size
  · -- the row does not wrap, as its byte is in the arena
    have hin : laneRow 8 address.toNat lane < s.rows := by
      have := s.eight_rows
      omega
    have hindex : ((s.portOf portBytes (.write address size data)).row lane).toNat =
        laneRow 8 address.toNat lane := by
      rw [Port.toNat_row hlane]
      exact Nat.mod_eq_of_lt (Nat.lt_of_lt_of_le hin s.rows_le)
    rw [decide_eq_true hnew, if_pos rfl, hindex, writeData_write hp8 hlane (by omega)]
    by_cases hat : row = laneRow 8 address.toNat lane
    · rw [hat, Function.update_self, haddress, Nat.add_sub_cancel_left, if_pos]
      exact ⟨by omega, by omega, decide_eq_true hnew⟩
    · rw [Function.update_of_ne hat, if_neg]
      rintro ⟨hlow, hend, -⟩
      omega
  · rw [decide_eq_false hnew, if_neg Bool.false_ne_true, if_neg]
    rintro ⟨hlow, hend, hon⟩
    have := of_decide_eq_true hon
    omega

theorem reports_write (h : s.InRange (some portBytes) (.write address size data)) :
    (s.portOf portBytes (.write address size data)).reports = false := by
  have hhigh : address.toNat + size ≤ s.memoryBytes := h.high
  rw [← Bool.not_eq_true, Port.reports_iff]
  rintro ⟨lane, hlane, henable, hout⟩
  rw [readEnable_write, Bool.false_or, writeEnable_write h hlane, decide_eq_true_iff] at henable
  have haddress := lane_address (a := address.toNat) hlane
  have height := s.eight_rows
  have hmod : laneRow 8 address.toNat lane % 2 ^ s.indexBits ≤ laneRow 8 address.toNat lane :=
    Nat.mod_le _ _
  rw [Port.toNat_row hlane] at hout
  change s.rows ≤ laneRow 8 address.toNat lane % 2 ^ s.indexBits at hout
  omega

/-! ### Runs -/

/-- What block RAMs show is what the flat memory does, and they report exactly the reads
that are not clear. -/
def Shows (s : StorageBanks) (o : List (BitVec 8) × Bool) (p : Access s × List (BitVec 8)) : Prop :=
  o.1 = p.2 ∧ (o.2 = true ↔ ¬ s.Clear p.1)

theorem block_bisimulates (portBytes : Nat) :
    Machine.Bisimulates (s.blockMachine portBytes) (s.flatMachine (some portBytes)) Eq s.Shows
      fun ram mem => s.Holds ram.lanes mem := by
  rintro x _ ram mem rfl hholds
  unfold blockMachine flatMachine
  dsimp only
  by_cases h : s.InRange (some portBytes) x
  · rw [if_pos h, if_pos h]
    obtain ⟨hp, hp8, hport⟩ := h.port portBytes rfl
    cases x with
    | read address size =>
        have hhigh : address.toNat + size ≤ s.memoryBytes := h.high
        have hin : address.toNat + min size portBytes ≤ s.memoryBytes := by omega
        refine .some ⟨⟨?_, reports_read h⟩, ?_⟩
        · dsimp only
          rw [← List.map_take, List.take_range]
          exact (List.map_congr_left fun k hk => readData_byte h (List.mem_range.mp hk)).trans
            (hholds.load hin)
        · dsimp only
          rw [clock_read_lanes]
          exact hholds
    | write address size data =>
        change size ≤ portBytes ∨ portBytes = 8 at hport
        refine .some ⟨⟨rfl, ?_⟩, hholds.store fun b hb => ?_⟩
        · dsimp only
          rw [reports_write h]
          refine ⟨fun hfalse => absurd hfalse Bool.false_ne_true, fun hclear => absurd ?_ hclear⟩
          intro _ _ heq
          cases heq
        · refine flat_stored (clock_write h) (by omega : min size portBytes ≤ 8) (fun k hk => ?_) hb
          exact decide_eq_decide.mpr (by omega)
  · rw [if_neg h, if_neg h]
    exact .none

/-- A machine returns and updates the bytes of the flat memory in a run. -/
def Flat (s : StorageBanks) (port : Option Nat) {σ ο : Type} (M : Machine (Access s) ο σ)
    (bytes : ο → List (BitVec 8)) (lanes : σ → Banks) (xs : List (Access s)) : Prop :=
  ∀ st mem, s.Holds (lanes st) mem → ∃ os st' ps mem', M.run xs st = some (os, st') ∧
    (s.flatMachine port).run xs mem = some (ps, mem') ∧ os.map bytes = ps.map Prod.snd ∧
    s.Holds (lanes st') mem'

/-- No access of a run is reported. -/
def Quiet (s : StorageBanks) (portBytes : Nat) (xs : List (Access s)) : Prop :=
  ∀ ram os ram', (s.blockMachine portBytes).run xs ram = some (os, ram') → ∀ o ∈ os, o.2 = false

theorem flat_run {port : Option Nat} {xs : List (Access s)} (hin : ∀ x ∈ xs, s.InRange port x)
    (mem : Nat → BitVec 8) : ∃ ps mem', (s.flatMachine port).run xs mem = some (ps, mem') ∧
      ps.map Prod.fst = xs := by
  induction xs generalizing mem with
  | nil => exact ⟨[], mem, rfl, rfl⟩
  | cons x xs ih =>
      have hstep : ∃ p mem', (s.flatMachine port).step x mem = some ((x, p), mem') := by
        unfold flatMachine
        dsimp only
        rw [if_pos (hin x List.mem_cons_self)]
        cases x with
        | read address size => exact ⟨_, _, rfl⟩
        | write address size data => exact ⟨_, _, rfl⟩
      obtain ⟨p, mem', hfirst⟩ := hstep
      obtain ⟨ps, mem'', hrest, hps⟩ := ih (fun y hy => hin y (List.mem_cons_of_mem _ hy)) mem'
      exact ⟨(x, p) :: ps, mem'', Machine.run_cons.mpr ⟨_, _, _, rfl, hfirst, hrest⟩,
        congrArg (x :: ·) hps⟩

theorem flat_of_bisimulates {port : Option Nat} {σ ο : Type} {M : Machine (Access s) ο σ}
    {bytes : ο → List (BitVec 8)} {lanes : σ → Banks} {O : ο → Access s × List (BitVec 8) → Prop}
    (h : Machine.Bisimulates M (s.flatMachine port) Eq O fun st mem => s.Holds (lanes st) mem)
    (hO : ∀ o p, O o p → bytes o = p.2) {xs : List (Access s)} (hin : ∀ x ∈ xs, s.InRange port x) :
    s.Flat port M bytes lanes xs := by
  intro st mem hholds
  obtain ⟨ps, mem', hflat, -⟩ := flat_run hin mem
  have hsame : List.Forall₂ Eq xs xs := List.forall₂_same.mpr fun x _ => rfl
  have hrun := h.run hsame hholds
  rw [hflat] at hrun
  generalize hM : M.run xs st = result at hrun
  cases hrun with
  | some hrel =>
      refine ⟨_, _, ps, mem', rfl, hflat, ?_, hrel.2⟩
      rw [← List.forall₂_eq_eq_eq, List.forall₂_map_left_iff, List.forall₂_map_right_iff]
      exact hrel.1.imp fun o p => hO o p

theorem Shows.quiet_iff {os : List (List (BitVec 8) × Bool)} {ps : List (Access s × List (BitVec 8))}
    (h : List.Forall₂ s.Shows os ps) :
    (∀ o ∈ os, o.2 = false) ↔ ∀ x ∈ ps.map Prod.fst, s.Clear x := by
  induction h with
  | nil => exact ⟨fun _ _ hx => absurd hx List.not_mem_nil, fun _ _ ho => absurd ho List.not_mem_nil⟩
  | cons hfirst _ ih =>
      rw [List.forall_mem_cons, List.map_cons, List.forall_mem_cons, ih, ← Bool.not_eq_true,
        hfirst.2, not_not]

theorem quiet_iff {xs : List (Access s)} (hin : ∀ x ∈ xs, s.InRange (some portBytes) x) :
    s.Quiet portBytes xs ↔ ∀ x ∈ xs, s.Clear x := by
  have hshows : ∀ ram, ∃ os ram', (s.blockMachine portBytes).run xs ram = some (os, ram') ∧
      ((∀ o ∈ os, o.2 = false) ↔ ∀ x ∈ xs, s.Clear x) := by
    intro ram
    obtain ⟨ps, mem', hflat, rfl⟩ := flat_run hin (flat 8 ram.lanes)
    have hsame : List.Forall₂ Eq (ps.map Prod.fst) (ps.map Prod.fst) :=
      List.forall₂_same.mpr fun x _ => rfl
    have hrun := (block_bisimulates portBytes).run hsame
      (fun _ _ => rfl : s.Holds ram.lanes (flat 8 ram.lanes))
    rw [hflat] at hrun
    generalize (s.blockMachine portBytes).run (ps.map Prod.fst) ram = result at hrun ⊢
    cases hrun with
    | some hrel => exact ⟨_, _, rfl, Shows.quiet_iff hrel.1⟩
  constructor
  · intro hquiet
    obtain ⟨os, ram', hrun, hiff⟩ := hshows ⟨fun _ _ => 0, fun _ => 0, 0⟩
    exact hiff.mp (hquiet _ os ram' hrun)
  · intro hclear ram os ram' hrun
    obtain ⟨os', ram'', hrun', hiff⟩ := hshows ram
    rw [hrun] at hrun'
    cases hrun'
    exact hiff.mpr hclear

/-- Storage is flat memory, whichever way it is accessed. Block RAMs report no access
exactly where all reads are clear. -/
theorem storage_flat (port : Option Nat) {xs : List (Access s)}
    (hin : ∀ x ∈ xs, s.InRange port x) :
    (∀ form, s.Flat port (s.bankMachine form port) id id xs) ∧
      ∀ portBytes, port = some portBytes →
        s.Flat port (s.blockMachine portBytes) Prod.fst BlockRam.lanes xs ∧
          (s.Quiet portBytes xs ↔ ∀ x ∈ xs, s.Clear x) := by
  refine ⟨fun form => flat_of_bisimulates (bank_bisimulates form port) (fun _ _ h => h) hin, ?_⟩
  rintro portBytes rfl
  exact ⟨flat_of_bisimulates (block_bisimulates portBytes) (fun _ _ h => h.1) hin, quiet_iff hin⟩

def sixRows : StorageBanks where
  addressBits := 16
  memoryBytes := 48
  pos := by decide
  aligned := by decide
  word := by decide
  fits := by decide

/-- Bytes 38 to 45 lie in two rows. -/
theorem storage_flat_six :
    (∀ form, sixRows.Flat (some 8) (sixRows.bankMachine form (some 8)) id id [.read 38 8]) ∧
      ∀ portBytes, some 8 = some portBytes →
        sixRows.Flat (some 8) (sixRows.blockMachine portBytes) Prod.fst BlockRam.lanes
            [.read 38 8] ∧
          (sixRows.Quiet portBytes [.read 38 8] ↔
            ∀ x ∈ [(.read 38 8 : Access sixRows)], sixRows.Clear x) :=
  storage_flat (some 8) (by decide)

/-- The last byte is in the arena, the lanes below it are read in a row that is not. -/
theorem not_quiet_last : (∀ x ∈ [(.read 47 1 : Access sixRows)], sixRows.InRange (some 8) x) ∧
    ¬ sixRows.Quiet 8 [.read 47 1] := by
  have hin : ∀ x ∈ [(.read 47 1 : Access sixRows)], sixRows.InRange (some 8) x := by decide
  refine ⟨hin, fun hquiet => ?_⟩
  have hclear := (quiet_iff hin).mp hquiet _ List.mem_cons_self 47 1 rfl
  exact absurd hclear (by decide)

end StorageBanks

end CppHdl.Hls
