import Mathlib.Algebra.Group.Nat.Defs
import Mathlib.Data.List.Basic
import Mathlib.Data.Nat.Log
import CppHdl.Lib.ByteLanes

/-!
# Storage in eight banks

The scheduler keeps byte `b` of the arena in lane `b % 8` at row `b / 8`. Loads and
stores exist as graphs, where a constant address selects bytes directly and any
other one through muxes, and as generated functions, which rotate words of eight
bytes. Sizes are arbitrary. Through the memory port, a load takes `portBytes` and a
store at most so many of the bytes it is given.

Here are the values these compute; that they are those of a flat memory is said of
addresses inside the arena.
-/

namespace CppHdl.Hls

/-- What the scheduler admits: the arena ends at a multiple of 16, and its end is an
address. -/
structure StorageBanks where
  addressBits : Nat
  memoryBytes : Nat
  pos : 0 < memoryBytes
  aligned : memoryBytes % 16 = 0
  word : memoryBytes < 2 ^ 32
  fits : memoryBytes < 2 ^ addressBits

/-- Byte `row` of each of eight lanes. -/
abbrev Banks := Nat → Nat → BitVec 8

namespace StorageBanks

variable (s : StorageBanks)

abbrev Address := BitVec s.addressBits

def rows : Nat := s.memoryBytes / 8

/-- The least number of bits with `rows ≤ 2 ^ bits`. -/
def indexBits : Nat := Nat.clog 2 s.rows

/-- `slice(bank, row * 8, 8)`. -/
def slice (bank : Nat → BitVec 8) (row : Nat) : BitVec 8 := if row < s.rows then bank row else 0

/-- `slice(addr, 0, 3)`. -/
def lane (addr : s.Address) : Nat := (addr.extractLsb' 0 3).toNat

/-- `slice(addr, 3, indexBits)`. -/
def index (addr : s.Address) : Nat := (addr.extractLsb' 3 s.indexBits).toNat

/-! ## Graphs -/

/-- `bankLoad`; `known` is an address that resolves to a number. -/
def bankLoad (known : Bool) (banks : Banks) (address : s.Address) (count : Nat) :
    List (BitVec 8) :=
  (List.range count).map fun byte =>
    if known then
      let addr := (address.toNat + byte) % 2 ^ s.addressBits
      s.slice (banks (addr % 8)) (addr / 8)
    else
      let addr := address + BitVec.ofNat _ byte
      (List.range 8).foldl
        (fun v bank => if s.lane addr = bank then s.slice (banks bank) (s.index addr) else v) 0

def writeByte (known : Bool) (address : s.Address) (data : Nat → BitVec 8) (fault : Bool)
    (lane : Nat) (size : Option Nat) (bank : Nat → BitVec 8) (byte : Nat) : Nat → BitVec 8 :=
  let enable := !fault && size.all fun size => decide (byte < size)
  if known then
    let addr := (address.toNat + byte) % 2 ^ s.addressBits
    if addr % 8 ≠ lane ∨ s.memoryBytes ≤ addr then bank
    else Function.update bank (addr / 8) (if enable then data byte else bank (addr / 8))
  else
    let addr := address + BitVec.ofNat _ byte
    fun row =>
      if row < s.rows ∧ enable ∧ s.lane addr = lane ∧ s.index addr = row then data byte else bank row

/-- `bankWrite`: the new contents of one lane. -/
def bankWrite (known : Bool) (bank : Nat → BitVec 8) (address : s.Address) (data : Nat → BitVec 8)
    (fault : Bool) (lane bytes : Nat) (size : Option Nat) : Nat → BitVec 8 :=
  (List.range bytes).foldl (s.writeByte known address data fault lane size) bank

/-! ## Generated functions -/

/-- `BANK_INDEX_BITS'((address >> 3) + group + (address[2:0] > bank))`. -/
def groupRow (address : s.Address) (group bank : Nat) : Nat :=
  (address.toNat / 8 + group + if bank < address.toNat % 8 then 1 else 0) % 2 ^ s.indexBits

/-- `hls_storage_load_<width>`: each group of eight bytes is a rotated word. -/
def storageLoad (banks : Banks) (address : s.Address) (count : Nat) : List (BitVec 8) :=
  (List.range count).map fun k =>
    let word := ofBytes 8 fun bank => s.slice (banks bank) (s.groupRow address (k / 8) bank)
    wordByte ((word ++ word) >>> (8 * (address.toNat % 8))) (k % 8)

/-- `3'(bank - address[2:0])`. -/
def laneByte (address : s.Address) (lane : Nat) : Nat :=
  (BitVec.ofNat 3 lane - BitVec.ofNat 3 address.toNat).toNat

/-- Whether a lane is written in a group: the port counts bytes, the last group of a
function of its own may be short. -/
def groupEnable (count : Nat) (validBytes : Option Nat) (group offset : Nat) : Bool :=
  match validBytes with
  | some valid => decide (offset < valid)
  | none => if count < group * 8 + 8 then decide (offset < count) else true

/-- One group in `hls_bank_write_<width>_<lane>`. -/
def writeGroup (address : s.Address) (data : Nat → BitVec 8) (fault : Bool) (lane count : Nat)
    (validBytes : Option Nat) (bank : Nat → BitVec 8) (group : Nat) : Nat → BitVec 8 :=
  let offset := s.laneByte address lane + group * 8
  if !fault && groupEnable count validBytes group offset then
    Function.update bank (s.groupRow address group lane) (data offset)
  else bank

/-- `hls_bank_write_<width>_<lane>`. Rows above the bank are cut off by whoever reads it. -/
def storageWrite (bank : Nat → BitVec 8) (address : s.Address) (data : Nat → BitVec 8)
    (fault : Bool) (lane count : Nat) (validBytes : Option Nat) : Nat → BitVec 8 :=
  (List.range ((count + 7) / 8)).foldl (s.writeGroup address data fault lane count validBytes) bank

/-! ## Rows and addresses -/

theorem eight_rows : 8 * s.rows = s.memoryBytes := by
  have := s.aligned
  unfold rows
  omega

theorem two_le_rows : 2 ≤ s.rows := by
  have := s.aligned
  have := s.pos
  unfold rows
  omega

theorem rows_le : s.rows ≤ 2 ^ s.indexBits := Nat.le_pow_clog (by decide) _

variable {s} {address : s.Address} {banks : Banks} {bank : Nat → BitVec 8} {k : Nat}

theorem row_lt {b : Nat} (h : b < s.memoryBytes) : b / 8 < s.rows := by
  have := s.eight_rows
  omega

theorem index_mod {b : Nat} (h : b < s.memoryBytes) : b / 8 % 2 ^ s.indexBits = b / 8 :=
  Nat.mod_eq_of_lt (Nat.lt_of_lt_of_le (row_lt h) s.rows_le)

theorem slice_of_lt {row : Nat} (h : row < s.rows) : s.slice bank row = bank row := if_pos h

/-- An address inside the arena does not wrap. -/
theorem toNat_add (h : address.toNat + k < s.memoryBytes) :
    (address + BitVec.ofNat s.addressBits k).toNat = address.toNat + k := by
  have hfits := s.fits
  rw [BitVec.toNat_add, BitVec.toNat_ofNat, Nat.add_mod_mod]
  exact Nat.mod_eq_of_lt (by omega)

theorem lane_eq (addr : s.Address) : s.lane addr = addr.toNat % 8 := by
  unfold lane
  rw [BitVec.extractLsb'_toNat, Nat.shiftRight_zero]

theorem index_eq (addr : s.Address) : s.index addr = addr.toNat / 8 % 2 ^ s.indexBits := by
  unfold index
  rw [BitVec.extractLsb'_toNat, Nat.shiftRight_eq_div_pow]

/-! ## Loads -/

theorem foldl_select {α : Type} (f : Nat → α) (v : α) (l n : Nat) :
    (List.range n).foldl (fun v bank => if l = bank then f bank else v) v =
      if l < n then f l else v := by
  induction n with
  | zero => rfl
  | succ n ih =>
      rw [List.range_succ, List.foldl_append, ih]
      change (if l = n then f n else _) = _
      by_cases h : l = n
      · rw [if_pos h, if_pos (by omega), h]
      · rw [if_neg h, if_congr (by omega : l < n ↔ l < n + 1) rfl rfl]

theorem bankLoad_flat {known : Bool} {count : Nat} (h : address.toNat + count ≤ s.memoryBytes) :
    s.bankLoad known banks address count = loadCells (flat 8 banks) address.toNat count := by
  refine List.map_congr_left fun byte hbyte => ?_
  have hin : address.toNat + byte < s.memoryBytes := by
    have := List.mem_range.mp hbyte
    omega
  unfold flat
  cases known with
  | true =>
      rw [if_pos rfl]
      dsimp only
      rw [Nat.mod_eq_of_lt (hin.trans s.fits), slice_of_lt (row_lt hin)]
  | false =>
      rw [if_neg Bool.false_ne_true]
      dsimp only
      rw [foldl_select, lane_eq, index_eq, toNat_add hin, if_pos (Nat.mod_lt _ (by decide)),
        index_mod hin, slice_of_lt (row_lt hin)]

theorem groupRow_eq (address : s.Address) (group lane : Nat) :
    s.groupRow address group lane =
      laneRow 8 (address.toNat + 8 * group) lane % 2 ^ s.indexBits := by
  unfold groupRow laneRow
  rw [show (address.toNat + 8 * group) / 8 = address.toNat / 8 + group by omega,
    show (address.toNat + 8 * group) % 8 = address.toNat % 8 by omega]

theorem storageLoad_flat {count : Nat} (h : address.toNat + count ≤ s.memoryBytes) :
    s.storageLoad banks address count = loadCells (flat 8 banks) address.toNat count := by
  refine List.map_congr_left fun k hk => ?_
  have hin : address.toNat + k < s.memoryBytes := by
    have := List.mem_range.mp hk
    omega
  have hword := wordByte_lanes (fun l row => s.slice (banks l) (row % 2 ^ s.indexBits))
    (address.toNat + 8 * (k / 8)) (Nat.mod_lt k (by decide : 0 < 8))
  simp only [← groupRow_eq] at hword
  rw [show (address.toNat + 8 * (k / 8)) % 8 = address.toNat % 8 by omega,
    show address.toNat + 8 * (k / 8) + k % 8 = address.toNat + k by omega] at hword
  refine hword.trans ?_
  unfold flat
  dsimp only
  rw [index_mod hin, slice_of_lt (row_lt hin)]

/-! ## Stores -/

/-- What a store to a lane has done once it has passed the first `n` bytes: a byte it
has passed and that is enabled is new. -/
def Stored (s : StorageBanks) (address : s.Address) (data : Nat → BitVec 8) (enable : Nat → Bool)
    (lane : Nat) (bank : Nat → BitVec 8) (n : Nat) (bank' : Nat → BitVec 8) : Prop :=
  ∀ row < s.rows, bank' row =
    if address.toNat ≤ 8 * row + lane ∧ 8 * row + lane < address.toNat + n ∧
        enable (8 * row + lane - address.toNat) then
      data (8 * row + lane - address.toNat)
    else bank row

theorem Stored.start {data : Nat → BitVec 8} {enable : Nat → Bool} {lane : Nat} :
    Stored s address data enable lane bank 0 bank := fun row _ => by
  rw [if_neg (by omega)]

/-- The next bytes change at most one row of the lane, the one with an address among them. -/
theorem Stored.step {data : Nat → BitVec 8} {enable : Nat → Bool} {lane n m : Nat}
    {bank' bank'' : Nat → BitVec 8} (h : Stored s address data enable lane bank n bank')
    (hstep : ∀ row < s.rows, bank'' row =
      if address.toNat + n ≤ 8 * row + lane ∧ 8 * row + lane < address.toNat + n + m ∧
          enable (8 * row + lane - address.toNat) then
        data (8 * row + lane - address.toNat)
      else bank' row) :
    Stored s address data enable lane bank (n + m) bank'' := fun row hrow => by
  rw [hstep row hrow, h row hrow]
  by_cases hnew : address.toNat + n ≤ 8 * row + lane ∧ 8 * row + lane < address.toNat + n + m ∧
      enable (8 * row + lane - address.toNat) = true
  · rw [if_pos hnew, if_pos ⟨by omega, by omega, hnew.2.2⟩]
  · rw [if_neg hnew]
    refine if_congr ⟨fun hold => ⟨hold.1, by omega, hold.2.2⟩, fun hall => ?_⟩ rfl rfl
    by_cases hlt : 8 * row + lane < address.toNat + n
    · exact ⟨hall.1, hlt, hall.2.2⟩
    · exact absurd ⟨by omega, by omega, hall.2.2⟩ hnew

/-- Whether `bankWrite` writes a byte. -/
def byteEnable (fault : Bool) (size : Option Nat) (byte : Nat) : Bool :=
  !fault && size.all fun size => decide (byte < size)

theorem writeByte_row {known fault : Bool} {lane byte : Nat} {size : Option Nat}
    {data : Nat → BitVec 8} (hlane : lane < 8) (hin : address.toNat + byte < s.memoryBytes)
    (row : Nat) (hrow : row < s.rows) :
    s.writeByte known address data fault lane size bank byte row =
      if address.toNat + byte ≤ 8 * row + lane ∧ 8 * row + lane < address.toNat + byte + 1 ∧
          byteEnable fault size (8 * row + lane - address.toNat) then
        data (8 * row + lane - address.toNat)
      else bank row := by
  by_cases hat : 8 * row + lane = address.toNat + byte
  · -- the byte lies in this row of the lane
    have hdiv : (address.toNat + byte) / 8 = row := by omega
    have hmod : (address.toNat + byte) % 8 = lane := by omega
    have hcond : (address.toNat + byte ≤ 8 * row + lane ∧
        8 * row + lane < address.toNat + byte + 1 ∧
          byteEnable fault size (8 * row + lane - address.toNat) = true) ↔
        byteEnable fault size byte = true := by
      rw [hat, Nat.add_sub_cancel_left]
      exact ⟨fun hall => hall.2.2, fun henable => ⟨Nat.le_refl _, Nat.lt_succ_self _, henable⟩⟩
    rw [if_congr hcond rfl rfl, hat, Nat.add_sub_cancel_left]
    unfold writeByte
    cases known with
    | true =>
        rw [if_pos rfl]
        rw [Nat.mod_eq_of_lt (hin.trans s.fits), hdiv, hmod, if_neg (by omega),
          Function.update_self]
        rfl
    | false =>
        rw [if_neg Bool.false_ne_true]
        rw [lane_eq, index_eq, toNat_add hin, index_mod hin, hdiv, hmod]
        refine if_congr ⟨fun h => h.2.1, fun h => ⟨hrow, h, rfl, rfl⟩⟩ rfl rfl
  · rw [if_neg (by omega)]
    unfold writeByte
    cases known with
    | true =>
        rw [if_pos rfl]
        rw [Nat.mod_eq_of_lt (hin.trans s.fits)]
        split_ifs with hskip
        · rfl
        · rw [Function.update_of_ne]
          omega
        · rw [Function.update_of_ne]
          omega
    | false =>
        rw [if_neg Bool.false_ne_true]
        rw [lane_eq, index_eq, toNat_add hin, index_mod hin, if_neg]
        rintro ⟨-, -, hmod, hdiv⟩
        omega

/-- A byte that is not enabled leaves the lane, wherever it would lie. -/
theorem writeByte_disabled {known fault : Bool} {lane byte : Nat} {size : Option Nat}
    {data : Nat → BitVec 8} (h : byteEnable fault size byte = false) :
    s.writeByte known address data fault lane size bank byte = bank := by
  unfold writeByte
  unfold byteEnable at h
  cases known with
  | true =>
      rw [if_pos rfl]
      dsimp only
      rw [h, if_neg Bool.false_ne_true, Function.update_eq_self, ite_self]
  | false =>
      rw [if_neg Bool.false_ne_true]
      dsimp only
      rw [h]
      exact funext fun row => if_neg fun hall => Bool.false_ne_true hall.2.1

theorem bankWrite_stored {known fault : Bool} {lane bytes : Nat} {size : Option Nat}
    {data : Nat → BitVec 8} (hlane : lane < 8)
    (hin : ∀ byte < bytes, byteEnable fault size byte = true →
      address.toNat + byte < s.memoryBytes) :
    Stored s address data (byteEnable fault size) lane bank bytes
      (s.bankWrite known bank address data fault lane bytes size) := by
  induction bytes with
  | zero => exact .start
  | succ n ih =>
      have hbefore := ih fun byte hbyte => hin byte (Nat.lt_succ_of_lt hbyte)
      unfold bankWrite
      rw [List.range_succ, List.foldl_append]
      refine hbefore.step fun row hrow => ?_
      change s.writeByte known address data fault lane size _ n row = _
      cases henable : byteEnable fault size n with
      | true => exact writeByte_row hlane (hin n (Nat.lt_succ_self n) henable) row hrow
      | false =>
          rw [writeByte_disabled henable, if_neg]
          · rfl
          · rintro ⟨hlow, hhigh, hnew⟩
            rw [show 8 * row + lane - address.toNat = n by omega, henable] at hnew
            exact Bool.false_ne_true hnew

/-- Whether a generated function writes a byte. -/
def functionEnable (fault : Bool) (count : Nat) (validBytes : Option Nat) (byte : Nat) : Bool :=
  !fault && groupEnable count validBytes (byte / 8) byte

theorem laneByte_eq {lane : Nat} (hlane : lane < 8) :
    s.laneByte address lane = laneOffset 8 address.toNat lane := by
  unfold laneByte laneOffset
  rw [BitVec.toNat_sub, BitVec.toNat_ofNat, BitVec.toNat_ofNat]
  split_ifs <;> omega

theorem writeGroup_row {fault : Bool} {lane count group : Nat} {validBytes : Option Nat}
    {data : Nat → BitVec 8} (hlane : lane < 8)
    (hin : ∀ byte, group * 8 ≤ byte → byte < group * 8 + 8 →
      functionEnable fault count validBytes byte = true → address.toNat + byte < s.memoryBytes)
    (row : Nat) :
    s.writeGroup address data fault lane count validBytes bank group row =
      if address.toNat + group * 8 ≤ 8 * row + lane ∧
          8 * row + lane < address.toNat + group * 8 + 8 ∧
          functionEnable fault count validBytes (8 * row + lane - address.toNat) then
        data (8 * row + lane - address.toNat)
      else bank row := by
  have hoffset : s.laneByte address lane = laneOffset 8 address.toNat lane := laneByte_eq hlane
  have hlt := laneOffset_lt (a := address.toNat) hlane
  -- the byte of the group in this lane
  have hmod8 : laneOffset 8 (address.toNat + 8 * group) lane = laneOffset 8 address.toNat lane := by
    unfold laneOffset
    rw [Nat.add_mul_mod_self_left]
  have haddress := lane_address (a := address.toNat + 8 * group) hlane
  rw [hmod8] at haddress
  have hgroup : (laneOffset 8 address.toNat lane + group * 8) / 8 = group := by omega
  have hiff : (address.toNat + group * 8 ≤ 8 * row + lane ∧
      8 * row + lane < address.toNat + group * 8 + 8) ↔
      row = laneRow 8 (address.toNat + 8 * group) lane := by omega
  unfold writeGroup
  rw [hoffset]
  cases henable : functionEnable fault count validBytes
      (laneOffset 8 address.toNat lane + group * 8) with
  | true =>
      have hcell := hin _ (by omega) (by omega) henable
      have hindex : s.groupRow address group lane =
          laneRow 8 (address.toNat + 8 * group) lane := by
        rw [groupRow_eq]
        have hrow' : laneRow 8 (address.toNat + 8 * group) lane < s.rows := by
          have := s.eight_rows
          omega
        exact Nat.mod_eq_of_lt (Nat.lt_of_lt_of_le hrow' s.rows_le)
      unfold functionEnable at henable
      rw [hgroup] at henable
      rw [henable, if_pos rfl, hindex]
      by_cases hat : row = laneRow 8 (address.toNat + 8 * group) lane
      · have hbyte : 8 * row + lane - address.toNat =
            laneOffset 8 address.toNat lane + group * 8 := by omega
        rw [hbyte, if_pos]
        · rw [hat, Function.update_self]
        · refine ⟨(hiff.mpr hat).1, (hiff.mpr hat).2, ?_⟩
          unfold functionEnable
          rw [hgroup]
          exact henable
      · rw [Function.update_of_ne hat, if_neg fun hall => hat (hiff.mp ⟨hall.1, hall.2.1⟩)]
  | false =>
      have hskip : (!fault && groupEnable count validBytes group
          (laneOffset 8 address.toNat lane + group * 8)) = false := by
        unfold functionEnable at henable
        rwa [hgroup] at henable
      rw [hskip, if_neg Bool.false_ne_true, if_neg]
      rintro ⟨hlow, hhigh, hnew⟩
      have hbyte : 8 * row + lane - address.toNat =
          laneOffset 8 address.toNat lane + group * 8 := by
        have := hiff.mp ⟨hlow, hhigh⟩
        omega
      rw [hbyte, henable] at hnew
      exact Bool.false_ne_true hnew

theorem storageWrite_stored {fault : Bool} {lane count : Nat} {validBytes : Option Nat}
    {data : Nat → BitVec 8} (hlane : lane < 8)
    (hin : ∀ byte < (count + 7) / 8 * 8, functionEnable fault count validBytes byte = true →
      address.toNat + byte < s.memoryBytes) :
    Stored s address data (functionEnable fault count validBytes) lane bank ((count + 7) / 8 * 8)
      (s.storageWrite bank address data fault lane count validBytes) := by
  unfold storageWrite
  generalize (count + 7) / 8 = groups at hin ⊢
  induction groups with
  | zero => exact .start
  | succ n ih =>
      have hbefore := ih fun byte hbyte => hin byte (by omega)
      rw [List.range_succ, List.foldl_append, Nat.add_mul, Nat.one_mul]
      exact hbefore.step fun row _ =>
        writeGroup_row hlane (fun byte _ hhigh => hin byte (by omega)) row

/-- A store to all lanes is one to the flat memory. -/
theorem flat_stored {banks' : Banks} {data : Nat → BitVec 8} {enable : Nat → Bool} {n m : Nat}
    (h : ∀ lane < 8, Stored s address data enable lane (banks lane) n (banks' lane))
    (hm : m ≤ n) (henable : ∀ k < n, enable k = decide (k < m)) {b : Nat}
    (hb : b < s.memoryBytes) :
    flat 8 banks' b = storeCells (flat 8 banks) address.toNat m data b := by
  have hstored := h (b % 8) (Nat.mod_lt _ (by decide)) (b / 8) (row_lt hb)
  rw [show 8 * (b / 8) + b % 8 = b by omega] at hstored
  refine hstored.trans (if_congr ⟨fun hnew => ?_, fun hnew => ?_⟩ rfl rfl)
  · have hlt := henable (b - address.toNat) (by omega)
    rw [hnew.2.2] at hlt
    have := of_decide_eq_true hlt.symm
    omega
  · refine ⟨hnew.1, by omega, ?_⟩
    rw [henable _ (by omega)]
    exact decide_eq_true (by omega)

end StorageBanks

end CppHdl.Hls
