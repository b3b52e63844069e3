import CppHdl.Lib.Alignment
import CppHdl.Lib.WordMemory

/-!
# Lines and beats

Both levels of caches have lines of 32 bytes, which a port transfers in beats.
-/

namespace CppHdl.Cache

/-- Bytes of a line; the code has no other size. -/
abbrev CACHE_LINE_SIZE : Nat := 32

abbrev LINE_WORDS : Nat := CACHE_LINE_SIZE / 4

/-- `addr & ~(CACHE_LINE_SIZE - 1)`. -/
def lineBase (addr : BitVec 32) : BitVec 32 := addr &&& ~~~31#32

/-- `(addr >> 2) & (LINE_WORDS - 1)`. -/
def wordIndex (addr : BitVec 32) : Nat := addr.toNat / 4 % LINE_WORDS

theorem toNat_lineBase (addr : BitVec 32) : (lineBase addr).toNat = addr.toNat / 32 * 32 :=
  toNat_clearLow (k := 5) addr (by decide)

theorem lineBase_eq_iff {a b : BitVec 32} :
    lineBase a = lineBase b ↔ a.toNat / 32 = b.toNat / 32 := by
  rw [← BitVec.toNat_inj, toNat_lineBase, toNat_lineBase]
  omega

theorem lineBase_lineBase (a : BitVec 32) : lineBase (lineBase a) = lineBase a := by
  rw [lineBase_eq_iff, toNat_lineBase]
  omega

theorem addr_eq (a : BitVec 32) :
    lineBase a + BitVec.ofNat 32 (4 * wordIndex a) + BitVec.ofNat 32 (a.toNat % 4) = a := by
  apply BitVec.eq_of_toNat_eq
  have := a.isLt
  have hwords : LINE_WORDS = 8 := rfl
  rw [BitVec.toNat_add, BitVec.toNat_add, toNat_lineBase, BitVec.toNat_ofNat, BitVec.toNat_ofNat]
  unfold wordIndex
  rw [hwords]
  omega

theorem lineBase_add {line : BitVec 32} (hline : lineBase line = line) {n : Nat} (hn : n < 32) :
    lineBase (line + BitVec.ofNat 32 n) = line := by
  have hself := congrArg BitVec.toNat hline
  rw [toNat_lineBase] at hself
  apply BitVec.eq_of_toNat_eq
  have := line.isLt
  rw [toNat_lineBase, BitVec.toNat_add, BitVec.toNat_ofNat]
  omega

namespace Line

end Line

/-! ## Ports -/

/-- The width of a port that divides a line into beats of whole words. -/
structure PortWidth where
  bits : Nat
  whole : 32 ≤ bits ∧ bits % 32 = 0
  divides : (32 * 8) % bits = 0

namespace PortWidth

variable (p : PortWidth)

def bytes : Nat := p.bits / 8

def words : Nat := p.bits / 32

def beats : Nat := CACHE_LINE_SIZE / p.bytes

/-- A beat has one, two, four or eight words. -/
theorem words_cases : p.words = 1 ∨ p.words = 2 ∨ p.words = 4 ∨ p.words = 8 := by
  obtain ⟨hge, hmod⟩ := p.whole
  have hwidth : p.bits = 32 * p.words := by
    unfold words
    omega
  have hdvd : p.words ∣ 8 := by
    have h := Nat.dvd_of_mod_eq_zero p.divides
    rw [hwidth] at h
    exact Nat.dvd_of_mul_dvd_mul_left (by decide) h
  have hle := Nat.le_of_dvd (by decide) hdvd
  have hpos : 0 < p.words := by omega
  have key : ∀ n : Fin 9, 0 < n.val → n.val ∣ 8 → n.val = 1 ∨ n.val = 2 ∨ n.val = 4 ∨ n.val = 8 := by
    decide
  exact key ⟨p.words, by omega⟩ hpos hdvd

theorem bytes_eq : p.bytes = 4 * p.words := by
  obtain ⟨hge, hmod⟩ := p.whole
  unfold bytes words
  omega

theorem beats_mul : p.beats * p.words = 8 := by
  unfold beats
  rw [p.bytes_eq]
  rcases p.words_cases with h | h | h | h <;> rw [h] <;> rfl

theorem bytes_pow : ∃ k ≤ 5, p.bytes = 2 ^ k := by
  rw [p.bytes_eq]
  rcases p.words_cases with h | h | h | h <;> rw [h]
  · exact ⟨2, by decide, rfl⟩
  · exact ⟨3, by decide, rfl⟩
  · exact ⟨4, by decide, rfl⟩
  · exact ⟨5, by decide, rfl⟩

/-- `addr & ~(PORT_BYTES - 1)`. -/
def beatBase (addr : BitVec 32) : BitVec 32 := addr &&& ~~~BitVec.ofNat 32 (p.bytes - 1)

/-- The word of the beat that holds an address. -/
def beatWord (addr : BitVec 32) : Nat := addr.toNat % p.bytes / 4

/-- The beat of the line, `(addr & (CACHE_LINE_SIZE - 1)) / PORT_BYTES`. -/
def beatIndex (addr : BitVec 32) : Nat := addr.toNat % CACHE_LINE_SIZE / p.bytes

theorem toNat_beatBase (a : BitVec 32) : (p.beatBase a).toNat = a.toNat / p.bytes * p.bytes := by
  obtain ⟨k, hk, hbytes⟩ := p.bytes_pow
  unfold beatBase
  rw [hbytes]
  exact toNat_clearLow a (by omega)

theorem beatBase_beatBase (a : BitVec 32) : p.beatBase (p.beatBase a) = p.beatBase a := by
  apply BitVec.eq_of_toNat_eq
  have hpos : 0 < p.bytes := by
    obtain ⟨k, -, hbytes⟩ := p.bytes_pow
    rw [hbytes]
    exact Nat.two_pow_pos k
  rw [toNat_beatBase, toNat_beatBase, Nat.mul_div_cancel _ hpos]

theorem beatBase_aligned (a : BitVec 32) : (p.beatBase a).toNat % 4 = 0 := by
  rw [toNat_beatBase, p.bytes_eq, Nat.mul_comm 4, ← Nat.mul_assoc]
  exact Nat.mul_mod_left _ 4

theorem beatWord_lt (a : BitVec 32) : p.beatWord a < p.words := by
  unfold beatWord
  rw [p.bytes_eq]
  rcases p.words_cases with h | h | h | h <;> rw [h] <;> omega

theorem beat_eq (a : BitVec 32) :
    p.beatBase a + BitVec.ofNat 32 (4 * p.beatWord a) + BitVec.ofNat 32 (a.toNat % 4) = a := by
  apply BitVec.eq_of_toNat_eq
  have hlt := a.isLt
  rw [BitVec.toNat_add, BitVec.toNat_add, toNat_beatBase, BitVec.toNat_ofNat, BitVec.toNat_ofNat]
  unfold beatWord
  rw [p.bytes_eq]
  rcases p.words_cases with h | h | h | h <;> rw [h] <;> omega

theorem lineBase_add_beat (a : BitVec 32) :
    lineBase a + BitVec.ofNat 32 (p.beatIndex a * p.bytes) = p.beatBase a := by
  apply BitVec.eq_of_toNat_eq
  have hlt := a.isLt
  have hline : CACHE_LINE_SIZE = 32 := rfl
  rw [BitVec.toNat_add, toNat_lineBase, toNat_beatBase, BitVec.toNat_ofNat]
  unfold beatIndex
  rw [p.bytes_eq, hline]
  rcases p.words_cases with h | h | h | h <;> rw [h] <;> omega

theorem beatBase_lineBase_add (a : BitVec 32) {beat : Nat} (hbeat : beat < p.beats) :
    p.beatBase (lineBase a + BitVec.ofNat 32 (beat * p.bytes)) =
      lineBase a + BitVec.ofNat 32 (beat * p.bytes) := by
  apply BitVec.eq_of_toNat_eq
  have hlt := a.isLt
  have hbeats := p.beats_mul
  rw [toNat_beatBase, BitVec.toNat_add, toNat_lineBase, BitVec.toNat_ofNat, p.bytes_eq]
  rcases p.words_cases with h | h | h | h <;> rw [h] at hbeats ⊢ <;> omega

end PortWidth

end CppHdl.Cache
