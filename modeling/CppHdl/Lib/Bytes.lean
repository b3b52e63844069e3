import Mathlib.Data.Nat.Bitwise
import Mathlib.Data.Nat.Digits.Lemmas

/-!
# Little-endian byte strings

A byte string stands for a number, low byte first. `readBytes` and `writeBytes`
are copies out of and into a string; the lemmas say what they do to the number,
as arithmetic and bit by bit.
-/

namespace CppHdl

/-- The number a little-endian byte string stands for. -/
def natOfBytes (bytes : List UInt8) : Nat := Nat.ofDigits 256 (bytes.map UInt8.toNat)

def bytesOfNat : Nat → Nat → List UInt8
  | 0, _ => []
  | n + 1, x => UInt8.ofNat x :: bytesOfNat n (x / 256)

/-- Copy `n` bytes out from an offset on, fewer at the end of the string. -/
def readBytes (bytes : List UInt8) (offset n : Nat) : List UInt8 := (bytes.drop offset).take n

def writeBytes (bytes : List UInt8) (offset : Nat) (new : List UInt8) : List UInt8 :=
  bytes.take offset ++ new ++ bytes.drop (offset + new.length)

theorem two_pow_eight_mul (n : Nat) : 2 ^ (8 * n) = 256 ^ n := by
  rw [Nat.pow_mul]

/-! ## The number of a string -/

@[simp] theorem natOfBytes_nil : natOfBytes [] = 0 := rfl

theorem natOfBytes_cons (byte : UInt8) (bytes : List UInt8) :
    natOfBytes (byte :: bytes) = byte.toNat + 256 * natOfBytes bytes := by
  unfold natOfBytes
  rw [List.map_cons, Nat.ofDigits_cons]

theorem natOfBytes_append (low high : List UInt8) :
    natOfBytes (low ++ high) = natOfBytes low + 2 ^ (8 * low.length) * natOfBytes high := by
  unfold natOfBytes
  rw [List.map_append, Nat.ofDigits_append, List.length_map, two_pow_eight_mul]

theorem natOfBytes_lt (bytes : List UInt8) : natOfBytes bytes < 2 ^ (8 * bytes.length) := by
  have hlt : ∀ digit ∈ bytes.map UInt8.toNat, digit < 256 := by
    intro digit hdigit
    obtain ⟨byte, -, rfl⟩ := List.mem_map.mp hdigit
    exact byte.toNat_lt
  have := Nat.ofDigits_lt_base_pow_length (by decide) hlt
  rwa [List.length_map, ← two_pow_eight_mul] at this

theorem natOfBytes_inj {a b : List UInt8} (hlen : a.length = b.length)
    (h : natOfBytes a = natOfBytes b) : a = b := by
  induction a generalizing b with
  | nil => exact (List.eq_nil_of_length_eq_zero hlen.symm).symm
  | cons x a ih =>
      cases b with
      | nil => cases hlen
      | cons y b =>
          rw [natOfBytes_cons, natOfBytes_cons] at h
          have hx := x.toNat_lt
          have hy := y.toNat_lt
          have hhead : x = y := UInt8.toNat_inj.mp (by omega)
          rw [hhead, ih (Nat.succ.inj hlen) (by omega)]

@[simp] theorem natOfBytes_replicate_zero (n : Nat) : natOfBytes (List.replicate n 0) = 0 := by
  induction n with
  | zero => rfl
  | succ n ih => rw [List.replicate_succ, natOfBytes_cons, ih]; rfl

theorem natOfBytes_eq_zero_iff (bytes : List UInt8) :
    natOfBytes bytes = 0 ↔ bytes.all (· == 0) = true := by
  induction bytes with
  | nil => simp
  | cons byte bytes ih =>
      rw [natOfBytes_cons, List.all_cons, Bool.and_eq_true, ← ih, beq_iff_eq, ← UInt8.toNat_inj]
      change _ ↔ byte.toNat = 0 ∧ _
      omega

@[simp] theorem length_bytesOfNat (n x : Nat) : (bytesOfNat n x).length = n := by
  induction n generalizing x with
  | zero => rfl
  | succ n ih => rw [bytesOfNat, List.length_cons, ih]

theorem natOfBytes_bytesOfNat (n x : Nat) : natOfBytes (bytesOfNat n x) = x % 2 ^ (8 * n) := by
  induction n generalizing x with
  | zero => rw [bytesOfNat, Nat.mul_zero, Nat.pow_zero, Nat.mod_one, natOfBytes_nil]
  | succ n ih =>
      rw [bytesOfNat, natOfBytes_cons, ih, UInt8.toNat_ofNat', Nat.mul_succ, Nat.pow_add,
        Nat.mul_comm (2 ^ (8 * n)), Nat.mod_mul]

/-! ## Reading -/

theorem natOfBytes_split {bytes : List UInt8} {n : Nat} (h : n ≤ bytes.length) :
    natOfBytes (bytes.take n) < 2 ^ (8 * n) ∧ natOfBytes bytes =
      natOfBytes (bytes.take n) + 2 ^ (8 * n) * natOfBytes (bytes.drop n) := by
  have hlt := natOfBytes_lt (bytes.take n)
  have happend := natOfBytes_append (bytes.take n) (bytes.drop n)
  rw [List.length_take, Nat.min_eq_left h] at hlt happend
  rw [List.take_append_drop] at happend
  exact ⟨hlt, happend⟩

theorem natOfBytes_take (bytes : List UInt8) (n : Nat) :
    natOfBytes (bytes.take n) = natOfBytes bytes % 2 ^ (8 * n) := by
  rcases Nat.le_total bytes.length n with hle | hle
  · have hpow : 2 ^ (8 * bytes.length) ≤ 2 ^ (8 * n) :=
      Nat.pow_le_pow_right (by decide) (by omega)
    rw [List.take_of_length_le hle,
      Nat.mod_eq_of_lt (Nat.lt_of_lt_of_le (natOfBytes_lt bytes) hpow)]
  · obtain ⟨hlt, happend⟩ := natOfBytes_split hle
    rw [happend, Nat.add_mul_mod_self_left, Nat.mod_eq_of_lt hlt]

theorem natOfBytes_drop (bytes : List UInt8) (n : Nat) :
    natOfBytes (bytes.drop n) = natOfBytes bytes / 2 ^ (8 * n) := by
  rcases Nat.le_total bytes.length n with hle | hle
  · have hpow : 2 ^ (8 * bytes.length) ≤ 2 ^ (8 * n) :=
      Nat.pow_le_pow_right (by decide) (by omega)
    rw [List.drop_eq_nil_of_le hle, natOfBytes_nil,
      Nat.div_eq_of_lt (Nat.lt_of_lt_of_le (natOfBytes_lt bytes) hpow)]
  · obtain ⟨hlt, happend⟩ := natOfBytes_split hle
    rw [happend, Nat.add_mul_div_left _ _ (Nat.two_pow_pos _), Nat.div_eq_of_lt hlt, Nat.zero_add]

theorem natOfBytes_readBytes (bytes : List UInt8) (offset n : Nat) :
    natOfBytes (readBytes bytes offset n) =
      natOfBytes bytes / 2 ^ (8 * offset) % 2 ^ (8 * n) := by
  rw [readBytes, natOfBytes_take, natOfBytes_drop]

theorem length_readBytes {bytes : List UInt8} {offset n : Nat} (h : offset + n ≤ bytes.length) :
    (readBytes bytes offset n).length = n := by
  rw [readBytes, List.length_take, List.length_drop]
  omega

theorem toNat_getD (bytes : List UInt8) (i : Nat) :
    (bytes.getD i 0).toNat = natOfBytes bytes / 2 ^ (8 * i) % 256 := by
  rw [← natOfBytes_drop]
  rcases Nat.lt_or_ge i bytes.length with hlt | hge
  · rw [List.drop_eq_getElem_cons hlt, natOfBytes_cons, List.getD_eq_getElem _ _ hlt,
      Nat.add_mul_mod_self_left, Nat.mod_eq_of_lt (UInt8.toNat_lt _)]
  · rw [List.drop_eq_nil_of_le hge, List.getD_eq_default _ _ hge]
    rfl

/-! ## Writing -/

theorem length_writeBytes {bytes new : List UInt8} {offset : Nat}
    (h : offset + new.length ≤ bytes.length) :
    (writeBytes bytes offset new).length = bytes.length := by
  simp only [writeBytes, List.length_append, List.length_take, List.length_drop]
  omega

/-- Below the end of what is written only the written bytes and what lies under
them count. -/
theorem natOfBytes_writeBytes_mod {bytes new : List UInt8} {offset : Nat}
    (h : offset + new.length ≤ bytes.length) :
    natOfBytes (writeBytes bytes offset new) % 2 ^ (8 * (offset + new.length)) =
      natOfBytes bytes % 2 ^ (8 * offset) + 2 ^ (8 * offset) * natOfBytes new := by
  unfold writeBytes
  have hlen : (bytes.take offset ++ new).length = offset + new.length := by
    rw [List.length_append, List.length_take]
    omega
  rw [← natOfBytes_take, ← hlen, List.take_left, natOfBytes_append, natOfBytes_take,
    List.length_take, Nat.min_eq_left (by omega)]

theorem natOfBytes_writeBytes_byte {bytes : List UInt8} {i : Nat} (h : i < bytes.length)
    (byte : UInt8) :
    natOfBytes (writeBytes bytes i [byte]) % 2 ^ (8 * i + 8) =
      natOfBytes bytes % 2 ^ (8 * i) + 2 ^ (8 * i) * byte.toNat := by
  have hmod := @natOfBytes_writeBytes_mod bytes [byte] i h
  rwa [natOfBytes_cons, natOfBytes_nil, Nat.mul_zero, Nat.add_zero] at hmod

/-! ## Bits -/

theorem testBit_natOfBytes_append (low high : List UInt8) (i : Nat) :
    (natOfBytes (low ++ high)).testBit i =
      if i < 8 * low.length then (natOfBytes low).testBit i
      else (natOfBytes high).testBit (i - 8 * low.length) := by
  rw [natOfBytes_append, Nat.add_comm]
  exact Nat.testBit_two_pow_mul_add _ (natOfBytes_lt low) i

theorem testBit_natOfBytes_of_le {bytes : List UInt8} {i : Nat} (h : 8 * bytes.length ≤ i) :
    (natOfBytes bytes).testBit i = false :=
  Nat.testBit_lt_two_pow (Nat.lt_of_lt_of_le (natOfBytes_lt bytes)
    (Nat.pow_le_pow_right (by decide) h))

theorem testBit_readBytes (bytes : List UInt8) (offset n i : Nat) :
    (natOfBytes (readBytes bytes offset n)).testBit i =
      (decide (i < 8 * n) && (natOfBytes bytes).testBit (8 * offset + i)) := by
  rw [natOfBytes_readBytes, Nat.testBit_mod_two_pow, Nat.testBit_div_two_pow, Nat.add_comm i]

theorem testBit_bytesOfNat (n x i : Nat) :
    (natOfBytes (bytesOfNat n x)).testBit i = (decide (i < 8 * n) && x.testBit i) := by
  rw [natOfBytes_bytesOfNat, Nat.testBit_mod_two_pow]

theorem testBit_writeBytes {bytes new : List UInt8} {offset : Nat}
    (h : offset + new.length ≤ bytes.length) (i : Nat) :
    (natOfBytes (writeBytes bytes offset new)).testBit i =
      if 8 * offset ≤ i ∧ i < 8 * (offset + new.length) then
        (natOfBytes new).testBit (i - 8 * offset)
      else (natOfBytes bytes).testBit i := by
  have htake : (bytes.take offset).length = offset := by
    rw [List.length_take]
    omega
  unfold writeBytes
  rw [List.append_assoc, testBit_natOfBytes_append, testBit_natOfBytes_append, htake,
    natOfBytes_take, natOfBytes_drop, Nat.testBit_mod_two_pow, Nat.testBit_div_two_pow]
  by_cases hlow : i < 8 * offset
  · rw [if_pos hlow, if_neg (by omega), decide_eq_true hlow, Bool.true_and]
  · rw [if_neg hlow]
    by_cases hnew : i < 8 * (offset + new.length)
    · rw [if_pos (by omega), if_pos (by omega)]
    · rw [if_neg (by omega), if_neg (by omega)]
      congr 1
      omega

theorem testBit_getD (bytes : List UInt8) (i j : Nat) (hj : j < 8) :
    (bytes.getD i 0).toNat.testBit j = (natOfBytes bytes).testBit (8 * i + j) := by
  rw [toNat_getD, show (256 : Nat) = 2 ^ 8 from rfl, Nat.testBit_mod_two_pow,
    Nat.testBit_div_two_pow, Nat.add_comm, decide_eq_true hj, Bool.true_and]

theorem testBit_natOfBytes (bytes : List UInt8) (i : Nat) :
    (natOfBytes bytes).testBit i = (bytes.getD (i / 8) 0).toNat.testBit (i % 8) := by
  rw [testBit_getD _ _ _ (Nat.mod_lt i (by decide)), Nat.div_add_mod]

/-! ## Machine words -/

theorem testBit_shiftLeft64 (x : UInt64) {s : Nat} (hs : s < 64) (i : Nat) :
    (x <<< UInt64.ofNat s).toNat.testBit i =
      (decide (i < 64) && (decide (s ≤ i) && x.toNat.testBit (i - s))) := by
  have hmod : (UInt64.ofNat s).toNat % 64 = s := by
    rw [UInt64.toNat_ofNat']
    omega
  rw [UInt64.toNat_shiftLeft, hmod, Nat.testBit_mod_two_pow, Nat.testBit_shiftLeft]

theorem testBit_shiftRight64 (x : UInt64) {s : Nat} (hs : s < 64) (i : Nat) :
    (x >>> UInt64.ofNat s).toNat.testBit i = x.toNat.testBit (s + i) := by
  have hmod : (UInt64.ofNat s).toNat % 64 = s := by
    rw [UInt64.toNat_ofNat']
    omega
  rw [UInt64.toNat_shiftRight, hmod, Nat.testBit_shiftRight]

theorem testBit_shiftLeft16 (x : UInt16) {s : Nat} (hs : s < 16) (i : Nat) :
    (x <<< UInt16.ofNat s).toNat.testBit i =
      (decide (i < 16) && (decide (s ≤ i) && x.toNat.testBit (i - s))) := by
  have hmod : (UInt16.ofNat s).toNat % 16 = s := by
    rw [UInt16.toNat_ofNat']
    omega
  rw [UInt16.toNat_shiftLeft, hmod, Nat.testBit_mod_two_pow, Nat.testBit_shiftLeft]

theorem testBit_shiftRight16 (x : UInt16) {s : Nat} (hs : s < 16) (i : Nat) :
    (x >>> UInt16.ofNat s).toNat.testBit i = x.toNat.testBit (s + i) := by
  have hmod : (UInt16.ofNat s).toNat % 16 = s := by
    rw [UInt16.toNat_ofNat']
    omega
  rw [UInt16.toNat_shiftRight, hmod, Nat.testBit_shiftRight]

theorem testBit_shiftLeft8 (x : UInt8) {s : Nat} (hs : s < 8) (i : Nat) :
    (x <<< UInt8.ofNat s).toNat.testBit i =
      (decide (i < 8) && (decide (s ≤ i) && x.toNat.testBit (i - s))) := by
  have hmod : (UInt8.ofNat s).toNat % 8 = s := by
    rw [UInt8.toNat_ofNat']
    omega
  rw [UInt8.toNat_shiftLeft, hmod, Nat.testBit_mod_two_pow, Nat.testBit_shiftLeft]

theorem testBit_not8 (x : UInt8) (i : Nat) :
    (~~~x).toNat.testBit i = (decide (i < 8) && !x.toNat.testBit i) := by
  have := x.toNat_lt
  rw [UInt8.toNat_not, show UInt8.size - 1 - x.toNat = 2 ^ 8 - (x.toNat + 1) by
    simp only [UInt8.size]; omega]
  exact Nat.testBit_two_pow_sub_succ x.toNat_lt i

theorem testBit_uint8_of_le (x : UInt8) {i : Nat} (h : 8 ≤ i) : x.toNat.testBit i = false :=
  Nat.testBit_lt_two_pow (Nat.lt_of_lt_of_le x.toNat_lt (Nat.pow_le_pow_right (by decide) h))

/-- Two conditional reads of one bit, where a condition on its index chooses. -/
theorem or_reads {p q r : Prop} [Decidable p] [Decidable q] [Decidable r] {b b' c : Bool}
    (hp : p → b = c) (hq : q → b' = c) (h : r ↔ p ∨ q) :
    ((decide p && b) || (decide q && b')) = (decide r && c) := by
  by_cases hp' : p
  · have hr : r := h.mpr (.inl hp')
    by_cases hq' : q <;> simp [hp', hq', hr, hp hp', hq]
  · by_cases hq' : q
    · have hr : r := h.mpr (.inr hq')
      simp [hp', hq', hr, hq hq']
    · have hr : ¬ r := fun hr => (h.mp hr).elim hp' hq'
      simp [hp', hq', hr]

end CppHdl
