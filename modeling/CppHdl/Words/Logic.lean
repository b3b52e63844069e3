import CppHdl.Lib.Bytes

/-!
# The storage of a logic vector

`logic<WIDTH>` keeps its bits in `SIZE` bytes, low byte first. The bits of the
last byte above `WIDTH` are padding: they are bits of the storage but not of the
vector. `toNat` reads the whole storage, `value` the vector.
-/

namespace CppHdl.Words

/-- `SIZE`: the bytes of a vector. -/
def size (width : Nat) : Nat := (width + 7) / 8

structure Logic (width : Nat) where
  bytes : List UInt8
  length_eq : bytes.length = size width

/-- `std::memcpy` of eight bytes into a `uint64_t`. -/
def load64 (bytes : List UInt8) (offset : Nat) : UInt64 :=
  UInt64.ofNat (natOfBytes (readBytes bytes offset 8))

/-- `std::memcpy` of a `uint64_t` to eight bytes. -/
def store64 (bytes : List UInt8) (offset : Nat) (word : UInt64) : List UInt8 :=
  writeBytes bytes offset (bytesOfNat 8 word.toNat)

/-- The loop most operators run over `n` bytes: blocks of 64 bits while they fit,
then the remaining bytes. -/
def blocks {σ : Type} (n : Nat) (chunk byte : σ → Nat → σ) (start : σ) : σ :=
  (List.range' (8 * (n / 8)) (n % 8)).foldl byte ((List.range (n / 8)).foldl chunk start)

namespace Logic

variable {width : Nat}

/-- The number in the storage, padding included. -/
def toNat (x : Logic width) : Nat := natOfBytes x.bytes

/-- The number the vector stands for. -/
def value (x : Logic width) : Nat := x.toNat % 2 ^ width

/-- The padding bits are zero. -/
def Canonical (x : Logic width) : Prop := x.toNat < 2 ^ width

/-- `logic<WIDTH> result{}`. -/
def zero (width : Nat) : Logic width :=
  ⟨List.replicate (size width) 0, List.length_replicate ..⟩

/-- A vector from the bytes of a number, as much of it as the storage holds. -/
def ofNat (width x : Nat) : Logic width := ⟨bytesOfNat (size width) x, length_bytesOfNat ..⟩

end Logic

/-! ## Sizes -/

theorem le_size (width : Nat) : width ≤ 8 * size width := by
  unfold size
  omega

theorem lt_width_of_lt_size {width i : Nat} (h : i < size width) : 8 * i < width := by
  unfold size at h
  omega

/-! ## Loops over blocks -/

section

variable {σ : Type} {n : Nat} {chunk byte : σ → Nat → σ} {start : σ} {P : Nat → σ → Prop}

/-- What blocks preserve holds before each of them. The position is in bits. -/
theorem chunks_induction (hstart : P 0 start)
    (hchunk : ∀ i s, i < n / 8 → P (64 * i) s → P (64 * i + 64) (chunk s i)) {k : Nat}
    (hk : k ≤ n / 8) : P (64 * k) ((List.range k).foldl chunk start) := by
  induction k with
  | zero => exact hstart
  | succ k ih =>
      rw [List.range_succ, List.foldl_append]
      exact hchunk k _ (by omega) (ih (by omega))

/-- What blocks and bytes preserve holds at the end. -/
theorem blocks_induction (hstart : P 0 start)
    (hchunk : ∀ i s, i < n / 8 → P (64 * i) s → P (64 * i + 64) (chunk s i))
    (hbyte : ∀ i s, i < n → P (8 * i) s → P (8 * i + 8) (byte s i)) :
    P (8 * n) (blocks n chunk byte start) := by
  have hbytes : ∀ (k first : Nat) (s : σ), first + k ≤ n → P (8 * first) s →
      P (8 * (first + k)) ((List.range' first k).foldl byte s) := by
    intro k
    induction k with
    | zero => exact fun _ _ _ h => h
    | succ k ih =>
        intro first s hle h
        rw [List.range'_succ, List.foldl_cons, show first + (k + 1) = first + 1 + k by omega]
        exact ih (first + 1) _ (by omega) (hbyte first s (by omega) h)
  have hchunks := chunks_induction hstart hchunk (Nat.le_refl (n / 8))
  have hlast := hbytes (n % 8) (8 * (n / 8)) _ (by omega) (by rwa [← Nat.mul_assoc])
  rwa [show 8 * (n / 8) + n % 8 = n by omega] at hlast

end

/-! ## Loads and stores -/

theorem toNat_load64 (bytes : List UInt8) (offset : Nat) :
    (load64 bytes offset).toNat = natOfBytes bytes / 2 ^ (8 * offset) % 2 ^ 64 := by
  unfold load64
  rw [UInt64.toNat_ofNat', natOfBytes_readBytes, Nat.mod_mod]

theorem length_store64 {bytes : List UInt8} {offset : Nat} (h : offset + 8 ≤ bytes.length)
    (word : UInt64) : (store64 bytes offset word).length = bytes.length := by
  unfold store64
  exact length_writeBytes (by rwa [length_bytesOfNat])

theorem natOfBytes_word (word : UInt64) : natOfBytes (bytesOfNat 8 word.toNat) = word.toNat := by
  rw [natOfBytes_bytesOfNat]
  exact Nat.mod_eq_of_lt word.toNat_lt

/-- What `store64` leaves below the end of the word. -/
theorem natOfBytes_store64_mod {bytes : List UInt8} {offset : Nat} (h : offset + 8 ≤ bytes.length)
    (word : UInt64) :
    natOfBytes (store64 bytes offset word) % 2 ^ (8 * offset + 64) =
      natOfBytes bytes % 2 ^ (8 * offset) + 2 ^ (8 * offset) * word.toNat := by
  have hmod := @natOfBytes_writeBytes_mod bytes (bytesOfNat 8 word.toNat) offset
    (by rwa [length_bytesOfNat])
  rwa [length_bytesOfNat, natOfBytes_word, Nat.mul_add] at hmod

namespace Logic

variable {width : Nat}

theorem toNat_lt (x : Logic width) : x.toNat < 2 ^ (8 * size width) := by
  have := natOfBytes_lt x.bytes
  rwa [x.length_eq] at this

theorem toNat_inj {x y : Logic width} (h : x.toNat = y.toNat) : x = y := by
  have := natOfBytes_inj (x.length_eq.trans y.length_eq.symm) h
  cases x
  cases y
  cases this
  rfl

@[simp] theorem toNat_zero : (zero width).toNat = 0 := natOfBytes_replicate_zero _

/-- The vector and its storage agree on bits of the vector. -/
theorem value_mod (x : Logic width) {p : Nat} (h : p ≤ width) :
    x.value % 2 ^ p = x.toNat % 2 ^ p :=
  Nat.mod_mod_of_dvd _ (Nat.pow_dvd_pow 2 h)

theorem Canonical.value_eq {x : Logic width} (h : x.Canonical) : x.value = x.toNat :=
  Nat.mod_eq_of_lt h

theorem Canonical.inj {x y : Logic width} (hx : x.Canonical) (hy : y.Canonical)
    (h : x.value = y.value) : x = y := by
  rw [hx.value_eq, hy.value_eq] at h
  exact toNat_inj h

end Logic

end CppHdl.Words
