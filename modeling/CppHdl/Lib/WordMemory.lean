import Mathlib.Data.BitVec

/-!
# Words in a memory of bytes

Little-endian words of four bytes, at any address of a space that wraps, and stores
with an enable for each byte: of a word at any address, and of an aligned beat of
several words.
-/

namespace CppHdl

variable {w : Nat}

def wordAt (mem : BitVec w → BitVec 8) (a : BitVec w) : BitVec 32 :=
  mem (a + 3) ++ mem (a + 2) ++ mem (a + 1) ++ mem a

/-- Byte `k` of the store goes to `a + k` if its bit of the mask is set. -/
def storeAt (mem : BitVec w → BitVec 8) (a : BitVec w) (data : BitVec 32) (mask : BitVec 8) :
    BitVec w → BitVec 8 := fun b =>
  let k := (b - a).toNat
  if k < 4 ∧ mask.getLsbD k then data.extractLsb' (8 * k) 8 else mem b

theorem getLsbD_wordAt (mem : BitVec w → BitVec 8) (a : BitVec w) {j : Nat} (hj : j < 32) :
    (wordAt mem a).getLsbD j = (mem (a + BitVec.ofNat w (j / 8))).getLsbD (j % 8) := by
  unfold wordAt
  rw [BitVec.getLsbD_append, BitVec.getLsbD_append, BitVec.getLsbD_append]
  obtain ⟨q, r, hr, rfl⟩ : ∃ q r, r < 8 ∧ j = 8 * q + r :=
    ⟨j / 8, j % 8, Nat.mod_lt _ (by decide), (Nat.div_add_mod j 8).symm⟩
  rw [show (8 * q + r) / 8 = q by omega, show (8 * q + r) % 8 = r by omega]
  match q, hj with
  | 0, _ =>
      rw [if_pos (by omega), show 8 * 0 + r = r by omega]
      exact congrArg (fun b => (mem b).getLsbD r) (BitVec.add_zero a).symm
  | 1, _ =>
      rw [if_neg (by omega), if_pos (by omega), show 8 * 1 + r - 8 = r by omega]
      rfl
  | 2, _ =>
      rw [if_neg (by omega), if_neg (by omega), if_pos (by omega),
        show 8 * 2 + r - 8 - 8 = r by omega]
      rfl
  | 3, _ =>
      rw [if_neg (by omega), if_neg (by omega), if_neg (by omega),
        show 8 * 3 + r - 8 - 8 - 8 = r by omega]
      rfl
  | q + 4, hq => omega

theorem wordAt_congr {mem mem' : BitVec w → BitVec 8} {a : BitVec w}
    (h : ∀ k < 4, mem (a + BitVec.ofNat w k) = mem' (a + BitVec.ofNat w k)) :
    wordAt mem a = wordAt mem' a := by
  apply BitVec.eq_of_getLsbD_eq
  intro j hj
  rw [getLsbD_wordAt mem a hj, getLsbD_wordAt mem' a hj, h (j / 8) (by omega)]

/-- Two adjacent words hold the unaligned word between them. -/
theorem wordAt_unaligned (mem : BitVec w → BitVec 8) (a : BitVec w) {b : Nat} (hb : b < 4) :
    wordAt mem a >>> (b * 8) ||| wordAt mem (a + BitVec.ofNat w 4) <<< (32 - b * 8) =
      wordAt mem (a + BitVec.ofNat w b) := by
  have hadd : ∀ m n : Nat, a + BitVec.ofNat w m + BitVec.ofNat w n = a + BitVec.ofNat w (m + n) :=
    fun m n => by rw [BitVec.add_assoc, BitVec.ofNat_add]
  apply BitVec.eq_of_getLsbD_eq
  intro j hj
  rw [BitVec.getLsbD_or, BitVec.getLsbD_ushiftRight, BitVec.getLsbD_shiftLeft,
    getLsbD_wordAt mem _ hj, hadd, decide_eq_true hj, Bool.true_and]
  by_cases hlow : j < 32 - b * 8
  · -- a byte of the first word
    rw [decide_eq_true hlow, Bool.not_true, Bool.false_and, Bool.or_false,
      getLsbD_wordAt mem a (by omega), show (b * 8 + j) / 8 = b + j / 8 by omega,
      show (b * 8 + j) % 8 = j % 8 by omega]
  · -- a byte of the second
    rw [decide_eq_false hlow, Bool.not_false, Bool.true_and,
      BitVec.getLsbD_of_ge _ _ (by omega), Bool.false_or, getLsbD_wordAt mem _ (by omega), hadd,
      show 4 + (j - (32 - b * 8)) / 8 = b + j / 8 by omega,
      show (j - (32 - b * 8)) % 8 = j % 8 by omega]

/-- A store leaves the bytes it does not enable. -/
theorem storeAt_of_forall_ne {mem : BitVec w → BitVec 8} {a : BitVec w} {data : BitVec 32}
    {mask : BitVec 8} {b : BitVec w}
    (h : ∀ k < 4, mask.getLsbD k = true → a + BitVec.ofNat w k ≠ b) :
    storeAt mem a data mask b = mem b := by
  refine if_neg fun hboth => h (b - a).toNat hboth.1 hboth.2 ?_
  rw [BitVec.ofNat_toNat, BitVec.setWidth_eq, BitVec.add_comm, BitVec.sub_add_cancel]

/-! ## Merging a store into words -/

section

variable (mem : BitVec 32 → BitVec 8) (a data : BitVec 32) (mask : BitVec 8)

end

/-! ## Strobed beats -/

section

variable (mem : BitVec 32 → BitVec 8) (a : BitVec 32) (data : Nat → BitVec 32) (strobe : BitVec 32)
  {bytes : Nat}

end

/-! ## Masks -/

/-- The bits of a mask that is put together by a loop. -/
theorem getLsbD_foldl_or {α : Type*} {n : Nat} (p : α → Prop) [DecidablePred p] (f : α → BitVec n)
    (l : List α) (acc : BitVec n) (j : Nat) :
    (l.foldl (fun acc x => if p x then acc ||| f x else acc) acc).getLsbD j =
      (acc.getLsbD j || l.any fun x => decide (p x) && (f x).getLsbD j) := by
  induction l generalizing acc with
  | nil => rw [List.foldl_nil, List.any_nil, Bool.or_false]
  | cons x l ih =>
      rw [List.foldl_cons, List.any_cons, ih]
      by_cases hp : p x
      · rw [if_pos hp, decide_eq_true hp, BitVec.getLsbD_or, Bool.true_and, Bool.or_assoc]
      · rw [if_neg hp, decide_eq_false hp, Bool.false_and, Bool.false_or]

theorem getLsbD_foldl_or_iff {α : Type*} {n : Nat} {p : α → Prop} [DecidablePred p]
    {f : α → BitVec n} {l : List α} {j : Nat} :
    (l.foldl (fun acc x => if p x then acc ||| f x else acc) (0 : BitVec n)).getLsbD j = true ↔
      ∃ x ∈ l, p x ∧ (f x).getLsbD j = true := by
  have hzero : (0 : BitVec n).getLsbD j = false := BitVec.getLsbD_zero
  rw [getLsbD_foldl_or, hzero, Bool.false_or, List.any_eq_true]
  simp only [Bool.and_eq_true, decide_eq_true_eq]

/-! ## Stores of a few bytes -/

/-- The low bytes of a word go to an address. -/
def storeBytes (mem : BitVec w → BitVec 8) (a : BitVec w) (data : BitVec 32) (size : Nat) :
    BitVec w → BitVec 8 := fun b =>
  if (b - a).toNat < size then data.extractLsb' (8 * (b - a).toNat) 8 else mem b

theorem storeAt_eq_storeBytes (mem : BitVec w → BitVec 8) (a : BitVec w) (data : BitVec 32)
    {mask : BitVec 8} {size : Nat} (hsize : size ≤ 4)
    (hmask : ∀ k < 4, mask.getLsbD k = decide (k < size)) :
    storeAt mem a data mask = storeBytes mem a data size := by
  funext b
  unfold storeAt storeBytes
  refine if_congr ?_ rfl rfl
  constructor
  · rintro ⟨hlt, hbit⟩
    rw [hmask _ hlt] at hbit
    exact of_decide_eq_true hbit
  · intro hlt
    have hfour : (b - a).toNat < 4 := by omega
    exact ⟨hfour, by rw [hmask _ hfour, decide_eq_true hlt]⟩

theorem storeBytes_storeBytes (mem : BitVec w → BitVec 8) (a : BitVec w) (data : BitVec 32)
    {m n : Nat} (hfits : m + n < 2 ^ w) :
    storeBytes (storeBytes mem a data m) (a + BitVec.ofNat w m) (data >>> (8 * m)) n =
      storeBytes mem a data (m + n) := by
  funext b
  have hdiff : (b - (a + BitVec.ofNat w m)).toNat =
      if m ≤ (b - a).toNat then (b - a).toNat - m else 2 ^ w + (b - a).toNat - m := by
    have hsub : b - (a + BitVec.ofNat w m) = b - a - BitVec.ofNat w m := by
      rw [BitVec.sub_eq_add_neg, BitVec.sub_eq_add_neg, BitVec.sub_eq_add_neg, BitVec.neg_add,
        BitVec.sub_eq_add_neg, BitVec.add_assoc]
    have hm : (BitVec.ofNat w m).toNat = m := by
      rw [BitVec.toNat_ofNat, Nat.mod_eq_of_lt (by omega)]
    have hlt := (b - a).isLt
    rw [hsub, BitVec.toNat_sub, hm]
    split_ifs with hle
    · rw [show 2 ^ w - m + (b - a).toNat = (b - a).toNat - m + 2 ^ w by omega, Nat.add_mod_right,
        Nat.mod_eq_of_lt (by omega)]
    · rw [Nat.mod_eq_of_lt (by omega)]
      omega
  have hshift : ∀ k, (data >>> (8 * m)).extractLsb' (8 * k) 8 = data.extractLsb' (8 * (m + k)) 8 := by
    intro k
    apply BitVec.eq_of_getLsbD_eq
    intro bit hbit
    rw [BitVec.getLsbD_extractLsb', BitVec.getLsbD_extractLsb', BitVec.getLsbD_ushiftRight]
    congr 2
    omega
  unfold storeBytes
  rw [hdiff]
  have hlt := (b - a).isLt
  by_cases hle : m ≤ (b - a).toNat
  · rw [if_pos hle]
    by_cases hin : (b - a).toNat < m + n
    · rw [if_pos (by omega), if_pos hin, hshift, Nat.add_sub_cancel' hle]
    · rw [if_neg (by omega), if_neg (by omega), if_neg hin]
  · rw [if_neg hle, if_neg (by omega), if_pos (by omega), if_pos (by omega)]

theorem storeBytes_self (mem : BitVec w → BitVec 8) (a : BitVec w) (data : BitVec 32) (n : Nat) :
    storeBytes (storeBytes mem a data n) a data n = storeBytes mem a data n := by
  funext b
  unfold storeBytes
  split_ifs
  · rfl
  · rfl

end CppHdl
