import CppHdl.Lib.WordMemory

/-!
# Words on a bus

A beat carries a word to or from an address, with an enable for each byte. A list
of beats, newest first, is a memory: each byte is that of the newest beat that
carries it, and below all of them lies whatever memory was there before.
-/

namespace CppHdl

/-- A word, its address and the enable of each of its bytes. -/
structure Beat where
  addr : BitVec 32
  data : BitVec 32
  mask : BitVec 8
  deriving DecidableEq

namespace Beat

/-- The memory under the beats of a list, newest first. -/
def written (beats : List Beat) (mem : BitVec 32 → BitVec 8) : BitVec 32 → BitVec 8 :=
  beats.foldr (fun b mem => storeAt mem b.addr b.data b.mask) mem

@[simp] theorem written_cons (b : Beat) (beats : List Beat) (mem : BitVec 32 → BitVec 8) :
    written (b :: beats) mem = storeAt (written beats mem) b.addr b.data b.mask := rfl

/-- A beat of a whole word carries the bytes from its address on. -/
theorem storeAt_whole {mem : BitVec 32 → BitVec 8} {a data : BitVec 32} {k : Nat} (hk : k < 4) :
    storeAt mem a data 15 (a + BitVec.ofNat 32 k) = data.extractLsb' (8 * k) 8 := by
  have hsub : (a + BitVec.ofNat 32 k - a).toNat = k := by
    rw [BitVec.add_comm, BitVec.add_sub_cancel, BitVec.toNat_ofNat, Nat.mod_eq_of_lt (by omega)]
  have hbit : (15 : BitVec 8).getLsbD k = true := by
    match k, hk with
    | 0, _ | 1, _ | 2, _ | 3, _ => rfl
  unfold storeAt
  simp only [hsub]
  rw [if_pos ⟨hk, hbit⟩]

/-- Among whole beats to two neighbouring words, each word is that of the newest
beat to it. -/
theorem written_of_find {beats : List Beat} {low : BitVec 32} {a : BitVec 32}
    (ha : a = low ∨ a = low + 4)
    (hbeats : ∀ b ∈ beats, (b.addr = low ∨ b.addr = low + 4) ∧ b.mask = 15) {b : Beat}
    (hfind : beats.find? (·.addr = a) = some b) (mem : BitVec 32 → BitVec 8) {k : Nat}
    (hk : k < 4) : written beats mem (a + BitVec.ofNat 32 k) = b.data.extractLsb' (8 * k) 8 := by
  induction beats with
  | nil => cases hfind
  | cons c beats ih =>
      obtain ⟨haddr, hmask⟩ := hbeats c List.mem_cons_self
      rw [written_cons, hmask]
      rw [List.find?_cons] at hfind
      by_cases hc : c.addr = a
      · simp only [hc, decide_true] at hfind
        obtain rfl := Option.some.inj hfind
        rw [hc]
        exact storeAt_whole hk
      · simp only [hc, decide_false] at hfind
        -- the other word does not overlap this one
        have hother : 4 ≤ (a + BitVec.ofNat 32 k - c.addr).toNat := by
          have hk' : (BitVec.ofNat 32 k).toNat = k := by
            rw [BitVec.toNat_ofNat, Nat.mod_eq_of_lt (by omega)]
          rcases ha with rfl | rfl <;> rcases haddr with h | h <;> rw [h] at hc ⊢
          · exact absurd rfl hc
          · bv_omega
          · bv_omega
          · exact absurd rfl hc
        unfold storeAt
        rw [if_neg fun h => absurd h.1 (by omega)]
        exact ih (fun b hb => hbeats b (List.mem_cons_of_mem _ hb)) hfind

end Beat

end CppHdl
