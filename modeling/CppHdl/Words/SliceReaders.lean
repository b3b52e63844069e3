import CppHdl.Words.Packing

/-!
# Reading a slice

There are four readers of a range of bits: `slice<LAST, FIRST>()` with a result of
the width of the range, `bits(last, first)` on a constant, the proxy of
`bits(last, first)` on a variable, and `sv_bits`, which takes whatever has `bits`
or `pack`, or an integer, and makes a vector of the width asked for.
-/

namespace CppHdl.Words

namespace Logic

variable {width : Nat}

/-- `sv_bits<WIDTH>` of what has `bits`. -/
def svBits (result : Nat) (x : Logic width) (last first : Nat) (h : first ≤ last ∧ last < width) :
    Logic result :=
  convert result (x.constBits last first h)

/-- `sv_bits<WIDTH>` of what has `pack`: the packed vector is a temporary, and its `bits` a proxy. -/
def svBitsPacked (result : Nat) (pack : Logic width) (last first : Nat)
    (h : first ≤ last ∧ last < width) : Logic result :=
  assign result (pack.snapshot last first h)

/-- `sv_bits<WIDTH>` of an integer. -/
def svBitsInteger (result : Nat) (raw : UInt64) (first : Nat) : Logic result :=
  if result = 0 then assignUInt64 result 0
  else if 64 ≤ result then assignUInt64 result (raw >>> UInt64.ofNat first)
  else assignUInt64 result
    ((raw >>> UInt64.ofNat first) &&& ((1 <<< UInt64.ofNat result) - 1))

theorem toNat_svBitsInteger (result : Nat) (raw : UInt64) {first : Nat} (hfirst : first < 64) :
    (svBitsInteger result raw first).toNat = raw.toNat / 2 ^ first % 2 ^ result := by
  have hshift : (raw >>> UInt64.ofNat first).toNat = raw.toNat / 2 ^ first := by
    refine Nat.eq_of_testBit_eq fun k => ?_
    rw [testBit_shiftRight64 _ hfirst, Nat.testBit_div_two_pow, Nat.add_comm]
  unfold svBitsInteger
  split_ifs with hzero hwide
  · subst hzero
    rw [toNat_assignUInt64, Nat.pow_zero, Nat.mod_one, Nat.mod_one]
  · rw [toNat_assignUInt64, hshift]
  · have hmask := Packing.toNat_fieldMask (by omega : result ≤ 64) (raw >>> UInt64.ofNat first)
    rw [Packing.fieldMask, if_pos (by omega), hshift] at hmask
    rw [toNat_assignUInt64, hmask, Nat.mod_mod]

/-- The bits of a range do not reach the padding. -/
theorem value_div_mod (x : Logic width) {first count : Nat} (h : first + count ≤ width) :
    x.value / 2 ^ first % 2 ^ count = x.toNat / 2 ^ first % 2 ^ count := by
  refine Nat.eq_of_testBit_eq fun k => ?_
  rw [value, Nat.testBit_mod_two_pow, Nat.testBit_mod_two_pow, Nat.testBit_div_two_pow,
    Nat.testBit_div_two_pow, Nat.testBit_mod_two_pow]
  by_cases hk : k < count
  · rw [decide_eq_true (by omega : k + first < width), Bool.true_and]
  · rw [decide_eq_false hk, Bool.false_and, Bool.false_and]

/-- Every reader of a range, whatever its result is stored in, gives the bits of the
range and zeros above them. -/
structure ReadersAgree (x : Logic width) (last first : Nat) (h : first ≤ last ∧ last < width)
    (field : Nat) : Prop where
  slice : (x.slice last first).toNat = field
  constBits : (x.constBits last first h).toNat = field
  proxy : (x.snapshot last first h).toNat = field
  svBits : ∀ result, last - first + 1 ≤ result → (x.svBits result last first h).toNat = field
  svBitsPacked : ∀ result, last - first + 1 ≤ result →
    (x.svBitsPacked result last first h).toNat = field
  svBitsInteger : width ≤ 64 → (svBitsInteger (last - first + 1) x.toUInt64 first).toNat = field

theorem readers_agree (x : Logic width) {last first : Nat} (h : first ≤ last ∧ last < width) :
    x.ReadersAgree last first h (x.value / 2 ^ first % 2 ^ (last - first + 1)) := by
  obtain ⟨hle, hlast⟩ := h
  have hcount : last + 1 - first = last - first + 1 := by omega
  rw [value_div_mod x (by omega)]
  have hconst := toNat_constBits x last first ⟨hle, hlast⟩
  have hproxy := toNat_snapshot x last first ⟨hle, hlast⟩
  rw [hcount] at hconst hproxy
  -- a result that holds the range cuts nothing off
  have hholds : ∀ result, last - first + 1 ≤ result →
      x.toNat / 2 ^ first % 2 ^ (last - first + 1) % 2 ^ result =
        x.toNat / 2 ^ first % 2 ^ (last - first + 1) := fun result hresult =>
    Nat.mod_eq_of_lt (Nat.lt_of_lt_of_le (Nat.mod_lt _ (Nat.two_pow_pos _))
      (Nat.pow_le_pow_right (by decide) hresult))
  constructor
  · exact toNat_slice x last first
  · exact hconst
  · exact hproxy
  · intro result hresult
    rw [svBits, toNat_convert, hconst, hholds result hresult, ite_self]
  · intro result hresult
    rw [svBitsPacked, toNat_assign, hproxy, hholds result hresult]
  · intro hword
    rw [toNat_svBitsInteger _ _ (by omega), ← value_div_mod x (by omega), toNat_toUInt64]
    refine Nat.eq_of_testBit_eq fun k => ?_
    rw [value, Nat.testBit_mod_two_pow, Nat.testBit_mod_two_pow, Nat.testBit_div_two_pow,
      Nat.testBit_div_two_pow, Nat.testBit_mod_two_pow, Nat.testBit_mod_two_pow]
    by_cases hk : k < last - first + 1
    · rw [decide_eq_true (by omega : k + first < 64), decide_eq_true (by omega : k + first < width)]
    · rw [decide_eq_false hk, Bool.false_and, Bool.false_and]

/-- The top seven bits of 75, across a byte. -/
theorem readers_agree_top :
    ((ofNat 75 (2 ^ 75 - 2 ^ 70)).slice 74 68).toNat = 124 := by
  rw [(readers_agree _ (by decide)).slice]
  decide +kernel

end Logic

end CppHdl.Words
