import Mathlib.Logic.Function.Basic

/-!
# The RAM of the caches

`RAM` and `L2CacheRamBank` have one port and a register for what was read. Rows
are read as committed, and a reset leaves them alone.
-/

namespace CppHdl.Cache

structure Ram (α : Type) where
  buffer : Nat → α
  q : α

namespace Ram

variable {α : Type} [Inhabited α]

/-- `_work` and the strobe after it. -/
def work (ram : Ram α) (reset wrIn rdIn : Bool) (addrIn : Nat) (dataIn : α) : Ram α :=
  if reset then { ram with q := default }
  else
    { buffer := if wrIn then Function.update ram.buffer addrIn dataIn else ram.buffer
      q := if rdIn then ram.buffer addrIn else ram.q }

variable (ram : Ram α) (wr rd : Bool) (addr : Nat) (data : α)

theorem buffer_work (row : Nat) :
    (ram.work false wr rd addr data).buffer row =
      if wr ∧ row = addr then data else ram.buffer row := by
  cases wr with
  | false => exact (if_neg fun h => Bool.false_ne_true h.1).symm
  | true =>
      change Function.update ram.buffer addr data row = _
      rw [Function.update_apply]
      by_cases h : row = addr
      · rw [if_pos h, if_pos ⟨rfl, h⟩]
      · rw [if_neg h, if_neg fun hboth => h hboth.2]

theorem q_work : (ram.work false wr rd addr data).q = if rd then ram.buffer addr else ram.q := rfl

end Ram

end CppHdl.Cache
