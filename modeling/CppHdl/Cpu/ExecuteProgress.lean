import CppHdl.Cpu.ExecuteExact

/-!
# The multiplications and divisions finish

A unit may be busy with operands that were flushed; it ends with these and takes those of the
instruction after that. A division needs 33 clocks, the last of them for its sign.
-/

namespace CppHdl.Cpu

open BitSerial

namespace ExecuteDiv

def own (d : ExecuteDiv) (s : State) : Bool :=
  decide (d.divPc = s.pc) && decide (d.divA = s.rs1Val) && decide (d.divB = s.rs2Val) &&
    decide (d.divOp = s.aluOp)

def left (d : ExecuteDiv) (s : State) : Nat :=
  clocksLeft 33 d.divBusy d.divDone (d.own s) d.divCount.toNat

variable {d : ExecuteDiv} {s : State}

theorem divResultMatch_eq (hdiv : s.isDiv = true) : d.divResultMatch s = (d.divDone && d.own s) := by
  simp only [divResultMatch, own, hdiv, Bool.and_true, Bool.and_assoc]

theorem left_step (h : d.Exact) (hdiv : s.isDiv = true) : (d.step s).left s ≤ d.left s - 1 := by
  unfold step
  rw [divResultMatch_eq hdiv, hdiv]
  cases hbusy : d.divBusy with
  | true =>
      have hle := (h.dividing hbusy).count_le
      rw [if_pos rfl]
      by_cases hlast : d.divCount = 32
      · rw [if_pos hlast]
        show clocksLeft 33 false true (d.own s) _ ≤ clocksLeft 33 d.divBusy _ (d.own s) _ - 1
        rw [hbusy, hlast]
        cases d.own s <;> exact Nat.le_refl _
      · have hcount : (d.divCount + 1).toNat = d.divCount.toNat + 1 := by
          have hne : d.divCount.toNat ≠ 32 := fun hsame => hlast (BitVec.eq_of_toNat_eq hsame)
          change (d.divCount.toNat + 1) % 2 ^ 6 = _
          omega
        rw [if_neg hlast]
        show clocksLeft 33 d.divBusy _ (d.own s) (d.divCount + 1).toNat ≤
          clocksLeft 33 d.divBusy _ (d.own s) _ - 1
        rw [hbusy, hcount]
        exact Nat.le_refl _
  | false =>
      cases hready : d.divDone && d.own s with
      | true => simp [left, clocksLeft, hbusy, hready]
      | false =>
          have hidle : d.left s = 34 := by simp [left, clocksLeft, hbusy, hready]
          rw [hidle]
          show (d.start s).left s ≤ 33
          rw [start]
          by_cases hb : s.rs2Val = 0
          · rw [if_pos hb]
            simp [left, clocksLeft, own]
          · rw [if_neg hb]
            simp [left, clocksLeft, own]

end ExecuteDiv

namespace ExecuteMul

def own (m : ExecuteMul) (s : State) : Bool :=
  decide (m.mulPc = s.pc) && decide (m.mulA = s.rs1Val) && decide (m.mulB = s.rs2Val) &&
    decide (m.mulOp = s.aluOp)

def left (m : ExecuteMul) (s : State) : Nat :=
  clocksLeft 32 m.mulBusy m.mulDone (m.own s) m.mulCount.toNat

variable {m : ExecuteMul} {s : State}

theorem mulResultMatch_eq (hmul : s.isMul = true) : m.mulResultMatch s = (m.mulDone && m.own s) := by
  simp only [mulResultMatch, own, hmul, Bool.and_true, Bool.and_assoc]

theorem left_step (h : m.Exact) (hmul : s.isMul = true) : (m.step s).left s ≤ m.left s - 1 := by
  unfold step
  rw [mulResultMatch_eq hmul, hmul]
  cases hbusy : m.mulBusy with
  | true =>
      have hlt := (h.multiplying hbusy).count_lt
      rw [if_pos rfl, multiplyBit]
      by_cases hlast : m.mulCount = 31
      · rw [if_pos hlast]
        show clocksLeft 32 false true (m.own s) _ ≤ clocksLeft 32 m.mulBusy _ (m.own s) _ - 1
        rw [hbusy, hlast]
        cases m.own s <;> exact Nat.le_refl _
      · have hcount : (m.mulCount + 1).toNat = m.mulCount.toNat + 1 := by
          change (m.mulCount.toNat + 1) % 2 ^ 6 = _
          omega
        rw [if_neg hlast]
        show clocksLeft 32 m.mulBusy _ (m.own s) (m.mulCount + 1).toNat ≤
          clocksLeft 32 m.mulBusy _ (m.own s) _ - 1
        rw [hbusy, hcount]
        exact Nat.le_refl _
  | false =>
      cases hready : m.mulDone && m.own s with
      | true => simp [left, clocksLeft, hbusy, hready]
      | false =>
          have hidle : m.left s = 33 := by simp [left, clocksLeft, hbusy, hready]
          rw [hidle]
          show (m.start s).left s ≤ 32
          simp [left, clocksLeft, own, start]

end ExecuteMul

namespace Execute

def left (e : Execute) (s : State) : Nat := if s.isDiv then e.div.left s else e.mul.left s

theorem left_le (e : Execute) (s : State) : e.left s ≤ 67 := by
  have hle : ∀ n ≤ 33, ∀ busy done own count, clocksLeft n busy done own count ≤ 67 := by
    intro n hn busy done own count
    unfold clocksLeft
    split_ifs <;> omega
  unfold left
  split
  · exact hle 33 (by decide) ..
  · exact hle 32 (by decide) ..

theorem Exact.left_replicate {e : Execute} {s : State} (h : e.Exact) (hs : s.IsMulDiv) (n : Nat) :
    ((List.replicate n (ExecuteInputs.wired false s)).foldl Execute.work e).left s ≤ e.left s - n := by
  induction n generalizing e with
  | zero => exact Nat.le_refl _
  | succ n ih =>
      have hstep : (Execute.work e (.wired false s)).left s ≤ e.left s - 1 := by
        unfold left
        split_ifs with hdiv
        · exact ExecuteDiv.left_step h.div hdiv
        · exact ExecuteMul.left_step h.mul ((Bool.or_eq_true_iff.mp hs.1).resolve_right hdiv)
      have hrest := ih (Exact.work h (.wired false s))
      rw [List.replicate_succ, List.foldl_cons]
      omega

theorem Exact.wait_of_left {e : Execute} {s : State} (h : e.Exact) (hleft : e.left s = 0) :
    e.multicycleWait (.wired false s) = false := by
  change ((s.isDiv && !e.div.divResultMatch s) || (s.isMul && !e.mul.mulResultMatch s)) = false
  cases hdiv : s.isDiv with
  | true =>
      have hmul : s.isMul = false := by
        rcases State.div_of_isDiv hdiv with hop | hop | hop | hop <;> simp [State.isMul, hop]
      have hdone := done_of_clocksLeft (show e.div.left s = 0 by simpa [left, hdiv] using hleft)
        fun hbusy => Nat.lt_succ_of_le (h.div.dividing hbusy).count_le
      rw [ExecuteDiv.divResultMatch_eq hdiv, hdone, hmul]
      rfl
  | false =>
      cases hmul : s.isMul with
      | false => rfl
      | true =>
          have hdone := done_of_clocksLeft (show e.mul.left s = 0 by simpa [left, hdiv] using hleft)
            fun hbusy => (h.mul.multiplying hbusy).count_lt
          rw [ExecuteMul.mulResultMatch_eq hmul, hdone]
          rfl

/-- Whatever the units were at, an instruction that stays for 67 clocks has its result. -/
theorem multicycle_completes (inputs : List ExecuteInputs) (s : State) (hs : s.IsMulDiv) {n : Nat}
    (hn : 67 ≤ n) :
    let e := run (inputs ++ List.replicate n (.wired false s))
    e.multicycleWait (.wired false s) = false ∧
      e.aluResult (.wired false s) = mulDiv s.aluOp s.rs1Val s.rs2Val := by
  intro e
  have hleft := (exact_run inputs).left_replicate hs n
  have hle := (run inputs).left_le s
  have he : e = (List.replicate n (.wired false s)).foldl work (run inputs) := List.foldl_append
  have hwait := Exact.wait_of_left (exact_run _) (e := e) (s := s) (by rw [he]; omega)
  exact ⟨hwait, (exact_run _).aluResult hs hwait⟩

/-- A remainder while the unit is busy with a division that was flushed. -/
theorem multicycle_completes_flushed :
    let s : State := { (default : State) with
      valid := true, aluOp := .rem, rs1Val := 0x80000000, rs2Val := 7 }
    let e := run ([.wired false { s with rs2Val := 3 }] ++ List.replicate 67 (.wired false s))
    e.multicycleWait (.wired false s) = false ∧
      e.aluResult (.wired false s) = mulDiv s.aluOp s.rs1Val s.rs2Val := by
  intro s
  exact multicycle_completes _ s (by decide) (Nat.le_refl 67)

end Execute

end CppHdl.Cpu
