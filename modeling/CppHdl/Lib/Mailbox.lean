import CppHdl.Lib.Queue

/-!
# Mailboxes with toggles

A *mailbox* carries one word at a time from a producer to a consumer with another
clock. A request is a toggle that runs through two registers of the consumer, the
acknowledgement is the same toggle that runs back. The six bits on this way have
one change at most, and the place of the change is the state of the mailbox.
-/

namespace CppHdl

structure Mailbox (α : Type*) where
  payload : α
  request : Bool
  ack1 : Bool
  ack2 : Bool
  request1 : Bool
  request2 : Bool
  ack : Bool

namespace Mailbox

variable {α : Type*}

/-- The producer may put a word in. -/
def ready (m : Mailbox α) : Bool := m.request == m.ack2

/-- The consumer sees a word. -/
def valid (m : Mailbox α) : Bool := m.request2 != m.ack

/-- An edge of the producer, on the registers `n`; `x` goes in if it is accepted. -/
def produce (m : Mailbox α) (accepted : Bool) (x : α) (n : Mailbox α) : Mailbox α :=
  { n with
    payload := if accepted then x else n.payload
    request := if accepted then !m.request else n.request
    ack1 := m.ack
    ack2 := m.ack1 }

def consume (m : Mailbox α) (accepted : Bool) (n : Mailbox α) : Mailbox α :=
  { n with
    request1 := m.request
    request2 := m.request1
    ack := if accepted then m.request2 else n.ack }

/-- The producer's registers after its reset. -/
def clearProducer [Inhabited α] (n : Mailbox α) : Mailbox α :=
  { n with payload := default, request := false, ack1 := false, ack2 := false }

def clearConsumer (n : Mailbox α) : Mailbox α :=
  { n with request1 := false, request2 := false, ack := false }

def step (m : Mailbox α) (producer : Option (Bool × α)) (consumer : Option Bool) : Mailbox α :=
  let n := match producer with
    | some (accepted, x) => m.produce accepted x m
    | none => m
  match consumer with
  | some accepted => m.consume accepted n
  | none => n

def held (m : Mailbox α) : List α := if m.request = m.ack then [] else [m.payload]

def transfer (m : Mailbox α) (producer : Option (Bool × α)) (consumer : Option Bool) :
    Transfer α where
  flush := false
  pushed := producer.bind fun p => if p.1 then some p.2 else none
  popped := if consumer = some true then some m.payload else none

/-- At most one change on the way of the toggle. -/
def orderly (request request1 request2 ack ack1 ack2 : Bool) : Bool :=
  (request != request1).toNat + (request1 != request2).toNat + (request2 != ack).toNat +
    (ack != ack1).toNat + (ack1 != ack2).toNat ≤ 1

def Orderly (m : Mailbox α) : Prop :=
  orderly m.request m.request1 m.request2 m.ack m.ack1 m.ack2 = true

/-- What a step may do: put a word in when that is possible, take one that is seen. -/
structure Fair (m : Mailbox α) (producer : Option (Bool × α)) (consumer : Option Bool) : Prop where
  produce : ∀ x, producer = some (true, x) → m.ready = true
  consume : consumer = some true → m.valid = true

theorem Fair.of_map {ι κ : Type*} {m : Mailbox α} {p : Option ι} {c : Option κ}
    {accepted : ι → Bool} {word : ι → α} {taken : κ → Bool}
    (hproduce : ∀ i, accepted i = true → m.ready = true)
    (hconsume : ∀ i, taken i = true → m.valid = true) :
    m.Fair (p.map fun i => (accepted i, word i)) (c.map taken) where
  produce x hx := by
    obtain ⟨i, -, hi⟩ := Option.map_eq_some_iff.mp hx
    exact hproduce i (Prod.mk.inj hi).1
  consume hx := by
    obtain ⟨i, -, hi⟩ := Option.map_eq_some_iff.mp hx
    exact hconsume i hi

/-- After the resets of both sides. -/
structure Cleared (m : Mailbox α) : Prop where
  request : m.request = false
  ack1 : m.ack1 = false
  ack2 : m.ack2 = false
  request1 : m.request1 = false
  request2 : m.request2 = false
  ack : m.ack = false

theorem Cleared.orderly {m : Mailbox α} (h : m.Cleared) : m.Orderly ∧ m.held = [] := by
  unfold Orderly held
  rw [h.request, h.request1, h.request2, h.ack, h.ack1, h.ack2]
  exact ⟨rfl, rfl⟩

/-- The toggle keeps its way, whoever clocks. -/
theorem orderly_step : ∀ request request1 request2 ack ack1 ack2 push pop back forth : Bool,
    orderly request request1 request2 ack ack1 ack2 = true →
    (push = true → back = true ∧ request = ack2) → (pop = true → forth = true ∧ request2 ≠ ack) →
    orderly (if push then !request else request) (if forth then request else request1)
      (if forth then request1 else request2) (if pop then request2 else ack)
      (if back then ack else ack1) (if back then ack1 else ack2) = true := by
  decide

/-- Where a word can go in there is none. -/
theorem orderly_empty : ∀ request request1 request2 ack ack1 ack2 : Bool,
    orderly request request1 request2 ack ack1 ack2 = true → request = ack2 →
    request = ack ∧ request2 = ack := by
  decide

/-- A word that is seen is on its way. -/
theorem orderly_shown : ∀ request request1 request2 ack ack1 ack2 : Bool,
    orderly request request1 request2 ack ack1 ack2 = true → request2 ≠ ack →
    request ≠ ack ∧ request = request2 ∧ request = request1 ∧ request ≠ ack2 := by
  decide

variable {m : Mailbox α} {producer : Option (Bool × α)} {consumer : Option Bool}

theorem held_length : m.held.length ≤ 1 := by
  unfold held
  split_ifs
  · exact Nat.zero_le _
  · exact Nat.le_refl _

theorem Orderly.step (h : m.Orderly) (hfair : m.Fair producer consumer) :
    (m.step producer consumer).Orderly := by
  have key : ∀ push pop back forth : Bool, (push = true → back = true ∧ m.request = m.ack2) →
      (pop = true → forth = true ∧ m.request2 ≠ m.ack) → _ :=
    fun push pop back forth => orderly_step _ _ _ _ _ _ push pop back forth h
  have hready : ∀ x, producer = some (true, x) → m.request = m.ack2 := fun x hx =>
    beq_iff_eq.mp (hfair.produce x hx)
  have hvalid : consumer = some true → m.request2 ≠ m.ack := fun hx =>
    bne_iff_ne.mp (hfair.consume hx)
  unfold Orderly
  match producer, consumer with
  | none, none => exact h
  | none, some pop =>
      exact key false pop false true nofun fun hp => ⟨rfl, hvalid (congrArg some hp)⟩
  | some (push, x), none =>
      exact key push false true false (fun hp => ⟨rfl, hready x (by rw [hp])⟩) nofun
  | some (push, x), some pop =>
      exact key push pop true true (fun hp => ⟨rfl, hready x (by rw [hp])⟩)
        fun hp => ⟨rfl, hvalid (congrArg some hp)⟩

/-- A word goes into an empty mailbox only. -/
theorem Orderly.pushed (h : m.Orderly) (hfair : m.Fair producer consumer) {x : α}
    (hpush : producer = some (true, x)) : m.request = m.ack ∧ consumer ≠ some true := by
  obtain ⟨hempty, hnone⟩ :=
    orderly_empty _ _ _ _ _ _ h (beq_iff_eq.mp (hfair.produce x hpush))
  exact ⟨hempty, fun hpop => bne_iff_ne.mp (hfair.consume hpop) hnone⟩

theorem Orderly.shown (h : m.Orderly) (hvalid : m.valid = true) :
    m.request ≠ m.ack ∧ m.request = m.request2 ∧ m.request = m.request1 ∧ m.request ≠ m.ack2 :=
  orderly_shown _ _ _ _ _ _ h (bne_iff_ne.mp hvalid)

theorem Orderly.moves (h : m.Orderly) (hfair : m.Fair producer consumer) :
    (m.transfer producer consumer).Moves m.held (m.step producer consumer).held := by
  rw [Transfer.moves_step rfl]
  have hpush : ∀ x, producer = some (true, x) → m.held = [] ∧ consumer ≠ some true ∧
      (if (!m.request) = m.ack then ([] : List α) else [x]) = [x] := fun x hx => by
    obtain ⟨hempty, hnone⟩ := h.pushed hfair hx
    refine ⟨if_pos hempty, hnone, if_neg ?_⟩
    rw [hempty]
    cases m.ack <;> decide
  have hpop : consumer = some true → m.held = [m.payload] ∧ m.request = m.request2 := fun hx => by
    obtain ⟨hne, heq, -⟩ := h.shown (hfair.consume hx)
    exact ⟨if_neg hne, heq⟩
  match producer, consumer with
  | some (true, x), some true => exact ((hpush x rfl).2.1 rfl).elim
  | some (true, x), some false =>
      obtain ⟨hheld, -, hheld'⟩ := hpush x rfl
      rw [hheld]
      exact hheld'.symm
  | some (true, x), none =>
      obtain ⟨hheld, -, hheld'⟩ := hpush x rfl
      rw [hheld]
      exact hheld'.symm
  | some (false, x), some true =>
      obtain ⟨hheld, heq⟩ := hpop rfl
      rw [hheld]
      exact (congrArg (m.payload :: ·) (if_pos heq)).symm
  | none, some true =>
      obtain ⟨hheld, heq⟩ := hpop rfl
      rw [hheld]
      exact (congrArg (m.payload :: ·) (if_pos heq)).symm
  | some (false, x), some false => exact List.append_nil _
  | some (false, x), none => exact List.append_nil _
  | none, some false => exact List.append_nil _
  | none, none => exact List.append_nil _

/-- A word that is seen and not taken is seen again. -/
def Steady (m : Mailbox α) (t : Transfer α) (m' : Mailbox α) : Prop :=
  m.valid = true → t.popped = none → m'.valid = true ∧ m'.payload = m.payload

theorem Orderly.steady (h : m.Orderly) (hfair : m.Fair producer consumer) :
    m.Steady (m.transfer producer consumer) (m.step producer consumer) := by
  intro hvalid hpopped
  have hkept : consumer ≠ some true := fun htaken => by
    unfold transfer at hpopped
    rw [if_pos htaken] at hpopped
    cases hpopped
  obtain ⟨hne, heq₂, heq₁, hack⟩ := h.shown hvalid
  have hnopush : ∀ x, producer ≠ some (true, x) := fun x hx =>
    hack (beq_iff_eq.mp (hfair.produce x hx))
  have hseen : (m.request1 != m.ack) = true := bne_iff_ne.mpr (heq₁ ▸ hne)
  match producer, consumer with
  | some (true, x), _ => exact (hnopush x rfl).elim
  | _, some true => exact (hkept rfl).elim
  | some (false, x), some false => exact ⟨hseen, rfl⟩
  | some (false, x), none => exact ⟨hvalid, rfl⟩
  | none, some false => exact ⟨hseen, rfl⟩
  | none, none => exact ⟨hvalid, rfl⟩

/-- What went in came out, in order, but for the word on its way. -/
def Delivered (ts : List (Transfer α)) (m : Mailbox α) : Prop :=
  (Transfer.log ts).1 = (Transfer.log ts).2 ++ m.held ∧ m.held.length ≤ 1

end Mailbox

end CppHdl
