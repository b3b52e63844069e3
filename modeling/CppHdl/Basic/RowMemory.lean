import CppHdl.Words.Canonical

/-!
# Rows with deferred writes

`memory<T, SIZE, DEPTH>` hands out rows by value. Assigning to a row changes the
copy and queues its image; `apply()` commits the queue in order. `operator[]`
reads committed rows. `pending()` reads the image queued last, and a partial
write merges into it and assigns the result.
-/

namespace CppHdl.Basic

open Words Words.Logic

/-- What rows need of their elements: the bytes of the object, and the conversion
from a vector of as many bits. -/
structure RowElement (T : Type) where
  sizeof : Nat
  zero : T
  bytes : T → Logic (sizeof * 8)
  ofBytes : Logic (sizeof * 8) → T
  /-- `array_unpack_value`. -/
  unpack : Logic (sizeof * 8) → T
  ofBytes_bytes : ∀ x, ofBytes (bytes x) = x

/-- A vector of whole bytes. -/
def RowElement.vector (bytes : Nat) : RowElement (Logic (bytes * 8)) :=
  ⟨bytes, Logic.zero _, id, id, id, fun _ => rfl⟩

/-- `array<SIZE, T>`. -/
abbrev Row (T : Type) (SIZE : Nat) := Fin SIZE → T

namespace Row

variable {T : Type} (E : RowElement T) {SIZE : Nat}

theorem size_object : size (SIZE * (E.sizeof * 8)) = SIZE * E.sizeof := by
  unfold size
  rw [← Nat.mul_assoc]
  omega

theorem size_element : size (E.sizeof * 8) = E.sizeof := by
  unfold size
  omega

def object (row : Row T SIZE) : Logic (SIZE * (E.sizeof * 8)) where
  bytes := (List.finRange SIZE).flatMap fun i => (E.bytes (row i)).bytes
  length_eq := by
    rw [List.length_flatMap, size_object]
    simp [(E.bytes _).length_eq, size_element]

def elementBytes (packed : Logic (SIZE * (E.sizeof * 8))) (i : Fin SIZE) : Logic (E.sizeof * 8) where
  bytes := readBytes packed.bytes (i * E.sizeof) E.sizeof
  length_eq := by
    have hmul : (i + 1) * E.sizeof ≤ SIZE * E.sizeof := Nat.mul_le_mul_right _ i.isLt
    rw [Nat.add_mul, Nat.one_mul] at hmul
    rw [length_readBytes (by rwa [packed.length_eq, size_object]), size_element]

/-- The row that has these bytes. -/
def ofObject (packed : Logic (SIZE * (E.sizeof * 8))) : Row T SIZE :=
  fun i => E.ofBytes (elementBytes E packed i)

/-- `operator=` from a vector. -/
def ofLogic {width : Nat} (value : Logic width) : Row T SIZE :=
  fun i => E.unpack (elementBytes E (convert _ value) i)

end Row

/-- What is assigned to a row, or the compound assignment made to it. -/
inductive RowWrite (T : Type) (SIZE : Nat)
  | row (other : Row T SIZE)
  | array {SIZE1 : Nat} (other : Row T SIZE1)
  | logic {width : Nat} (other : Logic width)
  | integer (other : UInt64)
  | shl (shift : Nat)
  | shr (shift : Nat)
  | or (other : Row T SIZE)
  | and (other : Row T SIZE)
  | xor (other : Row T SIZE)

namespace RowWrite

variable {T : Type} (E : RowElement T) {SIZE : Nat}

def value (content : Row T SIZE) : RowWrite T SIZE → Row T SIZE
  | row other => other
  | @array _ _ SIZE1 other => fun i => if h : i < SIZE1 then other ⟨i, h⟩ else E.zero
  | logic other => Row.ofLogic E other
  | integer other => Row.ofLogic E (assignUInt64 (SIZE * (E.sizeof * 8)) other)
  | shl shift => Row.ofObject E ((Row.object E content).shl shift)
  | shr shift => Row.ofObject E ((Row.object E content).shr shift)
  | or other => Row.ofObject E ((Row.object E content).or (Row.object E other))
  | and other => Row.ofObject E ((Row.object E content).and (Row.object E other))
  | xor other => Row.ofObject E ((Row.object E content).xor (Row.object E other))

/-- The images it queues. A compound assignment queues the row as it was first. -/
def images (content : Row T SIZE) (w : RowWrite T SIZE) : List (Row T SIZE) :=
  match w with
  | row _ | array _ | logic _ | integer _ => [w.value E content]
  | shl _ | shr _ | or _ | and _ | xor _ => [content, w.value E content]

end RowWrite

/-- `memory<T, SIZE, DEPTH>`. -/
structure RowMemory (T : Type) (SIZE DEPTH : Nat) where
  data : Fin DEPTH → Row T SIZE
  changes : List (Fin DEPTH × Row T SIZE)

/-- What a program does with the memory. A row object may hold anything when it is
assigned to: it is a copy the program may have changed. -/
inductive RowStep (T : Type) (SIZE DEPTH : Nat)
  | assign (pos : Fin DEPTH) (content : Row T SIZE) (w : RowWrite T SIZE)
  | merge (pos : Fin DEPTH) (edit : Row T SIZE → Row T SIZE)
  | apply
  | restore (rows : Fin DEPTH → Row T SIZE)

namespace RowMemory

variable {T : Type} (E : RowElement T) {SIZE DEPTH : Nat} (m : RowMemory T SIZE DEPTH)

/-- `operator[]`. -/
def read (i : Fin DEPTH) : Row T SIZE := m.data i

/-- `pending(i)`: the queue is searched from its end. -/
def pending (i : Fin DEPTH) : Row T SIZE :=
  match m.changes.reverse.find? fun entry => decide (entry.1 = i) with
  | some entry => entry.2
  | none => m.data i

/-- `apply()`. -/
def apply : RowMemory T SIZE DEPTH where
  data := m.changes.foldl (fun data entry => Function.update data entry.1 entry.2) m.data
  changes := []

/-- `operator=` and the compound assignments of a row object at `pos`. -/
def assign (pos : Fin DEPTH) (content : Row T SIZE) (w : RowWrite T SIZE) :
    RowMemory T SIZE DEPTH :=
  { m with changes := m.changes ++ (w.images E content).map fun image => (pos, image) }

/-- `auto row = pending(pos)`, an edit of `row`, and `(*this)[pos] = row`. -/
def merge (pos : Fin DEPTH) (edit : Row T SIZE → Row T SIZE) : RowMemory T SIZE DEPTH :=
  m.assign E pos (m.read pos) (.row (edit (m.pending pos)))

/-- One step; `apply(checkpoint_fd)` that reads a checkpoint drops the queue. -/
def step : RowStep T SIZE DEPTH → RowMemory T SIZE DEPTH
  | .assign pos content w => m.assign E pos content w
  | .merge pos edit => m.merge E pos edit
  | .apply => m.apply
  | .restore rows => ⟨rows, []⟩

def run (steps : List (RowStep T SIZE DEPTH)) : RowMemory T SIZE DEPTH :=
  steps.foldl (step E) m

end RowMemory

/-! ## Nonblocking registers -/

/-- What the rows are for: every row shows what was committed and keeps what it was
given last until it is committed. -/
structure Nonblocking (T : Type) (SIZE DEPTH : Nat) where
  committed : Fin DEPTH → Row T SIZE
  latest : Fin DEPTH → Row T SIZE

namespace Nonblocking

variable {T : Type} (E : RowElement T) {SIZE DEPTH : Nat} (s : Nonblocking T SIZE DEPTH)

def step : RowStep T SIZE DEPTH → Nonblocking T SIZE DEPTH
  | .assign pos content w => { s with latest := Function.update s.latest pos (w.value E content) }
  | .merge pos edit => { s with latest := Function.update s.latest pos (edit (s.latest pos)) }
  | .apply => ⟨s.latest, s.latest⟩
  | .restore rows => ⟨rows, rows⟩

def run (steps : List (RowStep T SIZE DEPTH)) : Nonblocking T SIZE DEPTH :=
  steps.foldl (step E) s

end Nonblocking

/-- A step that commits nothing. -/
def RowStep.Defers {T : Type} {SIZE DEPTH : Nat} : RowStep T SIZE DEPTH → Prop
  | .assign .. | .merge .. => True
  | .apply | .restore _ => False

def RowStep.Spares {T : Type} {SIZE DEPTH : Nat} (i : Fin DEPTH) : RowStep T SIZE DEPTH → Prop
  | .assign pos .. | .merge pos _ => pos ≠ i
  | .apply | .restore _ => False

namespace RowMemory

variable {T : Type} {E : RowElement T} {SIZE DEPTH : Nat} {m : RowMemory T SIZE DEPTH}
  {s : Nonblocking T SIZE DEPTH}

/-! ## The queue -/

/-- The images an assignment queues end with what the row holds. -/
theorem images_eq (content : Row T SIZE) (w : RowWrite T SIZE) :
    ∃ stale, w.images E content = stale ++ [w.value E content] := by
  cases w with
  | row | array | logic | integer => exact ⟨[], rfl⟩
  | shl | shr | or | and | xor => exact ⟨[content], rfl⟩

theorem pending_nil (data : Fin DEPTH → Row T SIZE) (i : Fin DEPTH) :
    pending ⟨data, []⟩ i = data i := rfl

/-- The last entry decides for its row and no other. -/
theorem pending_concat (data : Fin DEPTH → Row T SIZE) (changes : List (Fin DEPTH × Row T SIZE))
    (pos i : Fin DEPTH) (image : Row T SIZE) :
    pending ⟨data, changes ++ [(pos, image)]⟩ i =
      Function.update (pending ⟨data, changes⟩) pos image i := by
  unfold pending
  rw [List.reverse_append, List.reverse_singleton, List.singleton_append, List.find?_cons]
  by_cases h : pos = i
  · subst h
    rw [decide_eq_true rfl, Function.update_self]
  · rw [decide_eq_false h, Function.update_of_ne (Ne.symm h)]

theorem pending_images (data : Fin DEPTH → Row T SIZE) (changes : List (Fin DEPTH × Row T SIZE))
    (pos : Fin DEPTH) (stale : List (Row T SIZE)) (image : Row T SIZE) :
    pending ⟨data, changes ++ (stale ++ [image]).map fun row => (pos, row)⟩ =
      Function.update (pending ⟨data, changes⟩) pos image := by
  induction stale generalizing changes with
  | nil => exact funext fun i => pending_concat data changes pos i image
  | cons row stale ih =>
      rw [List.cons_append, List.map_cons, ← List.singleton_append, ← List.append_assoc, ih,
        show pending ⟨data, changes ++ [(pos, row)]⟩ = Function.update _ pos row from
          funext fun i => pending_concat data changes pos i row, Function.update_idem]

/-- Committing the queue in order leaves the last image of every row. -/
theorem apply_data (m : RowMemory T SIZE DEPTH) : m.apply.data = m.pending := by
  obtain ⟨data, changes⟩ := m
  induction changes using List.reverseRecOn with
  | nil => rfl
  | append_singleton changes entry ih =>
      have hconcat : pending ⟨data, changes ++ [entry]⟩ =
          Function.update (pending ⟨data, changes⟩) entry.1 entry.2 :=
        funext fun i => pending_concat data changes entry.1 i entry.2
      rw [hconcat, ← ih]
      exact List.foldl_concat ..

/-! ## Steps and runs -/

structure Shows (m : RowMemory T SIZE DEPTH) (s : Nonblocking T SIZE DEPTH) : Prop where
  read : m.read = s.committed
  pending : m.pending = s.latest

theorem pending_assign (m : RowMemory T SIZE DEPTH) (pos : Fin DEPTH) (content : Row T SIZE)
    (w : RowWrite T SIZE) :
    (m.assign E pos content w).pending = Function.update m.pending pos (w.value E content) := by
  obtain ⟨stale, hstale⟩ := images_eq (E := E) content w
  unfold assign
  rw [hstale]
  exact pending_images m.data m.changes pos stale _

theorem Shows.step (h : m.Shows s) (op : RowStep T SIZE DEPTH) :
    (m.step E op).Shows (s.step E op) := by
  cases op with
  | assign pos content w =>
      exact ⟨h.read, (pending_assign m pos content w).trans (by rw [h.pending]; rfl)⟩
  | merge pos edit =>
      refine ⟨h.read, (pending_assign m pos _ _).trans ?_⟩
      rw [h.pending]
      rfl
  | apply =>
      have hdata := (apply_data m).trans h.pending
      exact ⟨hdata, (funext fun i => pending_nil _ i).trans hdata⟩
  | restore rows => exact ⟨rfl, rfl⟩

theorem Shows.run (h : m.Shows s) (steps : List (RowStep T SIZE DEPTH)) :
    (m.run E steps).Shows (s.run E steps) := by
  induction steps generalizing m s with
  | nil => exact h
  | cons op steps ih => exact ih (h.step op)

end RowMemory

namespace Nonblocking

variable {T : Type} {E : RowElement T} {SIZE DEPTH : Nat}

theorem committed_run (s : Nonblocking T SIZE DEPTH) {steps : List (RowStep T SIZE DEPTH)}
    (h : ∀ op ∈ steps, op.Defers) : (s.run E steps).committed = s.committed := by
  induction steps generalizing s with
  | nil => rfl
  | cons op steps ih =>
      refine (ih (s.step E op) fun o ho => h o (List.mem_cons_of_mem _ ho)).trans ?_
      cases op with
      | assign | merge => rfl
      | apply => exact (h _ List.mem_cons_self).elim
      | restore => exact (h _ List.mem_cons_self).elim

theorem latest_run (s : Nonblocking T SIZE DEPTH) {steps : List (RowStep T SIZE DEPTH)}
    {i : Fin DEPTH} (h : ∀ op ∈ steps, op.Spares i) : (s.run E steps).latest i = s.latest i := by
  induction steps generalizing s with
  | nil => rfl
  | cons op steps ih =>
      refine (ih (s.step E op) fun o ho => h o (List.mem_cons_of_mem _ ho)).trans ?_
      have hop := h op List.mem_cons_self
      cases op with
      | assign | merge => exact Function.update_of_ne (Ne.symm hop) _ _
      | apply => exact hop.elim
      | restore => exact hop.elim

end Nonblocking

namespace RowMemory

variable {T : Type} (E : RowElement T) {SIZE DEPTH : Nat}

/-- From rows with nothing queued, whatever is done to them: they show what was
committed last, `pending` what was queued last, and `apply` commits that. Until then
no read changes, and a row nobody writes stays. -/
theorem deferred_writes (rows : Fin DEPTH → Row T SIZE) (steps : List (RowStep T SIZE DEPTH)) :
    let m := run E ⟨rows, []⟩ steps
    let s := Nonblocking.run E ⟨rows, rows⟩ steps
    (∀ i, m.read i = s.committed i ∧ m.pending i = s.latest i) ∧
      (∀ i, m.apply.read i = s.latest i ∧ m.apply.pending i = s.latest i) ∧
      (∀ since : List (RowStep T SIZE DEPTH), (∀ op ∈ since, op.Defers) →
        ∀ i, (m.run E since).read i = m.read i) ∧
      ∀ (since : List (RowStep T SIZE DEPTH)) (i : Fin DEPTH), (∀ op ∈ since, op.Spares i) →
        (m.run E since).pending i = m.pending i ∧
          (m.run E since).apply.read i = m.pending i := by
  intro m s
  have hshows : m.Shows s := Shows.run ⟨rfl, rfl⟩ steps
  have happly : m.apply.Shows (s.step E .apply) := hshows.step (E := E) .apply
  refine ⟨fun i => ⟨congrFun hshows.read i, congrFun hshows.pending i⟩,
    fun i => ⟨congrFun happly.read i, congrFun happly.pending i⟩, fun since hdefers i => ?_,
    fun since i hspares => ?_⟩
  · rw [(hshows.run since).read, Nonblocking.committed_run s hdefers, hshows.read]
  · have hpending : (m.run E since).pending i = m.pending i := by
      rw [(hshows.run since).pending, Nonblocking.latest_run s hspares, hshows.pending]
    exact ⟨hpending, (congrFun (apply_data _) i).trans hpending⟩

/-- Two partial writes and a compound one to the same row are committed together. -/
example :
    let E := RowElement.vector 2
    let fill (x : Nat) : Row (Logic (2 * 8)) 1 := fun _ => ofNat _ x
    let m := run E (⟨fun _ => fill 0, []⟩ : RowMemory (Logic (2 * 8)) 1 2)
      [.merge 1 fun row i => (row i).or (ofNat _ 0x12), .merge 1 fun row i => (row i).or (ofNat _ 0x3400),
        .assign 1 (fill 0x3412) (.or (fill 0x8000))]
    (m.read 1 0).toNat = 0 ∧ (m.apply.read 1 0).toNat = 0xB412 := by decide +kernel

end RowMemory

end CppHdl.Basic
