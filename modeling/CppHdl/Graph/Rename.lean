import Mathlib.Data.List.ReduceOption
import CppHdl.Graph.Cycle

/-!
# One clock under renamed bits

Passes that move a graph into another one rename its bits and, for linking,
its memories. What a record reads and commits is then the same under the
renaming, and what is not renamed stays as it was. The lemmas are stated for a
renaming that is only used on the bits a record mentions, so that the identity
covers plain congruence.
-/

namespace CppHdl

section

variable {κ : Nat → Nat} {f h : Nat → Option Bool}

theorem mapM_rename {v : Value} (hv : ∀ b ∈ v, f (κ b) = h b) :
    (v.map κ).mapM f = v.mapM h := by
  rw [List.mapM_map]
  exact mapM_congr hv

theorem flag_rename {v : Value} (hv : ∀ b ∈ v, f (κ b) = h b) :
    flag f (v.map κ) = flag h v := by
  unfold flag
  rw [mapM_rename hv]

/-! ## Records -/

/-- Bits an executor reads from a node besides those its lanes depend on. -/
def Node.effectOperands (n : Node) : List Nat :=
  if n.hostEffect then n.right ++ n.select else if n.validation then n.left else []

def MemoryAccess.operands (a : MemoryAccess) : List Nat := a.address ++ a.enabled

def MemoryWrite.operands (w : MemoryWrite) : List Nat := w.address ++ w.data ++ w.enabled

def State.operands (s : State) : List Nat := s.next ++ s.trigger ++ s.reset ++ s.resetValue

def State.rename (κ : Nat → Nat) (s : State) : State :=
  { s with
    bits := s.bits.map κ
    next := s.next.map κ
    trigger := s.trigger.map κ
    reset := s.reset.map κ
    resetValue := s.resetValue.map κ }

def MemoryAccess.rename (κ μ : Nat → Nat) (a : MemoryAccess) : MemoryAccess :=
  { a with memory := μ a.memory, address := a.address.map κ, enabled := a.enabled.map κ }

def MemoryWrite.rename (κ μ : Nat → Nat) (w : MemoryWrite) : MemoryWrite :=
  { w with
    memory := μ w.memory
    address := w.address.map κ
    data := w.data.map κ
    enabled := w.enabled.map κ }

theorem Node.effectOperands_subset {n : Node} {b : Nat} (h : b ∈ n.effectOperands) :
    b ∈ n.operands := by
  unfold Node.effectOperands at h
  unfold Node.operands
  split_ifs at h <;> simp_all

theorem Node.call_rename {n m : Node} (heffect : m.hostEffect = n.hostEffect)
    (hm : n.hostEffect = true → m.op = n.op ∧ m.right = n.right.map κ ∧ m.select = n.select.map κ)
    (hv : ∀ b ∈ n.effectOperands, f (κ b) = h b) : m.call f = n.call h := by
  unfold Node.call
  rw [heffect]
  by_cases hn : n.hostEffect = true
  · obtain ⟨hop, hright, hselect⟩ := hm hn
    simp only [Node.effectOperands, hn, if_true, List.mem_append] at hv
    rw [hop, hright, hselect, mapM_rename fun b hb => hv b (.inl hb),
      flag_rename fun b hb => hv b (.inr hb)]
  · simp only [hn, Bool.false_eq_true, if_false]

theorem Node.failure_rename {n m : Node} (hvalidation : m.validation = n.validation)
    (hm : n.validation = true → m.name = n.name ∧ m.left = n.left.map κ)
    (hv : ∀ b ∈ n.effectOperands, f (κ b) = h b) : m.failure f = n.failure h := by
  unfold Node.failure
  rw [hvalidation]
  by_cases hn : n.validation = true
  · obtain ⟨hname, hleft⟩ := hm hn
    have heffect : n.hostEffect = false := by
      have hop : n.op = .assertFailure := by
        simpa [Node.validation, Op.validation] using hn
      rw [Node.hostEffect, hop]
      rfl
    simp only [Node.effectOperands, heffect, hn, Bool.false_eq_true, if_false, if_true] at hv
    rw [hname, hleft, flag_rename hv]
  · simp only [hn, Bool.false_eq_true, if_false]

variable {μ : Nat → Nat} {E : Edges}

theorem State.update_rename {s : State} (hv : ∀ b ∈ s.operands, f (κ b) = h b) :
    (s.rename κ).update f E = s.update h E := by
  simp only [State.operands, List.mem_append] at hv
  unfold State.update
  rw [State.rename, mapM_rename fun b hb => hv b (.inl (.inl (.inl hb))),
    flag_rename fun b hb => hv b (.inl (.inl (.inr hb))),
    flag_rename fun b hb => hv b (.inl (.inr hb)), mapM_rename fun b hb => hv b (.inr hb)]

theorem MemoryWrite.update_rename {w : MemoryWrite} (hv : ∀ b ∈ w.operands, f (κ b) = h b) :
    (w.rename κ μ).update f E = w.update h E := by
  simp only [MemoryWrite.operands, List.mem_append] at hv
  unfold MemoryWrite.update
  rw [MemoryWrite.rename, mapM_rename fun b hb => hv b (.inl (.inl hb)),
    mapM_rename fun b hb => hv b (.inl (.inr hb)), flag_rename fun b hb => hv b (.inr hb)]

/-- Memories that correspond under a renaming have the same depth. -/
theorem pastDepth_rename {memories memories' : List Memory} {index : Nat}
    (hmemory : memories'[μ index]?.map Memory.depth = memories[index]?.map Memory.depth)
    (row : Nat) : pastDepth memories' (μ index) row = pastDepth memories index row := by
  have key : ∀ o : Option Memory, (o.map fun m => decide (m.depth ≤ row)) =
      (o.map Memory.depth).map fun depth => decide (depth ≤ row) := by
    intro o
    rw [Option.map_map]
    rfl
  unfold pastDepth
  rw [key, key, hmemory]

theorem MemoryAccess.exceeds_rename {memories memories' : List Memory} {a : MemoryAccess}
    (hmemory : memories'[μ a.memory]?.map Memory.depth = memories[a.memory]?.map Memory.depth)
    (hv : ∀ b ∈ a.operands, f (κ b) = h b) :
    (a.rename κ μ).exceeds f E memories' = a.exceeds h E memories := by
  simp only [MemoryAccess.operands, List.mem_append] at hv
  unfold MemoryAccess.exceeds
  rw [MemoryAccess.rename, mapM_rename fun b hb => hv b (.inl hb),
    flag_rename fun b hb => hv b (.inr hb)]
  simp only [pastDepth_rename hmemory]

theorem MemoryWrite.exceeds_rename {memories memories' : List Memory} {w : MemoryWrite}
    (hmemory : memories'[μ w.memory]?.map Memory.depth = memories[w.memory]?.map Memory.depth)
    (hv : ∀ b ∈ w.operands, f (κ b) = h b) :
    (w.rename κ μ).exceeds f E memories' = w.exceeds h E memories := by
  unfold MemoryWrite.exceeds
  rw [w.update_rename hv, MemoryWrite.rename]
  simp only [pastDepth_rename hmemory]

end

/-! ## Nodes -/

section

variable {κ : Nat → Nat} {f h : Nat → Option Bool}

/-- One word of the memory a memory read names. -/
def readAt (memories : List Memory) (env : Env) (r l s : List Bool) : Option Nat :=
  memories[natOfBits r]?.map fun m => m.readWord env (natOfBits r) (natOfBits l) (natOfBits s)

theorem Node.wordValue_memoryRead (P : Primitives) (memories : List Memory) (env : Env) {n : Node}
    (hop : n.op = .memoryRead) (l r s : List Bool) :
    n.wordValue P memories env l r s = readAt memories env r l s := by
  unfold Node.wordValue readAt
  rw [hop]
  cases memories[natOfBits r]? <;> rfl

theorem Node.wordValue_congr (P : Primitives) (memories memories' : List Memory) (env env' : Env)
    {n m : Node} (hop : m.op = n.op) (hwidth : m.width = n.width) (hname : m.name = n.name)
    (hread : n.op ≠ .memoryRead) (l r s : List Bool) :
    m.wordValue P memories' env' l r s = n.wordValue P memories env l r s := by
  unfold Node.wordValue
  rw [hop, hwidth, hname]
  cases hn : n.op
  case memoryRead => exact absurd hn hread
  all_goals rfl

theorem Node.laneValue_memoryRead (P : Primitives) (memories : List Memory) (env : Env) {n : Node}
    (hop : n.op = .memoryRead) (look : Nat → Option Bool) (i : Nat) :
    n.laneValue P memories env look i = (do
      let l ← n.left.mapM look
      let r ← n.right.mapM look
      let s ← n.select.mapM look
      (readAt memories env r l s).map (·.testBit i)) := by
  unfold Node.laneValue
  simp only [n.wordValue_memoryRead P memories env hop, hop]

theorem bind_getElem?_rename {v : Value} (hv : ∀ b ∈ v, f (κ b) = h b) (i : Nat) :
    (v.map κ)[i]?.bind f = v[i]?.bind h := by
  rw [List.getElem?_map]
  cases hi : v[i]? with
  | none => rfl
  | some b => exact hv b (List.mem_of_getElem? hi)

/-- A node under renamed operands computes the same lanes. A memory read may
name its memory differently, so what it reads is a premise. -/
theorem Node.laneValue_rename (P : Primitives) {memories memories' : List Memory} {env env' : Env}
    {n m : Node} (hop : m.op = n.op) (hwidth : m.width = n.width) (hname : m.name = n.name)
    (hleft : m.left = n.left.map κ) (hselect : m.select = n.select.map κ)
    (hright : n.op ≠ .memoryRead → m.right = n.right.map κ)
    (hread : n.op = .memoryRead → Option.Rel
      (fun r' r => ∀ l s, readAt memories' env' r' l s = readAt memories env r l s)
      (m.right.mapM f) (n.right.mapM h))
    (hv : ∀ b ∈ n.operands, f (κ b) = h b) (i : Nat) :
    m.laneValue P memories' env' f i = n.laneValue P memories env h i := by
  simp only [Node.operands, List.mem_append] at hv
  have hl : ∀ b ∈ n.left, f (κ b) = h b := fun b hb => hv b (.inl (.inl hb))
  have hr : ∀ b ∈ n.right, f (κ b) = h b := fun b hb => hv b (.inl (.inr hb))
  have hs : ∀ b ∈ n.select, f (κ b) = h b := fun b hb => hv b (.inr hb)
  by_cases hmem : n.op = .memoryRead
  · rw [Node.laneValue_memoryRead P _ _ (hop.trans hmem), Node.laneValue_memoryRead P _ _ hmem,
      hleft, hselect, mapM_rename hl, mapM_rename hs]
    cases n.left.mapM h <;> [rfl; skip]
    have hrel := hread hmem
    generalize m.right.mapM f = r' at hrel ⊢
    generalize n.right.mapM h = r at hrel ⊢
    cases hrel with
    | none => simp only [Option.bind_eq_bind, Option.bind_none]
    | some hsame =>
        simp only [Option.bind_eq_bind, Option.bind_some, hsame]
  · have hword := Node.wordValue_congr P memories memories' env env' hop hwidth hname hmem
    have hhead : (n.select.map κ).head?.bind f = n.select.head?.bind h := by
      rw [List.head?_eq_getElem?, List.head?_eq_getElem?]
      exact bind_getElem?_rename hs 0
    unfold Node.laneValue
    simp only [hword]
    rw [hop, hleft, hselect, hright hmem, mapM_rename hl, mapM_rename hr, mapM_rename hs, hhead,
      bind_getElem?_rename hl, bind_getElem?_rename hr]

/-- Lanes that the environment supplies, and lanes that are computed. -/
theorem Node.bitValue_rename (P : Primitives) {memories memories' : List Memory} {env env' : Env}
    {n m : Node} {b b' : Nat} (hop : m.op = n.op) (hlane : lane b' = lane b)
    (hwire : n.op = .wire → env'.undriven b' = env.undriven b)
    (hprojection : n.op = .hostDebugOutput →
      env'.projection m.left m.select (lane b) = env.projection n.left n.select (lane b))
    (hleaf : n.op.isLeaf = true → env'.leaf b' = env.leaf b)
    (hvalue : m.laneValue P memories' env' f (lane b) = n.laneValue P memories env h (lane b)) :
    m.bitValue P memories' env' f b' = n.bitValue P memories env h b := by
  unfold Node.bitValue
  rw [hop, hlane]
  split
  · exact hwire ‹_›
  · rfl
  · exact hprojection ‹_›
  · split
    · rw [hleaf ‹_›]
    · exact hvalue

end

/-! ## Lists of records -/

section

variable {α β γ : Type}

theorem events_congr {e e' : α → Option (Option β)} {l : List α}
    (h : ∀ a ∈ l, e a = e' a) : events e l = events e' l := by
  unfold events
  rw [mapM_congr h]

theorem events_map {e : γ → Option (Option β)} {e' : α → Option (Option β)} {m : α → γ}
    {l : List α} (h : ∀ a ∈ l, e (m a) = e' a) : events e (l.map m) = events e' l := by
  unfold events
  rw [List.mapM_map]
  exact congrArg _ (mapM_congr h)

theorem events_forall₂ {e : γ → Option (Option β)} {e' : α → Option (Option β)} {l : List α}
    {m : List γ} (h : List.Forall₂ (fun a c => e c = e' a) l m) : events e m = events e' l := by
  have key : m.mapM e = l.mapM e' := by
    induction h with
    | nil => rfl
    | cons hac _ ih => rw [List.mapM_cons, List.mapM_cons, hac, ih]
  unfold events
  rw [key]

theorem events_comp {e : α → Option (Option β)} (φ : β → γ) (l : List α) :
    events (fun a => (e a).map (Option.map φ)) l = (events e l).map (List.map φ) := by
  have key : l.mapM (fun a => (e a).map (Option.map φ)) =
      (l.mapM e).map (List.map (Option.map φ)) := by
    induction l with
    | nil => rfl
    | cons a l ih =>
        rw [List.mapM_cons, List.mapM_cons, ih]
        cases e a with
        | none => rfl
        | some o => cases l.mapM e <;> rfl
  unfold events
  rw [key, Option.map_map, Option.map_map]
  congr 1
  funext l
  exact List.reduceOption_map

theorem events_append {e : α → Option (Option β)} {l l' : List α} :
    events e (l ++ l') = (do
      let xs ← events e l
      let ys ← events e l'
      pure (xs ++ ys)) := by
  unfold events
  rw [List.mapM_append]
  cases l.mapM e with
  | none => rfl
  | some xs =>
      cases l'.mapM e with
      | none => rfl
      | some ys => simp [List.reduceOption_append]

/-- Faults of two lists of records, the second of them with renamed memories. -/
theorem events_faults {exceeds' exceeds₁ exceeds₂ : α → Option Bool} (memory : α → Nat)
    {rename : α → α} {l₁ l₂ : List α} (d : Nat) (h₁ : ∀ a ∈ l₁, exceeds' a = exceeds₁ a)
    (h₂ : ∀ a ∈ l₂, exceeds' (rename a) = exceeds₂ a)
    (hmemory : ∀ a, memory (rename a) = memory a + d) :
    events (fun a => (exceeds' a).map fun e => if e then some (memory a) else none)
      (l₁ ++ l₂.map rename) = (do
      let xs ← events (fun a => (exceeds₁ a).map fun e => if e then some (memory a) else none) l₁
      let ys ← events (fun a => (exceeds₂ a).map fun e => if e then some (memory a) else none) l₂
      pure (xs ++ ys.map (· + d))) := by
  have hright : events (fun a => (exceeds' a).map fun e => if e then some (memory a) else none)
      (l₂.map rename) = (events
        (fun a => (exceeds₂ a).map fun e => if e then some (memory a) else none) l₂).map
          (List.map (· + d)) := by
    rw [← events_comp]
    refine events_map fun a ha => ?_
    rw [h₂ a ha, hmemory]
    cases exceeds₂ a with
    | none => rfl
    | some e => cases e <;> rfl
  rw [events_append, hright, events_congr fun a ha => by rw [h₁ a ha]]
  cases events (fun a => (exceeds₁ a).map fun e => if e then some (memory a) else none) l₁ with
  | none => rfl
  | some xs =>
      cases events (fun a => (exceeds₂ a).map fun e => if e then some (memory a) else none) l₂ <;>
        rfl

end

/-! ## Committing -/

section

variable {κ μ : Nat → Nat} {f h : Nat → Option Bool} {E : Edges}

/-- The registers `D` of one graph are stored under their new names in another,
which keeps everything else. -/
def StoredUnder (κ : Nat → Nat) (D : Nat → Prop) (before register : Nat → Bool)
    (original : Nat → Bool) : Prop :=
  (∀ b, D b → register (κ b) = original b) ∧
    ∀ c, (∀ b, D b → κ b ≠ c) → register c = before c

/-- The memories `M` of one graph are kept under their new numbers in another,
which keeps everything else. -/
def KeptUnder (μ : Nat → Nat) (M : Nat → Prop) (before rows original : Rows) : Prop :=
  (∀ k, M k → rows (μ k) = original k) ∧ ∀ c, (∀ k, M k → μ k ≠ c) → rows c = before c

variable {D M : Nat → Prop} {before r r' : Nat → Bool} {beforeRows q q' : Rows}

theorem storeBits_rename (hκ : ∀ a b, D a → D b → κ a = κ b → a = b) {bits : Value}
    (hbits : ∀ b ∈ bits, D b) (value : List Bool) (hr : StoredUnder κ D before r' r) :
    StoredUnder κ D before (storeBits (bits.map κ) value r') (storeBits bits value r) := by
  unfold storeBits
  rw [List.zipIdx_map, List.foldl_map]
  have hmem : ∀ p ∈ bits.zipIdx, D p.1 := fun p hp => hbits p.1 (List.fst_mem_of_mem_zipIdx hp)
  generalize bits.zipIdx = pairs at hmem
  induction pairs generalizing r r' with
  | nil => exact hr
  | cons p pairs ih =>
      rw [List.foldl_cons, List.foldl_cons]
      have hp := hmem p List.mem_cons_self
      refine ih ⟨fun b hb => ?_, fun c hc => ?_⟩ fun q hq => hmem q (List.mem_cons_of_mem _ hq)
      · simp only [Prod.map_fst, Prod.map_snd, id]
        by_cases hbp : b = p.1
        · rw [hbp, Function.update_self, Function.update_self]
        · rw [Function.update_of_ne hbp, Function.update_of_ne fun h => hbp (hκ b p.1 hb hp h)]
          exact hr.1 b hb
      · simp only [Prod.map_fst, Prod.map_snd, id]
        rw [Function.update_of_ne fun h => hc p.1 hp h.symm]
        exact hr.2 c hc

theorem storeRow_rename (hμ : ∀ a b, M a → M b → μ a = μ b → a = b) {index : Nat}
    (hindex : M index) {memories memories' : List Memory}
    (hmemory : memories'[μ index]?.map Memory.depth = memories[index]?.map Memory.depth)
    (row : Nat) (data : List Bool) (hq : KeptUnder μ M beforeRows q' q) :
    KeptUnder μ M beforeRows (storeRow memories' (μ index) row data q')
      (storeRow memories index row data q) := by
  unfold storeRow
  cases hm : memories[index]? with
  | none =>
      rw [hm, Option.map_none, Option.map_eq_none_iff] at hmemory
      rw [hmemory]
      exact hq
  | some m =>
      rw [hm, Option.map_some, Option.map_eq_some_iff] at hmemory
      obtain ⟨m', hm', hdepth⟩ := hmemory
      rw [hm']
      simp only [hdepth]
      split
      · refine ⟨fun k hk => ?_, fun c hc => ?_⟩
        · funext i b
          have hiff : μ k = μ index ↔ k = index := ⟨hμ k index hk hindex, fun h => by rw [h]⟩
          simp only [hiff, hq.1 k hk]
        · funext i b
          have hne : ¬ (c = μ index ∧ i = row) := fun h => hc index hindex h.1.symm
          simp only [hne, if_false, hq.2 c hc]
      · exact hq

theorem commitState_rename (hκ : ∀ a b, D a → D b → κ a = κ b → a = b) {s : State}
    (hbits : ∀ b ∈ s.bits, D b) (hv : ∀ b ∈ s.operands, f (κ b) = h b)
    (hr : StoredUnder κ D before r' r) :
    Option.Rel (StoredUnder κ D before) (commitState f E r' (s.rename κ))
      (commitState h E r s) := by
  unfold commitState
  rw [State.update_rename hv]
  cases s.update h E with
  | none => exact .none
  | some u =>
      cases u with
      | none => exact .some hr
      | some value => exact .some (storeBits_rename hκ hbits value hr)

theorem commitWrite_rename (hμ : ∀ a b, M a → M b → μ a = μ b → a = b) {w : MemoryWrite}
    (hindex : M w.memory) {memories memories' : List Memory}
    (hmemory : memories'[μ w.memory]?.map Memory.depth = memories[w.memory]?.map Memory.depth)
    (hv : ∀ b ∈ w.operands, f (κ b) = h b) (hq : KeptUnder μ M beforeRows q' q) :
    Option.Rel (KeptUnder μ M beforeRows) (commitWrite f E memories' q' (w.rename κ μ))
      (commitWrite h E memories q w) := by
  unfold commitWrite
  rw [MemoryWrite.update_rename hv]
  cases w.update h E with
  | none => exact .none
  | some u =>
      cases u with
      | none => exact .some hq
      | some p => exact .some (storeRow_rename hμ hindex hmemory p.1 p.2 hq)

theorem State.rename_id (s : State) : s.rename id = s := by
  unfold State.rename
  simp

theorem MemoryWrite.rename_id (w : MemoryWrite) : w.rename id id = w := by
  unfold MemoryWrite.rename
  simp

theorem commitStates_rename (before : Nat → Bool) (hκ : ∀ a b, D a → D b → κ a = κ b → a = b) {states : List State}
    (hbits : ∀ s ∈ states, ∀ b ∈ s.bits, D b) (hv : ∀ s ∈ states, ∀ b ∈ s.operands, f (κ b) = h b)
    (hr : StoredUnder κ D before r' r) :
    Option.Rel (StoredUnder κ D before) ((states.map (State.rename κ)).foldlM (commitState f E) r')
      (states.foldlM (commitState h E) r) :=
  rel_foldlM (State.rename κ)
    (fun s hs _ _ hR => commitState_rename hκ (hbits s hs) (hv s hs) hR) hr

theorem commitWrites_rename (beforeRows : Rows) (hμ : ∀ a b, M a → M b → μ a = μ b → a = b)
    {writes : List MemoryWrite} {memories memories' : List Memory}
    (hindex : ∀ w ∈ writes, M w.memory)
    (hmemory : ∀ w ∈ writes,
      memories'[μ w.memory]?.map Memory.depth = memories[w.memory]?.map Memory.depth)
    (hv : ∀ w ∈ writes, ∀ b ∈ w.operands, f (κ b) = h b) (hq : KeptUnder μ M beforeRows q' q) :
    Option.Rel (KeptUnder μ M beforeRows)
      ((writes.map (MemoryWrite.rename κ μ)).foldlM (commitWrite f E memories') q')
      (writes.foldlM (commitWrite h E memories) q) :=
  rel_foldlM (MemoryWrite.rename κ μ)
    (fun w hw _ _ hR =>
      commitWrite_rename hμ (hindex w hw) (hmemory w hw) (hv w hw) hR) hq

end

/-! ## Graphs that refer to nothing outside themselves -/

namespace Graph

/-- The bits of a graph: the constants and the lanes of its nodes. -/
def Owns (g : Graph) (b : Nat) : Prop := b < 2 ∨ (66 ≤ b ∧ b < g.bound)

/-- Every reference is to a bit or a memory of the graph, a memory read names
its memory by a constant, and a projection names a host call. -/
structure SelfContained (g : Graph) : Prop where
  operands : ∀ {i : Nat} {n : Node}, g.nodes[i]? = some n → ∀ b ∈ n.operands, g.Owns b
  reads : ∀ {i : Nat} {n : Node}, g.nodes[i]? = some n → n.op = .memoryRead →
    ∃ k, number n.right = some k ∧ k < g.memories.length
  projections : ∀ {i : Nat} {n : Node}, g.nodes[i]? = some n → n.op = .hostDebugOutput →
    ∃ b rest, n.left = b :: rest ∧ 66 ≤ b
  aliases : ∀ {b s : Nat}, g.aliases[b]? = some s → 66 ≤ b ∧ b < g.bound ∧ g.Owns s
  ports : ∀ p ∈ g.ports, ∀ b ∈ p.bits, g.Owns b
  registers : ∀ s ∈ g.states, ∀ b ∈ s.bits, 66 ≤ b ∧ b < g.bound
  states : ∀ s ∈ g.states, ∀ b ∈ s.operands, g.Owns b
  accesses : ∀ a ∈ g.memoryAccesses, a.memory < g.memories.length ∧ ∀ b ∈ a.operands, g.Owns b
  writes : ∀ w ∈ g.memoryWrites, w.memory < g.memories.length ∧ ∀ b ∈ w.operands, g.Owns b

instance (g : Graph) (b : Nat) : Decidable (g.Owns b) :=
  inferInstanceAs (Decidable (b < 2 ∨ (66 ≤ b ∧ b < g.bound)))

def selfContained (g : Graph) : Bool :=
  g.nodes.toList.all (fun n =>
    n.operands.all (g.Owns ·) &&
    (n.op != .memoryRead || match number n.right with
      | some k => decide (k < g.memories.length)
      | none => false) &&
    (n.op != .hostDebugOutput || decide (66 ≤ n.left.headD 0))) &&
  g.aliases.toList.all (fun p => 66 ≤ p.1 ∧ p.1 < g.bound ∧ g.Owns p.2) &&
  g.ports.all (fun p => p.bits.all (g.Owns ·)) &&
  g.states.all (fun s => s.bits.all (fun b => 66 ≤ b ∧ b < g.bound) && s.operands.all (g.Owns ·)) &&
  g.memoryAccesses.all (fun a => a.memory < g.memories.length && a.operands.all (g.Owns ·)) &&
  g.memoryWrites.all (fun w => w.memory < g.memories.length && w.operands.all (g.Owns ·))

theorem SelfContained.of_check {g : Graph} (h : g.selfContained = true) : g.SelfContained := by
  simp only [selfContained, Bool.and_eq_true, List.all_eq_true, decide_eq_true_eq,
    Bool.or_eq_true, bne_iff_ne] at h
  obtain ⟨⟨⟨⟨⟨hnodes, haliases⟩, hports⟩, hstates⟩, haccesses⟩, hwrites⟩ := h
  have hmem : ∀ {i : Nat} {n : Node}, g.nodes[i]? = some n → n ∈ g.nodes.toList := by
    intro i n hn
    rw [← Array.getElem?_toList] at hn
    exact List.mem_of_getElem? hn
  refine ⟨fun hn => (hnodes _ (hmem hn)).1.1, fun hn hop => ?_, fun hn hop => ?_,
    fun {b s} hs => haliases (b, s) (Std.ExtTreeMap.mem_toList_iff_getElem?_eq_some.mpr hs), hports,
    fun s hs => (hstates s hs).1, fun s hs => (hstates s hs).2, haccesses, hwrites⟩
  · have hread := (hnodes _ (hmem hn)).1.2.resolve_left fun hne => hne hop
    split at hread
    · rename_i k hk
      exact ⟨k, hk, by simpa using hread⟩
    · cases hread
  · have hleft := (hnodes _ (hmem hn)).2.resolve_left fun hne => hne hop
    rename_i n
    cases hl : n.left with
    | nil => simp [hl] at hleft
    | cons b rest => exact ⟨b, rest, rfl, by simpa [hl] using hleft⟩

end Graph

end CppHdl
