import Mathlib.Data.Fintype.Card
import Mathlib.Data.Nat.Bitwise
import CppHdl.Lib.Transition

/-!
# Sets of pending events

`PendingEvents` is a bitmap of events with an index of its nonzero words:
`touched_` lists them, so that draining does not scan the bitmap. A word is
listed when its first bit is set, and it is cleared when it is visited.

There is a family of such sets. A visitor may mark events in other sets while one
is drained (`mergeFrom` does), but not in the set that is drained.
-/

namespace CppHdl.Native

structure PendingEvents (Words : Nat) where
  words : Fin Words → UInt64
  touched : Fin Words → UInt32
  size : Nat

namespace PendingEvents

variable {Words : Nat}

def fresh (Words : Nat) : PendingEvents Words := ⟨fun _ => 0, fun _ => 0, 0⟩

/-- `touched_[size_++] = uint32_t(word)`; none past the end of the array. -/
def touch (p : PendingEvents Words) (word : Fin Words) : Option (PendingEvents Words) :=
  if h : p.size < Words then
    some { p with
      touched := Function.update p.touched ⟨p.size, h⟩ (UInt32.ofNat word)
      size := p.size + 1 }
  else none

def addWord (p : PendingEvents Words) (word : Fin Words) (bits : UInt64) :
    Option (PendingEvents Words) :=
  if bits = 0 then some p
  else
    (if p.words word = 0 then p.touch word else some p).map fun p =>
      { p with words := Function.update p.words word (p.words word ||| bits) }

def set (p : PendingEvents Words) (bit : Fin (64 * Words)) : Option (PendingEvents Words) :=
  p.addWord ⟨bit / 64, Nat.div_lt_of_lt_mul bit.isLt⟩ (1 <<< UInt64.ofNat (bit % 64))

/-- `touched_[i]` as an index of `words_`; none past the end of an array. -/
def entry (p : PendingEvents Words) (i : Nat) : Option (Fin Words) :=
  if hi : i < Words then
    if hword : (p.touched ⟨i, hi⟩).toNat < Words then some ⟨_, hword⟩ else none
  else none

end PendingEvents

/-- Bits a visitor marks in a set. -/
structure Mark (ι : Type) (Words : Nat) where
  target : ι
  word : Fin Words
  bits : UInt64

/-- What the visitor of a drain is shown: a word and its bits. -/
abbrev Visit (Words : Nat) := Fin Words × UInt64

section

variable {ι : Type} [DecidableEq ι] {Words : Nat}

abbrev EventSets (ι : Type) (Words : Nat) := ι → PendingEvents Words

def markAll (s : EventSets ι Words) : List (Mark ι Words) → Option (EventSets ι Words)
  | [] => some s
  | m :: marks =>
      ((s m.target).addWord m.word m.bits).bind fun p =>
        markAll (Function.update s m.target p) marks

/-- The loop of `drain` at `i`; it reads `size_` again each time round. -/
def drainLoop (x : ι) (visit : Visit Words → List (Mark ι Words)) :
    Nat → Nat → EventSets ι Words → Option (List (Visit Words) × EventSets ι Words)
  | 0, _, _ => none
  | fuel + 1, i, s =>
      if i < (s x).size then
        ((s x).entry i).bind fun word =>
          let shown : Visit Words := (word, (s x).words word)
          let cleared := Function.update s x
            { s x with words := Function.update (s x).words word 0 }
          (markAll cleared (visit shown)).bind fun s =>
            (drainLoop x visit fuel (i + 1) s).map fun r => (shown :: r.1, r.2)
      else some ([], Function.update s x { s x with size := 0 })

def drain (x : ι) (visit : Visit Words → List (Mark ι Words)) (s : EventSets ι Words) :
    Option (List (Visit Words) × EventSets ι Words) :=
  drainLoop x visit ((s x).size + 1) 0 s

/-- `this == &other` is checked first. -/
def mergeFrom (x y : ι) (s : EventSets ι Words) : Option (EventSets ι Words) :=
  if x = y then some s
  else (drain y (fun v => [⟨x, v.1, v.2⟩]) s).map Prod.snd

/-- The operations on a family of sets. -/
inductive EventOp (ι : Type) (Words : Nat)
  | addWord (x : ι) (word : Fin Words) (bits : UInt64)
  | set (x : ι) (bit : Fin (64 * Words))
  | drain (x : ι) (visit : Visit Words → List (Mark ι Words))
  | mergeFrom (x y : ι)

namespace EventOp

def run (s : EventSets ι Words) :
    EventOp ι Words → Option (List (Visit Words) × EventSets ι Words)
  | addWord x word bits =>
      ((s x).addWord word bits).map fun p => ([], Function.update s x p)
  | set x bit => ((s x).set bit).map fun p => ([], Function.update s x p)
  | drain x visit => Native.drain x visit s
  | mergeFrom x y => (Native.mergeFrom x y s).map fun s => ([], s)

/-- Visitors must not mutate the set while draining it. -/
def Permitted : EventOp ι Words → Prop
  | drain x visit => ∀ v, ∀ m ∈ visit v, m.target ≠ x
  | _ => True

end EventOp

/-- Sets that start empty, and any sequence of permitted operations on them. -/
def eventSystem (ι : Type) [DecidableEq ι] (Words : Nat) :
    Transitions (EventSets ι Words) (EventOp ι Words × List (Visit Words)) where
  init s := ∀ x, s x = .fresh Words
  step s e s' := ∃ op visits, e = some (op, visits) ∧ op.Permitted ∧ op.run s = some (visits, s')

end

/-! ## The index -/

def wordEvents {Words : Nat} (v : Visit Words) : List Nat :=
  ((List.range 64).filter fun k => v.2.toNat.testBit k).map (64 * v.1 + ·)

theorem mem_wordEvents {Words : Nat} {v : Visit Words} {e : Nat} :
    e ∈ wordEvents v ↔ e / 64 = v.1 ∧ v.2.toNat.testBit (e % 64) = true := by
  simp only [wordEvents, List.mem_map, List.mem_filter, List.mem_range]
  constructor
  · rintro ⟨k, ⟨hk, hbit⟩, rfl⟩
    rw [show (64 * (v.1 : Nat) + k) / 64 = v.1 by omega,
      show (64 * (v.1 : Nat) + k) % 64 = k by omega]
    exact ⟨rfl, hbit⟩
  · rintro ⟨hword, hbit⟩
    exact ⟨e % 64, ⟨Nat.mod_lt _ (by decide), hbit⟩, by omega⟩

theorem nodup_wordEvents {Words : Nat} (v : Visit Words) : (wordEvents v).Nodup :=
  (List.nodup_range.filter _).map fun _ _ h => Nat.add_left_cancel h

theorem wordEvents_zero {Words : Nat} {word : Fin Words} {e : Nat} :
    e ∉ wordEvents (word, 0) := fun he =>
  Bool.false_ne_true ((Nat.zero_testBit _).symm.trans (mem_wordEvents.mp he).2)

namespace PendingEvents

variable {Words : Nat} {p : PendingEvents Words} {ws : List (Fin Words)}

def Pending (p : PendingEvents Words) (e : Nat) : Prop :=
  ∃ word : Fin Words, e ∈ wordEvents (word, p.words word)

/-- The entries in use are `ws`. -/
structure Entries (p : PendingEvents Words) (ws : List (Fin Words)) : Prop where
  size : p.size = ws.length
  entry : ∀ i (h : i < ws.length), p.entry i = some ws[i]

/-- `touched_` lists the words that are not zero, each once. -/
structure Lists (p : PendingEvents Words) (ws : List (Fin Words)) : Prop extends Entries p ws where
  nodup : ws.Nodup
  mem : ∀ word, word ∈ ws ↔ p.words word ≠ 0

def Indexed (p : PendingEvents Words) : Prop := ∃ ws, p.Lists ws

theorem fresh_lists : (fresh Words).Lists [] :=
  ⟨⟨rfl, fun _ h => absurd h (Nat.not_lt_zero _)⟩, List.nodup_nil, fun _ => by simp [fresh]⟩

variable (hwords : Words < 2 ^ 32)

include hwords in
theorem Entries.touch (h : p.Entries ws) (word : Fin Words) (hroom : ws.length < Words) :
    ∃ q, p.touch word = some q ∧ q.words = p.words ∧ q.Entries (ws ++ [word]) := by
  have hsize : p.size < Words := h.size ▸ hroom
  refine ⟨_, dif_pos hsize, rfl, ⟨?_, fun i hi => ?_⟩⟩
  · simp [h.size]
  rw [List.length_append, List.length_singleton] at hi
  have hlt : i < Words := by omega
  by_cases hlast : i = ws.length
  · subst hlast
    have hval : (UInt32.ofNat (word : Nat)).toNat = word := by
      rw [UInt32.toNat_ofNat']
      exact Nat.mod_eq_of_lt (Nat.lt_trans word.isLt hwords)
    have hself : (⟨ws.length, hlt⟩ : Fin Words) = ⟨p.size, hsize⟩ := Fin.ext h.size.symm
    rw [List.getElem_concat_length rfl]
    unfold PendingEvents.entry
    simp only [dif_pos hlt, hself, Function.update_self, hval, dif_pos word.isLt]
  · have hold := h.entry i (by omega)
    rw [List.getElem_append_left (by omega), ← hold]
    have hne : (⟨i, hlt⟩ : Fin Words) ≠ ⟨p.size, hsize⟩ := fun heq =>
      hlast ((congrArg Fin.val heq).trans h.size)
    unfold PendingEvents.entry
    simp only [dif_pos hlt, Function.update_of_ne hne]

include hwords in
/-- `addWord` never leaves its arrays, keeps the index exact and adds the events
of the word. -/
theorem Lists.addWord (h : p.Lists ws) (word : Fin Words) (bits : UInt64) :
    ∃ q, p.addWord word bits = some q ∧ q.Indexed ∧
      ∀ e, q.Pending e ↔ p.Pending e ∨ e ∈ wordEvents (word, bits) := by
  by_cases hbits : bits = 0
  · subst hbits
    exact ⟨p, if_pos rfl, ⟨ws, h⟩, fun e => (or_iff_left wordEvents_zero).symm⟩
  -- what the word becomes decides which events are pending
  have hpending : ∀ (q : PendingEvents Words), q.words = p.words → ∀ e,
      PendingEvents.Pending
        { q with words := Function.update q.words word (q.words word ||| bits) } e ↔
        p.Pending e ∨ e ∈ wordEvents (word, bits) := by
    intro q hq e
    simp only [PendingEvents.Pending, hq, mem_wordEvents]
    constructor
    · rintro ⟨w, hword, hbit⟩
      by_cases hw : w = word
      · subst hw
        rw [Function.update_self, UInt64.toNat_or, Nat.testBit_lor, Bool.or_eq_true] at hbit
        exact hbit.imp (fun hb => ⟨w, hword, hb⟩) fun hb => ⟨hword, hb⟩
      · rw [Function.update_of_ne hw] at hbit
        exact .inl ⟨w, hword, hbit⟩
    · rintro (⟨w, hword, hbit⟩ | ⟨hword, hbit⟩)
      · refine ⟨w, hword, ?_⟩
        by_cases hw : w = word
        · subst hw
          rw [Function.update_self, UInt64.toNat_or, Nat.testBit_lor, hbit, Bool.true_or]
        · rwa [Function.update_of_ne hw]
      · refine ⟨word, hword, ?_⟩
        rw [Function.update_self, UInt64.toNat_or, Nat.testBit_lor, hbit, Bool.or_true]
  have hnonzero : ∀ (q : PendingEvents Words) w, q.words = p.words →
      (Function.update q.words word (q.words word ||| bits) w ≠ 0 ↔ w = word ∨ p.words w ≠ 0) := by
    intro q w hq
    by_cases hw : w = word
    · subst hw
      simp [hq, UInt64.or_eq_zero_iff, hbits]
    · simp [hq, hw]
  unfold PendingEvents.addWord
  rw [if_neg hbits]
  by_cases hzero : p.words word = 0
  · have hnew : word ∉ ws := fun hmem => (h.mem word).mp hmem hzero
    have hnodup : (ws ++ [word]).Nodup :=
      List.nodup_append.mpr ⟨h.nodup, List.nodup_singleton word, fun w hw w' hw' heq => by
        rw [List.mem_singleton.mp hw'] at heq
        exact hnew (heq ▸ hw)⟩
    have hroom : ws.length < Words := by
      have := hnodup.length_le_card
      rwa [Fintype.card_fin, List.length_append] at this
    obtain ⟨q, htouch, hq, hentries⟩ := h.toEntries.touch hwords word hroom
    rw [if_pos hzero, htouch]
    refine ⟨_, rfl, ⟨ws ++ [word], ⟨hentries.size, hentries.entry⟩, hnodup, fun w => ?_⟩,
      hpending q hq⟩
    rw [hnonzero q w hq, List.mem_append, List.mem_singleton, h.mem, or_comm]
  · rw [if_neg hzero]
    refine ⟨_, rfl, ⟨ws, ⟨h.size, h.entry⟩, h.nodup, fun w => ?_⟩, hpending p rfl⟩
    rw [hnonzero p w rfl, h.mem]
    exact ⟨.inr, fun hor => hor.elim (fun heq => heq ▸ hzero) id⟩

end PendingEvents

section

variable {ι : Type} [DecidableEq ι] {Words : Nat}

open PendingEvents

/-- Event `e` of set `y` is among the marks. -/
def Marked (marks : List (Mark ι Words)) (y : ι) (e : Nat) : Prop :=
  ∃ m ∈ marks, m.target = y ∧ e ∈ wordEvents (m.word, m.bits)

omit [DecidableEq ι] in
theorem marked_cons {m : Mark ι Words} {marks : List (Mark ι Words)} {y : ι} {e : Nat} :
    Marked (m :: marks) y e ↔
      m.target = y ∧ e ∈ wordEvents (m.word, m.bits) ∨ Marked marks y e :=
  List.exists_mem_cons_iff _ _ _

variable (hwords : Words < 2 ^ 32)

include hwords in
/-- Marks in other sets than `x` leave `x` alone and keep the others exact. -/
theorem markAll_marks {x : ι} {marks : List (Mark ι Words)} (hother : ∀ m ∈ marks, m.target ≠ x)
    {s : EventSets ι Words} (hindexed : ∀ y, y ≠ x → (s y).Indexed) :
    ∃ s', markAll s marks = some s' ∧ s' x = s x ∧ (∀ y, y ≠ x → (s' y).Indexed) ∧
      ∀ y, y ≠ x → ∀ e, (s' y).Pending e ↔ (s y).Pending e ∨ Marked marks y e := by
  induction marks generalizing s with
  | nil => exact ⟨s, rfl, rfl, hindexed, fun y _ e => by simp [Marked]⟩
  | cons m marks ih =>
      have htarget := hother m (.head _)
      obtain ⟨ws, hlists⟩ := hindexed m.target htarget
      obtain ⟨q, hadd, hq, hevents⟩ := hlists.addWord hwords m.word m.bits
      have hindexed' : ∀ y, y ≠ x → (Function.update s m.target q y).Indexed := by
        intro y hy
        by_cases hym : y = m.target
        · rw [hym, Function.update_self]
          exact hq
        · rw [Function.update_of_ne hym]
          exact hindexed y hy
      obtain ⟨s', hmarks, hx, hkeep, hadded⟩ :=
        ih (fun m hm => hother m (.tail _ hm)) hindexed'
      refine ⟨s', ?_, ?_, hkeep, fun y hy e => ?_⟩
      · rw [markAll, hadd, Option.bind_some, hmarks]
      · rw [hx, Function.update_of_ne htarget.symm]
      · rw [hadded y hy e, marked_cons]
        by_cases hym : y = m.target
        · subst hym
          rw [Function.update_self, hevents e, or_assoc]
          simp
        · rw [Function.update_of_ne hym]
          simp [Ne.symm hym]

def PendingEvents.Empty (p : PendingEvents Words) : Prop :=
  p.size = 0 ∧ ∀ word, p.words word = 0

include hwords in
theorem drainLoop_visits {x : ι} {visit : Visit Words → List (Mark ι Words)}
    (hother : ∀ v, ∀ m ∈ visit v, m.target ≠ x) {done rest : List (Fin Words)}
    {s : EventSets ι Words} (hentries : (s x).Entries (done ++ rest)) (hnodup : rest.Nodup)
    (hzero : ∀ word, word ∉ rest → (s x).words word = 0)
    (hindexed : ∀ y, y ≠ x → (s y).Indexed) {fuel : Nat} (hfuel : rest.length < fuel) :
    ∃ s', drainLoop x visit fuel done.length s =
        some (rest.map fun word => (word, (s x).words word), s') ∧
      (s' x).Empty ∧ (∀ y, y ≠ x → (s' y).Indexed) ∧
      ∀ y, y ≠ x → ∀ e, (s' y).Pending e ↔ (s y).Pending e ∨
        ∃ v ∈ rest.map fun word => (word, (s x).words word), Marked (visit v) y e := by
  induction rest generalizing done s fuel with
  | nil =>
      obtain ⟨fuel, rfl⟩ := Nat.exists_eq_succ_of_ne_zero (Nat.ne_of_gt hfuel)
      have hend : ¬ done.length < (s x).size := by simp [hentries.size]
      have hothers : ∀ y, y ≠ x → Function.update s x { s x with size := 0 } y = s y :=
        fun y hy => Function.update_of_ne hy _ _
      refine ⟨_, by rw [drainLoop, if_neg hend]; rfl, ?_, fun y hy => ?_, fun y hy e => ?_⟩
      · rw [Function.update_self]
        exact ⟨rfl, fun word => hzero word List.not_mem_nil⟩
      · exact hothers y hy ▸ hindexed y hy
      · simp [hothers y hy]
  | cons word rest ih =>
      obtain ⟨fuel, rfl⟩ := Nat.exists_eq_succ_of_ne_zero (Nat.ne_zero_of_lt hfuel)
      have hmore : done.length < (s x).size := by simp [hentries.size]
      have hentry : (s x).entry done.length = some word := by
        rw [hentries.entry done.length (by simp), List.getElem_append_right (Nat.le_refl _)]
        simp
      obtain ⟨hnew, hnodup'⟩ := List.nodup_cons.mp hnodup
      let cleared := Function.update s x
        { s x with words := Function.update (s x).words word 0 }
      have hclearedOther : ∀ y, y ≠ x → cleared y = s y := fun y hy => Function.update_of_ne hy _ _
      have hclearedX : cleared x = { s x with words := Function.update (s x).words word 0 } :=
        Function.update_self ..
      have hindexedCleared : ∀ y, y ≠ x → (cleared y).Indexed :=
        fun y hy => hclearedOther y hy ▸ hindexed y hy
      obtain ⟨t, hmarks, htx, htindexed, htevents⟩ :=
        markAll_marks hwords (hother (word, (s x).words word)) hindexedCleared
      -- the words still to be visited are as they were
      have hshown : ∀ w ∈ rest, (t x).words w = (s x).words w := by
        intro w hw
        rw [htx, hclearedX]
        exact Function.update_of_ne (fun heq : w = word => hnew (heq ▸ hw)) _ _
      have hentries' : (t x).Entries ((done ++ [word]) ++ rest) := by
        rw [htx, hclearedX, List.append_assoc, List.singleton_append]
        exact ⟨hentries.size, hentries.entry⟩
      have hzero' : ∀ w, w ∉ rest → (t x).words w = 0 := by
        intro w hw
        rw [htx, hclearedX]
        by_cases heq : w = word
        · subst heq
          exact Function.update_self ..
        · exact (Function.update_of_ne heq _ _).trans
            (hzero w fun hmem => (List.mem_cons.mp hmem).elim heq hw)
      obtain ⟨s', hloop, hempty, hindexed', hevents⟩ :=
        ih hentries' hnodup' hzero' htindexed (Nat.lt_of_succ_lt_succ hfuel)
      have hvisits : (rest.map fun w => (w, (t x).words w)) = rest.map fun w => (w, (s x).words w) :=
        List.map_congr_left fun w hw => by rw [hshown w hw]
      rw [List.length_append, List.length_singleton, hvisits] at hloop
      refine ⟨s', ?_, hempty, hindexed', fun y hy e => ?_⟩
      · rw [drainLoop, if_pos hmore, hentry, Option.bind_some]
        show (markAll cleared (visit (word, (s x).words word))).bind _ = _
        rw [hmarks, Option.bind_some, hloop]
        rfl
      · rw [hevents y hy e, htevents y hy e, hclearedOther y hy, hvisits, or_assoc, List.map_cons,
          List.exists_mem_cons_iff]

include hwords in
/-- A drain shows the words of the set with their bits. -/
theorem drain_visits {x : ι} {visit : Visit Words → List (Mark ι Words)}
    (hother : ∀ v, ∀ m ∈ visit v, m.target ≠ x) {s : EventSets ι Words}
    (hindexed : ∀ y, (s y).Indexed) :
    ∃ visits s', drain x visit s = some (visits, s') ∧ (visits.flatMap wordEvents).Nodup ∧
      (∀ e, e ∈ visits.flatMap wordEvents ↔ (s x).Pending e) ∧
      (s' x).Empty ∧ (∀ y, y ≠ x → (s' y).Indexed) ∧
      ∀ y, y ≠ x → ∀ e, (s' y).Pending e ↔ (s y).Pending e ∨
        ∃ v ∈ visits, Marked (visit v) y e := by
  obtain ⟨ws, hlists⟩ := hindexed x
  have hentries : (s x).Entries ([] ++ ws) := hlists.toEntries
  obtain ⟨s', hloop, hempty, hindexed', hevents⟩ :=
    drainLoop_visits hwords hother hentries hlists.nodup
      (fun w hw => not_not.mp fun hne => hw ((hlists.mem w).mpr hne)) (fun y _ => hindexed y)
      (Nat.lt_succ_of_le (Nat.le_of_eq hlists.size.symm))
  refine ⟨_, s', hloop, ?_, fun e => ?_, hempty, hindexed', hevents⟩
  · refine List.nodup_flatMap.mpr ⟨fun v _ => nodup_wordEvents v, ?_⟩
    refine List.pairwise_map.mpr (hlists.nodup.imp fun hne e he he' => hne (Fin.ext ?_))
    exact (mem_wordEvents.mp he).1.symm.trans (mem_wordEvents.mp he').1
  · simp only [List.mem_flatMap, List.mem_map, exists_exists_and_eq_and]
    constructor
    · rintro ⟨w, -, he⟩
      exact ⟨w, he⟩
    · rintro ⟨w, he⟩
      refine ⟨w, (hlists.mem w).mpr fun hzero => ?_, he⟩
      rw [hzero] at he
      exact wordEvents_zero he

/-! ## Runs -/

/-- What an operation does to the events, and what a drain shows of them. -/
def EventOp.Does (s : EventSets ι Words) (visits : List (Visit Words)) (s' : EventSets ι Words) :
    EventOp ι Words → Prop
  | .addWord x word bits => ∀ y e,
      (s' y).Pending e ↔ (s y).Pending e ∨ y = x ∧ e ∈ wordEvents (word, bits)
  | .set x bit => ∀ y e, (s' y).Pending e ↔ (s y).Pending e ∨ y = x ∧ e = bit
  | .drain x visit =>
      (visits.flatMap wordEvents).Nodup ∧
      (∀ e, e ∈ visits.flatMap wordEvents ↔ (s x).Pending e) ∧
      (s' x).Empty ∧
      ∀ y, y ≠ x → ∀ e, (s' y).Pending e ↔ (s y).Pending e ∨
        ∃ v ∈ visits, Marked (visit v) y e
  | .mergeFrom x y =>
      (∀ e, (s' x).Pending e ↔ (s x).Pending e ∨ (s y).Pending e) ∧
      (x ≠ y → (s' y).Empty) ∧
      ∀ z, z ≠ x → z ≠ y → ∀ e, (s' z).Pending e ↔ (s z).Pending e

theorem wordEvents_bit {word : Fin Words} {k e : Nat} (hk : k < 64) :
    e ∈ wordEvents (word, (1 : UInt64) <<< UInt64.ofNat k) ↔ e = 64 * (word : Nat) + k := by
  rw [mem_wordEvents]
  show e / 64 = word ∧ ((1 : UInt64) <<< UInt64.ofNat k).toNat.testBit (e % 64) = true ↔ _
  have hval : ((1 : UInt64) <<< UInt64.ofNat k).toNat = 2 ^ k := by
    rw [UInt64.toNat_shiftLeft, UInt64.toNat_ofNat', UInt64.toNat_one,
      @Nat.mod_eq_of_lt k (2 ^ 64) (by omega), Nat.mod_eq_of_lt hk, Nat.shiftLeft_eq, Nat.one_mul]
    exact Nat.mod_eq_of_lt (Nat.pow_lt_pow_right (by decide) hk)
  rw [hval, Nat.testBit_two_pow, decide_eq_true_iff]
  omega

include hwords in
theorem addWord_runs {s : EventSets ι Words} (hindexed : ∀ y, (s y).Indexed) (x : ι)
    (word : Fin Words) (bits : UInt64) :
    ∃ q, (s x).addWord word bits = some q ∧ (∀ y, (Function.update s x q y).Indexed) ∧
      ∀ y e, (Function.update s x q y).Pending e ↔
        (s y).Pending e ∨ y = x ∧ e ∈ wordEvents (word, bits) := by
  obtain ⟨ws, hlists⟩ := hindexed x
  obtain ⟨q, hadd, hq, hevents⟩ := hlists.addWord hwords word bits
  refine ⟨q, hadd, fun y => ?_, fun y e => ?_⟩
  · by_cases hy : y = x
    · rw [hy, Function.update_self]
      exact hq
    · rw [Function.update_of_ne hy]
      exact hindexed y
  · by_cases hy : y = x
    · rw [hy, Function.update_self, hevents e, and_iff_right rfl]
    · rw [Function.update_of_ne hy, or_iff_left fun h => hy h.1]

include hwords in
/-- Every permitted operation stays inside the arrays, does what it should and
leaves every index exact. -/
theorem EventOp.runs {s : EventSets ι Words} (hindexed : ∀ y, (s y).Indexed)
    {op : EventOp ι Words} (hop : op.Permitted) :
    ∃ visits s', op.run s = some (visits, s') ∧ op.Does s visits s' ∧ ∀ y, (s' y).Indexed := by
  have hempty : ∀ {p : PendingEvents Words}, p.Empty → p.Indexed := fun hp =>
    ⟨[], ⟨hp.1, fun _ h => absurd h (Nat.not_lt_zero _)⟩, List.nodup_nil, fun w => by simp [hp.2 w]⟩
  cases op with
  | addWord x word bits =>
      obtain ⟨q, hadd, hq, hevents⟩ := addWord_runs hwords hindexed x word bits
      exact ⟨[], _, by rw [EventOp.run, hadd]; rfl, hevents, hq⟩
  | set x bit =>
      obtain ⟨q, hadd, hq, hevents⟩ := addWord_runs hwords hindexed x
        ⟨bit / 64, Nat.div_lt_of_lt_mul bit.isLt⟩ (1 <<< UInt64.ofNat (bit % 64))
      refine ⟨[], _, by rw [EventOp.run, PendingEvents.set, hadd]; rfl, fun y e => ?_, hq⟩
      rw [hevents y e, wordEvents_bit (Nat.mod_lt _ (by decide)), Nat.div_add_mod]
  | drain x visit =>
      obtain ⟨visits, s', hrun, honce, hshown, hleft, hothers, hmarked⟩ :=
        drain_visits hwords hop hindexed
      refine ⟨visits, s', hrun, ⟨honce, hshown, hleft, hmarked⟩, fun y => ?_⟩
      by_cases hy : y = x
      · exact hy ▸ hempty hleft
      · exact hothers y hy
  | mergeFrom x y =>
      by_cases hxy : x = y
      · subst hxy
        refine ⟨[], s, by rw [EventOp.run, Native.mergeFrom, if_pos rfl]; rfl, ⟨?_, ?_, ?_⟩, hindexed⟩
        · exact fun e => (or_self_iff).symm
        · exact fun hne => absurd rfl hne
        · exact fun _ _ _ _ => Iff.rfl
      let visit : Visit Words → List (Mark ι Words) := fun v => [⟨x, v.1, v.2⟩]
      have hother : ∀ v, ∀ m ∈ visit v, m.target ≠ y := fun v m hm => by
        rw [List.mem_singleton.mp hm]
        exact hxy
      obtain ⟨visits, s', hrun, -, hshown, hleft, hothers, hmarked⟩ :=
        drain_visits hwords hother hindexed
      -- the marks in `x` are what is shown of `y`
      have hunion : ∀ z e, (∃ v ∈ visits, Marked (visit v) z e) ↔
          x = z ∧ (s y).Pending e := by
        intro z e
        rw [← hshown e, List.mem_flatMap]
        simp only [visit, Marked, List.mem_singleton, exists_eq_left]
        exact ⟨fun ⟨v, hv, hz, he⟩ => ⟨hz, v, hv, he⟩, fun ⟨hz, v, hv, he⟩ => ⟨v, hv, hz, he⟩⟩
      refine ⟨[], s', by rw [EventOp.run, Native.mergeFrom, if_neg hxy, hrun]; rfl,
        ⟨fun e => ?_, fun _ => hleft, fun z hzx hzy e => ?_⟩, fun z => ?_⟩
      · rw [hmarked x hxy e, hunion, and_iff_right rfl]
      · rw [hmarked z hzy e, hunion, or_iff_left fun h => hzx h.1.symm]
      · by_cases hz : z = y
        · exact hz ▸ hempty hleft
        · exact hothers z hz

include hwords in
/-- After any permitted operations every index is exact, and the next permitted
operation does what it should. -/
theorem events_exact {es : List (EventOp ι Words × List (Visit Words))} {s : EventSets ι Words}
    (h : (eventSystem ι Words).Traces es s) :
    (∀ x, (s x).Indexed) ∧
    ∀ op : EventOp ι Words, op.Permitted →
      ∃ visits s', op.run s = some (visits, s') ∧ op.Does s visits s' := by
  obtain ⟨s₀, hinit, hrun⟩ := h
  have hindexed : ∀ x, (s x).Indexed := by
    refine hrun.invariant (fun _ s => ∀ x, (s x).Indexed) (fun x => ?_) ?_
    · rw [hinit x]
      exact ⟨[], fresh_lists⟩
    · rintro - t e u ht ⟨op, visits, -, hop, hstep⟩
      obtain ⟨visits', u', hruns, -, hu⟩ := op.runs hwords ht hop
      rw [hstep] at hruns
      cases hruns
      exact hu
  refine ⟨hindexed, fun op hop => ?_⟩
  obtain ⟨visits, s', hruns, hdoes, -⟩ := op.runs hwords hindexed hop
  exact ⟨visits, s', hruns, hdoes⟩

/-- One set takes the events of another. -/
theorem events_exact_merged :
    ∃ s : EventSets Bool 2,
      (eventSystem Bool 2).Traces [(.set false 70, []), (.mergeFrom true false, [])] s ∧
      ∀ x, (s x).Indexed := by
  have hfirst : (eventSystem Bool 2).Run (fun _ => .fresh 2) [(.set false 70, [])] _ :=
    (Transitions.Run.refl _).shows ⟨.set false 70, [], rfl, trivial, rfl⟩
  have hrun := hfirst.shows ⟨.mergeFrom true false, [], rfl, trivial, rfl⟩
  have htraces : (eventSystem Bool 2).Traces _ _ := ⟨_, fun _ => rfl, hrun⟩
  exact ⟨_, htraces, (events_exact (by decide) htraces).1⟩

end

end CppHdl.Native
