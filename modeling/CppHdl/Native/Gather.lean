import CppHdl.Lib.ParallelBits
import CppHdl.Graph.Node

/-!
# Gathering bits into a word

A word of the native code gathers bits of several words, in any order, with
repetitions and constants. `nativeCoalescedAssembly` writes the gather as text in
up to three ways, and keeps the shortest: masked words shifted into place, the
same with a repeated bit spread by a multiplication, and routes of rising
positions moved by `gatherBits`.

A candidate is a list of terms; `text` is what is emitted for it and `eval` what
that computes, given the words the producers' names stand for.
-/

namespace CppHdl.Native

open Graph

/-! ## `gatherBits` -/

/-- The loop of `gatherBitsPortable`. -/
def gatherLoop (value source destination result : BitVec 64) : BitVec 64 :=
  if source = 0#64 ∨ destination = 0#64 then result
  else
    let fromBit := source &&& (0#64 - source)
    let toBit := destination &&& (0#64 - destination)
    gatherLoop value (source &&& (source - 1#64)) (destination &&& (destination - 1#64))
      (if value &&& fromBit = 0#64 then result else result ||| toBit)
termination_by (setBits source).length
decreasing_by
  rename_i h
  cases hbits : setBits source with
  | nil => exact absurd (.inl (setBits_eq_nil.mp hbits)) h
  | cons p rest =>
      rw [setBits_and_pred hbits]
      exact Nat.lt_succ_self _

def gatherBitsPortable (value source destination : BitVec 64) : BitVec 64 :=
  gatherLoop value source destination 0#64

theorem and_twoPow_eq_zero {w : Nat} {x : BitVec w} {i : Nat} :
    x &&& BitVec.twoPow w i = 0#w ↔ x.getLsbD i = false := by
  rw [BitVec.and_twoPow]
  cases hbit : x.getLsbD i with
  | false => simp
  | true =>
      simp only [if_true, Bool.true_eq_false, iff_false]
      intro hzero
      have hset := congrArg (fun y => y.getLsbD i) hzero
      simp [BitVec.lt_of_getLsbD hbit] at hset

theorem gatherLoop_eq (value source destination result : BitVec 64) :
    gatherLoop value source destination result =
      moveBits value ((setBits source).zip (setBits destination)) ||| result := by
  induction hbits : setBits source generalizing source destination result with
  | nil =>
      rw [gatherLoop, if_pos (.inl (setBits_eq_nil.mp hbits)), List.zip_nil_left]
      exact BitVec.zero_or.symm
  | cons s rest ih =>
      cases hdest : setBits destination with
      | nil =>
          rw [gatherLoop, if_pos (.inr (setBits_eq_nil.mp hdest)), List.zip_nil_right]
          exact BitVec.zero_or.symm
      | cons d drest =>
          have hsource : source ≠ 0#64 := fun h => by simp [setBits_eq_nil.mpr h] at hbits
          have hdestination : destination ≠ 0#64 := fun h => by
            simp [setBits_eq_nil.mpr h] at hdest
          rw [gatherLoop, if_neg (not_or.mpr ⟨hsource, hdestination⟩)]
          simp only [BitVec.zero_sub, and_neg_eq_twoPow hbits, and_neg_eq_twoPow hdest]
          rw [ih _ _ _ (setBits_and_pred hbits), setBits_and_pred hdest, List.zip_cons_cons,
            moveBits]
          simp only [and_twoPow_eq_zero]
          cases value.getLsbD s with
          | false => simp
          | true => 
              simp only [if_true, Bool.true_eq_false, if_false]
              ac_rfl

theorem gatherBitsPortable_eq (value source destination : BitVec 64) :
    gatherBitsPortable value source destination = pdep (pext value source) destination := by
  rw [gatherBitsPortable, gatherLoop_eq, pdep_pext, BitVec.or_zero]

/-- `gatherBits`, on a processor with or without the instructions. -/
def gatherBits (supported : Bool) (value source destination : BitVec 64) : BitVec 64 :=
  if supported then pdep (pext value source) destination
  else gatherBitsPortable value source destination

theorem gatherBits_eq (supported : Bool) (value source destination : BitVec 64) :
    gatherBits supported value source destination =
      moveBits value ((setBits source).zip (setBits destination)) := by
  unfold gatherBits
  rw [gatherBitsPortable_eq, ite_self, pdep_pext]

/-! ## Emitted terms -/

inductive Term
  | name (producer : Nat)
  | constant (bits : BitVec 64)
  | mask (t : Term) (bits : BitVec 64)
  | shiftLeft (t : Term) (count : Nat)
  | shiftRight (t : Term) (count : Nat)
  /-- The lowest bit, spread over `bits`. -/
  | spread (t : Term) (bits : BitVec 64)
  | gather (producer : Nat) (source destination : BitVec 64)

namespace Term

def text (name : Nat → String) : Term → String
  | .name producer => name producer
  | .constant bits => toString bits.toNat ++ "ull"
  | .mask t bits => "(" ++ text name t ++ " & " ++ toString bits.toNat ++ "ull)"
  | .shiftLeft t count => "(" ++ text name t ++ " << " ++ toString count ++ ")"
  | .shiftRight t count => "(" ++ text name t ++ " >> " ++ toString count ++ ")"
  | .spread t bits => "((" ++ text name t ++ " & 1ull) * " ++ toString bits.toNat ++ "ull)"
  | .gather producer source destination =>
      "cpphdl::graph_runtime::gatherBits(" ++ name producer ++ "," ++ toString source.toNat ++
        "ull," ++ toString destination.toNat ++ "ull)"

def eval (supported : Bool) (word : Nat → BitVec 64) : Term → BitVec 64
  | .name producer => word producer
  | .constant bits => bits
  | .mask t bits => eval supported word t &&& bits
  | .shiftLeft t count => eval supported word t <<< count
  | .shiftRight t count => eval supported word t >>> count
  | .spread t bits => (eval supported word t &&& 1#64) * bits
  | .gather producer source destination =>
      gatherBits supported (word producer) source destination

end Term

def candidateText (name : Nat → String) (terms : List Term) : String :=
  "(" ++ " | ".intercalate (terms.map (Term.text name)) ++ ")"

def orAll (words : List (BitVec 64)) : BitVec 64 := words.foldr (· ||| ·) 0#64

def candidateWord (supported : Bool) (word : Nat → BitVec 64) (terms : List Term) : BitVec 64 :=
  orAll (terms.map (Term.eval supported word))

/-! ## The candidates -/

/-- `map[key] = f(map[key])` in a map that is kept in the order of its keys. -/
def updateAt {κ ν : Type} [DecidableEq κ] (lt : κ → κ → Bool) (key : κ) (new : ν) (f : ν → ν) :
    List (κ × ν) → List (κ × ν)
  | [] => [(key, f new)]
  | (k, v) :: map =>
      if k = key then (k, f v) :: map
      else if lt key k then (key, f new) :: (k, v) :: map
      else (k, v) :: updateAt lt key new f map

/-- The masks of a value: which offsets each bit goes to, and the constants. -/
structure Destinations where
  masks : List (Nat × BitVec 64)
  constants : BitVec 64

def Destinations.add (d : Destinations) (bit offset : Nat) : Destinations :=
  if bit < 2 then { d with constants := d.constants ||| BitVec.ofNat 64 bit <<< offset }
  else
    { d with
      masks := updateAt (fun a b => decide (a < b)) bit 0#64 (· ||| BitVec.twoPow 64 offset) d.masks }

def destinations (value : List Nat) : Destinations :=
  value.zipIdx.foldl (fun d p => d.add p.1 p.2) ⟨[], 0#64⟩

/-- A producer, and how far left its bits go. -/
abbrev Shift := Nat × Int

/-- The order of `std::pair`. -/
def Shift.lt (a b : Shift) : Bool := decide (a.1 < b.1) || decide (a.1 = b.1) && decide (a.2 < b.2)

abbrev Shifts := List (Shift × BitVec 64)

/-- The offsets of one bit, each as a shift of its producer. -/
def addShifts (size bit : Nat) (mask : BitVec 64) (shifts : Shifts) : Shifts :=
  (List.range size).foldl (fun shifts offset =>
    if mask.getLsbD offset then
      updateAt Shift.lt (owner bit, (offset : Int) - lane bit) 0#64
        (· ||| BitVec.twoPow 64 (lane bit)) shifts
    else shifts) shifts

def spreadTerm (bit : Nat) (mask : BitVec 64) : Term :=
  .spread (if lane bit = 0 then .name (owner bit) else .shiftRight (.name (owner bit)) (lane bit))
    mask

def shiftTerm (key : Shift) (mask : BitVec 64) : Term :=
  let t := if mask = BitVec.allOnes 64 then .name key.1 else .mask (.name key.1) mask
  if 0 < key.2 then .shiftLeft t key.2.toNat
  else if key.2 < 0 then .shiftRight t (-key.2).toNat
  else t

/-- The constants are appended unless they are 0 and there is something else. -/
def withConstants (constants : BitVec 64) (terms : List Term) : List Term :=
  if constants ≠ 0#64 ∨ terms = [] then terms ++ [.constant constants] else terms

def shiftCandidate (size : Nat) (d : Destinations) (broadcast : Bool) : List Term :=
  let split := d.masks.foldl (fun (s : List Term × Shifts) (p : Nat × BitVec 64) =>
    if broadcast ∧ p.2 &&& (p.2 - 1#64) ≠ 0#64 then (s.1 ++ [spreadTerm p.1 p.2], s.2)
    else (s.1, addShifts size p.1 p.2 s.2)) ([], [])
  withConstants d.constants (split.1 ++ split.2.map fun p => shiftTerm p.1 p.2)

/-- Positions of a producer that rise with the offsets they go to. -/
structure Route where
  last : Nat
  source : BitVec 64
  destination : BitVec 64

/-- Route `i` is taken if it ends before `source`, after the one selected so far. -/
def selectStep (group : List Route) (source : Nat) (selected : Option Nat) (i : Nat) : Option Nat :=
  if (group[i]?.any fun r => decide (r.last < source)) ∧
      (selected.all fun j => group[j]?.any fun best =>
        group[i]?.any fun r => decide (best.last < r.last)) then some i
  else selected

def selectRoute (group : List Route) (source : Nat) : Option Nat :=
  (List.range group.length).foldl (selectStep group source) none

def Route.add (r : Route) (source offset : Nat) : Route :=
  ⟨source, r.source ||| BitVec.twoPow 64 source, r.destination ||| BitVec.twoPow 64 offset⟩

def addRoute (source offset : Nat) (group : List Route) : List Route :=
  match selectRoute group source with
  | some i => group.modify i fun r => r.add source offset
  | none => group ++ [Route.add ⟨source, 0#64, 0#64⟩ source offset]

def routes (value : List Nat) : List (Nat × List Route) :=
  value.zipIdx.foldl (fun map p =>
    if 1 < p.1 then
      updateAt (fun a b => decide (a < b)) (owner p.1) [] (addRoute (lane p.1) p.2) map
    else map) []

def routeCandidate (value : List Nat) (constants : BitVec 64) : List Term :=
  withConstants constants
    ((routes value).flatMap fun p => p.2.map fun r => .gather p.1 r.source r.destination)

def candidates (value : List Nat) (bmi2 : Bool) : List (List Term) :=
  let d := destinations value
  [shiftCandidate value.length d false, shiftCandidate value.length d true] ++
    if bmi2 then [routeCandidate value d.constants] else []

/-- A candidate replaces what is longer. -/
def shorter (best candidate : String) : String :=
  if candidate.utf8ByteSize < best.utf8ByteSize then candidate else best

def nativeCoalescedAssembly (value : List Nat) (name : Nat → String) (original : String)
    (bmi2 : Bool) : Except String String :=
  if 64 < value.length then .error "wide native gather"
  else if value.length < 3 then .ok original
  else .ok (((candidates value bmi2).map (candidateText name)).foldl shorter original)

/-! ## Gathering bit by bit -/

/-- The value of a bit; the bits 0 and 1 are constants. -/
def bitValue (word : Nat → BitVec 64) (bit : Nat) : Bool :=
  if bit < 2 then bit == 1 else (word (owner bit)).getLsbD (lane bit)

/-- The word at the offset, if it is set. -/
def placeBit (set : Bool) (offset : Nat) : BitVec 64 :=
  if set then BitVec.twoPow 64 offset else 0#64

/-- One bit after the other. -/
def gatherWord (word : Nat → BitVec 64) (value : List Nat) : BitVec 64 :=
  value.zipIdx.foldl (fun r p => r ||| placeBit (bitValue word p.1) p.2) 0#64

/-! ## Maps of masks -/

/-- What the entries of a map make up together. -/
def orMap {κ ν : Type} (g : κ → ν → BitVec 64) (map : List (κ × ν)) : BitVec 64 :=
  orAll (map.map fun p => g p.1 p.2)

theorem orAll_append (a b : List (BitVec 64)) : orAll (a ++ b) = orAll a ||| orAll b := by
  induction a with
  | nil => exact BitVec.zero_or.symm
  | cons x a ih => exact (congrArg (x ||| ·) ih).trans (BitVec.or_assoc x _ _).symm

theorem orMap_cons {κ ν : Type} (g : κ → ν → BitVec 64) (k : κ) (v : ν) (map : List (κ × ν)) :
    orMap g ((k, v) :: map) = g k v ||| orMap g map := rfl

section

variable {κ ν : Type} [DecidableEq κ] {lt : κ → κ → Bool} {key : κ} {new : ν} {f : ν → ν}

/-- An update that adds `extra` to any value of its key adds it to the whole. -/
theorem orMap_updateAt {P : κ → ν → Prop} {g : κ → ν → BitVec 64} {extra : BitVec 64}
    (hadd : ∀ v, v = new ∨ P key v → g key (f v) = g key v ||| extra) (hnew : g key new = 0#64)
    {map : List (κ × ν)} (hP : ∀ p ∈ map, P p.1 p.2) :
    orMap g (updateAt lt key new f map) = orMap g map ||| extra := by
  have hfirst : g key (f new) = extra := by
    rw [hadd new (.inl rfl), hnew]
    exact BitVec.zero_or
  induction map with
  | nil =>
      rw [updateAt, orMap_cons, hfirst]
      exact BitVec.or_comm _ _
  | cons p map ih =>
      obtain ⟨k, v⟩ := p
      rw [updateAt]
      split_ifs with heq hlt
      · subst heq
        rw [orMap_cons, orMap_cons, hadd v (.inr (hP _ (.head _)))]
        ac_rfl
      · rw [orMap_cons, hfirst]
        exact BitVec.or_comm _ _
      · rw [orMap_cons, orMap_cons, ih fun p hp => hP p (.tail _ hp), BitVec.or_assoc]

theorem updateAt_forall (P P' : κ → ν → Prop) (hkeep : ∀ k v, P k v → P' k v)
    (hnew : P' key (f new)) (hold : ∀ v, P key v → P' key (f v)) {map : List (κ × ν)}
    (hP : ∀ p ∈ map, P p.1 p.2) : ∀ p ∈ updateAt lt key new f map, P' p.1 p.2 := by
  induction map with
  | nil =>
      intro p hp
      cases List.mem_singleton.mp hp
      exact hnew
  | cons q map ih =>
      obtain ⟨k, v⟩ := q
      have hrest : ∀ p ∈ map, P p.1 p.2 := fun p hp => hP p (.tail _ hp)
      intro p hp
      rw [updateAt] at hp
      split_ifs at hp with heq hlt
      · subst heq
        rcases List.mem_cons.mp hp with rfl | hp
        · exact hold v (hP _ (.head _))
        · exact hkeep _ _ (hrest p hp)
      · rcases List.mem_cons.mp hp with rfl | hp
        · exact hnew
        · exact hkeep _ _ (hP p hp)
      · rcases List.mem_cons.mp hp with rfl | hp
        · exact hkeep _ _ (hP _ (.head _))
        · exact ih hrest p hp

end

/-! ## The masks -/

variable (supported : Bool) (word : Nat → BitVec 64)

/-- A mask of offsets, where its bit is set. -/
def maskWord (bit : Nat) (mask : BitVec 64) : BitVec 64 :=
  if (word (owner bit)).getLsbD (lane bit) then mask else 0#64

theorem Destinations.add_masks (d : Destinations) {bit offset : Nat} (hbit : ¬ bit < 2) :
    orMap (maskWord word) (d.add bit offset).masks =
      orMap (maskWord word) d.masks |||
        placeBit ((word (owner bit)).getLsbD (lane bit)) offset := by
  have hadd : ∀ v, v = 0#64 ∨ True → maskWord word bit (v ||| BitVec.twoPow 64 offset) =
      maskWord word bit v ||| placeBit ((word (owner bit)).getLsbD (lane bit)) offset := by
    intro v _
    unfold maskWord placeBit
    split_ifs <;> simp
  unfold Destinations.add
  rw [if_neg hbit]
  exact orMap_updateAt (P := fun _ _ => True) hadd (ite_self _) fun _ _ => trivial

theorem Destinations.add_word (d : Destinations) (bit offset : Nat) :
    orMap (maskWord word) (d.add bit offset).masks ||| (d.add bit offset).constants =
      (orMap (maskWord word) d.masks ||| d.constants) ||| placeBit (bitValue word bit) offset := by
  by_cases hconstant : bit < 2
  · have hone : BitVec.ofNat 64 bit <<< offset = placeBit (bit == 1) offset := by
      obtain rfl | rfl : bit = 0 ∨ bit = 1 := by omega
      · exact BitVec.zero_shiftLeft offset
      · rfl
    unfold Destinations.add bitValue
    rw [if_pos hconstant, if_pos hconstant, hone, BitVec.or_assoc]
  · have hconstants : (d.add bit offset).constants = d.constants := by
      unfold Destinations.add
      rw [if_neg hconstant]
    rw [d.add_masks word hconstant, hconstants, bitValue, if_neg hconstant]
    ac_rfl

/-- A position is added above all others. -/
theorem lt_of_or_twoPow {x : BitVec 64} {n i : Nat} (hx : ∀ i, x.getLsbD i = true → i < n)
    (hi : (x ||| BitVec.twoPow 64 n).getLsbD i = true) : i < n + 1 := by
  rw [BitVec.getLsbD_or, Bool.or_eq_true, BitVec.getLsbD_twoPow, Bool.and_eq_true,
    decide_eq_true_iff, decide_eq_true_iff] at hi
  rcases hi with hi | ⟨-, rfl⟩
  · exact Nat.lt_succ_of_lt (hx i hi)
  · exact Nat.lt_succ_self n

/-- Masks only have the offsets of the value. -/
def Destinations.Below (d : Destinations) (n : Nat) : Prop :=
  ∀ p ∈ d.masks, ∀ i, p.2.getLsbD i = true → i < n

theorem Destinations.Below.add {d : Destinations} {n : Nat} (h : d.Below n) (bit : Nat) :
    (d.add bit n).Below (n + 1) := by
  unfold Destinations.add
  split_ifs
  · exact fun p hp i hi => Nat.lt_succ_of_lt (h p hp i hi)
  · refine updateAt_forall (fun _ (m : BitVec 64) => ∀ i, m.getLsbD i = true → i < n)
      (fun _ m => ∀ i, m.getLsbD i = true → i < n + 1)
      (fun _ _ hv i hi => Nat.lt_succ_of_lt (hv i hi)) (fun i hi => ?_)
      (fun v hv i hi => lt_of_or_twoPow hv hi) h
    exact lt_of_or_twoPow (fun i hi => by simp at hi) hi

/-- Two loops over a value and its offsets, in step. -/
theorem zipIdx_foldl_rel {σ τ : Type} {R : Nat → σ → τ → Prop} {f : σ → Nat × Nat → σ}
    {g : τ → Nat × Nat → τ} {value : List Nat} {n : Nat} {s : σ} {r : τ}
    (hstep : ∀ bit k s r, k < n + value.length → R k s r → R (k + 1) (f s (bit, k)) (g r (bit, k)))
    (h : R n s r) :
    R (n + value.length) ((value.zipIdx n).foldl f s) ((value.zipIdx n).foldl g r) := by
  induction value generalizing n s r with
  | nil => exact h
  | cons bit value ih =>
      rw [List.length_cons] at hstep ⊢
      rw [List.zipIdx_cons, List.foldl_cons, List.foldl_cons, Nat.add_comm value.length 1,
        ← Nat.add_assoc]
      exact ih (fun bit k s r hk => hstep bit k s r (by omega)) (hstep bit n s r (by omega) h)

theorem destinations_word (value : List Nat) :
    orMap (maskWord word) (destinations value).masks ||| (destinations value).constants =
      gatherWord word value ∧ (destinations value).Below value.length := by
  have h := @zipIdx_foldl_rel _ _
    (fun n (d : Destinations) r => orMap (maskWord word) d.masks ||| d.constants = r ∧ d.Below n)
    (fun d p => d.add p.1 p.2) (fun r p => r ||| placeBit (bitValue word p.1) p.2) value 0
    ⟨[], 0#64⟩ 0#64
    (fun bit k d r _ h => ⟨by rw [d.add_word, h.1], h.2.add bit⟩)
    ⟨BitVec.or_zero, fun p hp => absurd hp List.not_mem_nil⟩
  rw [Nat.zero_add] at h
  exact h

/-! ## Shifted masks -/

def shiftBits (count : Int) (x : BitVec 64) : BitVec 64 :=
  if 0 < count then x <<< count.toNat else if count < 0 then x >>> (-count).toNat else x

theorem shiftBits_or (count : Int) (x y : BitVec 64) :
    shiftBits count (x ||| y) = shiftBits count x ||| shiftBits count y := by
  unfold shiftBits
  split_ifs
  · exact BitVec.shiftLeft_or_distrib x y _
  · exact BitVec.ushiftRight_or_distrib x y _
  · rfl

theorem shiftBits_zero (count : Int) : shiftBits count 0#64 = 0#64 := by
  unfold shiftBits
  split_ifs
  · exact BitVec.zero_shiftLeft _
  · exact BitVec.zero_ushiftRight
  · rfl

theorem shiftBits_twoPow {lane offset : Nat} (hlane : lane < 64) (hoffset : offset < 64) :
    shiftBits (offset - lane) (BitVec.twoPow 64 lane) = BitVec.twoPow 64 offset := by
  refine BitVec.eq_of_getLsbD_eq fun i hi => ?_
  unfold shiftBits
  split_ifs
  · rw [BitVec.getLsbD_shiftLeft, BitVec.getLsbD_twoPow, BitVec.getLsbD_twoPow]
    grind
  · rw [BitVec.getLsbD_ushiftRight, BitVec.getLsbD_twoPow, BitVec.getLsbD_twoPow]
    grind
  · obtain rfl : lane = offset := by omega
    rfl

/-- What a mask of lanes gathers at a shift. -/
def shiftWord (key : Shift) (mask : BitVec 64) : BitVec 64 := shiftBits key.2 (word key.1 &&& mask)

theorem eval_shiftTerm (key : Shift) (mask : BitVec 64) :
    (shiftTerm key mask).eval supported word = shiftWord word key mask := by
  have hmasked : (if mask = BitVec.allOnes 64 then Term.name key.1
      else .mask (.name key.1) mask).eval supported word = word key.1 &&& mask := by
    split_ifs with hall
    · rw [hall, BitVec.and_allOnes]
      rfl
    · rfl
  unfold shiftTerm shiftWord shiftBits
  generalize (if mask = BitVec.allOnes 64 then Term.name key.1 else .mask (.name key.1) mask) = t
    at hmasked
  dsimp only
  split_ifs <;> simp only [Term.eval, hmasked]

theorem shiftWord_bit {bit offset : Nat} (hoffset : offset < 64) :
    shiftWord word (owner bit, (offset : Int) - lane bit) (BitVec.twoPow 64 (lane bit)) =
      placeBit ((word (owner bit)).getLsbD (lane bit)) offset := by
  unfold shiftWord placeBit
  rw [BitVec.and_twoPow]
  cases (word (owner bit)).getLsbD (lane bit) with
  | true => exact shiftBits_twoPow (lane_lt bit) hoffset
  | false =>
      rw [if_neg Bool.false_ne_true, if_neg Bool.false_ne_true]
      exact shiftBits_zero _

theorem getLsbD_addShifts {size : Nat} (hsize : size ≤ 64) (bit : Nat) (mask : BitVec 64)
    (shifts : Shifts) (i : Nat) :
    (orMap (shiftWord word) (addShifts size bit mask shifts)).getLsbD i =
      ((orMap (shiftWord word) shifts).getLsbD i ||
        ((word (owner bit)).getLsbD (lane bit) && (decide (i < size) && mask.getLsbD i))) := by
  induction size with
  | zero => simp [addShifts]
  | succ size ih =>
      unfold addShifts at *
      rw [List.range_succ, List.foldl_append, List.foldl_cons, List.foldl_nil]
      generalize (List.range size).foldl _ shifts = before at *
      by_cases hset : mask.getLsbD size = true
      · rw [if_pos hset]
        have hadd : ∀ v, v = 0#64 ∨ True →
            shiftWord word (owner bit, (size : Int) - lane bit) (v ||| BitVec.twoPow 64 (lane bit)) =
              shiftWord word (owner bit, (size : Int) - lane bit) v |||
                placeBit ((word (owner bit)).getLsbD (lane bit)) size := by
          intro v _
          rw [← shiftWord_bit word (by omega)]
          unfold shiftWord
          rw [BitVec.and_or_distrib_left, shiftBits_or]
        have hzero : shiftWord word (owner bit, (size : Int) - lane bit) 0#64 = 0#64 := by
          unfold shiftWord
          rw [BitVec.and_zero, shiftBits_zero]
        rw [orMap_updateAt (P := fun _ _ => True) hadd hzero fun _ _ => trivial, BitVec.getLsbD_or,
          ih (by omega)]
        unfold placeBit
        grind
      · rw [if_neg hset, ih (by omega)]
        grind

theorem addShifts_word {size : Nat} (hsize : size ≤ 64) (bit : Nat) {mask : BitVec 64}
    (hmask : ∀ i, mask.getLsbD i = true → i < size) (shifts : Shifts) :
    orMap (shiftWord word) (addShifts size bit mask shifts) =
      orMap (shiftWord word) shifts ||| maskWord word bit mask := by
  refine BitVec.eq_of_getLsbD_eq fun i _ => ?_
  rw [getLsbD_addShifts word hsize, BitVec.getLsbD_or]
  unfold maskWord
  have := hmask i
  grind

theorem eval_spreadTerm (bit : Nat) (mask : BitVec 64) :
    (spreadTerm bit mask).eval supported word = maskWord word bit mask := by
  have hshifted : (if lane bit = 0 then Term.name (owner bit)
      else .shiftRight (.name (owner bit)) (lane bit)).eval supported word =
        word (owner bit) >>> lane bit := by
    split_ifs with hzero
    · rw [hzero, BitVec.ushiftRight_zero]
      rfl
    · rfl
  have hbit : (word (owner bit) >>> lane bit) &&& 1#64 =
      if (word (owner bit)).getLsbD (lane bit) then 1#64 else 0#64 := by
    rw [← BitVec.twoPow_zero, BitVec.and_twoPow, BitVec.getLsbD_ushiftRight, Nat.add_zero]
  unfold spreadTerm maskWord
  rw [Term.eval, hshifted, hbit]
  split_ifs
  · exact BitVec.one_mul mask
  · exact BitVec.zero_mul

theorem candidateWord_withConstants (constants : BitVec 64) (terms : List Term) :
    candidateWord supported word (withConstants constants terms) =
      candidateWord supported word terms ||| constants := by
  unfold withConstants candidateWord
  split_ifs with h
  · rw [List.map_append, orAll_append]
    exact congrArg (_ ||| ·) BitVec.or_zero
  · rw [not_or, not_not] at h
    rw [h.1, BitVec.or_zero]

/-- Masks and their shifts, or their spread bits, are the same word. -/
theorem shiftCandidate_word {size : Nat} (hsize : size ≤ 64) {d : Destinations} (h : d.Below size)
    (broadcast : Bool) :
    candidateWord supported word (shiftCandidate size d broadcast) =
      orMap (maskWord word) d.masks ||| d.constants := by
  have hshifts : ∀ shifts : Shifts,
      candidateWord supported word (shifts.map fun p => shiftTerm p.1 p.2) =
        orMap (shiftWord word) shifts := by
    intro shifts
    unfold candidateWord orMap
    rw [List.map_map]
    exact congrArg orAll (List.map_congr_left fun p _ => eval_shiftTerm supported word p.1 p.2)
  have hsplit : ∀ (masks : List (Nat × BitVec 64)) (s : List Term × Shifts),
      (∀ p ∈ masks, ∀ i, p.2.getLsbD i = true → i < size) →
      let split := masks.foldl (fun (s : List Term × Shifts) (p : Nat × BitVec 64) =>
        if broadcast ∧ p.2 &&& (p.2 - 1#64) ≠ 0#64 then (s.1 ++ [spreadTerm p.1 p.2], s.2)
        else (s.1, addShifts size p.1 p.2 s.2)) s
      candidateWord supported word split.1 ||| orMap (shiftWord word) split.2 =
        (candidateWord supported word s.1 ||| orMap (shiftWord word) s.2) |||
          orMap (maskWord word) masks := by
    intro masks
    induction masks with
    | nil => exact fun s _ => BitVec.or_zero.symm
    | cons p masks ih =>
        intro s hmasks
        rw [List.foldl_cons]
        refine (ih _ fun q hq => hmasks q (.tail _ hq)).trans ?_
        rw [orMap_cons]
        split_ifs
        · dsimp only
          unfold candidateWord
          rw [List.map_append, orAll_append, List.map_singleton, eval_spreadTerm]
          simp only [orAll, List.foldr_cons, List.foldr_nil, BitVec.or_zero]
          ac_rfl
        · dsimp only
          rw [addShifts_word word hsize _ (hmasks p (.head _))]
          ac_rfl
  have hall := hsplit d.masks ([], []) h
  unfold shiftCandidate
  dsimp only at hall ⊢
  rw [candidateWord_withConstants]
  refine congrArg (· ||| d.constants) ?_
  rw [← hshifts] at hall
  unfold candidateWord at *
  rw [List.map_append, orAll_append, hall]
  show (0#64 ||| 0#64) ||| _ = _
  rw [BitVec.zero_or, BitVec.zero_or]

/-! ## Routes -/

/-- The positions of a route rise together, up to `last` and below offset `n`. -/
structure Route.Rises (r : Route) (n : Nat) : Prop where
  source : ∀ i, r.source.getLsbD i = true → i ≤ r.last
  destination : ∀ i, r.destination.getLsbD i = true → i < n
  balanced : (setBits r.source).length = (setBits r.destination).length

theorem Route.Rises.mono {r : Route} {n : Nat} (h : r.Rises n) : r.Rises (n + 1) :=
  ⟨h.source, fun i hi => Nat.lt_succ_of_lt (h.destination i hi), h.balanced⟩

def Route.gathers (r : Route) (value : BitVec 64) : BitVec 64 :=
  gatherBits supported value r.source r.destination

section

variable {r : Route} {source n : Nat} (hsource : source < 64) (hn : n < 64)
  (hbefore : ∀ i, r.source.getLsbD i = true → i < source)
  (hbelow : ∀ i, r.destination.getLsbD i = true → i < n)
  (hbalanced : (setBits r.source).length = (setBits r.destination).length)

include hsource hn hbefore hbelow hbalanced

theorem Route.add_rises : (r.add source n).Rises (n + 1) where
  source _ hi := Nat.lt_succ_iff.mp (lt_of_or_twoPow hbefore hi)
  destination _ hi := lt_of_or_twoPow hbelow hi
  balanced := by
    unfold Route.add
    rw [setBits_or_twoPow hsource hbefore, setBits_or_twoPow hn hbelow, List.length_append,
      List.length_append, hbalanced]
    rfl

theorem Route.add_word (value : BitVec 64) :
    (r.add source n).gathers supported value =
      r.gathers supported value ||| placeBit (value.getLsbD source) n := by
  unfold Route.gathers Route.add
  rw [gatherBits_eq, gatherBits_eq, setBits_or_twoPow hsource hbefore, setBits_or_twoPow hn hbelow,
    List.zip_append hbalanced, moveBits_append]
  exact congrArg (_ ||| ·) BitVec.or_zero

end

theorem selectRoute_last {group : List Route} {source i : Nat}
    (h : selectRoute group source = some i) : ∃ r, group[i]? = some r ∧ r.last < source := by
  have key : ∀ (l : List Nat) selected,
      (∀ i, selected = some i → ∃ r, group[i]? = some r ∧ r.last < source) →
      ∀ i, l.foldl (selectStep group source) selected = some i →
        ∃ r, group[i]? = some r ∧ r.last < source := by
    intro l
    induction l with
    | nil => exact fun selected hselected => hselected
    | cons k l ih =>
        intro selected hselected
        refine ih _ fun i hi => ?_
        unfold selectStep at hi
        split_ifs at hi with htake
        · cases hi
          obtain ⟨r, hr, hends⟩ := (Option.any_eq_true _ _).mp htake.1
          exact ⟨r, hr, decide_eq_true_iff.mp hends⟩
        · exact hselected i hi
  exact key _ none (fun _ h => by cases h) i h

/-- A bit starts a route, or follows the last position of one. -/
theorem addRoute_cases (source n : Nat) (group : List Route) :
    addRoute source n group = group ++ [Route.add ⟨source, 0#64, 0#64⟩ source n] ∨
    ∃ before r after, group = before ++ r :: after ∧ r.last < source ∧
      addRoute source n group = before ++ r.add source n :: after := by
  unfold addRoute
  cases hselect : selectRoute group source with
  | none => exact .inl rfl
  | some i =>
      obtain ⟨r, hr, hlast⟩ := selectRoute_last hselect
      obtain ⟨before, r', after, rfl, rfl, hmodify⟩ :=
        List.exists_of_modify (fun r => r.add source n) (List.getElem?_eq_some_iff.mp hr).1
      rw [List.getElem?_append_right (Nat.le_refl _), Nat.sub_self] at hr
      cases hr
      exact .inr ⟨before, r, after, rfl, hlast, hmodify⟩

def groupWord (producer : Nat) (group : List Route) : BitVec 64 :=
  orAll (group.map fun r => r.gathers supported (word producer))

section

variable {group : List Route} {source n : Nat} (hsource : source < 64) (hn : n < 64)
  (h : ∀ r ∈ group, r.Rises n)

include hsource hn h

theorem addRoute_rises : ∀ r ∈ addRoute source n group, r.Rises (n + 1) := by
  rcases addRoute_cases source n group with hcase | ⟨before, r', after, rfl, hlast, hcase⟩
  · rw [hcase]
    intro r hr
    rcases List.mem_append.mp hr with hr | hr
    · exact (h r hr).mono
    · rw [List.mem_singleton.mp hr]
      exact Route.add_rises hsource hn (fun i hi => by simp at hi) (fun i hi => by simp at hi) rfl
  · have hr' := h r' (List.mem_append_right _ (.head _))
    rw [hcase]
    intro r hr
    rcases List.mem_append.mp hr with hr | hr
    · exact (h r (List.mem_append_left _ hr)).mono
    rcases List.mem_cons.mp hr with rfl | hr
    · exact Route.add_rises hsource hn (fun i hi => (hr'.source i hi).trans_lt hlast)
        hr'.destination hr'.balanced
    · exact (h r (List.mem_append_right _ (.tail _ hr))).mono

theorem addRoute_word (producer : Nat) :
    groupWord supported word producer (addRoute source n group) =
      groupWord supported word producer group ||| placeBit ((word producer).getLsbD source) n := by
  unfold groupWord
  rcases addRoute_cases source n group with hcase | ⟨before, r', after, rfl, hlast, hcase⟩
  · have hempty : Route.gathers supported ⟨source, 0#64, 0#64⟩ (word producer) = 0#64 := by
      unfold Route.gathers
      rw [gatherBits_eq, setBits_eq_nil.mpr rfl]
      rfl
    have hnew := @Route.add_word supported ⟨source, 0#64, 0#64⟩ source n hsource hn
      (fun i hi => by simp at hi) (fun i hi => by simp at hi) rfl (word producer)
    rw [hempty, BitVec.zero_or] at hnew
    rw [hcase, List.map_append, orAll_append, List.map_singleton, hnew]
    exact congrArg (_ ||| ·) BitVec.or_zero
  · have hr' := h r' (List.mem_append_right _ (.head _))
    rw [hcase, List.map_append, orAll_append, List.map_append, orAll_append, List.map_cons,
      List.map_cons, Route.add_word supported hsource hn
        (fun i hi => (hr'.source i hi).trans_lt hlast) hr'.destination hr'.balanced]
    simp only [orAll, List.foldr_cons]
    ac_rfl

end

theorem routes_word {value : List Nat} (hlen : value.length ≤ 64) :
    orMap (groupWord supported word) (routes value) =
      orMap (maskWord word) (destinations value).masks := by
  have h := @zipIdx_foldl_rel _ _
    (fun n (map : List (Nat × List Route)) (d : Destinations) =>
      orMap (groupWord supported word) map = orMap (maskWord word) d.masks ∧
        ∀ p ∈ map, ∀ r ∈ p.2, r.Rises n)
    (fun map p => if 1 < p.1 then
      updateAt (fun a b => decide (a < b)) (owner p.1) [] (addRoute (lane p.1) p.2) map
      else map)
    (fun d p => d.add p.1 p.2) value 0 [] ⟨[], 0#64⟩ ?_ ⟨rfl, fun p hp => absurd hp List.not_mem_nil⟩
  · exact h.1
  rintro bit k map d hk ⟨hword, hrises⟩
  have hoffset : k < 64 := by omega
  dsimp only
  by_cases hconstant : bit < 2
  · rw [if_neg (by omega)]
    unfold Destinations.add
    rw [if_pos hconstant]
    exact ⟨hword, fun p hp r hr => (hrises p hp r hr).mono⟩
  rw [if_pos (by omega)]
  refine ⟨?_, ?_⟩
  · have hadd : ∀ group, group = [] ∨ (∀ r ∈ group, r.Rises k) →
        groupWord supported word (owner bit) (addRoute (lane bit) k group) =
          groupWord supported word (owner bit) group |||
            placeBit ((word (owner bit)).getLsbD (lane bit)) k := by
      intro group hgroup
      refine addRoute_word supported word (lane_lt bit) hoffset (fun r hr => ?_) _
      rcases hgroup with rfl | hgroup
      · cases hr
      · exact hgroup r hr
    rw [orMap_updateAt (P := fun _ (group : List Route) => ∀ r ∈ group, r.Rises k) hadd rfl hrises, hword,
      d.add_masks word hconstant]
  · refine updateAt_forall (fun _ (group : List Route) => ∀ r ∈ group, r.Rises k)
      (fun _ (group : List Route) => ∀ r ∈ group, r.Rises (k + 1)) (fun _ _ hv r hr => (hv r hr).mono) ?_ ?_ hrises
    · exact addRoute_rises (lane_lt bit) hoffset fun r hr => by cases hr
    · exact fun group hgroup => addRoute_rises (lane_lt bit) hoffset hgroup

theorem routeCandidate_word {value : List Nat} (hlen : value.length ≤ 64) (constants : BitVec 64) :
    candidateWord supported word (routeCandidate value constants) =
      orMap (maskWord word) (destinations value).masks ||| constants := by
  have hterms : ∀ map : List (Nat × List Route),
      candidateWord supported word
        (map.flatMap fun p => p.2.map fun r => Term.gather p.1 r.source r.destination) =
        orMap (groupWord supported word) map := by
    intro map
    induction map with
    | nil => rfl
    | cons p map ih =>
        unfold candidateWord at *
        rw [List.flatMap_cons, List.map_append, orAll_append, ih, orMap_cons, List.map_map]
        rfl
  unfold routeCandidate
  rw [candidateWord_withConstants, hterms, routes_word supported word hlen]

/-! ## All candidates -/

theorem candidate_word {value : List Nat} (hlen : value.length ≤ 64) {bmi2 : Bool}
    {terms : List Term} (hterms : terms ∈ candidates value bmi2) :
    candidateWord supported word terms = gatherWord word value := by
  obtain ⟨hword, hbelow⟩ := destinations_word word value
  have hcases : terms = shiftCandidate value.length (destinations value) false ∨
      terms = shiftCandidate value.length (destinations value) true ∨
      terms = routeCandidate value (destinations value).constants := by
    rcases List.mem_append.mp hterms with hshift | hroute
    · rcases List.mem_cons.mp hshift with rfl | hshift
      · exact .inl rfl
      · exact .inr (.inl (List.mem_singleton.mp hshift))
    · cases bmi2 with
      | false => cases hroute
      | true => exact .inr (.inr (List.mem_singleton.mp hroute))
  rcases hcases with rfl | rfl | rfl
  · rw [shiftCandidate_word supported word hlen hbelow, hword]
  · rw [shiftCandidate_word supported word hlen hbelow, hword]
  · rw [routeCandidate_word supported word hlen, hword]

/-- The text kept is one of those offered. -/
theorem foldl_shorter_mem (texts : List String) (best : String) :
    texts.foldl shorter best = best ∨ texts.foldl shorter best ∈ texts := by
  induction texts generalizing best with
  | nil => exact .inl rfl
  | cons text texts ih =>
      rw [List.foldl_cons]
      rcases ih (shorter best text) with h | h
      · rw [h]
        unfold shorter
        split_ifs
        · exact .inr (.head _)
        · exact .inl rfl
      · exact .inr (.tail _ h)

/-- For every value of up to 64 bits: each candidate computes the word gathered
bit by bit, whatever the words of the producers are and with or without the
instructions, what is emitted is the original text or that of a candidate, and
the portable loop is an extract and a deposit. Wider values are refused. -/
theorem gathers_equivalent (value : List Nat) (name : Nat → String) (original : String)
    (bmi2 : Bool) :
    (64 < value.length →
      nativeCoalescedAssembly value name original bmi2 = .error "wide native gather") ∧
    (value.length ≤ 64 →
      (∀ terms ∈ candidates value bmi2, ∀ supported word,
        candidateWord supported word terms = gatherWord word value) ∧
      ∃ text, nativeCoalescedAssembly value name original bmi2 = .ok text ∧
        (text = original ∨ ∃ terms ∈ candidates value bmi2, text = candidateText name terms)) ∧
    ∀ x source destination : BitVec 64,
      gatherBitsPortable x source destination = pdep (pext x source) destination := by
  refine ⟨fun hwide => if_pos hwide, fun hlen => ⟨fun terms hterms supported word =>
    candidate_word supported word hlen hterms, ?_⟩, gatherBitsPortable_eq⟩
  unfold nativeCoalescedAssembly
  rw [if_neg (Nat.not_lt.mpr hlen)]
  split_ifs
  · exact ⟨original, rfl, .inl rfl⟩
  refine ⟨_, rfl, (foldl_shorter_mem _ original).imp_right fun hmem => ?_⟩
  obtain ⟨terms, hterms, htext⟩ := List.mem_map.mp hmem
  exact ⟨terms, hterms, htext.symm⟩

/-- Three bits of one word in reverse order and a constant. -/
theorem gathers_equivalent_reversed :
    (∀ terms ∈ candidates [69, 68, 1, 67] true, ∀ supported word,
      candidateWord supported word terms = gatherWord word [69, 68, 1, 67]) :=
  ((gathers_equivalent [69, 68, 1, 67] (fun _ => "value") "original" true).2.1 (by decide)).1

end CppHdl.Native
