import Mathlib.Data.List.Flatten
import CppHdl.Native.Placement

/-!
# Copies of operations

Each lane gets a copy of every operation it owns, with operands that point at
the lane's copies. The first lane to own an operation keeps its number, every
other one takes a new number, so no number is used twice and the nodes of one
lane are not touched again by a later one.
-/

namespace CppHdl.Native

variable {g : Graph} {order : List Nat}

def copyOf (copy : Nat → Option Nat) (i : Nat) : Nat := (copy i).getD i

/-- Where `remap` points a bit. -/
def copiedBit (g : Graph) (order : List Nat) (copy : Nat → Option Nat) (raw : Nat) : Nat :=
  if g.root raw < 2 || weight g order (owner (g.root raw)) = 0 then g.root raw
  else nodeBase (copyOf copy (owner (g.root raw))) + lane (g.root raw)

def copiedNode (g : Graph) (order : List Nat) (copy : Nat → Option Nat) (n : Node) : Node :=
  { n with
    left := n.left.map (copiedBit g order copy)
    right := n.right.map (copiedBit g order copy)
    select := n.select.map (copiedBit g order copy) }

/-- All producers of these bits have copies. -/
def Copied (g : Graph) (order : List Nat) (copy : Nat → Option Nat) (bits : List Nat) : Prop :=
  ∀ b ∈ bits, 2 ≤ g.root b → owner (g.root b) ∈ values g order →
    (copy (owner (g.root b))).isSome = true

theorem remap_ok {copy : Nat → Option Nat} {bits : Value} (h : Copied g order copy bits) :
    remap g order copy bits = .ok (bits.map (copiedBit g order copy)) := by
  unfold remap
  induction bits with
  | nil => rfl
  | cons b bits ih =>
      have hbit : remapBit g order copy b = .ok (copiedBit g order copy b) := by
        unfold remapBit copiedBit
        dsimp only
        split_ifs with hroot
        · rfl
        · simp only [Bool.or_eq_true, decide_eq_true_eq, not_or] at hroot
          have hsome := h b List.mem_cons_self (by omega) (weight_ne_zero.mp hroot.2)
          obtain ⟨index, hindex⟩ := Option.isSome_iff_exists.mp hsome
          simp only [hindex, copyOf, Option.getD_some]
      rw [List.mapM_cons, hbit, ih fun b' hb' => h b' (List.mem_cons_of_mem _ hb')]
      rfl

theorem remapNode_ok {copy : Nat → Option Nat} {n : Node} (h : Copied g order copy n.operands) :
    remapNode g order copy n = .ok (copiedNode g order copy n) := by
  unfold remapNode
  rw [remap_ok fun b hb => h b (by simp [Node.operands, hb]),
    remap_ok fun b hb => h b (by simp [Node.operands, hb]),
    remap_ok fun b hb => h b (by simp [Node.operands, hb])]
  rfl

/-- An operation reads copies of its dependencies only. -/
theorem operand_dependency {i : Nat} {n : Node} (hi : i ∈ values g order)
    (hn : g.nodes[i]? = some n) {b : Nat} (hb : b ∈ n.operands) (hroot : 2 ≤ g.root b)
    (hvalue : owner (g.root b) ∈ values g order) :
    owner (g.root b) ∈ dependencies g order i :=
  mem_dependencies.mpr ⟨hi, n, hn, b, hb, hroot, rfl, isSource_of_isValue (mem_values.mp hvalue).2⟩

theorem copiedNode_congr {i : Nat} {n : Node} (hi : i ∈ values g order)
    (hn : g.nodes[i]? = some n) {copy copy' : Nat → Option Nat}
    (h : ∀ d ∈ dependencies g order i, copy d = copy' d) :
    copiedNode g order copy n = copiedNode g order copy' n := by
  have hbit : ∀ b ∈ n.operands, copiedBit g order copy b = copiedBit g order copy' b := by
    intro b hb
    unfold copiedBit
    split_ifs with hroot
    · rfl
    · simp only [Bool.or_eq_true, decide_eq_true_eq, not_or] at hroot
      rw [copyOf, copyOf, h _ (operand_dependency hi hn hb (by omega) (weight_ne_zero.mp hroot.2))]
  unfold copiedNode
  rw [List.map_congr_left fun b hb => hbit b (by simp [Node.operands, hb]),
    List.map_congr_left (l := n.right) fun b hb => hbit b (by simp [Node.operands, hb]),
    List.map_congr_left (l := n.select) fun b hb => hbit b (by simp [Node.operands, hb])]

/-! ## One lane -/

/-- The numbers in use: those of copies made. The other nodes are as they
were. -/
structure InUse (g : Graph) (used : List Nat) (c : Clones) : Prop where
  size : g.nodes.size ≤ c.nodes.size
  nodup : used.Nodup
  bound : ∀ i ∈ used, i < c.nodes.size
  reused : ∀ i, i < g.nodes.size → (c.reused i = true ↔ i ∈ used)
  original : ∀ i, i < g.nodes.size → i ∉ used → c.nodes[i]? = g.nodes[i]?

theorem InUse.push {used : List Nat} {c : Clones} (h : InUse g used c) (n : Node) :
    InUse g (used ++ [c.nodes.size]) { c with nodes := c.nodes.push n } where
  size := by
    rw [Array.size_push]
    exact Nat.le_succ_of_le h.size
  nodup := List.nodup_append.mpr ⟨h.nodup, List.nodup_singleton _, fun a ha b hb => by
    rw [List.mem_singleton.mp hb]
    exact (h.bound a ha).ne⟩
  bound i hi := by
    rw [Array.size_push]
    rcases List.mem_append.mp hi with hi | hi
    · exact (h.bound i hi).trans (Nat.lt_succ_self _)
    · rw [List.mem_singleton.mp hi]
      exact Nat.lt_succ_self _
  reused i hi := by
    have hne : i ≠ c.nodes.size := (hi.trans_le h.size).ne
    rw [List.mem_append, List.mem_singleton, or_iff_left hne]
    exact h.reused i hi
  original i hi hnew := by
    rw [Array.getElem?_push_lt (hi.trans_le h.size), ← Array.getElem?_eq_getElem]
    exact h.original i hi fun hmem => hnew (List.mem_append_left _ hmem)

theorem InUse.set {used : List Nat} {c : Clones} (h : InUse g used c) {i : Nat}
    (hi : i < g.nodes.size) (hnew : i ∉ used) (n : Node) :
    InUse g (used ++ [i])
      { nodes := c.nodes.setIfInBounds i n, reused := Function.update c.reused i true } where
  size := by
    rw [Array.size_setIfInBounds]
    exact h.size
  nodup := List.nodup_append.mpr ⟨h.nodup, List.nodup_singleton _, fun a ha b hb heq => by
    rw [List.mem_singleton.mp hb] at heq
    exact hnew (heq ▸ ha)⟩
  bound j hj := by
    rw [Array.size_setIfInBounds]
    rcases List.mem_append.mp hj with hj | hj
    · exact h.bound j hj
    · rw [List.mem_singleton.mp hj]
      exact hi.trans_le h.size
  reused j hj := by
    by_cases heq : j = i
    · subst heq
      simp
    · simp only [Function.update_of_ne heq, List.mem_append, List.mem_singleton, heq, or_false]
      exact h.reused j hj
  original j hj hnewj := by
    simp only [List.mem_append, List.mem_singleton, not_or] at hnewj
    rw [Array.getElem?_setIfInBounds_ne (Ne.symm hnewj.2)]
    exact h.original j hj hnewj.1

/-- The operations in `done` were copied for a lane. -/
structure Copying (g : Graph) (order : List Nat) (c₀ : Clones) (used : List Nat)
    (done : List Nat) (s : LaneCopy) : Prop where
  inUse : InUse g (used ++ s.tasks) s.clones
  kept : ∀ i ∈ used, s.clones.nodes[i]? = c₀.nodes[i]?
  tasks : s.tasks = done.map (copyOf s.copy)
  copied : ∀ i, (s.copy i).isSome = true ↔ i ∈ done
  node : ∀ i ∈ done, ∀ n, g.nodes[i]? = some n →
    s.clones.nodes[copyOf s.copy i]? = some (copiedNode g order s.copy n)
  number : ∀ i ∈ done, copyOf s.copy i = i ∨ g.nodes.size ≤ copyOf s.copy i
  first : used = [] → ∀ i ∈ done, s.copy i = some i

theorem Copying.start {c : Clones} {used : List Nat} (h : InUse g used c) :
    Copying g order c used [] { clones := c } where
  inUse := by simpa using h
  kept _ _ := rfl
  tasks := rfl
  copied i := by simp
  node _ h := by cases h
  number _ h := by cases h
  first _ _ h := by cases h

/-- What a new copy needs: an operation not copied yet, whose dependencies
are. -/
structure Next (g : Graph) (order done : List Nat) (i : Nat) : Prop where
  value : i ∈ values g order
  new : i ∉ done
  closed : ∀ d ∈ dependencies g order i, d ∈ done

theorem Copying.add {c₀ : Clones} {used done : List Nat} {s : LaneCopy}
    (h : Copying g order c₀ used done s) (hvalues : ∀ j ∈ done, j ∈ values g order)
    (hclosed : ∀ j ∈ done, ∀ d ∈ dependencies g order j, d ∈ done) {i : Nat} {n : Node}
    (hnext : Next g order done i) (hn : g.nodes[i]? = some n) {index : Nat} {c : Clones}
    (hinUse : InUse g (used ++ s.tasks ++ [index]) c)
    (hnode : c.nodes[index]? = some (copiedNode g order s.copy n))
    (hkept : ∀ j ∈ used ++ s.tasks, c.nodes[j]? = s.clones.nodes[j]?)
    (hnumber : index = i ∨ g.nodes.size ≤ index) (hfirst : used = [] → index = i) :
    Copying g order c₀ used (done ++ [i])
      { clones := c, copy := Function.update s.copy i (some index), tasks := s.tasks ++ [index] } := by
  have hcopy : ∀ j ∈ done, Function.update s.copy i (some index) j = s.copy j := fun j hj =>
    Function.update_of_ne (show j ≠ i from fun heq => hnext.new (heq ▸ hj)) _ _
  have hcopyOf : ∀ j ∈ done, copyOf (Function.update s.copy i (some index)) j = copyOf s.copy j :=
    fun j hj => by rw [copyOf, hcopy j hj, copyOf]
  have hself : copyOf (Function.update s.copy i (some index)) i = index := by
    rw [copyOf, Function.update_self, Option.getD_some]
  refine ⟨by simpa using hinUse, fun j hj => ?_, ?_, fun j => ?_, fun j hj m hm => ?_,
    fun j hj => ?_, fun hused j hj => ?_⟩
  · rw [hkept j (List.mem_append_left _ hj), h.kept j hj]
  · rw [List.map_append, List.map_singleton, hself, h.tasks]
    exact congrArg (· ++ [index]) (List.map_congr_left fun j hj => (hcopyOf j hj).symm)
  · by_cases heq : j = i
    · subst heq
      simp
    · simp only [Function.update_of_ne heq, h.copied j, List.mem_append, List.mem_singleton, heq,
        or_false]
  · rcases List.mem_append.mp hj with hj | hj
    · have htask : copyOf s.copy j ∈ s.tasks := by
        rw [h.tasks]
        exact List.mem_map_of_mem hj
      show c.nodes[copyOf (Function.update s.copy i (some index)) j]? = _
      rw [hcopyOf j hj, hkept _ (List.mem_append_right _ htask), h.node j hj m hm]
      exact congrArg some (copiedNode_congr (hvalues j hj) hm fun d hd =>
        (hcopy d (hclosed j hj d hd)).symm)
    · obtain rfl := List.mem_singleton.mp hj
      rw [hn] at hm
      obtain rfl := Option.some.inj hm
      show c.nodes[copyOf (Function.update s.copy j (some index)) j]? = _
      rw [hself, hnode]
      exact congrArg some (copiedNode_congr hnext.value hn fun d hd =>
        (hcopy d (hnext.closed d hd)).symm)
  · show copyOf (Function.update s.copy i (some index)) j = j ∨
      g.nodes.size ≤ copyOf (Function.update s.copy i (some index)) j
    rcases List.mem_append.mp hj with hj | hj
    · rw [hcopyOf j hj]
      exact h.number j hj
    · obtain rfl := List.mem_singleton.mp hj
      rw [hself]
      exact hnumber
  · rcases List.mem_append.mp hj with hj | hj
    · exact (hcopy j hj).trans (h.first hused j hj)
    · obtain rfl := List.mem_singleton.mp hj
      exact (Function.update_self ..).trans (congrArg some (hfirst hused))

theorem Copying.cloneNode {c₀ : Clones} {used done : List Nat} {s : LaneCopy}
    (h : Copying g order c₀ used done s) (hvalues : ∀ j ∈ done, j ∈ values g order)
    (hclosed : ∀ j ∈ done, ∀ d ∈ dependencies g order j, d ∈ done) {i : Nat}
    (hnext : Next g order done i) :
    ∃ s', cloneNode g order s i = .ok s' ∧ Copying g order c₀ used (done ++ [i]) s' := by
  obtain ⟨n, hn, -⟩ := isValue_iff.mp (mem_values.mp hnext.value).2
  have hi : i < g.nodes.size := (Array.getElem?_eq_some_iff.mp hn).1
  have hoperands : Copied g order s.copy n.operands := fun b hb hroot hvalue =>
    (h.copied _).mpr (hnext.closed _ (operand_dependency hnext.value hn hb hroot hvalue))
  have hbound := h.inUse.bound
  by_cases hreused : s.clones.reused i = true
  · refine ⟨_, by
      simp only [Native.cloneNode, hn, remapNode_ok hoperands, bind, Except.bind, hreused, if_true]
      rfl, ?_⟩
    refine h.add hvalues hclosed hnext hn (h.inUse.push _) (by simp) (fun j hj => ?_)
      (.inr h.inUse.size) fun hused => ?_
    · show (s.clones.nodes.push _)[j]? = _
      rw [Array.getElem?_push_lt (hbound j hj), ← Array.getElem?_eq_getElem]
    · -- The first lane reuses everything: its copies keep their numbers.
      have htasks : i ∈ s.tasks := by
        have hmem := (h.inUse.reused i hi).mp hreused
        rwa [hused, List.nil_append] at hmem
      rw [h.tasks] at htasks
      obtain ⟨j, hj, heq⟩ := List.mem_map.mp htasks
      rw [copyOf, h.first hused j hj, Option.getD_some] at heq
      exact absurd (heq ▸ hj) hnext.new
  · have hnew : i ∉ used ++ s.tasks := fun hmem => hreused ((h.inUse.reused i hi).mpr hmem)
    refine ⟨_, by
      simp only [Native.cloneNode, hn, remapNode_ok hoperands, bind, Except.bind, hreused]
      rfl, ?_⟩
    refine h.add hvalues hclosed hnext hn (h.inUse.set hi hnew _) ?_ (fun j hj => ?_) (.inl rfl)
      fun _ => rfl
    · simp [hi.trans_le h.inUse.size]
    · exact Array.getElem?_setIfInBounds_ne (show i ≠ j from fun heq => hnew (heq ▸ hj))

theorem copy_lane {c : Clones} {used : List Nat} (h : InUse g used c) {own : List Nat}
    (hown : own.Nodup) (hvalues : ∀ i ∈ own, i ∈ values g order)
    (hbehind : Topological (fun i d => d ∈ dependencies g order i) own) :
    ∃ s, own.foldlM (cloneNode g order) { clones := c } = .ok s ∧ Copying g order c used own s := by
  have key : ∀ done, done <+: own → ∃ s, done.foldlM (cloneNode g order) { clones := c } = .ok s ∧
      Copying g order c used done s := by
    intro done
    induction done using List.reverseRecOn with
    | nil => exact fun _ => ⟨_, rfl, .start h⟩
    | append_singleton done i ih =>
        intro hpre
        have hdone := (List.prefix_append done [i]).trans hpre
        obtain ⟨s, hrun, hs⟩ := ih hdone
        obtain ⟨rest, hrest⟩ := hpre
        have hsplit : own = done ++ i :: rest := by rw [← hrest]; simp
        have hnodup : (done ++ i :: rest).Nodup := hsplit ▸ hown
        have hclosed : ∀ j ∈ done, ∀ d ∈ dependencies g order j, d ∈ done := by
          intro j hj d hd
          obtain ⟨l, l', rfl⟩ := List.append_of_mem hj
          exact List.mem_append_left _
            (hbehind l j (l' ++ i :: rest) (by rw [hsplit]; simp) d hd)
        obtain ⟨s', hrun', hs'⟩ := hs.cloneNode (fun j hj => hvalues j (hdone.subset hj)) hclosed
          { value := hvalues i (by rw [hsplit]; simp)
            new := fun hmem => (List.nodup_append.mp hnodup).2.2 i hmem i List.mem_cons_self rfl
            closed := fun d hd => hbehind done i rest hsplit d hd }
        refine ⟨s', ?_, hs'⟩
        rw [List.foldlM_append, hrun]
        simp only [bind, Except.bind, List.foldlM_cons, hrun', List.foldlM_nil, pure, Except.pure]
  exact key own (List.prefix_refl _)

/-! ## Fields -/

/-- Remapping the fields of a lane, each once. -/
theorem remapFields_ok (copy : Nat → Option Nat) {fs : List Field} (fields : Field → Value)
    (hfs : fs.Nodup) (h : ∀ f ∈ fs, Copied g order copy (fields f)) :
    ∃ fields', fs.foldlM (remapField g order copy) fields = .ok fields' ∧
      ∀ f, fields' f = if f ∈ fs then (fields f).map (copiedBit g order copy) else fields f := by
  induction fs generalizing fields with
  | nil => exact ⟨fields, rfl, fun f => by simp⟩
  | cons f fs ih =>
      obtain ⟨hnew, hfs⟩ := List.nodup_cons.mp hfs
      set next := Function.update fields f ((fields f).map (copiedBit g order copy)) with hnext
      have hsame : ∀ f' ∈ fs, next f' = fields f' := fun f' hf' =>
        Function.update_of_ne (show f' ≠ f from fun heq => hnew (heq ▸ hf')) _ _
      obtain ⟨fields', hrun, hfields'⟩ := ih next hfs fun f' hf' => by
        rw [hsame f' hf']
        exact h f' (List.mem_cons_of_mem _ hf')
      have hstep : remapField g order copy fields f = .ok next := by
        unfold remapField
        rw [remap_ok (h f List.mem_cons_self)]
        rfl
      refine ⟨fields', ?_, fun f' => ?_⟩
      · simp only [List.foldlM_cons, hstep, bind, Except.bind, hrun]
      · rw [hfields']
        by_cases hmem : f' ∈ fs
        · rw [if_pos hmem, if_pos (List.mem_cons_of_mem _ hmem), hsame f' hmem]
        · rw [if_neg hmem]
          by_cases heq : f' = f
          · subst heq
            simp [hnext]
          · simp [hnext, hmem, heq]

/-! ## All lanes -/

def own (g : Graph) (order : List Nat) (p : Placement) (lane : Nat) : List Nat :=
  (values g order).filter (· ∈ p.owned lane)

structure LanesDone (g : Graph) (order : List Nat) (r : Roots) (p : Placement) (n : Nat)
    (copies : Nat → Nat → Option Nat) (s : Cloning) : Prop where
  length : s.tasks.length = n
  inUse : InUse g s.tasks.flatten s.clones
  tasks : ∀ lane, lane < n →
    s.tasks[lane]? = some ((own g order p lane).map (copyOf (copies lane)))
  copied : ∀ lane, lane < n → ∀ i, (copies lane i).isSome = true ↔ i ∈ own g order p lane
  node : ∀ lane, lane < n → ∀ i ∈ own g order p lane, ∀ m, g.nodes[i]? = some m →
    s.clones.nodes[copyOf (copies lane) i]? = some (copiedNode g order (copies lane) m)
  number : ∀ lane, lane < n → ∀ i ∈ own g order p lane,
    copyOf (copies lane) i = i ∨ g.nodes.size ≤ copyOf (copies lane) i
  first : 0 < n → ∀ i ∈ own g order p 0, copies 0 i = some i
  fields : ∀ root f, r.Has root f → s.fields f =
    if p.lane root < n then (field g f).map (copiedBit g order (copies (p.lane root)))
    else field g f

theorem own_nodup (hs : Schedules g order) (p : Placement) (lane : Nat) :
    (own g order p lane).Nodup := hs.values_nodup.filter _

theorem own_behind {r : Roots} {lanes : Nat} {p : Placement} (hs : Schedules g order)
    (hp : Placed g order r lanes p) (lane : Nat) :
    Topological (fun i d => d ∈ dependencies g order i) (own g order p lane) :=
  hs.behind.filter _ fun i _ hi d hd => by
    simpa using (hp.closed lane i (by simpa using hi)).2 d hd

def laneFields (r : Roots) (p : Placement) (lane : Nat) : List Field :=
  (r.roots.zipIdx.filter fun root => p.lane root.2 = lane).flatMap (·.1)

theorem mem_laneFields {r : Roots} {p : Placement} {lane : Nat} {f : Field} :
    f ∈ laneFields r p lane ↔ ∃ root, r.Has root f ∧ p.lane root = lane := by
  unfold laneFields Roots.Has
  simp only [List.mem_flatMap, List.mem_filter, Prod.exists, List.mem_zipIdx_iff_getElem?,
    decide_eq_true_eq]
  constructor
  · rintro ⟨fields, root, ⟨hroot, hlane⟩, hf⟩
    exact ⟨root, by rw [List.getD_eq_getElem?_getD, hroot]; exact hf, hlane⟩
  · rintro ⟨root, hf, hlane⟩
    have hlt := lt_of_mem_getD hf
    rw [List.getD_eq_getElem _ _ hlt] at hf
    exact ⟨_, root, ⟨List.getElem?_eq_getElem hlt, hlane⟩, hf⟩

theorem laneFields_nodup {r : Roots} (hr : Rooted g order r) (p : Placement) (lane : Nat) :
    (laneFields r p lane).Nodup := by
  have hsub : (laneFields r p lane).Sublist r.roots.flatten := by
    unfold laneFields
    have h := (List.filter_sublist (p := fun root : List Field × Nat => p.lane root.2 = lane)
      (l := r.roots.zipIdx)).map Prod.fst
    rw [List.zipIdx_map_fst] at h
    rw [List.flatMap_def]
    exact h.flatten
  exact hr.nodup.sublist hsub

theorem Rooted.has_unique {r : Roots} (hr : Rooted g order r) {a b : Nat} {f : Field}
    (ha : r.Has a f) (hb : r.Has b f) : a = b := by
  have hdisjoint := (List.nodup_flatten.mp hr.nodup).2
  rw [List.pairwise_iff_getElem] at hdisjoint
  have hla := lt_of_mem_getD ha
  have hlb := lt_of_mem_getD hb
  unfold Roots.Has at ha hb
  rw [List.getD_eq_getElem _ _ hla] at ha
  rw [List.getD_eq_getElem _ _ hlb] at hb
  rcases Nat.lt_trichotomy a b with hlt | heq | hgt
  · exact absurd hb (hdisjoint a b hla hlb hlt ha)
  · exact heq
  · exact absurd ha (hdisjoint b a hlb hla hgt hb)

theorem field_own {r : Roots} {lanes : Nat} {p : Placement} (hs : Schedules g order)
    (hp : Placed g order r lanes p) {root : Nat} {f : Field} (hf : r.Has root f) {b : Nat}
    (hb : b ∈ field g f) (hroot : 2 ≤ g.root b) (hvalue : owner (g.root b) ∈ values g order) :
    owner (g.root b) ∈ own g order p (p.lane root) := by
  refine List.mem_filter.mpr ⟨hvalue, ?_⟩
  have hproducer : owner (g.root b) ∈ producers g order (r.roots.getD root []) :=
    mem_producers.mpr ⟨hvalue, f, hf, b, hb, hroot, rfl⟩
  simpa using hp.cone root (lt_of_mem_getD hf) _ ((hs.cone _).1 _ hproducer)

theorem field_copied {r : Roots} {lanes : Nat} {p : Placement} (hs : Schedules g order)
    (hp : Placed g order r lanes p) {root : Nat} {f : Field} (hf : r.Has root f)
    {copy : Nat → Option Nat}
    (hcopy : ∀ i ∈ own g order p (p.lane root), (copy i).isSome = true) :
    Copied g order copy (field g f) :=
  fun _ hb hroot hvalue => hcopy _ (field_own hs hp hf hb hroot hvalue)

theorem LanesDone.next {r : Roots} {lanes : Nat} {p : Placement} {n : Nat}
    {copies : Nat → Nat → Option Nat} {s : Cloning} (hs : Schedules g order)
    (hr : Rooted g order r) (hp : Placed g order r lanes p)
    (h : LanesDone g order r p n copies s) :
    ∃ copies' s', cloneLane g order r.roots p s n = .ok s' ∧
      LanesDone g order r p (n + 1) copies' s' := by
  obtain ⟨l, hrun, hl⟩ := copy_lane h.inUse (own_nodup hs p n)
    (fun i hi => (List.mem_filter.mp hi).1) (own_behind hs hp n)
  have hfresh : ∀ f ∈ laneFields r p n, s.fields f = field g f := fun f hf => by
    obtain ⟨root, hroot, hlane⟩ := mem_laneFields.mp hf
    rw [h.fields root f hroot, if_neg (by omega)]
  obtain ⟨fields, hfields, hspec⟩ := remapFields_ok l.copy s.fields (laneFields_nodup hr p n)
    fun f hf => by
      obtain ⟨root, hroot, hlane⟩ := mem_laneFields.mp hf
      rw [hfresh f hf]
      exact field_copied hs hp hroot fun i hi => (hl.copied i).mpr (hlane ▸ hi)
  have hold : ∀ lane, lane < n → Function.update copies n l.copy lane = copies lane :=
    fun lane hlane => Function.update_of_ne hlane.ne _ _
  have hnew : Function.update copies n l.copy n = l.copy := Function.update_self ..
  refine ⟨Function.update copies n l.copy,
    { clones := l.clones, fields, tasks := s.tasks ++ [l.tasks] }, ?_, ?_⟩
  · unfold own at hrun
    unfold laneFields at hfields
    simp only [cloneLane, hrun, hfields, bind, Except.bind, pure, Except.pure]
  refine ⟨by simp [h.length], ?_, fun lane hlane => ?_, fun lane hlane => ?_,
    fun lane hlane i hi m hm => ?_, fun lane hlane i hi => ?_, fun _ i hi => ?_,
    fun root f hroot => ?_⟩
  · simpa using hl.inUse
  · rcases Nat.lt_succ_iff_lt_or_eq.mp hlane with hlane | rfl
    · rw [hold lane hlane, List.getElem?_append_left (by rw [h.length]; exact hlane)]
      exact h.tasks lane hlane
    · rw [hnew, ← hl.tasks]
      simp [← h.length]
  · rcases Nat.lt_succ_iff_lt_or_eq.mp hlane with hlane | rfl
    · rw [hold lane hlane]
      exact h.copied lane hlane
    · rw [hnew]
      exact hl.copied
  · rcases Nat.lt_succ_iff_lt_or_eq.mp hlane with hlane | rfl
    · rw [hold lane hlane]
      have hmem : copyOf (copies lane) i ∈ s.tasks.flatten :=
        List.mem_flatten.mpr ⟨_, List.mem_of_getElem? (h.tasks lane hlane), List.mem_map_of_mem hi⟩
      exact (hl.kept _ hmem).trans (h.node lane hlane i hi m hm)
    · rw [hnew]
      exact hl.node i hi m hm
  · rcases Nat.lt_succ_iff_lt_or_eq.mp hlane with hlane | rfl
    · rw [hold lane hlane]
      exact h.number lane hlane i hi
    · rw [hnew]
      exact hl.number i hi
  · rcases Nat.eq_zero_or_pos n with rfl | hpos
    · have hempty : s.tasks = [] := List.eq_nil_of_length_eq_zero h.length
      rw [hnew]
      exact hl.first (by rw [hempty]; rfl) i hi
    · rw [hold 0 hpos]
      exact h.first hpos i hi
  · have hmem : f ∈ laneFields r p n ↔ p.lane root = n := mem_laneFields.trans
      ⟨fun ⟨root', hroot', hlane⟩ => hr.has_unique hroot hroot' ▸ hlane, fun hlane => ⟨root, hroot, hlane⟩⟩
    show fields f = _
    rw [hspec, h.fields root f hroot]
    rcases Nat.lt_trichotomy (p.lane root) n with hlt | heq | hgt
    · rw [if_neg (by rw [hmem]; omega), if_pos hlt, if_pos (by omega), hold _ hlt]
    · rw [if_pos (hmem.mpr heq), if_neg (by omega), if_pos (by omega), heq, hnew]
    · rw [if_neg (by rw [hmem]; omega), if_neg (by omega), if_neg (by omega)]

theorem lanes_done {r : Roots} {lanes : Nat} {p : Placement} (hs : Schedules g order)
    (hr : Rooted g order r) (hp : Placed g order r lanes p) (n : Nat) :
    ∃ copies s, (List.range n).foldlM (cloneLane g order r.roots p)
        { clones := { nodes := g.nodes }, fields := field g } = .ok s ∧
      LanesDone g order r p n copies s := by
  induction n with
  | zero =>
      refine ⟨fun _ _ => none, _, rfl, rfl, ⟨Nat.le_refl _, by simp, by simp, by simp, by simp⟩,
        by simp, by simp, by simp, by simp, by simp, by simp⟩
  | succ n ih =>
      obtain ⟨copies, s, hrun, h⟩ := ih
      obtain ⟨copies', s', hrun', h'⟩ := h.next hs hr hp
      refine ⟨copies', s', ?_, h'⟩
      rw [List.range_succ, List.foldlM_append, hrun]
      simp only [bind, Except.bind, List.foldlM_cons, hrun', List.foldlM_nil, pure, Except.pure]

end CppHdl.Native
