import CppHdl.Native.Plan

/-!
# Every sink in one root

The roots partition the fields of the graph. States that write one word share a
root: joining their groups builds a forest whose depth grows by at most one
with each join, so the leaders are found within `joinFuel` steps.
-/

namespace CppHdl.Native

/-! ## Lists of buckets -/

section

variable {α : Type}

theorem perm_flatten_modify {l : List (List α)} {i : Nat} (hi : i < l.length) (x : List α) :
    (l.modify i (· ++ x)).flatten.Perm (l.flatten ++ x) := by
  induction l generalizing i with
  | nil => simp at hi
  | cons a l ih =>
      cases i with
      | zero =>
          rw [List.modify_zero_cons, List.flatten_cons, List.flatten_cons, List.append_assoc,
            List.append_assoc]
          exact List.perm_append_comm.append_left a
      | succ i =>
          rw [List.modify_succ_cons, List.flatten_cons, List.flatten_cons, List.append_assoc]
          exact (ih (by simpa using hi)).append_left a

theorem mem_getD_modify {l : List (List α)} {i : Nat} (x : List α) {j : Nat} {a : α}
    (h : a ∈ l.getD j []) : a ∈ (l.modify i (· ++ x)).getD j [] := by
  rw [List.getD_eq_getElem?_getD] at h ⊢
  rw [List.getElem?_modify]
  cases hj : l[j]? with
  | none => simp [hj] at h
  | some b =>
      rw [hj] at h
      simp only [Option.getD_some] at h
      simp only [Option.map_eq_map, Option.map_some, Option.getD_some]
      split_ifs
      · exact List.mem_append_left _ h
      · exact h

theorem mem_getD_modify_self {l : List (List α)} {i : Nat} (hi : i < l.length) {x : List α} {a : α}
    (h : a ∈ x) : a ∈ (l.modify i (· ++ x)).getD i [] := by
  rw [List.getD_eq_getElem?_getD, List.getElem?_modify, List.getElem?_eq_getElem hi]
  simp [h]

theorem mem_getD_append {l m : List (List α)} {j : Nat} {a : α} (h : a ∈ l.getD j []) :
    a ∈ (l ++ m).getD j [] := by
  have hj : j < l.length := by
    by_contra hle
    rw [List.getD_eq_default _ _ (by omega)] at h
    cases h
  rwa [List.getD_append _ _ _ _ hj]

theorem mem_getD_snoc {l : List (List α)} {x : List α} {a : α} (h : a ∈ x) :
    a ∈ (l ++ [x]).getD l.length [] := by
  simpa using h

theorem mem_getD_map {β : Type} {l : List (List α)} {fields : β → List α} {xs : List β} {k : Nat}
    {x : β} {a : α} (hx : xs[k]? = some x) (h : a ∈ fields x) :
    a ∈ (l ++ xs.map fields).getD (l.length + k) [] := by
  rw [List.getD_eq_getElem?_getD, List.getElem?_append_right (by omega), Nat.add_sub_cancel_left,
    List.getElem?_map, hx]
  exact h

theorem flatten_map_singleton {β : Type} (f : β → α) (l : List β) :
    (l.map fun x => [f x]).flatten = l.map f := by
  induction l with
  | nil => rfl
  | cons x l ih => simp [ih]

theorem lt_of_mem_getD {l : List (List α)} {j : Nat} {a : α} (h : a ∈ l.getD j []) :
    j < l.length := by
  by_contra hle
  rw [List.getD_eq_default _ _ (by omega)] at h
  cases h

end

/-! ## Groups of writers -/

/-- Every chain ends within `d` steps. -/
def Depth (group : Nat → Nat) (d : Nat) : Prop := ∀ i, group (group^[d] i) = group^[d] i

theorem iterate_of_fixed {group : Nat → Nat} {i : Nat} (h : group i = i) (k : Nat) :
    group^[k] i = i := Function.iterate_fixed h k

theorem Depth.iterate {group : Nat → Nat} {d fuel : Nat} (h : Depth group d) (hle : d ≤ fuel)
    (i : Nat) : group^[fuel] i = group^[d] i := by
  obtain ⟨k, rfl⟩ := Nat.exists_eq_add_of_le' hle
  rw [Function.iterate_add_apply, iterate_of_fixed (h i)]

theorem iterate_link {group : Nat → Nat} {r r' : Nat} (hr : group r = r) (hr' : group r' = r') :
    ∀ d i, group (group^[d] i) = group^[d] i →
      (Function.update group r r')^[d + 1] i = if group^[d] i = r then r' else group^[d] i := by
  have hfixed : ∀ k, (Function.update group r r')^[k] r' = r' := by
    refine iterate_of_fixed ?_
    by_cases heq : r' = r
    · rw [heq, Function.update_self]
    · rw [Function.update_of_ne heq, hr']
  intro d
  induction d with
  | zero =>
      intro i hi
      change group i = i at hi
      show Function.update group r r' i = if i = r then r' else i
      by_cases heq : i = r
      · rw [heq, Function.update_self, if_pos rfl]
      · rw [Function.update_of_ne heq, hi, if_neg heq]
  | succ d ih =>
      intro i hi
      rw [Function.iterate_succ_apply] at hi
      by_cases heq : i = r
      · subst heq
        rw [Function.iterate_succ_apply, Function.update_self, hfixed, iterate_of_fixed hr,
          if_pos rfl]
      · rw [Function.iterate_succ_apply, Function.update_of_ne heq, ih _ hi,
          Function.iterate_succ_apply]

theorem Depth.link {group : Nat → Nat} {d r r' : Nat} (h : Depth group d) (hr : group r = r)
    (hr' : group r' = r') : Depth (Function.update group r r') (d + 1) := by
  intro i
  rw [iterate_link hr hr' d i (h i)]
  split_ifs with heq
  · by_cases hne : r' = r
    · rw [hne, Function.update_self, ← hne]
    · rw [Function.update_of_ne hne, hr']
  · rw [Function.update_of_ne heq, h i]

/-- The words used so far have a first writer, and later ones are in its
group. -/
structure Joined (fuel d : Nat) (uses : List (Nat × Nat)) (s : Groups) : Prop where
  depth : Depth s.group d
  writers : ∀ u ∈ uses, ∃ first, s.writers (owner u.2) = some first ∧
    leader s.group fuel u.1 = leader s.group fuel first

theorem Joined.snoc {fuel d : Nat} {uses : List (Nat × Nat)} {s : Groups}
    (h : Joined fuel d uses s) (hfuel : d + 1 ≤ fuel) (i bit : Nat) :
    Joined fuel (d + 1) (uses ++ [(i, bit)]) (joinWriter fuel i s bit) := by
  have hleader : ∀ j, s.group (leader s.group fuel j) = leader s.group fuel j := by
    intro j
    unfold leader
    rw [h.depth.iterate (by omega)]
    exact h.depth j
  unfold joinWriter
  cases hw : s.writers (owner bit) with
  | none =>
      refine ⟨fun j => ?_, fun u hu => ?_⟩
      · rw [h.depth.iterate (Nat.le_succ d)]
        exact h.depth j
      · rcases List.mem_append.mp hu with hu | hu
        · obtain ⟨first, hfirst, hsame⟩ := h.writers u hu
          refine ⟨first, ?_, hsame⟩
          have hne : owner u.2 ≠ owner bit := fun heq => by
            rw [heq, hw] at hfirst
            cases hfirst
          simp only [Function.update_of_ne hne, hfirst]
        · obtain rfl := List.mem_singleton.mp hu
          exact ⟨i, by simp, rfl⟩
  | some first =>
      have hlink : ∀ j, leader (Function.update s.group (leader s.group fuel i)
          (leader s.group fuel first)) fuel j =
          if leader s.group fuel j = leader s.group fuel i then leader s.group fuel first
          else leader s.group fuel j := by
        intro j
        have hdepth := h.depth.link (hleader i) (hleader first)
        unfold leader at hdepth ⊢
        rw [hdepth.iterate hfuel, h.depth.iterate (by omega : d ≤ fuel) j]
        exact iterate_link (hleader i) (hleader first) d j (h.depth j)
      refine ⟨h.depth.link (hleader i) (hleader first), fun u hu => ?_⟩
      rcases List.mem_append.mp hu with hu | hu
      · obtain ⟨first', hfirst', hsame⟩ := h.writers u hu
        exact ⟨first', hfirst', by simp only [hlink, hsame]⟩
      · obtain rfl := List.mem_singleton.mp hu
        refine ⟨first, hw, ?_⟩
        simp only [hlink, if_pos]
        split_ifs <;> rfl

/-- Every state with every bit it writes. -/
def uses (g : Graph) : List (Nat × Nat) :=
  g.states.zipIdx.flatMap fun p => p.1.bits.map (p.2, ·)

theorem groups_eq (g : Graph) :
    groups g = (uses g).foldl (fun s u => joinWriter (joinFuel g) u.1 s u.2) {} := by
  unfold groups uses
  rw [List.foldl_flatMap]
  simp only [List.foldl_map]

theorem length_uses (g : Graph) : (uses g).length = joinFuel g := by
  unfold uses joinFuel
  rw [List.length_flatMap]
  simp only [List.length_map]
  conv_rhs => rw [← List.zipIdx_map_fst 0 g.states, List.map_map]
  rfl

theorem groups_joined (g : Graph) : Joined (joinFuel g) (uses g).length (uses g) (groups g) := by
  rw [groups_eq]
  have key : ∀ l, l <+: uses g → Joined (joinFuel g) l.length l
      (l.foldl (fun s u => joinWriter (joinFuel g) u.1 s u.2) {}) := by
    intro l
    induction l using List.reverseRecOn with
    | nil => exact fun _ => ⟨fun _ => rfl, by simp⟩
    | append_singleton l u ih =>
        intro hl
        have hlen := hl.length_le
        rw [length_uses] at hlen
        rw [List.foldl_append]
        simpa using (ih ((List.prefix_append l [u]).trans hl)).snoc (by simpa using hlen) u.1 u.2
  exact key _ (List.prefix_refl _)

theorem leader_eq {g : Graph} {i j : Nat} {s t : State} (hi : g.states[i]? = some s)
    (hj : g.states[j]? = some t) {b c : Nat} (hb : b ∈ s.bits) (hc : c ∈ t.bits)
    (hword : owner b = owner c) :
    leader (groups g).group (joinFuel g) i = leader (groups g).group (joinFuel g) j := by
  have hmem : ∀ {i s b}, g.states[i]? = some s → b ∈ s.bits → (i, b) ∈ uses g := by
    intro i s b hi hb
    refine List.mem_flatMap.mpr ⟨(s, i), ?_, List.mem_map.mpr ⟨b, hb, rfl⟩⟩
    exact List.mem_zipIdx_iff_getElem?.mpr (by simpa using hi)
  obtain ⟨first, hfirst, hsame⟩ := (groups_joined g).writers _ (hmem hi hb)
  obtain ⟨first', hfirst', hsame'⟩ := (groups_joined g).writers _ (hmem hj hc)
  rw [hsame, hsame']
  simp only at hfirst hfirst'
  rw [hword, hfirst'] at hfirst
  rw [Option.some.inj hfirst]

/-! ## The roots -/

def Roots.Has (r : Roots) (root : Nat) (f : Field) : Prop := f ∈ r.roots.getD root []

/-- No field is in two roots, every sink is in the root the tables name, and
states that write one word share theirs. -/
structure Rooted (g : Graph) (order : List Nat) (r : Roots) : Prop where
  nodup : r.roots.flatten.Nodup
  ports : ∀ i p, g.ports[i]? = some p → ∃ words, r.portRoots[i]? = some words ∧
    words.length = (if p.input then 0 else portWords p.bits.length) ∧
    ∀ word root, words[word]? = some root → r.Has root (.portSlice i word)
  states : ∀ i, i < g.states.length → ∃ root, r.stateRoots[i]? = some root ∧
    ∀ f ∈ stateFields i, r.Has root f
  accesses : ∀ i, i < g.memoryAccesses.length → ∃ root, r.accessRoots[i]? = some root ∧
    r.Has root (.accessAddress i) ∧ r.Has root (.accessEnabled i)
  writes : ∀ i, i < g.memoryWrites.length → ∃ root, r.writeRoots[i]? = some root ∧
    r.Has root (.writeAddress i) ∧ r.Has root (.writeData i) ∧ r.Has root (.writeEnabled i)
  hosts : ∀ i ∈ order, isHost g i = true → ∃ root ∈ r.hostRoots, r.Has root (.hostValue i)
  validations : ∀ i, isValidation g i = true → ∃ root ∈ r.validationRoots,
    r.Has root (.validation i)
  writers : ∀ (i j : Nat) (s t : State), g.states[i]? = some s → g.states[j]? = some t → ∀ b ∈ s.bits, ∀ c ∈ t.bits,
    owner b = owner c → r.stateRoots[i]? = r.stateRoots[j]?

/-- A phase that puts each of its sinks in a root of its own and notes these
roots in one table. -/
theorem foldl_push (add : Roots → Nat → Roots) (fields : Nat → List Field)
    (table : Roots → List Nat) (hroots : ∀ r x, (add r x).roots = r.roots ++ [fields x])
    (htable : ∀ r x, table (add r x) = table r ++ [r.roots.length]) (xs : List Nat) (r : Roots) :
    (xs.foldl add r).roots = r.roots ++ xs.map fields ∧
      table (xs.foldl add r) = table r ++ (List.range xs.length).map (r.roots.length + ·) := by
  induction xs using List.reverseRecOn with
  | nil => simp
  | append_singleton xs x ih =>
      rw [List.foldl_append, List.foldl_cons, List.foldl_nil, hroots, htable, ih.1, ih.2]
      simp [List.range_succ]

/-- Such a phase leaves the other tables alone. -/
theorem foldl_keeps {α : Type} {β : Type} (add : Roots → β → Roots) (table : Roots → α)
    (htable : ∀ r x, table (add r x) = table r) (xs : List β) (r : Roots) :
    table (xs.foldl add r) = table r := by
  induction xs generalizing r with
  | nil => rfl
  | cons x xs ih => rw [List.foldl_cons, ih, htable]

def portFields (i : Nat) (p : Port) : List Field :=
  (List.range (if p.input then 0 else portWords p.bits.length)).map (.portSlice i)

theorem addPort_flatten (r : Roots) (i : Nat) (p : Port) :
    (addPort r i p).roots.flatten = r.roots.flatten ++ portFields i p := by
  unfold addPort portFields
  rw [List.flatten_append, flatten_map_singleton]

theorem addPort_has (r : Roots) (i : Nat) (p : Port) {root : Nat} {f : Field}
    (h : r.Has root f) : (addPort r i p).Has root f := mem_getD_append h

theorem addPort_words (r : Roots) (i : Nat) (p : Port) : ∃ words,
    (addPort r i p).portRoots = r.portRoots ++ [words] ∧
    words.length = (if p.input then 0 else portWords p.bits.length) ∧
    ∀ word root, words[word]? = some root → (addPort r i p).Has root (.portSlice i word) := by
  refine ⟨_, rfl, by simp, fun word root hroot => ?_⟩
  simp only [List.getElem?_map, Option.map_eq_some_iff] at hroot
  obtain ⟨w, hw, rfl⟩ := hroot
  obtain ⟨hlt, rfl⟩ := List.getElem?_eq_some_iff.mp hw
  simp only [List.length_range] at hlt
  simp [Roots.Has, addPort, List.getD_eq_getElem?_getD, hlt]

theorem ports_rooted (ps : List Port) :
    let r := ps.zipIdx.foldl (fun r p => addPort r p.2 p.1) {}
    r.roots.flatten = ps.zipIdx.flatMap (fun p => portFields p.2 p.1) ∧
    r.portRoots.length = ps.length ∧
    ∀ i p, ps[i]? = some p → ∃ words, r.portRoots[i]? = some words ∧
      words.length = (if p.input then 0 else portWords p.bits.length) ∧
      ∀ word root, words[word]? = some root → r.Has root (.portSlice i word) := by
  induction ps using List.reverseRecOn with
  | nil => simp
  | append_singleton ps p ih =>
      obtain ⟨hflat, hlen, hports⟩ := ih
      intro r
      have hr : r = addPort (ps.zipIdx.foldl (fun r p => addPort r p.2 p.1) {}) ps.length p := by
        simp [r, List.zipIdx_append]
      obtain ⟨words, hwords, hlength, hhas⟩ := addPort_words
        (ps.zipIdx.foldl (fun r p => addPort r p.2 p.1) {}) ps.length p
      rw [hr]
      refine ⟨?_, by simp [hwords, hlen], fun i q hi => ?_⟩
      · rw [addPort_flatten, hflat, List.zipIdx_append, List.flatMap_append]
        simp
      · rcases Nat.lt_trichotomy i ps.length with hlt | rfl | hgt
        · rw [List.getElem?_append_left hlt] at hi
          obtain ⟨words', hwords', hlength', hhas'⟩ := hports i q hi
          refine ⟨words', ?_, hlength', fun word root hroot => addPort_has _ _ _ (hhas' word root hroot)⟩
          rw [hwords, List.getElem?_append_left (by omega), hwords']
        · simp only [List.getElem?_concat_length, Option.some.injEq] at hi
          subst hi
          refine ⟨words, ?_, hlength, hhas⟩
          rw [hwords, ← hlen, List.getElem?_concat_length]
        · rw [List.getElem?_eq_none (by simp; omega)] at hi
          cases hi

theorem addState_some {leader : Nat → Nat} {r : Roots} {groupRoot : Nat → Option Nat} {i root : Nat}
    (h : groupRoot (leader i) = some root) : addState leader (r, groupRoot) i =
      ({ r with
          roots := r.roots.modify root (· ++ stateFields i)
          stateRoots := r.stateRoots ++ [root] }, groupRoot) := by
  simp only [addState, h]

theorem addState_none {leader : Nat → Nat} {r : Roots} {groupRoot : Nat → Option Nat} {i : Nat}
    (h : groupRoot (leader i) = none) : addState leader (r, groupRoot) i =
      ({ r with
          roots := r.roots ++ [stateFields i]
          stateRoots := r.stateRoots ++ [r.roots.length] },
        Function.update groupRoot (leader i) (some r.roots.length)) := by
  simp only [addState, h]

/-- The states so far are in the roots of their leaders. -/
structure StatesIn (leader : Nat → Nat) (r₀ : Roots) (n : Nat)
    (s : Roots × (Nat → Option Nat)) : Prop where
  kept : ∀ root f, r₀.Has root f → s.1.Has root f
  perm : s.1.roots.flatten.Perm (r₀.roots.flatten ++ (List.range n).flatMap stateFields)
  length : s.1.stateRoots.length = n
  roots : ∀ l root, s.2 l = some root → root < s.1.roots.length
  states : ∀ i, i < n → ∃ root, s.1.stateRoots[i]? = some root ∧ s.2 (leader i) = some root ∧
    ∀ f ∈ stateFields i, s.1.Has root f

theorem StatesIn.snoc {leader : Nat → Nat} {r₀ : Roots} {n : Nat}
    {s : Roots × (Nat → Option Nat)} (h : StatesIn leader r₀ n s) :
    StatesIn leader r₀ (n + 1) (addState leader s n) := by
  obtain ⟨r, groupRoot⟩ := s
  obtain ⟨hkept, hperm, hlen, hroots, hstates⟩ := h
  simp only at hkept hperm hlen hroots hstates
  have hrange : (List.range (n + 1)).flatMap stateFields =
      (List.range n).flatMap stateFields ++ stateFields n := by simp [List.range_succ]
  cases hg : groupRoot (leader n) with
  | some root =>
      have hlt := hroots _ _ hg
      rw [addState_some hg]
      refine ⟨fun root' f hf => mem_getD_modify _ (hkept root' f hf), ?_, by simp [hlen],
        fun l root' hl => by simpa using hroots l root' hl, fun i hi => ?_⟩
      · rw [hrange, ← List.append_assoc]
        exact (perm_flatten_modify hlt _).trans (hperm.append_right _)
      · rcases Nat.lt_succ_iff_lt_or_eq.mp hi with hi | rfl
        · obtain ⟨root', hroot', hleader, hfields⟩ := hstates i hi
          refine ⟨root', ?_, hleader, fun f hf => mem_getD_modify _ (hfields f hf)⟩
          simp only
          rw [List.getElem?_append_left (by omega), hroot']
        · refine ⟨root, ?_, hg, fun f hf => mem_getD_modify_self hlt hf⟩
          simp only [← hlen, List.getElem?_concat_length]
  | none =>
      rw [addState_none hg]
      refine ⟨fun root' f hf => mem_getD_append (hkept root' f hf), ?_, by simp [hlen],
        fun l root' hl => ?_, fun i hi => ?_⟩
      · rw [hrange, ← List.append_assoc]
        simpa using hperm.append_right (stateFields n)
      · by_cases heq : l = leader n
        · subst heq
          simp only [Function.update_self, Option.some.injEq] at hl
          simp [← hl]
        · simp only [Function.update_of_ne heq] at hl
          have := hroots l root' hl
          simp only [List.length_append, List.length_singleton]
          omega
      · rcases Nat.lt_succ_iff_lt_or_eq.mp hi with hi | rfl
        · obtain ⟨root', hroot', hleader, hfields⟩ := hstates i hi
          have hne : leader i ≠ leader n := fun heq => by
            rw [heq, hg] at hleader
            cases hleader
          refine ⟨root', ?_, by simp only [Function.update_of_ne hne, hleader],
            fun f hf => mem_getD_append (hfields f hf)⟩
          simp only
          rw [List.getElem?_append_left (by omega), hroot']
        · refine ⟨r.roots.length, ?_, by simp, fun f hf => mem_getD_snoc hf⟩
          simp only [← hlen, List.getElem?_concat_length]

theorem states_in (leader : Nat → Nat) {r₀ : Roots} (hr₀ : r₀.stateRoots = []) (n : Nat) :
    StatesIn leader r₀ n ((List.range n).foldl (addState leader) (r₀, fun _ => none)) := by
  induction n with
  | zero => exact ⟨fun _ _ h => h, by simp, by simp [hr₀], by simp, by simp⟩
  | succ n ih =>
      rw [List.range_succ, List.foldl_append]
      exact ih.snoc

def allFields (g : Graph) (order : List Nat) : List Field :=
  g.ports.zipIdx.flatMap (fun p => portFields p.2 p.1) ++
  (List.range g.states.length).flatMap stateFields ++
  (List.range g.memoryAccesses.length).flatMap (fun i => [.accessAddress i, .accessEnabled i]) ++
  (List.range g.memoryWrites.length).flatMap
    (fun i => [.writeAddress i, .writeData i, .writeEnabled i]) ++
  (order.filter (isHost g)).map .hostValue ++
  ((List.range g.nodes.size).filter (isValidation g)).map .validation

def Field.entry : Field → Nat
  | .portSlice i _ | .next i | .trigger i | .reset i | .resetValue i | .accessAddress i
  | .accessEnabled i | .writeAddress i | .writeData i | .writeEnabled i | .hostValue i
  | .validation i => i

/-- The phase in which a field gets its root. -/
def Field.phase : Field → Nat
  | .portSlice .. => 0
  | .next _ | .trigger _ | .reset _ | .resetValue _ => 1
  | .accessAddress _ | .accessEnabled _ => 2
  | .writeAddress _ | .writeData _ | .writeEnabled _ => 3
  | .hostValue _ => 4
  | .validation _ => 5

theorem nodup_flatMap_of_entry {β : Type} {l : List β} {F : β → List Field} (index : β → Nat)
    (hl : (l.map index).Nodup) (hF : ∀ x, (F x).Nodup)
    (hentry : ∀ x, ∀ f ∈ F x, f.entry = index x) : (l.flatMap F).Nodup := by
  refine List.nodup_flatMap.mpr ⟨fun x _ => hF x, (List.pairwise_map.mp hl).imp fun hne => ?_⟩
  intro f hfx hfy
  exact hne ((hentry _ f hfx).symm.trans (hentry _ f hfy))

theorem nodup_append_of_phase {l m : List Field} {k : Nat} (hl : l.Nodup ∧ ∀ f ∈ l, f.phase < k)
    (hm : m.Nodup) (hphase : ∀ f ∈ m, f.phase = k) :
    (l ++ m).Nodup ∧ ∀ f ∈ l ++ m, f.phase < k + 1 := by
  refine ⟨List.nodup_append.mpr ⟨hl.1, hm, fun f hf f' hf' heq => ?_⟩, fun f hf => ?_⟩
  · have := hl.2 f hf
    rw [heq, hphase f' hf'] at this
    omega
  · rcases List.mem_append.mp hf with hf | hf
    · exact (hl.2 f hf).trans (Nat.lt_succ_self k)
    · rw [hphase f hf]
      exact Nat.lt_succ_self k

theorem allFields_nodup {g : Graph} {order : List Nat} (horder : order.Nodup) :
    (allFields g order).Nodup := by
  have hrange : ∀ n, ((List.range n).map id).Nodup := fun n => by simp [List.nodup_range]
  have hports : (g.ports.zipIdx.flatMap fun p => portFields p.2 p.1).Nodup ∧
      ∀ f ∈ g.ports.zipIdx.flatMap (fun p => portFields p.2 p.1), f.phase < 1 := by
    refine ⟨nodup_flatMap_of_entry Prod.snd ?_ (fun p => ?_) fun p f hf => ?_, fun f hf => ?_⟩
    · rw [List.zipIdx_map_snd]
      exact List.nodup_range'
    · exact List.nodup_range.map fun a b h => by simpa using h
    · obtain ⟨word, -, rfl⟩ := List.mem_map.mp hf
      rfl
    · obtain ⟨p, -, hf⟩ := List.mem_flatMap.mp hf
      obtain ⟨word, -, rfl⟩ := List.mem_map.mp hf
      exact Nat.zero_lt_one
  have hstateFields : ∀ i, ∀ f ∈ stateFields i, f.entry = i ∧ f.phase = 1 := by
    simp [stateFields, Field.entry, Field.phase]
  have hstates := nodup_append_of_phase hports
    (nodup_flatMap_of_entry (F := stateFields) id (hrange g.states.length)
      (fun i => by simp [stateFields]) fun i f hf => (hstateFields i f hf).1) fun f hf => by
        obtain ⟨i, -, hf⟩ := List.mem_flatMap.mp hf
        exact (hstateFields i f hf).2
  have haccesses := nodup_append_of_phase hstates
    (nodup_flatMap_of_entry (F := fun i => [.accessAddress i, .accessEnabled i]) id
      (hrange g.memoryAccesses.length) (fun i => by simp) (by simp [Field.entry]))
    (by simp only [List.mem_flatMap]; rintro f ⟨i, -, hf⟩; revert f; simp [Field.phase])
  have hwrites := nodup_append_of_phase haccesses
    (nodup_flatMap_of_entry (F := fun i => [.writeAddress i, .writeData i, .writeEnabled i]) id
      (hrange g.memoryWrites.length) (fun i => by simp) (by simp [Field.entry]))
    (by simp only [List.mem_flatMap]; rintro f ⟨i, -, hf⟩; revert f; simp [Field.phase])
  have hhosts := nodup_append_of_phase (m := (order.filter (isHost g)).map .hostValue) hwrites
    ((horder.filter _).map fun a b h => by simpa using h)
    (by simp only [List.mem_map]; rintro f ⟨i, -, rfl⟩; rfl)
  exact (nodup_append_of_phase (m := ((List.range g.nodes.size).filter (isValidation g)).map
    .validation) hhosts ((List.nodup_range.filter _).map fun a b h => by simpa using h)
    (by simp only [List.mem_map]; rintro f ⟨i, -, rfl⟩; rfl)).1

/-- The tables the states do not use stay as they are. -/
theorem states_keep {α : Type} (table : Roots → α) (htable : ∀ r roots stateRoots,
    table { r with roots, stateRoots } = table r) (leader : Nat → Nat) (xs : List Nat)
    (s : Roots × (Nat → Option Nat)) : table (xs.foldl (addState leader) s).1 = table s.1 := by
  induction xs generalizing s with
  | nil => rfl
  | cons x xs ih =>
      obtain ⟨r, groupRoot⟩ := s
      rw [List.foldl_cons, ih]
      cases hg : groupRoot (leader x) with
      | some root => rw [addState_some hg, htable]
      | none => rw [addState_none hg, htable]

/-- What `foldl_push` says of one entry. -/
theorem pushed {r r' : Roots} {fields : Nat → List Field} {table : List Nat} {xs : List Nat}
    (hroots : r'.roots = r.roots ++ xs.map fields)
    (htable : table = (List.range xs.length).map (r.roots.length + ·)) {k x : Nat}
    (hx : xs[k]? = some x) :
    ∃ root, table[k]? = some root ∧ ∀ f ∈ fields x, r'.Has root f := by
  obtain ⟨hk, -⟩ := List.getElem?_eq_some_iff.mp hx
  refine ⟨r.roots.length + k, by simp [htable, hk], fun f hf => ?_⟩
  unfold Roots.Has
  rw [hroots]
  exact mem_getD_map hx hf

/-! ### The phases of `sinkRoots` -/

section

variable (g : Graph) (order : List Nat)

def afterPorts : Roots := g.ports.zipIdx.foldl (fun r p => addPort r p.2 p.1) {}

def afterStates : Roots × (Nat → Option Nat) :=
  (List.range g.states.length).foldl (addState (leader (groups g).group (joinFuel g)))
    (afterPorts g, fun _ => none)

def afterAccesses : Roots := (List.range g.memoryAccesses.length).foldl addAccess (afterStates g).1

def afterWrites : Roots := (List.range g.memoryWrites.length).foldl addWrite (afterAccesses g)

def afterHosts : Roots := (order.filter (isHost g)).foldl addHost (afterWrites g)

theorem afterPorts_keeps {α : Type} (table : Roots → α)
    (h : ∀ r i p, table (addPort r i p) = table r) : table (afterPorts g) = table {} :=
  foldl_keeps (fun r (p : Port × Nat) => addPort r p.2 p.1) table (fun r p => h r p.2 p.1) g.ports.zipIdx {}

theorem afterStates_in : StatesIn (leader (groups g).group (joinFuel g)) (afterPorts g)
    g.states.length (afterStates g) :=
  states_in _ (afterPorts_keeps g Roots.stateRoots fun _ _ _ => rfl) _

/-- The tables of later phases are empty. -/
theorem afterStates_keeps (table : Roots → List Nat) (hp : ∀ r i p, table (addPort r i p) = table r)
    (hs : ∀ r roots stateRoots, table { r with roots, stateRoots } = table r) :
    table (afterStates g).1 = table {} :=
  (states_keep table hs _ _ _).trans (afterPorts_keeps g table hp)

theorem afterAccesses_push :
    (afterAccesses g).roots = (afterStates g).1.roots ++
      (List.range g.memoryAccesses.length).map (fun i => [.accessAddress i, .accessEnabled i]) ∧
    (afterAccesses g).accessRoots = (afterStates g).1.accessRoots ++
      (List.range (List.range g.memoryAccesses.length).length).map
        ((afterStates g).1.roots.length + ·) :=
  foldl_push addAccess _ Roots.accessRoots (fun _ _ => rfl) (fun _ _ => rfl) _ _

theorem afterWrites_push :
    (afterWrites g).roots = (afterAccesses g).roots ++ (List.range g.memoryWrites.length).map
      (fun i => [.writeAddress i, .writeData i, .writeEnabled i]) ∧
    (afterWrites g).writeRoots = (afterAccesses g).writeRoots ++
      (List.range (List.range g.memoryWrites.length).length).map
        ((afterAccesses g).roots.length + ·) :=
  foldl_push addWrite _ Roots.writeRoots (fun _ _ => rfl) (fun _ _ => rfl) _ _

theorem afterHosts_push :
    (afterHosts g order).roots = (afterWrites g).roots ++
      (order.filter (isHost g)).map (fun i => [.hostValue i]) ∧
    (afterHosts g order).hostRoots = (afterWrites g).hostRoots ++
      (List.range (order.filter (isHost g)).length).map ((afterWrites g).roots.length + ·) :=
  foldl_push addHost _ Roots.hostRoots (fun _ _ => rfl) (fun _ _ => rfl) _ _

theorem sinkRoots_push :
    (sinkRoots g order).roots = (afterHosts g order).roots ++
      ((List.range g.nodes.size).filter (isValidation g)).map (fun i => [.validation i]) ∧
    (sinkRoots g order).validationRoots = (afterHosts g order).validationRoots ++
      (List.range ((List.range g.nodes.size).filter (isValidation g)).length).map
        ((afterHosts g order).roots.length + ·) :=
  foldl_push addValidation _ Roots.validationRoots (fun _ _ => rfl) (fun _ _ => rfl) _ _

theorem sinkRoots_perm : (sinkRoots g order).roots.flatten.Perm (allFields g order) := by
  rw [(sinkRoots_push g order).1, (afterHosts_push g order).1, (afterWrites_push g).1,
    (afterAccesses_push g).1]
  simp only [List.flatten_append, flatten_map_singleton]
  simp only [← List.flatMap_def, allFields]
  have h := (afterStates_in g).perm
  rw [show (afterPorts g).roots.flatten = _ from (ports_rooted g.ports).1] at h
  exact (((h.append_right _).append_right _).append_right _).append_right _

variable {g order}

theorem has_of_afterHosts {root : Nat} {f : Field} (h : (afterHosts g order).Has root f) :
    (sinkRoots g order).Has root f := by
  unfold Roots.Has
  rw [(sinkRoots_push g order).1]
  exact mem_getD_append h

theorem has_of_afterWrites {root : Nat} {f : Field} (h : (afterWrites g).Has root f) :
    (sinkRoots g order).Has root f := by
  refine has_of_afterHosts ?_
  unfold Roots.Has
  rw [(afterHosts_push g order).1]
  exact mem_getD_append h

theorem has_of_afterAccesses {root : Nat} {f : Field} (h : (afterAccesses g).Has root f) :
    (sinkRoots g order).Has root f := by
  refine has_of_afterWrites ?_
  unfold Roots.Has
  rw [(afterWrites_push g).1]
  exact mem_getD_append h

theorem has_of_afterStates {root : Nat} {f : Field} (h : (afterStates g).1.Has root f) :
    (sinkRoots g order).Has root f := by
  refine has_of_afterAccesses ?_
  unfold Roots.Has
  rw [(afterAccesses_push g).1]
  exact mem_getD_append h

end

theorem sinkRoots_keeps {α : Type} (g : Graph) (order : List Nat) (table : Roots → α)
    (ha : ∀ r i, table (addAccess r i) = table r) (hw : ∀ r i, table (addWrite r i) = table r)
    (hh : ∀ r i, table (addHost r i) = table r) (hv : ∀ r i, table (addValidation r i) = table r) :
    table (sinkRoots g order) = table (afterStates g).1 :=
  (foldl_keeps addValidation table hv _ _).trans ((foldl_keeps addHost table hh _ _).trans
    ((foldl_keeps addWrite table hw _ _).trans (foldl_keeps addAccess table ha _ _)))

theorem sinkRoots_accessRoots (g : Graph) (order : List Nat) :
    (sinkRoots g order).accessRoots =
      (List.range (List.range g.memoryAccesses.length).length).map
        ((afterStates g).1.roots.length + ·) := by
  have h := (afterAccesses_push g).2
  rw [afterStates_keeps g Roots.accessRoots (fun _ _ _ => rfl) fun _ _ _ => rfl] at h
  exact (foldl_keeps addValidation Roots.accessRoots (fun _ _ => rfl) _ _).trans
    ((foldl_keeps addHost Roots.accessRoots (fun _ _ => rfl) _ _).trans
      ((foldl_keeps addWrite Roots.accessRoots (fun _ _ => rfl) _ _).trans h))

theorem sinkRoots_writeRoots (g : Graph) (order : List Nat) :
    (sinkRoots g order).writeRoots =
      (List.range (List.range g.memoryWrites.length).length).map
        ((afterAccesses g).roots.length + ·) := by
  have h := (afterWrites_push g).2
  rw [show (afterAccesses g).writeRoots = (afterStates g).1.writeRoots from
      foldl_keeps addAccess Roots.writeRoots (fun _ _ => rfl) _ _,
    afterStates_keeps g Roots.writeRoots (fun _ _ _ => rfl) fun _ _ _ => rfl] at h
  exact (foldl_keeps addValidation Roots.writeRoots (fun _ _ => rfl) _ _).trans
    ((foldl_keeps addHost Roots.writeRoots (fun _ _ => rfl) _ _).trans h)

theorem sinkRoots_hostRoots (g : Graph) (order : List Nat) :
    (sinkRoots g order).hostRoots =
      (List.range (order.filter (isHost g)).length).map ((afterWrites g).roots.length + ·) := by
  have h := (afterHosts_push g order).2
  rw [show (afterWrites g).hostRoots = (afterStates g).1.hostRoots from
      (foldl_keeps addWrite Roots.hostRoots (fun _ _ => rfl) _ _).trans
        (foldl_keeps addAccess Roots.hostRoots (fun _ _ => rfl) _ _),
    afterStates_keeps g Roots.hostRoots (fun _ _ _ => rfl) fun _ _ _ => rfl] at h
  exact (foldl_keeps addValidation Roots.hostRoots (fun _ _ => rfl) _ _).trans h

theorem sinkRoots_validationRoots (g : Graph) (order : List Nat) :
    (sinkRoots g order).validationRoots =
      (List.range ((List.range g.nodes.size).filter (isValidation g)).length).map
        ((afterHosts g order).roots.length + ·) := by
  have h := (sinkRoots_push g order).2
  rwa [show (afterHosts g order).validationRoots = (afterStates g).1.validationRoots from
      (foldl_keeps addHost Roots.validationRoots (fun _ _ => rfl) _ _).trans
        ((foldl_keeps addWrite Roots.validationRoots (fun _ _ => rfl) _ _).trans
          (foldl_keeps addAccess Roots.validationRoots (fun _ _ => rfl) _ _)),
    afterStates_keeps g Roots.validationRoots (fun _ _ _ => rfl) fun _ _ _ => rfl] at h

theorem isValidation_lt {g : Graph} {i : Nat} (h : isValidation g i = true) : i < g.nodes.size := by
  unfold isValidation at h
  by_contra hle
  rw [Array.getElem?_eq_none (by omega)] at h
  cases h

theorem sinkRoots_rooted {g : Graph} {order : List Nat} (horder : order.Nodup) :
    Rooted g order (sinkRoots g order) where
  nodup := (sinkRoots_perm g order).nodup_iff.mpr (allFields_nodup horder)
  ports i p hp := by
    obtain ⟨words, hwords, hlength, hhas⟩ := (ports_rooted g.ports).2.2 i p hp
    refine ⟨words, ?_, hlength, fun word root hroot =>
      has_of_afterStates ((afterStates_in g).kept root _ (hhas word root hroot))⟩
    rw [sinkRoots_keeps g order Roots.portRoots (fun _ _ => rfl) (fun _ _ => rfl) (fun _ _ => rfl)
      fun _ _ => rfl, ← hwords]
    exact congrArg (·[i]?) (states_keep Roots.portRoots (fun _ _ _ => rfl) _ _ _)
  states i hi := by
    obtain ⟨root, hroot, -, hfields⟩ := (afterStates_in g).states i hi
    refine ⟨root, ?_, fun f hf => has_of_afterStates (hfields f hf)⟩
    rw [sinkRoots_keeps g order Roots.stateRoots (fun _ _ => rfl) (fun _ _ => rfl) (fun _ _ => rfl)
      fun _ _ => rfl, hroot]
  accesses i hi := by
    obtain ⟨root, hroot, hfields⟩ := pushed (afterAccesses_push g).1
      (sinkRoots_accessRoots g order) (List.getElem?_range hi)
    exact ⟨root, hroot, has_of_afterAccesses (hfields _ (by simp)),
      has_of_afterAccesses (hfields _ (by simp))⟩
  writes i hi := by
    obtain ⟨root, hroot, hfields⟩ := pushed (afterWrites_push g).1
      (sinkRoots_writeRoots g order) (List.getElem?_range hi)
    exact ⟨root, hroot, has_of_afterWrites (hfields _ (by simp)),
      has_of_afterWrites (hfields _ (by simp)), has_of_afterWrites (hfields _ (by simp))⟩
  hosts i hi hhost := by
    obtain ⟨k, hk⟩ := List.getElem?_of_mem (List.mem_filter.mpr ⟨hi, hhost⟩)
    obtain ⟨root, hroot, hfields⟩ :=
      pushed (afterHosts_push g order).1 (sinkRoots_hostRoots g order) hk
    exact ⟨root, List.mem_of_getElem? hroot, has_of_afterHosts (hfields _ (by simp))⟩
  validations i hi := by
    obtain ⟨k, hk⟩ := List.getElem?_of_mem
      (List.mem_filter.mpr ⟨List.mem_range.mpr (isValidation_lt hi), hi⟩)
    obtain ⟨root, hroot, hfields⟩ :=
      pushed (sinkRoots_push g order).1 (sinkRoots_validationRoots g order) hk
    exact ⟨root, List.mem_of_getElem? hroot, hfields _ (by simp)⟩
  writers i j s t hi hj b hb c hc hword := by
    obtain ⟨root, hroot, hleader, -⟩ :=
      (afterStates_in g).states i (List.getElem?_eq_some_iff.mp hi).1
    obtain ⟨root', hroot', hleader', -⟩ :=
      (afterStates_in g).states j (List.getElem?_eq_some_iff.mp hj).1
    rw [leader_eq hi hj hb hc hword, hleader'] at hleader
    rw [sinkRoots_keeps g order Roots.stateRoots (fun _ _ => rfl) (fun _ _ => rfl) (fun _ _ => rfl)
      fun _ _ => rfl, hroot, hroot', Option.some.inj hleader]

end CppHdl.Native
