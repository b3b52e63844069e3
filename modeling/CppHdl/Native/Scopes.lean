import CppHdl.Native.Sinks

/-!
# Roots of one scope

`scopeTasks` merges roots whose states and memories belong to one scope. Merged
or not, every field stays in exactly one root, and the tables follow.
-/

namespace CppHdl.Native

/-- The roots of `l` were put together in `s`. -/
structure Regrouped (l : List (List Field)) (s : Grouped) : Prop where
  length : s.remap.length = l.length
  perm : s.grouped.flatten.Perm l.flatten
  groups : ∀ scope entry, s.groups scope = some entry → entry.1 < s.grouped.length
  has : ∀ i f, f ∈ l.getD i [] → f ∈ s.grouped.getD (s.remap.getD i 0) []

/-- The destination is a root there is, or the next one. -/
theorem destination_spec {s : Grouped} (scopes : Scopes) (i : Nat)
    (hs : ∀ scope entry, s.groups scope = some entry → entry.1 < s.grouped.length) :
    (s.destination scopes i).1 ≤ s.grouped.length ∧
      ∀ scope entry, (s.destination scopes i).2 scope = some entry →
        entry.1 < s.grouped.length ∨ entry.1 = (s.destination scopes i).1 := by
  have hupdate : ∀ dest n scope entry,
      Function.update s.groups (scopes.scopes i) (some (dest, n)) scope = some entry →
        entry.1 < s.grouped.length ∨ entry.1 = dest := by
    intro dest n scope entry h
    by_cases heq : scope = scopes.scopes i
    · subst heq
      rw [Function.update_self] at h
      cases h
      exact .inr rfl
    · rw [Function.update_of_ne heq] at h
      exact .inl (hs scope entry h)
  unfold Grouped.destination
  dsimp only
  split_ifs with hscope hfull
  · exact ⟨Nat.le_refl _, hupdate _ _⟩
  · refine ⟨?_, hupdate _ _⟩
    cases hg : s.groups (scopes.scopes i) with
    | none => exact Nat.le_refl _
    | some entry => exact (hs _ _ hg).le
  · exact ⟨Nat.le_refl _, fun scope entry h => .inl (hs scope entry h)⟩

theorem groupRoot_eq (scopes : Scopes) (s : Grouped) (fields : List Field) (i : Nat) :
    groupRoot scopes s (fields, i) =
      let dest := (s.destination scopes i).1
      { groups := (s.destination scopes i).2
        grouped := (if dest = s.grouped.length then s.grouped ++ [[]] else s.grouped).modify dest
          (· ++ fields)
        remap := s.remap ++ [dest] } := rfl

theorem Regrouped.snoc {l : List (List Field)} {s : Grouped} (h : Regrouped l s) (scopes : Scopes)
    (fields : List Field) (i : Nat) :
    Regrouped (l ++ [fields]) (groupRoot scopes s (fields, i)) := by
  obtain ⟨hle, hgroups⟩ := destination_spec scopes i h.groups
  rw [groupRoot_eq]
  set dest := (s.destination scopes i).1
  set grouped := if dest = s.grouped.length then s.grouped ++ [[]] else s.grouped with hgrouped
  have hflat : grouped.flatten = s.grouped.flatten := by
    rw [hgrouped]
    split_ifs <;> simp
  have hlt : dest < grouped.length ∧ s.grouped.length ≤ grouped.length := by
    rw [hgrouped]
    split_ifs with heq
    · simp [heq]
    · exact ⟨by omega, Nat.le_refl _⟩
  have hkept : ∀ root f, f ∈ s.grouped.getD root [] → f ∈ grouped.getD root [] := by
    intro root f hf
    rw [hgrouped]
    split_ifs
    · exact mem_getD_append hf
    · exact hf
  refine ⟨by simp [h.length], ?_, fun scope entry hentry => ?_, fun j f hf => ?_⟩
  · refine (perm_flatten_modify hlt.1 fields).trans ?_
    rw [hflat]
    simpa using h.perm.append_right fields
  · rw [List.length_modify]
    rcases hgroups scope entry hentry with hentry | hentry
    · exact hentry.trans_le hlt.2
    · rw [hentry]
      exact hlt.1
  · rcases Nat.lt_trichotomy j l.length with hj | rfl | hj
    · rw [List.getD_append _ _ _ _ hj] at hf
      rw [List.getD_append _ _ _ _ (by rw [h.length]; exact hj)]
      exact mem_getD_modify _ (hkept _ f (h.has j f hf))
    · have hdest : (s.remap ++ [dest]).getD l.length 0 = dest := by
        rw [← h.length]
        simp
      rw [hdest]
      exact mem_getD_modify_self hlt.1 (by simpa using hf)
    · rw [List.getD_eq_default _ _ (by simp; omega)] at hf
      cases hf

theorem regrouped (scopes : Scopes) (l : List (List Field)) :
    Regrouped l (l.zipIdx.foldl (groupRoot scopes) {}) := by
  induction l using List.reverseRecOn with
  | nil => exact ⟨rfl, .refl _, by simp, by simp⟩
  | append_singleton l fields ih =>
      rw [List.zipIdx_append, List.foldl_append]
      exact ih.snoc scopes fields _

theorem Rooted.scoped {g : Graph} {order : List Nat} {r : Roots} (h : Rooted g order r) :
    Rooted g order (scopedRoots g r) := by
  have hregrouped := regrouped (rootScopes g r) r.roots
  set s := r.roots.zipIdx.foldl (groupRoot (rootScopes g r)) {}
  have hhas : ∀ {root f}, r.Has root f → (scopedRoots g r).Has (s.remap.getD root 0) f :=
    fun hf => hregrouped.has _ _ hf
  refine ⟨hregrouped.perm.nodup_iff.mpr h.nodup, fun i p hp => ?_, fun i hi => ?_, fun i hi => ?_,
    fun i hi => ?_, fun i hi hhost => ?_, fun i hi => ?_, fun i j t u hi hj b hb c hc hword => ?_⟩
  · obtain ⟨words, hwords, hlength, hfields⟩ := h.ports i p hp
    refine ⟨words.map fun root => s.remap.getD root 0, ?_, by simpa using hlength, ?_⟩
    · exact (List.getElem?_map ..).trans (by rw [hwords]; rfl)
    · intro word root hroot
      rw [List.getElem?_map, Option.map_eq_some_iff] at hroot
      obtain ⟨root', hroot', rfl⟩ := hroot
      exact hhas (hfields word root' hroot')
  · obtain ⟨root, hroot, hfields⟩ := h.states i hi
    exact ⟨_, (List.getElem?_map ..).trans (by rw [hroot]; rfl), fun f hf => hhas (hfields f hf)⟩
  · obtain ⟨root, hroot, hfields⟩ := h.accesses i hi
    exact ⟨_, (List.getElem?_map ..).trans (by rw [hroot]; rfl), hhas hfields.1, hhas hfields.2⟩
  · obtain ⟨root, hroot, hfields⟩ := h.writes i hi
    exact ⟨_, (List.getElem?_map ..).trans (by rw [hroot]; rfl), hhas hfields.1, hhas hfields.2.1,
      hhas hfields.2.2⟩
  · obtain ⟨root, hroot, hfields⟩ := h.hosts i hi hhost
    exact ⟨_, List.mem_map_of_mem hroot, hhas hfields⟩
  · obtain ⟨root, hroot, hfields⟩ := h.validations i hi
    exact ⟨_, List.mem_map_of_mem hroot, hhas hfields⟩
  · have hsame := h.writers i j t u hi hj b hb c hc hword
    exact (List.getElem?_map ..).trans (.trans (by rw [hsame]) (List.getElem?_map ..).symm)

end CppHdl.Native
