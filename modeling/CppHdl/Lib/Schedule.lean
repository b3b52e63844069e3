import Mathlib.Algebra.GroupWithZero.Nat
import Mathlib.Algebra.Order.BigOperators.Group.List
import Mathlib.Algebra.Order.Group.Nat
import Mathlib.Data.List.Induction
import Mathlib.Data.List.Nodup
import Mathlib.Logic.Function.Basic

/-!
# Schedules

A schedule is a list of tasks that each compute one entry of a store from the
entries of other tasks. Where every task stands behind what it reads, one pass
over the list solves all equations at once: the entry of each task is what its
step computes from the final store (`execute_eq_step`).

Two schedules whose tasks correspond, reading corresponding entries, then
compute the same (`execute_eq_execute`). That is how a schedule is renumbered,
cut down to the part some result needs, or copied.
-/

namespace CppHdl

section

variable {ι κ V : Type*}

/-- Every task stands behind those it reads. -/
def Topological (reads : ι → ι → Prop) (tasks : List ι) : Prop :=
  ∀ done i rest, tasks = done ++ i :: rest → ∀ d, reads i d → d ∈ done

theorem Topological.of_append {reads : ι → ι → Prop} {l m : List ι}
    (h : Topological reads (l ++ m)) : Topological reads l := by
  intro done i rest hl d hd
  exact h done i (rest ++ m) (by simp [hl]) d hd

theorem Topological.reads_mem {reads : ι → ι → Prop} {tasks : List ι}
    (h : Topological reads tasks) {i d : ι} (hi : i ∈ tasks) (hd : reads i d) : d ∈ tasks := by
  obtain ⟨done, rest, rfl⟩ := List.append_of_mem hi
  exact List.mem_append_left _ (h done i rest rfl d hd)

theorem Topological.snoc {reads : ι → ι → Prop} {l : List ι} (h : Topological reads l) {n : ι}
    (hn : ∀ d, reads n d → d ∈ l) : Topological reads (l ++ [n]) := by
  intro done i rest hsplit d hd
  rcases List.eq_nil_or_concat rest with rfl | ⟨rest', m, rfl⟩
  · obtain ⟨rfl, heq⟩ := List.append_inj' hsplit rfl
    obtain rfl := List.singleton_inj.mp heq
    exact hn d hd
  · rw [List.concat_eq_append, ← List.cons_append, ← List.append_assoc] at hsplit
    obtain ⟨rfl, -⟩ := List.append_inj' hsplit rfl
    exact h done i rest' rfl d hd

theorem Topological.mono {reads reads' : ι → ι → Prop} {l : List ι} (h : Topological reads l)
    (himp : ∀ i d, reads' i d → reads i d) : Topological reads' l :=
  fun done i rest hsplit d hd => h done i rest hsplit d (himp i d hd)

theorem Topological.idxOf_lt [DecidableEq ι] {reads : ι → ι → Prop} {l : List ι}
    (h : Topological reads l) (hnodup : l.Nodup) {i d : ι} (hi : i ∈ l) (hd : reads i d) : l.idxOf d < l.idxOf i := by
  obtain ⟨done, rest, rfl⟩ := List.append_of_mem hi
  have hfresh : i ∉ done := fun hin =>
    (List.nodup_append.mp hnodup).2.2 i hin i List.mem_cons_self rfl
  have hin := h done i rest rfl d hd
  rw [List.idxOf_append_of_mem hin, List.idxOf_append_of_notMem hfresh]
  exact Nat.lt_of_lt_of_le (List.idxOf_lt_length_of_mem hin) (Nat.le_add_right ..)

/-- Against the order, tasks stand behind those that read them. -/
theorem Topological.reverse [DecidableEq ι] {reads : ι → ι → Prop} {l : List ι}
    (h : Topological reads l) (hnodup : l.Nodup) {follows : ι → ι → Prop} (hfollows : ∀ i, i ∈ l → ∀ t, follows i t → t ∈ l ∧ reads t i) :
    Topological follows l.reverse := by
  intro done i rest hsplit t ht
  obtain rfl : l = rest.reverse ++ i :: done.reverse := by
    rw [← List.reverse_inj, hsplit]
    simp
  obtain ⟨htmem, hreads⟩ := hfollows i (by simp) t ht
  have hlt := h.idxOf_lt hnodup htmem hreads
  have hfresh : i ∉ rest.reverse := fun hin =>
    (List.nodup_append.mp hnodup).2.2 i hin i List.mem_cons_self rfl
  rw [List.idxOf_append_of_notMem hfresh] at hlt
  rcases List.mem_append.mp htmem with hin | hin
  · rw [List.idxOf_append_of_mem hin] at hlt
    have := List.idxOf_lt_length_of_mem hin
    omega
  · rcases List.mem_cons.mp hin with rfl | hin
    · rw [List.idxOf_append_of_notMem hfresh] at hlt
      exact absurd hlt (Nat.lt_irrefl _)
    · exact List.mem_reverse.mp hin

/-- A part that holds what its tasks read is in order too. -/
theorem Topological.filter {reads : ι → ι → Prop} {tasks : List ι} (h : Topological reads tasks)
    (p : ι → Bool) (hclosed : ∀ i ∈ tasks, p i → ∀ d, reads i d → p d) :
    Topological reads (tasks.filter p) := by
  intro done i rest hsplit d hd
  obtain ⟨l₁, l₂, rfl, hl₁, hl₂⟩ := List.filter_eq_append_iff.mp hsplit
  obtain ⟨l₃, l₄, rfl, hl₃, hi, hl₄⟩ := List.filter_eq_cons_iff.mp hl₂
  have hmem := h (l₁ ++ l₃) i l₄ (by simp) d hd
  have hp : p d := hclosed i (by simp) hi d hd
  have : d ∈ (l₁ ++ l₃).filter p := List.mem_filter.mpr ⟨hmem, hp⟩
  rwa [List.filter_append, hl₁, List.filter_eq_nil_iff.mpr hl₃, List.append_nil] at this

section

variable [DecidableEq ι]

def execute (step : (ι → V) → ι → V) (tasks : List ι) (store : ι → V) : ι → V :=
  tasks.foldl (fun store i => Function.update store i (step store i)) store

theorem execute_append (step : (ι → V) → ι → V) (l m : List ι) (store : ι → V) :
    execute step (l ++ m) store = execute step m (execute step l store) :=
  List.foldl_append ..

theorem execute_snoc (step : (ι → V) → ι → V) (l : List ι) (i : ι) (store : ι → V) :
    execute step (l ++ [i]) store =
      Function.update (execute step l store) i (step (execute step l store) i) := by
  rw [execute_append]
  rfl

theorem execute_of_not_mem (step : (ι → V) → ι → V) {tasks : List ι} {i : ι} (hi : i ∉ tasks)
    (store : ι → V) : execute step tasks store i = store i := by
  induction tasks using List.reverseRecOn with
  | nil => rfl
  | append_singleton l j ih =>
      rw [execute_snoc, Function.update_of_ne fun h => hi (by simp [h]),
        ih fun h => hi (List.mem_append_left _ h)]

/-- What a task computes depends on the entries it reads. -/
def Local (reads : ι → ι → Prop) (step : (ι → V) → ι → V) (i : ι) : Prop :=
  ∀ s t : ι → V, (∀ d, reads i d → s d = t d) → step s i = step t i

/-- After the pass the entry of each task is what its step computes. -/
theorem execute_eq_step {reads : ι → ι → Prop} {step : (ι → V) → ι → V} {tasks : List ι}
    (hnodup : tasks.Nodup) (htopological : Topological reads tasks)
    (hlocal : ∀ i ∈ tasks, Local reads step i) (store : ι → V) :
    ∀ i ∈ tasks, execute step tasks store i = step (execute step tasks store) i := by
  induction tasks using List.reverseRecOn with
  | nil => simp
  | append_singleton l j ih =>
      have hj : j ∉ l := fun h => (List.nodup_append.mp hnodup).2.2 j h j (by simp) rfl
      -- A task does not read the last one: those it reads stand before it.
      have hstep : ∀ i ∈ l ++ [j], step (execute step (l ++ [j]) store) i =
          step (execute step l store) i := by
        intro i hi
        refine hlocal i hi _ _ fun d hd => ?_
        rw [execute_snoc, Function.update_of_ne]
        rintro rfl
        obtain ⟨done, rest, hsplit⟩ := List.append_of_mem hi
        have hd := htopological done i rest hsplit d hd
        have : done <+: l := by
          refine List.prefix_of_prefix_length_le ⟨i :: rest, hsplit.symm⟩ (List.prefix_append ..) ?_
          have := congrArg List.length hsplit
          simp at this
          omega
        exact hj (this.subset hd)
      intro i hi
      rw [hstep i hi, execute_snoc]
      rcases List.mem_append.mp hi with hi | hi
      · have hne : i ≠ j := fun h => hj (h ▸ hi)
        rw [Function.update_of_ne hne]
        exact ih (List.nodup_append.mp hnodup).1 htopological.of_append
          (fun i hi => hlocal i (List.mem_append_left _ hi)) i hi
      · obtain rfl := List.mem_singleton.mp hi
        rw [Function.update_self]

/-- Schedules whose tasks correspond compute the same. `p` cuts the first one
down to the tasks of interest. -/
theorem execute_eq_execute {reads : ι → ι → Prop} {step : (ι → V) → ι → V} {tasks : List ι}
    (hnodup : tasks.Nodup) (htopological : Topological reads tasks)
    (hlocal : ∀ i ∈ tasks, Local reads step i) {p : ι → Prop}
    (hclosed : ∀ i ∈ tasks, p i → ∀ d, reads i d → p d) (store : ι → V)
    {step' : (κ → V) → κ → V} {f : ι → κ} {store' : κ → V}
    (hsolves : ∀ i ∈ tasks, p i → store' (f i) = step' store' (f i))
    (hstep : ∀ i ∈ tasks, p i → ∀ s, (∀ d, reads i d → s d = store' (f d)) →
      step s i = step' store' (f i)) :
    ∀ i ∈ tasks, p i → execute step tasks store i = store' (f i) := by
  have hsolved := execute_eq_step hnodup htopological hlocal store
  have key : ∀ done, done <+: tasks → ∀ i ∈ done, p i →
      execute step tasks store i = store' (f i) := by
    intro done
    induction done using List.reverseRecOn with
    | nil => simp
    | append_singleton l j ih =>
        intro hl i hi hp
        have hbefore := ih ((List.prefix_append l [j]).trans hl)
        rcases List.mem_append.mp hi with hi | hi
        · exact hbefore i hi hp
        · obtain rfl := List.mem_singleton.mp hi
          obtain ⟨rest, hrest⟩ := hl
          have hmem : i ∈ tasks := hrest ▸ by simp
          rw [hsolved i hmem, hsolves i hmem hp]
          refine hstep i hmem hp _ fun d hd => hbefore d ?_ (hclosed i hmem hp d hd)
          exact htopological l i rest (by rw [← hrest]; simp) d hd
  exact key tasks (List.prefix_refl _)

end

end

/-! ## Cones

What a set of tasks reads, directly or not, found with a stack. -/

section

variable {ι : Type*} [DecidableEq ι]

/-- Visit what is pending, and what that depends on; `seen` was visited. -/
def visit (dependencies : ι → List ι) : Nat → List ι → List ι → List ι
  | 0, _, seen => seen
  | _ + 1, [], seen => seen
  | fuel + 1, node :: pending, seen =>
      if node ∈ seen then visit dependencies fuel pending seen
      else visit dependencies fuel ((dependencies node).reverse ++ pending) (seen ++ [node])

/-- The dependencies of the tasks in `l` that were not visited. -/
def unseen (dependencies : ι → List ι) (l seen : List ι) : Nat :=
  ((l.filter (· ∉ seen)).map fun i => (dependencies i).length).sum

theorem unseen_visit (dependencies : ι → List ι) {l seen : List ι} {node : ι} (hnode : node ∈ l)
    (hnew : node ∉ seen) :
    unseen dependencies l (seen ++ [node]) + (dependencies node).length ≤
      unseen dependencies l seen := by
  unfold unseen
  induction l with
  | nil => cases hnode
  | cons i l ih =>
      have hmono : ((l.filter (· ∉ seen ++ [node])).map fun i => (dependencies i).length).sum ≤
          ((l.filter (· ∉ seen)).map fun i => (dependencies i).length).sum := by
        refine List.Sublist.sum_le_sum (List.Sublist.map _ ?_) fun _ _ => Nat.zero_le _
        exact List.monotone_filter_right l fun i => by simp +contextual
      by_cases hi : i = node
      · subst hi
        rw [List.filter_cons_of_neg (by simp), List.filter_cons_of_pos (by simpa using hnew),
          List.map_cons, List.sum_cons]
        omega
      · have := ih ((List.mem_cons.mp hnode).resolve_left (Ne.symm hi))
        by_cases hs : i ∈ seen
        · rw [List.filter_cons_of_neg (by simp [hs]), List.filter_cons_of_neg (by simp [hs])]
          exact this
        · rw [List.filter_cons_of_pos (by simp [hs, hi]), List.filter_cons_of_pos (by simpa using hs),
            List.map_cons, List.sum_cons, List.map_cons, List.sum_cons]
          omega

/-- With enough fuel a visit reaches the end: it holds what was pending and
what its tasks depend on. -/
theorem visit_closed {dependencies : ι → List ι} {l : List ι}
    (hl : ∀ i ∈ l, ∀ d ∈ dependencies i, d ∈ l) {fuel : Nat} {pending seen : List ι}
    (hpending : ∀ i ∈ pending, i ∈ l)
    (hseen : ∀ i ∈ seen, i ∈ l ∧ ∀ d ∈ dependencies i, d ∈ seen ∨ d ∈ pending)
    (hfuel : pending.length + unseen dependencies l seen ≤ fuel) :
    (∀ i, i ∈ pending ∨ i ∈ seen → i ∈ visit dependencies fuel pending seen) ∧
      ∀ i ∈ visit dependencies fuel pending seen,
        i ∈ l ∧ ∀ d ∈ dependencies i, d ∈ visit dependencies fuel pending seen := by
  induction fuel generalizing pending seen with
  | zero =>
      obtain rfl : pending = [] := List.eq_nil_of_length_eq_zero (by omega)
      exact ⟨by simp [visit], fun i hi => by simpa [visit] using hseen i hi⟩
  | succ fuel ih =>
      cases pending with
      | nil => exact ⟨by simp [visit], fun i hi => by simpa [visit] using hseen i hi⟩
      | cons node pending =>
          have hnode := hpending node List.mem_cons_self
          rw [List.length_cons] at hfuel
          unfold visit
          split_ifs with hmem
          · obtain ⟨hall, hclosed⟩ := ih (fun i hi => hpending i (List.mem_cons_of_mem _ hi))
              (fun i hi => ⟨(hseen i hi).1, fun d hd => ((hseen i hi).2 d hd).elim .inl fun h =>
                (List.mem_cons.mp h).elim (fun h => .inl (h ▸ hmem)) .inr⟩) (by omega)
            refine ⟨fun i hi => ?_, hclosed⟩
            rcases hi with hi | hi
            · rcases List.mem_cons.mp hi with rfl | hi
              · exact hall i (.inr hmem)
              · exact hall i (.inl hi)
            · exact hall i (.inr hi)
          · have hle := unseen_visit dependencies hnode hmem
            have hpending' : ∀ i ∈ (dependencies node).reverse ++ pending, i ∈ l := by
              intro i hi
              rcases List.mem_append.mp hi with hi | hi
              · exact hl node hnode i (List.mem_reverse.mp hi)
              · exact hpending i (List.mem_cons_of_mem _ hi)
            have hseen' : ∀ i ∈ seen ++ [node], i ∈ l ∧ ∀ d ∈ dependencies i,
                d ∈ seen ++ [node] ∨ d ∈ (dependencies node).reverse ++ pending := by
              intro i hi
              rcases List.mem_append.mp hi with hi | hi
              · refine ⟨(hseen i hi).1, fun d hd => ?_⟩
                have := (hseen i hi).2 d hd
                simp only [List.mem_cons, List.mem_append, List.mem_reverse] at this ⊢
                tauto
              · obtain rfl := List.mem_singleton.mp hi
                exact ⟨hnode, fun d hd => .inr (List.mem_append_left _ (List.mem_reverse.mpr hd))⟩
            obtain ⟨hall, hclosed⟩ := ih hpending' hseen'
              (by rw [List.length_append, List.length_reverse]; omega)
            refine ⟨fun i hi => hall i ?_, hclosed⟩
            simp only [List.mem_cons, List.mem_append] at hi ⊢
            tauto

end

end CppHdl
