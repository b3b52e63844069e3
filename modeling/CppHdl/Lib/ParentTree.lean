import Mathlib.Data.List.Induction
import Mathlib.Data.List.Nodup
import CppHdl.Lib.Schedule

/-!
# Trees of parents

A tree is grown by hanging new nodes below old ones; each node keeps its parent and
its level. Two nodes are brought to their nearest common ancestor by climbing from the
lower one, and whether one is above another is read off after climbing to its level.

Where every new node hangs below the nearest common ancestor of its neighbours, the
nodes above it are those above all of them (`grow_above`).
-/

namespace CppHdl

structure ParentTree (α : Type*) where
  root : α
  parent : α → α
  level : α → Nat

namespace ParentTree

variable {α : Type*}

/-- Nothing but a root. -/
def single (root : α) : ParentTree α := ⟨root, fun _ => root, fun _ => 0⟩

def hang [DecidableEq α] (t : ParentTree α) (n p : α) : ParentTree α where
  root := t.root
  parent := Function.update t.parent n p
  level := Function.update t.level n (t.level p + 1)

/-- Climbs as long as the level is above `low`; the second argument bounds the steps. -/
def climb (t : ParentTree α) (low : Nat) : Nat → α → α
  | 0, a => a
  | k + 1, a => if low < t.level a then t.climb low k (t.parent a) else a

/-- Climbs from the lower one until both meet. -/
def meet [DecidableEq α] (t : ParentTree α) : Nat → α → α → α
  | 0, a, _ => a
  | k + 1, a, b =>
      if a = b then a
      else if t.level b < t.level a then t.meet k (t.parent a) b
      else t.meet k a (t.parent b)

/-- The nearest common ancestor. -/
def common [DecidableEq α] (t : ParentTree α) (a b : α) : α := t.meet (t.level a + t.level b) a b

/-- Hangs nodes below the ones chosen for them. -/
def grow [DecidableEq α] (choose : ParentTree α → α → α) (order : List α) (t : ParentTree α) :
    ParentTree α :=
  order.foldl (fun t n => t.hang n (choose t n)) t

/-- `t.Above n a`: `a` is `n` or above it. -/
inductive Above (t : ParentTree α) : α → α → Prop
  | refl (n : α) : Above t n n
  | up {n a : α} : n ≠ t.root → Above t (t.parent n) a → Above t n a

structure Rooted (t : ParentTree α) (nodes : List α) : Prop where
  root_not_mem : t.root ∉ nodes
  level_root : t.level t.root = 0
  parent_mem : ∀ n ∈ nodes, t.parent n ∈ t.root :: nodes
  level_eq : ∀ n ∈ nodes, t.level n = t.level (t.parent n) + 1

theorem rooted_single (root : α) : (single root).Rooted [] where
  root_not_mem := List.not_mem_nil
  level_root := rfl
  parent_mem _ hn := absurd hn List.not_mem_nil
  level_eq _ hn := absurd hn List.not_mem_nil

section

variable {t : ParentTree α} {nodes : List α} {n m a b : α}

theorem above_root : t.Above t.root a ↔ a = t.root := by
  constructor
  · rintro (_ | ⟨hne, -⟩)
    · rfl
    · exact absurd rfl hne
  · rintro rfl
    exact .refl _

/-- Above a node are itself and what is above its parent. -/
theorem above_iff (hn : n ≠ t.root) : t.Above n a ↔ a = n ∨ t.Above (t.parent n) a := by
  constructor
  · rintro (_ | ⟨-, h⟩)
    · exact .inl rfl
    · exact .inr h
  · rintro (rfl | h)
    · exact .refl _
    · exact .up hn h

/-- Ancestors of one node are ancestors of each other. -/
theorem Above.total (h : t.Above n a) (h' : t.Above n b) : t.Above a b ∨ t.Above b a := by
  induction h with
  | refl => exact .inl h'
  | up hne h ih =>
      rcases (above_iff hne).mp h' with rfl | h'
      · exact .inr (.up hne h)
      · exact ih h'

namespace Rooted

theorem ne_root (h : t.Rooted nodes) (hn : n ∈ nodes) : n ≠ t.root :=
  fun heq => h.root_not_mem (heq ▸ hn)

theorem above_mem (h : t.Rooted nodes) (hn : n ∈ t.root :: nodes) (ha : t.Above n a) :
    a ∈ t.root :: nodes := by
  induction ha with
  | refl => exact hn
  | up hne _ ih =>
      rcases List.mem_cons.mp hn with rfl | hn
      · exact absurd rfl hne
      · exact ih (h.parent_mem _ hn)

theorem level_lt (h : t.Rooted nodes) (hn : n ∈ t.root :: nodes) (ha : t.Above n a) :
    a = n ∨ t.level a < t.level n := by
  induction ha with
  | refl => exact .inl rfl
  | up hne ha ih =>
      rcases List.mem_cons.mp hn with rfl | hn
      · exact absurd rfl hne
      · have hlevel := h.level_eq _ hn
        rcases ih (h.parent_mem _ hn) with rfl | hlt
        · exact .inr (by omega)
        · exact .inr (by omega)

theorem antisymm (h : t.Rooted nodes) (hn : n ∈ t.root :: nodes) (ha : t.Above n a)
    (hna : t.Above a n) : a = n := by
  rcases h.level_lt hn ha with heq | hlt
  · exact heq
  · rcases h.level_lt (h.above_mem hn ha) hna with heq | hlt'
    · exact heq.symm
    · omega

theorem eq_root (h : t.Rooted nodes) (hn : n ∈ t.root :: nodes) (hlevel : t.level n = 0) :
    n = t.root := by
  rcases List.mem_cons.mp hn with rfl | hn
  · rfl
  · have := h.level_eq n hn
    omega

theorem above_top (h : t.Rooted nodes) (hn : n ∈ t.root :: nodes) : t.Above n t.root := by
  induction hk : t.level n generalizing n with
  | zero => exact h.eq_root hn hk ▸ .refl _
  | succ k ih =>
      rcases List.mem_cons.mp hn with rfl | hn
      · exact .refl _
      · have hlevel := h.level_eq n hn
        exact .up (h.ne_root hn) (ih (h.parent_mem n hn) (by omega))

/-! ## Climbing -/

theorem climb_eq (h : t.Rooted nodes) {low k : Nat} (hn : n ∈ t.root :: nodes)
    (hk : t.level n ≤ k) (ha : a ∈ t.root :: nodes) (hlow : t.level a = low) :
    t.climb low k n = a ↔ t.Above n a := by
  induction k generalizing n with
  | zero =>
      obtain rfl := h.eq_root hn (by omega)
      rw [above_root]
      exact ⟨Eq.symm, Eq.symm⟩
  | succ k ih =>
      unfold climb
      split_ifs with hlt
      · have hne : n ≠ t.root := fun heq => by
          rw [heq, h.level_root] at hlt
          omega
        have hmem : n ∈ nodes := (List.mem_cons.mp hn).resolve_left hne
        have hlevel := h.level_eq n hmem
        rw [ih (h.parent_mem n hmem) (by omega), above_iff hne]
        refine ⟨.inr, fun hor => hor.resolve_left fun heq => ?_⟩
        rw [heq] at hlow
        omega
      · constructor
        · rintro rfl
          exact .refl _
        · intro hna
          rcases h.level_lt hn hna with heq | hlt'
          · exact heq.symm
          · omega

theorem meet_spec [DecidableEq α] (h : t.Rooted nodes) {k : Nat} (ha : a ∈ t.root :: nodes)
    (hb : b ∈ t.root :: nodes) (hk : t.level a + t.level b ≤ k) :
    t.meet k a b ∈ t.root :: nodes ∧
      ∀ x, t.Above (t.meet k a b) x ↔ t.Above a x ∧ t.Above b x := by
  induction k generalizing a b with
  | zero =>
      obtain rfl := h.eq_root ha (by omega)
      obtain rfl := h.eq_root hb (by omega)
      exact ⟨ha, fun x => (and_self_iff ..).symm⟩
  | succ k ih =>
      unfold meet
      split_ifs with heq hlt
      · subst heq
        exact ⟨ha, fun x => (and_self_iff ..).symm⟩
      · have hne : a ≠ t.root := fun hroot => by
          rw [hroot, h.level_root] at hlt
          omega
        have hmem := (List.mem_cons.mp ha).resolve_left hne
        have hlevel := h.level_eq a hmem
        obtain ⟨hin, habove⟩ := ih (h.parent_mem a hmem) hb (by omega)
        refine ⟨hin, fun x => (habove x).trans (and_congr_left fun hbx => ?_)⟩
        rw [above_iff hne]
        refine ⟨.inr, fun hor => hor.resolve_left fun hx => ?_⟩
        -- `a` is below `b`
        rw [hx] at hbx
        rcases h.level_lt hb hbx with hab | hab
        · exact heq hab
        · omega
      · have hne : b ≠ t.root := fun hroot => by
          rw [hroot, h.level_root] at hlt
          exact heq ((h.eq_root ha (by omega)).trans hroot.symm)
        have hmem := (List.mem_cons.mp hb).resolve_left hne
        have hlevel := h.level_eq b hmem
        obtain ⟨hin, habove⟩ := ih ha (h.parent_mem b hmem) (by omega)
        refine ⟨hin, fun x => (habove x).trans (and_congr_right fun hax => ?_)⟩
        rw [above_iff hne]
        refine ⟨.inr, fun hor => hor.resolve_left fun hx => ?_⟩
        rw [hx] at hax
        rcases h.level_lt ha hax with hab | hab
        · exact heq hab.symm
        · omega

theorem common_mem [DecidableEq α] (h : t.Rooted nodes) (ha : a ∈ t.root :: nodes) (hb : b ∈ t.root :: nodes) :
    t.common a b ∈ t.root :: nodes :=
  (h.meet_spec ha hb (Nat.le_refl _)).1

theorem above_common [DecidableEq α] (h : t.Rooted nodes) (ha : a ∈ t.root :: nodes) (hb : b ∈ t.root :: nodes)
    (x : α) : t.Above (t.common a b) x ↔ t.Above a x ∧ t.Above b x :=
  (h.meet_spec ha hb (Nat.le_refl _)).2 x

/-- What is above the nearest common ancestor of some nodes is above all of them. -/
theorem above_foldl [DecidableEq α] (h : t.Rooted nodes) {l : List α} (hl : ∀ p ∈ l, p ∈ t.root :: nodes)
    {a : α} (ha : a ∈ t.root :: nodes) :
    l.foldl t.common a ∈ t.root :: nodes ∧
      ∀ x, t.Above (l.foldl t.common a) x ↔ t.Above a x ∧ ∀ p ∈ l, t.Above p x := by
  induction l generalizing a with
  | nil => exact ⟨ha, fun x => by simp⟩
  | cons p l ih =>
      have hp := hl p List.mem_cons_self
      obtain ⟨hin, habove⟩ := ih (fun q hq => hl q (List.mem_cons_of_mem _ hq)) (h.common_mem ha hp)
      refine ⟨hin, fun x => (habove x).trans ?_⟩
      rw [h.above_common ha hp, List.forall_mem_cons, and_assoc]

/-! ## Growing -/

theorem hang [DecidableEq α] (h : t.Rooted nodes) (hn : n ∉ t.root :: nodes) (hm : m ∈ t.root :: nodes) :
    (t.hang n m).Rooted (n :: nodes) := by
  have hne : ∀ x ∈ t.root :: nodes, x ≠ n := fun x hx heq => hn (heq ▸ hx)
  have hroot := hne t.root List.mem_cons_self
  have hparent : ∀ x ∈ nodes, (t.hang n m).parent x = t.parent x := fun x hx =>
    Function.update_of_ne (hne x (List.mem_cons_of_mem _ hx)) ..
  have hlevel : ∀ x ∈ t.root :: nodes, (t.hang n m).level x = t.level x := fun x hx =>
    Function.update_of_ne (hne x hx) ..
  have hin : ∀ x ∈ t.root :: nodes, x ∈ t.root :: n :: nodes := fun x hx => by
    rcases List.mem_cons.mp hx with rfl | hx
    · exact List.mem_cons_self
    · exact List.mem_cons_of_mem _ (List.mem_cons_of_mem _ hx)
  refine ⟨?_, ?_, ?_, ?_⟩
  · intro hmem
    rcases List.mem_cons.mp hmem with heq | hmem
    · exact hroot heq
    · exact h.root_not_mem hmem
  · exact (hlevel _ List.mem_cons_self).trans h.level_root
  · intro x hx
    rcases List.mem_cons.mp hx with rfl | hx
    · rw [show (t.hang x m).parent x = m from Function.update_self ..]
      exact hin m hm
    · rw [hparent x hx]
      exact hin _ (h.parent_mem x hx)
  · intro x hx
    rcases List.mem_cons.mp hx with rfl | hx
    · rw [show (t.hang x m).parent x = m from Function.update_self .., hlevel m hm]
      exact Function.update_self ..
    · rw [hparent x hx, hlevel x (List.mem_cons_of_mem _ hx), hlevel _ (h.parent_mem x hx)]
      exact h.level_eq x hx

theorem above_hang [DecidableEq α] (h : t.Rooted nodes) (hn : n ∉ t.root :: nodes)
    (hb : b ∈ t.root :: nodes) : (t.hang n m).Above b a ↔ t.Above b a := by
  have hparent : ∀ x ∈ t.root :: nodes, (t.hang n m).parent x = t.parent x := fun x hx =>
    Function.update_of_ne (fun heq : x = n => hn (heq ▸ hx)) ..
  constructor
  · intro hba
    induction hba with
    | refl => exact .refl _
    | @up x _ hne _ ih =>
        have hx : x ∈ nodes := (List.mem_cons.mp hb).resolve_left hne
        rw [hparent x hb] at ih
        exact .up hne (ih (h.parent_mem x hx))
  · intro hba
    induction hba with
    | refl => exact .refl _
    | @up x _ hne _ ih =>
        have hx : x ∈ nodes := (List.mem_cons.mp hb).resolve_left hne
        refine .up hne ?_
        rw [hparent x hb]
        exact ih (h.parent_mem x hx)

theorem above_hang_self [DecidableEq α] (h : t.Rooted nodes) (hn : n ∉ t.root :: nodes)
    (hm : m ∈ t.root :: nodes) : (t.hang n m).Above n a ↔ a = n ∨ t.Above m a := by
  have hne : n ≠ (t.hang n m).root := fun heq => hn (List.mem_cons.mpr (.inl heq))
  rw [above_iff hne, show (t.hang n m).parent n = m from Function.update_self ..,
    h.above_hang hn hm]

end Rooted

end

section

variable [DecidableEq α] {choose : ParentTree α → α → α} {order : List α} {root : α}

theorem grow_root (t : ParentTree α) : (t.grow choose order).root = t.root := by
  induction order generalizing t with
  | nil => rfl
  | cons n order ih => exact ih (t.hang n (choose t n))

/-- Nodes that hang where their neighbours meet are below what is above all of these. -/
theorem grow_above {near : α → List α} (hroot : root ∉ order) (hnodup : order.Nodup)
    (hnear : Topological (fun n p => p ∈ near n ∧ p ≠ root) order)
    (hchoose : ∀ (t : ParentTree α) nodes n, t.root = root → t.Rooted nodes →
      (∀ p ∈ near n, p ∈ t.root :: nodes) →
        choose t n ∈ t.root :: nodes ∧ ∀ x, t.Above (choose t n) x ↔ ∀ p ∈ near n, t.Above p x) :
    ((single root).grow choose order).Rooted order.reverse ∧
      ∀ n ∈ order, ∀ x, ((single root).grow choose order).Above n x ↔
        x = n ∨ ∀ p ∈ near n, ((single root).grow choose order).Above p x := by
  induction order using List.reverseRecOn with
  | nil => exact ⟨rooted_single root, fun n hn => absurd hn List.not_mem_nil⟩
  | append_singleton order m ih =>
      have hm : m ∉ order := fun h => (List.nodup_append.mp hnodup).2.2 m h m (by simp) rfl
      have hmroot : m ≠ root := fun heq => hroot (by simp [heq])
      obtain ⟨hrooted, habove⟩ := ih (fun h => hroot (List.mem_append_left _ h))
        (List.nodup_append.mp hnodup).1 hnear.of_append
      have hgrow : (single root).grow choose (order ++ [m]) =
          ((single root).grow choose order).hang m (choose ((single root).grow choose order) m) :=
        List.foldl_append ..
      have htop : ((single root).grow choose order).root = root := grow_root _
      rw [hgrow, List.reverse_append]
      generalize (single root).grow choose order = t at *
      have hold : ∀ n, n ∈ t.root :: order.reverse ↔ n = root ∨ n ∈ order := fun n => by
        rw [List.mem_cons, List.mem_reverse, htop]
      have hnew : m ∉ t.root :: order.reverse := by
        rw [hold, not_or]
        exact ⟨hmroot, hm⟩
      have hneighbours : ∀ done n rest, order ++ [m] = done ++ n :: rest → ∀ p ∈ near n,
          p = root ∨ p ∈ done := fun done n rest hsplit p hp =>
        or_iff_not_imp_left.mpr fun hne => hnear done n rest hsplit p ⟨hp, hne⟩
      obtain ⟨hin, hmeet⟩ := hchoose t order.reverse m htop hrooted fun p hp =>
        (hold p).mpr (hneighbours order m [] rfl p hp)
      refine ⟨hrooted.hang hnew hin, fun n hn x => ?_⟩
      rcases List.mem_append.mp hn with hn | hn
      · -- an old node and its neighbours
        obtain ⟨done, rest, rfl⟩ := List.append_of_mem hn
        rw [hrooted.above_hang hnew ((hold n).mpr (.inr hn)), habove n hn x]
        refine or_congr_right (forall₂_congr fun p hp => ?_)
        refine (hrooted.above_hang hnew ((hold p).mpr ?_)).symm
        exact (hneighbours done n (rest ++ [m]) (by simp) p hp).imp_right
          (List.mem_append_left _)
      · obtain rfl := List.mem_singleton.mp hn
        rw [hrooted.above_hang_self hnew hin, hmeet x]
        refine or_congr_right (forall₂_congr fun p hp => ?_)
        exact (hrooted.above_hang hnew ((hold p).mpr (hneighbours order n [] rfl p hp))).symm

end

end ParentTree

end CppHdl
