import CppHdl.Lib.Requests
import CppHdl.Lib.Transition

/-!
# Round robin

Of `n` requesters, the first one from a pointer on that asks. How far a requester is from
the pointer says when it is its turn: behind a grant to a nearer one, with the pointer
moved past that, it is nearer than before.
-/

namespace CppHdl.RoundRobin

/-- How far `k` is behind the pointer `rr`. -/
def distance (n rr k : Nat) : Nat := (k + (n - rr % n)) % n

def first (n rr : Nat) (asks : Nat → Bool) : Option Nat :=
  ((List.range n).find? fun d => asks ((rr + d) % n)).map fun d => (rr + d) % n

variable {n rr k c : Nat} {asks : Nat → Bool}

theorem distance_lt (hn : 0 < n) (rr k : Nat) : distance n rr k < n := Nat.mod_lt _ hn

theorem add_distance (hk : k < n) (rr : Nat) : (rr + distance n rr k) % n = k := by
  have hrr : rr % n < n := Nat.mod_lt _ (Nat.lt_of_le_of_lt (Nat.zero_le _) hk)
  have hsum : rr % n + (k + (n - rr % n)) = k + n := by omega
  unfold distance
  rw [Nat.add_mod_mod, ← Nat.mod_add_mod, hsum, Nat.add_mod_right, Nat.mod_eq_of_lt hk]

theorem distance_add {d : Nat} (hd : d < n) (rr : Nat) : distance n rr ((rr + d) % n) = d := by
  have hrr : rr % n < n := Nat.mod_lt _ (Nat.lt_of_le_of_lt (Nat.zero_le _) hd)
  have hsum : rr % n + (d + (n - rr % n)) = d + n := by omega
  unfold distance
  rw [Nat.mod_add_mod, Nat.add_assoc, ← Nat.mod_add_mod, hsum, Nat.add_mod_right,
    Nat.mod_eq_of_lt hd]

theorem first_eq_some (h : first n rr asks = some c) :
    c < n ∧ asks c = true ∧ ∀ k < n, asks k = true → distance n rr c ≤ distance n rr k := by
  obtain ⟨d, hd, rfl⟩ := Option.map_eq_some_iff.mp h
  obtain ⟨hasks, hrange, hbefore⟩ := List.find?_range_eq_some.mp hd
  have hlt : d < n := List.mem_range.mp hrange
  refine ⟨Nat.mod_lt _ (Nat.lt_of_le_of_lt (Nat.zero_le _) hlt), hasks, fun k hk hak => ?_⟩
  rw [distance_add hlt, ← Nat.not_lt]
  intro hnear
  have hnot := hbefore _ hnear
  rw [add_distance hk, hak] at hnot
  cases hnot

theorem first_eq_none (h : first n rr asks = none) (hk : k < n) : asks k = false := by
  have hnone := List.find?_eq_none.mp (Option.map_eq_none_iff.mp h) (distance n rr k)
    (List.mem_range.mpr (distance_lt (Nat.lt_of_le_of_lt (Nat.zero_le _) hk) rr k))
  rw [add_distance hk] at hnone
  exact Bool.eq_false_iff.mpr hnone

theorem first_of_nearest (hc : c < n) (hasks : asks c = true)
    (hnear : ∀ k < n, asks k = true → distance n rr c ≤ distance n rr k) :
    first n rr asks = some c := by
  cases h : first n rr asks with
  | none =>
      rw [first_eq_none h hc] at hasks
      cases hasks
  | some c' =>
      obtain ⟨hc', hasks', hnear'⟩ := first_eq_some h
      have heq : distance n rr c' = distance n rr c :=
        Nat.le_antisymm (hnear' c hc hasks) (hnear c' hc' hasks')
      rw [← add_distance hc' rr, heq, add_distance hc rr]

theorem distance_past (hk : k < n) (hc : c < n) (hne : c ≠ k)
    (hnear : distance n rr c ≤ distance n rr k) :
    distance n (c + 1) k < distance n rr k := by
  have hlt : distance n rr c < distance n rr k := by
    refine Nat.lt_of_le_of_ne hnear fun heq => hne ?_
    rw [← add_distance hc rr, heq, add_distance hk rr]
  have hn : distance n rr k < n := distance_lt (Nat.lt_of_le_of_lt (Nat.zero_le _) hk) rr k
  have hbehind : (c + 1 + (distance n rr k - distance n rr c - 1)) % n = k := by
    have hc' := add_distance hc rr
    have hsum : rr + distance n rr c + 1 + (distance n rr k - distance n rr c - 1) =
        rr + distance n rr k := by omega
    calc (c + 1 + (distance n rr k - distance n rr c - 1)) % n
        = (rr + distance n rr c + 1 + (distance n rr k - distance n rr c - 1)) % n := by
          rw [Nat.add_assoc c, ← hc', Nat.mod_add_mod, ← Nat.add_assoc, hc']
      _ = (rr + distance n rr k) % n := by rw [hsum]
      _ = k := add_distance hk rr
  have hdistance := distance_add (show distance n rr k - distance n rr c - 1 < n by omega) (c + 1)
  rw [hbehind] at hdistance
  omega

theorem distance_mod (n rr k : Nat) : distance n (rr % n) k = distance n rr k := by
  unfold distance
  rw [Nat.mod_mod]

/-! ## Waiting -/

/-- While `k` waits, at most as many grants go to others as it is far from the pointer. -/
theorem grants_while_waiting {σ ε α : Type*} {ok : σ → ε → Prop} {step : σ → ε → σ}
    {pointer : σ → Nat} {grants : σ → List (Nat × α)}
    (hstep : ∀ x e, ok x e → ∃ more, grants (step x e) = grants x ++ more ∧
      (Service.onPort k more = [] →
        more.length + distance n (pointer (step x e)) k ≤ distance n (pointer x) k))
    {x : σ} {es : List ε} (h : Transitions.Along ok step x es)
    (hwaits : Service.onPort k (grants (es.foldl step x)) = Service.onPort k (grants x)) :
    (grants (es.foldl step x)).length ≤ (grants x).length + distance n (pointer x) k := by
  have hgrow : ∀ (es : List ε) (x : σ), Transitions.Along ok step x es →
      ∃ more, grants (es.foldl step x) = grants x ++ more := by
    intro es
    induction es with
    | nil => exact fun x _ => ⟨[], (List.append_nil _).symm⟩
    | cons e es ih =>
        intro x h
        obtain ⟨more, hmore, _⟩ := hstep x e h.1
        obtain ⟨rest, hrest⟩ := ih (step x e) h.2
        exact ⟨more ++ rest, by rw [List.foldl_cons, hrest, hmore, List.append_assoc]⟩
  induction es generalizing x with
  | nil => exact Nat.le_add_right _ _
  | cons e es ih =>
      obtain ⟨more, hmore, hnearer⟩ := hstep x e h.1
      obtain ⟨rest, hrest⟩ := hgrow es (step x e) h.2
      rw [List.foldl_cons] at hwaits ⊢
      have hnone : Service.onPort k (more ++ rest) = [] := by
        rw [hrest, hmore, List.append_assoc, Service.onPort_append] at hwaits
        exact List.append_right_eq_self.mp hwaits
      rw [Service.onPort_append, List.append_eq_nil_iff] at hnone
      have hle := ih h.2 (by rw [hrest, Service.onPort_append, hnone.2, List.append_nil])
      rw [hmore, List.length_append] at hle
      have := hnearer hnone.1
      omega

end CppHdl.RoundRobin
