import Mathlib.Data.List.Basic

/-!
# Requests and their beats

A channel carries requests, another one the beats that belong to them, in order;
what is a last beat ends its request. Where several ports share the channels, every
request and every beat is labelled with its port.

`Serial` is one request at a time over all ports: then a port that sends or expects a
beat is the port of the request that is open.
-/

namespace CppHdl

variable {ι ρ β : Type*}

/-- Which beats end a request, and which beats fit a request. -/
structure Service (ρ β : Type*) where
  last : β → Bool
  fits : ρ → β → Bool

namespace Service

/-- How many requests these beats end. -/
def ended (S : Service ρ β) (beats : List β) : Nat := beats.countP S.last

/-- A beat of the first request that is not ended. -/
def Due (S : Service ρ β) (reqs : List ρ) (beats : List β) (b : β) : Prop :=
  ∃ r ∈ reqs[S.ended beats]?, S.fits r b = true

instance (S : Service ρ β) (reqs : List ρ) (beats : List β) (b : β) : Decidable (S.Due reqs beats b) :=
  inferInstanceAs (Decidable (∃ r ∈ reqs[S.ended beats]?, S.fits r b = true))

/-- Every beat was due when it came. -/
def InOrder (S : Service ρ β) (reqs : List ρ) (beats : List β) : Prop :=
  ∀ k b, beats[k]? = some b → S.Due reqs (beats.take k) b

variable {S : Service ρ β} {reqs : List ρ} {beats : List β} {b : β}

theorem ended_append (beats more : List β) :
    S.ended (beats ++ more) = S.ended beats + S.ended more := List.countP_append

theorem ended_singleton (b : β) : S.ended [b] = (S.last b).toNat := by
  unfold ended
  cases h : S.last b
  · rw [List.countP_cons_of_neg (by rw [h]; exact Bool.false_ne_true)]
    rfl
  · rw [List.countP_cons_of_pos h]
    rfl

theorem Due.request (h : S.Due reqs beats b) (more : List ρ) : S.Due (reqs ++ more) beats b := by
  obtain ⟨r, hr, hfits⟩ := h
  refine ⟨r, ?_, hfits⟩
  rw [List.getElem?_append_left (List.getElem?_eq_some_iff.mp hr).1]
  exact hr

theorem inOrder_nil (reqs : List ρ) : S.InOrder reqs [] := by
  intro k b hb
  cases hb

theorem InOrder.request (h : S.InOrder reqs beats) (more : List ρ) :
    S.InOrder (reqs ++ more) beats :=
  fun k b hb => (h k b hb).request more

theorem InOrder.beat (h : S.InOrder reqs beats) (hb : S.Due reqs beats b) :
    S.InOrder reqs (beats ++ [b]) := by
  intro k b' hk
  rcases Nat.lt_trichotomy k beats.length with hlt | rfl | hgt
  · rw [List.getElem?_append_left hlt] at hk
    rw [List.take_append_of_le_length (Nat.le_of_lt hlt)]
    exact h k b' hk
  · rw [List.getElem?_concat_length] at hk
    rw [List.take_left, ← Option.some.inj hk]
    exact hb
  · rw [List.getElem?_eq_none (by rw [List.length_append, List.length_singleton]; omega)] at hk
    cases hk

/-! ## Ports -/

/-- What happens at the ports in a clock. -/
def labelled {α : Type*} (ports : List ι) (f : ι → Option α) : List (ι × α) :=
  ports.filterMap fun i => (f i).map (i, ·)

theorem labelled_unit {α : Type*} (x : Option α) :
    labelled [()] (fun _ => x) = (x.map ((), ·)).toList := by
  cases x <;> rfl

/-- Port `k` of one side and the only port of the other one see the same. -/
theorem map_snd_labelled {α : Type*} {xs : List (ι × α)} {ys : List (Unit × α)} (k : ι)
    (e : Option α) (h : xs.map Prod.snd = ys.map Prod.snd) :
    (xs ++ (e.map (k, ·)).toList).map Prod.snd = (ys ++ labelled [()] fun _ => e).map Prod.snd := by
  rw [List.map_append, List.map_append, h, labelled_unit]
  cases e <;> rfl

theorem labelled_chosen {α : Type*} {ports : List ι} (hnodup : ports.Nodup) {k : ι} (hk : k ∈ ports)
    {f : ι → Option α} (hother : ∀ i, i ≠ k → f i = none) :
    labelled ports f = ((f k).map (k, ·)).toList := by
  unfold labelled
  obtain ⟨before, after, rfl⟩ := List.append_of_mem hk
  have hnone : ∀ l : List ι, k ∉ l → l.filterMap (fun i => (f i).map (i, ·)) = [] := by
    intro l hl
    rw [List.filterMap_eq_nil_iff]
    intro i hi
    rw [hother i (fun h => hl (h ▸ hi))]
    rfl
  rw [List.nodup_append] at hnodup
  obtain ⟨_, hafter, hbefore⟩ := hnodup
  rw [List.filterMap_append, hnone before (fun h => hbefore k h k List.mem_cons_self rfl)]
  have hrest := hnone after (List.nodup_cons.mp hafter).1
  cases hf : f k with
  | none =>
      rw [List.nil_append, List.filterMap_cons_none (by rw [hf]; rfl), hrest]
      rfl
  | some x =>
      rw [List.nil_append, List.filterMap_cons_some (by rw [hf]; rfl), hrest]
      rfl

/-- Beats belong to a request of their own port. -/
def ported (S : Service ρ β) [DecidableEq ι] : Service (ι × ρ) (ι × β) where
  last b := S.last b.2
  fits r b := decide (r.1 = b.1) && S.fits r.2 b.2

variable [DecidableEq ι]

def onPort {α : Type*} (i : ι) (xs : List (ι × α)) : List α :=
  xs.filterMap fun x => if x.1 = i then some x.2 else none

theorem onPort_append {α : Type*} (i : ι) (xs ys : List (ι × α)) :
    onPort i (xs ++ ys) = onPort i xs ++ onPort i ys := List.filterMap_append

theorem onPort_self {α : Type*} (i : ι) (x : α) : onPort i [(i, x)] = [x] := by
  have hself : (if (i, x).1 = i then some (i, x).2 else none) = some x := if_pos rfl
  exact List.filterMap_cons_some hself

theorem onPort_other {α : Type*} {i j : ι} (h : j ≠ i) (x : α) : onPort i [(j, x)] = [] := by
  have hother : (if (j, x).1 = i then some (j, x).2 else none) = none := if_neg h
  exact List.filterMap_cons_none hother

/-- With one port the labels say nothing. -/
theorem onPort_unit {α : Type*} (xs : List (Unit × α)) : onPort () xs = xs.map Prod.snd := by
  induction xs with
  | nil => rfl
  | cons x xs ih => exact congrArg (x.2 :: ·) ih

theorem ended_ported (beats : List (ι × β)) :
    S.ported.ended beats = S.ended (beats.map Prod.snd) := by
  unfold ended
  rw [List.countP_map]
  rfl

/-! ## One at a time -/

/-- At most one request is open; all others are ended, at every port. -/
structure Serial (S : Service ρ β) (reqs : List (ι × ρ)) (beats : List (ι × β))
    (current : Option (ι × ρ)) : Prop where
  inOrder : S.ported.InOrder reqs beats
  others : ∃ before, reqs = before ++ current.toList ∧ S.ported.ended beats = before.length ∧
    ∀ i, S.ended (onPort i beats) = (onPort i before).length

namespace Serial

variable {S : Service ρ β} {reqs : List (ι × ρ)} {beats : List (ι × β)} {current : Option (ι × ρ)}

theorem start (S : Service ρ β) : Serial S ([] : List (ι × ρ)) [] none :=
  ⟨inOrder_nil _, [], rfl, rfl, fun _ => rfl⟩

theorem request (h : Serial S reqs beats none) (r : ι × ρ) :
    Serial S (reqs ++ [r]) beats (some r) := by
  obtain ⟨before, hreqs, hended, hport⟩ := h.others
  have hbefore : reqs = before := by rw [hreqs]; exact List.append_nil _
  refine ⟨h.inOrder.request [r], reqs, rfl, ?_, fun i => ?_⟩
  · rw [hended, hbefore]
  · rw [hport i, hbefore]

theorem due (h : Serial S reqs beats (some (i, r))) {b : β} (hfits : S.fits r b = true) :
    S.ported.Due reqs beats (i, b) := by
  obtain ⟨before, hreqs, hended, _⟩ := h.others
  refine ⟨(i, r), ?_, ?_⟩
  · rw [hended, hreqs]
    exact List.getElem?_concat_length
  · change (decide (i = i) && S.fits r b) = true
    rw [hfits, decide_eq_true rfl]
    rfl

/-- A beat of the open request ends it or leaves it open. -/
theorem beat (h : Serial S reqs beats (some (i, r))) {b : β} (hfits : S.fits r b = true) :
    Serial S reqs (beats ++ [(i, b)]) (if S.last b then none else some (i, r)) := by
  obtain ⟨before, hreqs, hended, hport⟩ := h.others
  refine ⟨h.inOrder.beat (h.due hfits), ?_⟩
  have hlast : S.ported.ended [(i, b)] = (S.last b).toNat := ended_singleton (S := S.ported) (i, b)
  cases hb : S.last b with
  | false =>
      rw [if_neg Bool.false_ne_true]
      refine ⟨before, hreqs, ?_, fun j => ?_⟩
      · rw [ended_append, hended, hlast, hb]
        rfl
      · rw [onPort_append, ended_append, hport j]
        by_cases hij : i = j
        · rw [hij, onPort_self, ended_singleton, hb]
          rfl
        · rw [onPort_other hij]
          rfl
  | true =>
      rw [if_pos rfl]
      refine ⟨reqs, (List.append_nil _).symm, ?_, fun j => ?_⟩
      · rw [ended_append, hended, hlast, hb, hreqs, List.length_append]
        rfl
      · rw [onPort_append, ended_append, hport j, hreqs, onPort_append, List.length_append]
        by_cases hij : i = j
        · rw [hij, onPort_self, ended_singleton, hb]
          exact congrArg _ (congrArg List.length (onPort_self j r)).symm
        · rw [onPort_other hij]
          exact congrArg _ (congrArg List.length (onPort_other hij r)).symm

/-- While a request is not ended, one is open. -/
theorem busy (h : Serial S reqs beats current) (hended : S.ported.ended beats < reqs.length) :
    current ≠ none := by
  rintro rfl
  obtain ⟨before, hreqs, hcount, _⟩ := h.others
  rw [hcount, hreqs, List.length_append] at hended
  exact Nat.lt_irrefl _ hended

/-- Of the same request, the same are ended at each port. -/
theorem ended_port {σ : Type*} {S' : Service ρ σ} {beats' : List (ι × σ)}
    (h : Serial S reqs beats current) (h' : Serial S' reqs beats' current) (i : ι) :
    S.ended (onPort i beats) = S'.ended (onPort i beats') := by
  obtain ⟨before, hreqs, _, hport⟩ := h.others
  obtain ⟨before', hreqs', _, hport'⟩ := h'.others
  rw [hport i, hport' i, List.append_cancel_right (hreqs.symm.trans hreqs')]

/-- Of the same request, the same are ended. -/
theorem ended_eq {σ : Type*} {S' : Service ρ σ} {beats' : List (ι × σ)}
    (h : Serial S reqs beats current) (h' : Serial S' reqs beats' current) :
    S.ended (beats.map Prod.snd) = S'.ended (beats'.map Prod.snd) := by
  obtain ⟨before, hreqs, hcount, _⟩ := h.others
  obtain ⟨before', hreqs', hcount', _⟩ := h'.others
  rw [← ended_ported, ← ended_ported, hcount, hcount',
    List.append_cancel_right (hreqs.symm.trans hreqs')]

/-- A beat that is due belongs to the open request. -/
theorem of_due_payload (h : Serial S reqs beats current) {b : β}
    (hdue : S.Due (reqs.map Prod.snd) (beats.map Prod.snd) b) :
    ∃ r, current = some r ∧ S.fits r.2 b = true := by
  obtain ⟨before, hreqs, hcount, _⟩ := h.others
  obtain ⟨r, hr, hfits⟩ := hdue
  rw [← ended_ported, hcount, hreqs, List.map_append,
    List.getElem?_append_right (Nat.le_of_eq (List.length_map Prod.snd)), List.length_map, Nat.sub_self] at hr
  cases current with
  | none => cases hr
  | some x =>
      cases hr
      exact ⟨x, rfl, hfits⟩

/-- A beat that is due at a port belongs to the open request. -/
theorem of_due (h : Serial S reqs beats current) {i : ι} {b : β}
    (hdue : S.Due (onPort i reqs) (onPort i beats) b) :
    ∃ r, current = some (i, r) ∧ S.fits r b = true := by
  obtain ⟨before, hreqs, _, hport⟩ := h.others
  obtain ⟨r, hr, hfits⟩ := hdue
  rw [hport i, hreqs, onPort_append, List.getElem?_append_right (Nat.le_refl _), Nat.sub_self] at hr
  cases current with
  | none => cases hr
  | some x =>
      obtain ⟨j, r'⟩ := x
      by_cases hij : j = i
      · subst hij
        change (onPort j [(j, r')])[0]? = some r at hr
        rw [onPort_self] at hr
        exact ⟨r, by rw [← Option.some.inj hr], hfits⟩
      · change (onPort i [(j, r')])[0]? = some r at hr
        rw [onPort_other hij] at hr
        cases hr

/-- A clock: a request opens when none is open, a beat is of the open one. -/
theorem clock (h : Serial S reqs beats current) {q : Option (ι × ρ)} {b : Option (ι × β)}
    (hq : current ≠ none → q = none)
    (hb : ∀ x ∈ b, ∃ r, current = some r ∧ x.1 = r.1 ∧ S.fits r.2 x.2 = true) :
    Serial S (reqs ++ q.toList) (beats ++ b.toList)
      (q.or (if b.any fun x => S.last x.2 then none else current)) := by
  cases current with
  | none =>
      obtain rfl : b = none := by
        cases b with
        | none => rfl
        | some x =>
            obtain ⟨r, hr, _⟩ := hb x rfl
            cases hr
      rw [Option.toList_none, List.append_nil]
      cases q with
      | none => exact (List.append_nil reqs).symm ▸ h
      | some r => exact h.request r
  | some r =>
      obtain rfl := hq (by simp)
      rw [Option.toList_none, List.append_nil]
      cases b with
      | none => exact (List.append_nil beats).symm ▸ h
      | some x =>
          obtain ⟨r', hr, hport, hfits⟩ := hb x rfl
          obtain ⟨k, y⟩ := x
          cases hr
          cases hport
          exact h.beat hfits

end Serial

/-! ## Writes -/

/-- Requests with beats in both directions: until its response, the data of the open
request may be complete. -/
structure Writing {δ : Type*} (D : Service ρ δ) (S : Service ρ β) (reqs : List (ι × ρ))
    (data : List (ι × δ)) (responses : List (ι × β)) (current : Option (ι × ρ)) : Prop where
  responses : Serial S reqs responses current
  data : Serial D reqs data current ∨ Serial D reqs data none

namespace Writing

variable {δ : Type*} {D : Service ρ δ} {S : Service ρ β} {reqs : List (ι × ρ)} {data : List (ι × δ)}
  {responses : List (ι × β)} {current : Option (ι × ρ)}

theorem start : Writing D S ([] : List (ι × ρ)) [] [] none := ⟨Serial.start S, .inl (Serial.start D)⟩

/-- Where more data are complete than are answered, the open request waits for its answer. -/
theorem done_of_lt (h : Writing D S reqs data responses current)
    (hlt : S.ended (responses.map Prod.snd) < D.ended (data.map Prod.snd)) :
    Serial D reqs data none := by
  refine h.data.resolve_left fun hopen => ?_
  rw [hopen.ended_eq h.responses] at hlt
  exact Nat.lt_irrefl _ hlt

theorem done_of_port_lt (h : Writing D S reqs data responses current) {i : ι}
    (hlt : S.ended (onPort i responses) < D.ended (onPort i data)) : Serial D reqs data none := by
  refine h.data.resolve_left fun hopen => ?_
  rw [hopen.ended_port h.responses i] at hlt
  exact Nat.lt_irrefl _ hlt

/-- A clock: a request opens when none is open, data come while they are not complete, and
a response comes when they are. -/
theorem clock (h : Writing D S reqs data responses current) (hlast : ∀ b, S.last b = true)
    {q : Option (ι × ρ)} {d : Option (ι × δ)} {b : Option (ι × β)} (hq : current ≠ none → q = none)
    (hd : ∀ x ∈ d, ¬ Serial D reqs data none ∧
      ∃ r, current = some r ∧ x.1 = r.1 ∧ D.fits r.2 x.2 = true)
    (hb : ∀ x ∈ b, Serial D reqs data none ∧
      ∃ r, current = some r ∧ x.1 = r.1 ∧ S.fits r.2 x.2 = true) :
    Writing D S (reqs ++ q.toList) (data ++ d.toList) (responses ++ b.toList)
      (q.or (if b.isSome then none else current)) := by
  have hresponses := h.responses.clock hq fun x hx => (hb x hx).2
  have hany : (b.any fun x => S.last x.2) = b.isSome := by
    cases b with
    | none => rfl
    | some x => exact hlast x.2
  rw [hany] at hresponses
  refine ⟨hresponses, ?_⟩
  have hstill : ∀ {open' : Option (ι × ρ)}, Serial D reqs data open' → (open' ≠ none → q = none) →
      Serial D (reqs ++ q.toList) data (q.or open') := by
    intro open' hopen hq'
    have hclock := hopen.clock (b := none) hq' (fun x hx => by cases hx)
    rwa [Option.toList_none, List.append_nil] at hclock
  cases d with
  | none =>
      rw [Option.toList_none, List.append_nil]
      cases b with
      | some x => exact .inl (hstill (hb x rfl).1 (fun h => absurd rfl h))
      | none =>
          cases current with
          | none => exact .inl (hstill (h.data.elim id id) hq)
          | some r =>
              obtain rfl := hq (by simp)
              exact h.data.imp (hstill · hq) (hstill · fun _ => rfl)
  | some x =>
      obtain ⟨hnot, r, rfl, hport, hfits⟩ := hd x rfl
      obtain rfl := hq (by simp)
      obtain rfl : b = none := by
        cases b with
        | none => rfl
        | some y => exact absurd (hb y rfl).1 hnot
      have hnext := (h.data.resolve_right hnot).clock (q := none) (b := some x) (fun _ => rfl)
        (fun y hy => by cases hy; exact ⟨r, rfl, hport, hfits⟩)
      cases hx : D.last x.2 with
      | true =>
          rw [show (some x).any (fun x => D.last x.2) = true from hx] at hnext
          exact .inr hnext
      | false =>
          rw [show (some x).any (fun x => D.last x.2) = false from hx] at hnext
          exact .inl hnext

end Writing

end Service

end CppHdl
