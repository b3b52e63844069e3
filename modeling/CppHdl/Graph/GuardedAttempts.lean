import CppHdl.Graph.Binary
import CppHdl.Graph.GuardedEvaluate

/-!
# Attempts to specialize a bit

An attempt evaluates a bit once for each choice of a selector. Its results are
joined by a multiplexer over the selector, whose bits have some values in every
clock: the multiplexer stands for the bit. An attempt that fails is taken back;
what it leaves behind are shorter alias chains.
-/

namespace CppHdl

open Failing

/-! ## Selectors -/

/-- Selectors of inputs and registers have such unions. -/
theorem Graph.independent_candidates {g : Graph} {controls : List Value}
    (h : ∀ bits ∈ controls, bits.length ≤ 6 ∧ ∀ b ∈ bits, g.Independent b) :
    ∀ bits ∈ candidates controls, bits.length ≤ 6 ∧ ∀ b ∈ bits, g.Independent b := by
  intro bits hbits
  rcases List.mem_append.mp hbits with hbits | hbits
  · exact h bits hbits
  · obtain ⟨first, hfirst, hbits⟩ := List.mem_flatMap.mp hbits
    obtain ⟨second, hsecond, hbits⟩ := List.mem_filterMap.mp hbits
    dsimp only at hbits
    split_ifs at hbits with hlen
    obtain rfl := Option.some.inj hbits
    refine ⟨hlen, fun b hb => ?_⟩
    rcases List.mem_append.mp (mem_selector.mp hb) with hb | hb
    · exact (h first hfirst).2 b hb
    · exact (h second hsecond).2 b hb

theorem mem_of_nextSelector {controls attempted : List Value} {bits : Value}
    (h : nextSelector controls attempted = some bits) : bits ∈ candidates controls := by
  have hmem := (List.mem_insertionSort _).mp (List.mem_of_head? h)
  exact (List.mem_filter.mp hmem).1

/-- In every clock a selector makes one choice. -/
theorem World.exists_chooses (w : World) (selector : Value) :
    ∃ choice < 2 ^ selector.length, w.Chooses selector choice := by
  refine ⟨natOfBits (selector.map w.env.leaf), ?_, fun p hp => ?_⟩
  · have := natOfBits_lt (selector.map w.env.leaf)
    rwa [List.length_map] at this
  · obtain ⟨b, i⟩ := p
    obtain ⟨hi, hb⟩ := List.mem_zipIdx' hp
    rw [testBit_natOfBits, List.getD_eq_getElem _ _ (by simpa using hi), List.getElem_map, hb]

/-! ## One choice -/

section

variable {g₀ : Graph} {t : Nat} {selector : Value}

/-- Inputs and registers read nothing. -/
theorem Graph.Independent.not_feeds {b d : Nat} (h : g₀.Independent b) : ¬ g₀.Feeds d b := by
  rintro ⟨-, -, n, hn, raw, hraw, -⟩
  obtain ⟨-, -, m, hm, -, hop⟩ := h
  rw [hm] at hn
  obtain rfl := Option.some.inj hn
  unfold Node.laneOperands at hraw
  rcases hop with hop | hop <;> rw [hop] at hraw <;> cases hraw

theorem Graph.Independent.ne_of_onCycle {b : Nat} (h : g₀.Independent b) (ht : g₀.OnCycle t) :
    b ≠ t := by
  rintro rfl
  obtain ⟨d, -, hfeeds⟩ := Relation.TransGen.tail'_iff.mp ht
  exact h.not_feeds hfeeds

theorem Graph.Independent.lt_bound {b : Nat} (h : g₀.Independent b) : b < g₀.bound := by
  obtain ⟨-, h66, n, hn, -⟩ := h
  exact lt_bound_of_owned h66 hn

/-- An input or a register has its value in every world. -/
theorem Graph.Independent.look {c : Progress} {w : World} {b : Nat} (h : g₀.Independent b)
    (ht : g₀.OnCycle t) (hc : Kept g₀ t c) (hw : Models t c w) :
    w.look b = some (w.env.leaf b) := by
  obtain ⟨halias, h66, n, hn, hlane, hop⟩ := id h
  refine hw.respects.node b n _ (hc.unaliased h.lt_bound halias)
    (fun he => h.ne_of_onCycle ht (hw.exempt b he)) h66 (hc.grows.nodes _ n hn) hlane ?_
  exact n.bitValue_of_leaf _ _ _ _ (by rcases hop with hop | hop <;> rw [hop] <;> rfl) b

/-- What holds between the choices of an attempt. -/
structure Trying (g₀ : Graph) (t : Nat) (selector : Value) (c : Progress) (s : Guarded) : Prop where
  graph : s.graph = c.graph
  kept : Kept g₀ t c
  assumed : ∀ b ∈ selector, c.settled b
  controls : ∀ bits ∈ s.controls, bits.length ≤ 6 ∧ ∀ b ∈ bits, g₀.Independent b

def trying (g₀ : Graph) (t : Nat) (selector : Value) : Ghosts Guarded Progress where
  Inv := Trying g₀ t selector
  Le := Progress.Le
  le_refl := Progress.Le.refl
  le_trans := Progress.Le.trans

/-- The results of the first `n` choices. -/
structure Chosen (g₀ : Graph) (t : Nat) (selector : Value) (n : Nat) (c : Progress)
    (replacement : Value) : Prop where
  plain : ∀ b ∈ replacement, c.Plain g₀ b
  means : ∀ w, Models t c w → ∀ j < n, w.Chooses selector j → w.Stands g₀ t (replacement.headD 0)

theorem of_assume {choice b r : Nat} (h : (assume selector choice)[b]? = some r) :
    ∃ i, (b, i) ∈ selector.zipIdx ∧ r = (choice.testBit i).toNat := by
  rcases of_foldl_insert h with h | ⟨p, hp, rfl, rfl⟩
  · rw [Std.ExtTreeMap.getElem?_empty] at h
    cases h
  · refine ⟨p.2, hp, ?_⟩
    rw [Nat.and_one_is_mod, Nat.toNat_testBit, Nat.shiftRight_eq_div_pow]

section Choice

variable (hg₀ : g₀.Intact) (ht : g₀.OnCycle t) (hselector : ∀ b ∈ selector, g₀.Independent b)

include hselector in
theorem Trying.assume {c : Progress} {s : Guarded} (hs : Trying g₀ t selector c s) (choice : Nat) :
    Held g₀ t selector choice False c
      { s with cache := CppHdl.assume selector choice, active := [], visits := 0 } := by
  refine ⟨hs.graph, hs.kept, fun b hb => absurd hb List.not_mem_nil, fun h => h.elim,
    fun b r hr => ?_, hs.controls⟩
  obtain ⟨i, hi, rfl⟩ := of_assume hr
  have hmem : b ∈ selector := by
    obtain ⟨_, hb⟩ := List.mem_zipIdx' hi
    exact hb ▸ List.getElem_mem _
  have hb := hselector b hmem
  refine ⟨.inl (by cases choice.testBit i <;> decide), fun n hn => ?_, fun _ w hw hchosen => ?_⟩
  · obtain ⟨-, -, m, hm, -, hop⟩ := hb
    rw [hm] at hn
    obtain rfl := Option.some.inj hn
    unfold Node.hostEffect
    rcases hop with hop | hop <;> rw [hop] <;> rfl
  · have hleaf : w.env.leaf b = choice.testBit i := hchosen (b, i) hi
    obtain ⟨halias, h66, n, hn, -, hop⟩ := hb
    refine .of_node halias (fun h => absurd h (by omega)) fun n' m _ hn' _ _ v hv => ?_
    rw [hn] at hn'
    obtain rfl := Option.some.inj hn'
    rw [n.bitValue_of_leaf _ _ _ _ (by rcases hop with hop | hop <;> rw [hop] <;> rfl), hleaf] at hv
    rw [← hv]
    cases choice.testBit i with
    | false => exact hw.respects.zero
    | true => exact hw.respects.one

theorem length_constant (k width : Nat) : (constant k width).length = width := by
  simp [constant]

include ht hselector in
/-- The comparison tells whether the choice is made. -/
theorem reads_taken {c : Progress} {w : World} (hc : Kept g₀ t c) (hw : Models t c w)
    (hlen : selector.length ≤ 6) {choice j : Nat} (hj : j < 2 ^ selector.length)
    (hchoice : choice < 2 ^ selector.length) (hchosen : w.Chooses selector j) {taken : Value}
    (htaken : taken.length = 1 ∧ ∀ l r, w.Consts → w.Reads selector l →
      w.Reads (constant choice selector.length) r → w.Holds taken (integerResult .eq l r)) :
    w.Reads taken [decide (j = choice)] := by
  have hconsts := hw.respects.consts
  have hselected : w.Reads selector (bitsOfNat selector.length j) := by
    refine World.num_iff_reads.mp fun i hi => ?_
    have hmem : (selector[i], i) ∈ selector.zipIdx := by
      rw [List.mk_mem_zipIdx_iff_getElem?, List.getElem?_eq_getElem hi]
    rw [List.getD_eq_getElem _ _ hi,
      (hselector _ (List.getElem_mem hi)).look ht hc hw, hchosen _ hmem]
  have hconstant : w.Reads (constant choice selector.length) (bitsOfNat selector.length choice) := by
    have := World.num_iff_reads.mp
      (hconsts.num_constant (x := choice) (show selector.length ≤ 64 by omega))
    rwa [length_constant] at this
  have hholds := (htaken.2 _ _ hconsts hselected hconstant).mapM_eq
  rw [World.mapM_eq_some_iff, htaken.1] at hholds
  convert hholds using 1
  unfold integerResult
  rw [natOfBits_bitsOfNat, natOfBits_bitsOfNat, Nat.mod_eq_of_lt hj, Nat.mod_eq_of_lt hchoice]
  by_cases h : j = choice <;> simp [h, bitsOfNat]

include hg₀ ht hselector in
theorem tryChoice_keeps {start root choice : Nat} (hroot : nodeBase root = t)
    (hexists : g₀.Exists t) (hlen : selector.length ≤ 6) (hchoice : choice < 2 ^ selector.length)
    {c : Progress} {s : Guarded} (hs : Trying g₀ t selector c s) {replacement : Value}
    (hreplacement : Chosen g₀ t selector choice c replacement) :
    Keeps (trying g₀ t selector) c s (tryChoice start root selector replacement choice)
      fun d r => Chosen g₀ t selector (choice + 1) d r := by
  have htlt := hexists.lt_bound
  refine Keeps.weaken (G := evaluating g₀ t selector choice False) ?_ (fun _ h => h)
    fun d u hcd hu => ⟨hu.graph, hu.kept, fun b hb => hcd.2 b (hs.assumed b hb), hu.controls⟩
  unfold tryChoice
  refine Keeps.modify_bind ?_
  rw [hroot]
  refine (evaluate_target hg₀ ht start 30001 (hs.assume hselector choice) hexists).bind
    fun output d u hcd hu houtput => ?_
  refine Keeps.ite (fun hzero => Keeps.pure hu ⟨?_, fun w hw j hj hchosen => ?_⟩) fun hne => ?_
  · exact fun b hb => List.mem_singleton.mp hb ▸ houtput.plain
  · obtain rfl : j = choice := by omega
    exact houtput.means w hw hchosen
  have hplain : ∀ b ∈ selector, d.Plain g₀ b := fun b hb => .inr (.inr (hcd.2 b (hs.assumed b hb)))
  have hwide : isWide selector (constant choice selector.length) 1 = false := by
    simp [isWide, length_constant]
    omega
  have hsealed := hu.kept.sealed.binaryEq (fun _ hb => .inr (.inl hb)) hplain
    (constant_of_forall (.inl (by omega)) (.inl (by omega)) choice selector.length) hwide
  refine (hu.onGraph htlt (binary_integer rfl selector (constant choice selector.length) 1
    (by norm_num; omega)) hsealed).bind fun taken e x hde hx htaken => ?_
  obtain ⟨-, -, htakenPlain, htaken⟩ := htaken
  have hold : ∀ b ∈ replacement, e.Plain g₀ b := fun b hb =>
    ((hreplacement.plain b hb).mono hcd.2).mono hde.2
  have hout : ∀ b ∈ [output], e.Plain g₀ b := fun b hb =>
    List.mem_singleton.mp hb ▸ houtput.plain.mono hde.2
  refine (hx.onGraph htlt (mux_builds taken [output] replacement) (hx.kept.sealed.mux
    (fun _ hb => .inr (.inl hb)) (fun b hb => (htakenPlain b hb).mono hde.2) hout hold)).mono
    fun k result hek hresult => ?_
  obtain ⟨-, -, hresultPlain, hfollows⟩ := hresult
  refine ⟨fun b hb => (hresultPlain b hb).mono hek.2, fun w hw j hj hchosen => ?_⟩
  obtain ⟨hlength, hsame, hfollows⟩ := hfollows w hw
  have hwe : Models t e w := hw.anti hek.1
  have htaken := reads_taken ht hselector hx.kept hwe hlen (by omega) hchoice hchosen (htaken w hwe)
  obtain ⟨-, hlane⟩ := hfollows _ hw.respects.consts htaken
  have hfirst : ∀ l : Value, l.getD 0 0 = l.headD 0 := fun l => by cases l <;> rfl
  have hone : replacement.length = 1 := hsame.symm
  intro m hbelow v hv
  by_cases heq : j = choice
  · subst heq
    have := hlane 0 (by simp) v
    simp only [decide_true, List.any_cons, id_eq, List.any_nil, Bool.or_false, if_true, hfirst] at this
    exact this ((houtput.means w (hwe.anti hde.1) hchosen) m hbelow v hv)
  · have := hlane 0 (by simp [heq, hone]) v
    simp only [heq, decide_false, List.any_cons, id_eq, List.any_nil, Bool.or_false,
      Bool.false_eq_true, if_false, hfirst] at this
    exact this ((hreplacement.means w ((hwe.anti hde.1).anti hcd.1) j (by omega) hchosen) m hbelow v hv)

include hg₀ ht hselector in
/-- An attempt that does not fail stands for the bit in every clock. -/
theorem attempt_keeps {root : Nat} (hroot : nodeBase root = t) (hexists : g₀.Exists t)
    (hlen : selector.length ≤ 6) {c : Progress} {s : Guarded} (hs : Trying g₀ t selector c s) :
    Keeps (trying g₀ t selector) c s (attempt root selector) fun d o =>
      ∀ r, o = some r → Chosen g₀ t selector (2 ^ selector.length) d r := by
  unfold attempt
  refine Keeps.get_bind (Keeps.tryCatch ?_ fun e d u _ hu => ?_)
  · refine (Keeps.foldlM (fun done d r => Chosen g₀ t selector done.length d r) hs
      ⟨fun _ hb => absurd hb List.not_mem_nil, fun _ _ j hj => absurd hj (Nat.not_lt_zero j)⟩
      fun done choice r d u hprefix _ hu hr => ?_).bind fun r d u _ hu hr =>
        Keeps.pure hu fun r' hr' => ?_
    · obtain ⟨rfl, hlt⟩ := range_prefix hprefix
      rw [List.length_append, List.length_singleton]
      exact tryChoice_keeps hg₀ ht hselector hroot hexists hlen hlt hu hr
    · rw [List.length_range] at hr
      exact Option.some.inj hr' ▸ hr
  · cases e with
    | unresolvedCycle reason bit => exact Keeps.pure hu fun r hr => by cases hr
    | runtime message => exact Keeps.throw hu
    | outOfRange => exact Keeps.throw hu

end Choice

/-! ## Taking an attempt back -/

theorem Graph.getElem?_rollback {g : Graph} {start b : Nat} :
    (g.rollback start).aliases[b]? = if b < nodeBase start then g.aliases[b]? else none := by
  unfold Graph.rollback
  rw [Std.ExtTreeMap.getElem?_filter']
  cases h : g.aliases[b]? with
  | none => simp
  | some s => by_cases hb : b < nodeBase start <;> simp [hb]

/-- What is left of the aliases when only old bits are left. -/
theorem endsAt_old {n : Nat} {p : Nat → Prop} {g : Graph} (hg : Sealed n p g)
    {aliases : Std.ExtTreeMap Nat Nat}
    (haliases : ∀ b : Nat, aliases[b]? = if b < n then g.aliases[b]? else none) {b r : Nat}
    (hb : b < n) : EndsAt aliases b r ↔ EndsAt g.aliases b r := by
  constructor
  · intro h
    induction h with
    | root h => exact .root (by rwa [haliases, if_pos hb] at h)
    | link hs _ ih =>
        rw [haliases, if_pos hb] at hs
        exact .link hs (ih (hg.old _ _ hb hs))
  · intro h
    induction h with
    | root h => exact .root (by rwa [haliases, if_pos hb])
    | link hs _ ih => exact .link (by rwa [haliases, if_pos hb]) (ih (hg.old _ _ hb hs))

/-- A bit reads like the end of its chain. -/
theorem EndsAt.look_eq {aliases : Std.ExtTreeMap Nat Nat} {b r : Nat} (h : EndsAt aliases b r)
    {look : Nat → Option Bool} (hlook : ∀ b s : Nat, aliases[b]? = some s → look b = look s) :
    look b = look r := by
  induction h with
  | root _ => rfl
  | link hs _ ih => exact (hlook _ _ hs).trans ih

theorem Kept.old (hg₀ : g₀.Intact) {c : Progress} (hc : Kept g₀ t c) {h : Graph}
    (hnodes : h.nodes = g₀.nodes)
    (haliases : ∀ b : Nat, h.aliases[b]? = if b < g₀.bound then c.graph.aliases[b]? else none)
    (hrest : h = { g₀ with nodes := h.nodes, aliases := h.aliases, currentScope := h.currentScope }) :
    Kept g₀ t ⟨h, fun _ => False⟩ := by
  have hbound : h.bound = g₀.bound := by unfold Graph.bound; rw [hnodes]
  have hends : ∀ b < g₀.bound, ∀ r, EndsAt h.aliases b r ↔ EndsAt g₀.aliases b r := fun b hb r =>
    (endsAt_old hc.sealed haliases hb).trans (hc.roots.ends b hb r)
  have hsome : ∀ b s : Nat, h.aliases[b]? = some s → b < g₀.bound ∧ c.graph.aliases[b]? = some s := by
    intro b s hs
    rw [haliases] at hs
    split_ifs at hs with hb
    exact ⟨hb, hs⟩
  have hwf : h.Wf := fun b s hs => by
    obtain ⟨hb, hs⟩ := hsome b s hs
    exact ⟨(hc.sealed.wf b s hs).1, hbound ▸ hb⟩
  refine ⟨⟨hwf, hbound.ge, fun b s hb hs => hc.sealed.old b s hb (hsome b s hs).2,
    fun b s hb hs => absurd (hsome b s hs).1 (by omega), fun b hb hlt => ?_, fun b hb => .inl hb⟩,
    ⟨fun i n hn => hnodes ▸ hn, fun look hlook b s hs => ?_, fun b hb halias => ?_, hrest⟩,
    ⟨hends, fun b hb s hs => hc.roots.along b hb s (hsome b s hs).2⟩, fun _ hb => hb.elim⟩
  · rcases hb with hb | hb | hb
    · cases ha : h.aliases[b]? with
      | none => rfl
      | some s => have := (hwf b s ha).1; omega
    · omega
    · exact hb.elim
  · have hb := (hg₀.closed.wf b s hs).2
    obtain ⟨r, hr⟩ := hg₀.closed.acyclic.exists_endsAt s
    rw [((hends b hb r).mpr (.link hs hr)).look_eq hlook,
      ((hends s (hg₀.closed.targets b s hs) r).mpr hr).look_eq hlook]
  · rw [haliases, if_pos hb]
    exact hc.unaliased hb halias

/-- Between attempts nothing is added. -/
structure Ready (g₀ : Graph) (t : Nat) (s : Guarded) : Prop where
  nodes : s.graph.nodes = g₀.nodes
  kept : Kept g₀ t ⟨s.graph, fun _ => False⟩
  controls : ∀ bits ∈ s.controls, bits.length ≤ 6 ∧ ∀ b ∈ bits, g₀.Independent b

theorem Ready.trying {s : Guarded} (hs : Ready g₀ t s) (ht : g₀.OnCycle t)
    (hselector : ∀ b ∈ selector, g₀.Independent b) :
    Trying g₀ t selector ⟨s.graph, (· ∈ selector)⟩ s :=
  ⟨rfl, hs.kept.settle (fun _ h => h.elim) fun b hb => ⟨(hselector b hb).ne_of_onCycle ht,
    (hselector b hb).lt_bound, (hselector b hb).1, fun _ hd => absurd hd (hselector b hb).not_feeds⟩,
    fun _ hb => hb, hs.controls⟩

/-- After an attempt its graph is taken back. -/
theorem Trying.rollback (hg₀ : g₀.Intact) {c : Progress} {s : Guarded}
    (hs : Trying g₀ t selector c s) (scope : String) :
    Ready g₀ t { s with
      graph := ({ s.graph with currentScope := scope } : Graph).rollback g₀.nodes.size } := by
  have hnodes : s.graph.nodes.take g₀.nodes.size = g₀.nodes := by
    rw [hs.graph]
    apply Array.ext_getElem?
    intro i
    have hle := hs.kept.grows.size_le
    rw [Array.take_eq_extract, Array.getElem?_extract, Nat.min_eq_left hle, Nat.sub_zero, Nat.zero_add]
    split_ifs with hi
    · rw [Array.getElem?_eq_getElem hi]
      exact hs.kept.grows.nodes i _ (Array.getElem?_eq_getElem hi)
    · rw [Array.getElem?_eq_none (by omega)]
  refine ⟨hnodes, hs.kept.old hg₀ hnodes (fun b => ?_) ?_, hs.controls⟩
  · rw [Graph.getElem?_rollback, ← hs.graph]
    rfl
  · have hrest := hs.kept.grows.rest
    rw [← hs.graph] at hrest
    unfold Graph.rollback
    rw [hrest]

/-! ## All attempts -/

/-- The bit is an alias of what stands for it. -/
def Replaced (g₀ : Graph) (t : Nat) (h : Graph) : Prop :=
  ∃ (c : Progress) (r : Nat), Kept g₀ t c ∧ (∀ w, Models t c w → w.Stands g₀ t r) ∧
    h = { c.graph with aliases := c.graph.aliases.insert t r }

/-- Attempts replace the bit or are all taken back. -/
theorem attempts_ok (hg₀ : g₀.Intact) (ht : g₀.OnCycle t) {root : Nat} (hroot : nodeBase root = t)
    (hexists : g₀.Exists t) {scope : String} {remaining : Nat} {attempted : List Value}
    {s s' : Guarded} {done : Bool} (hs : Ready g₀ t s) (hscope : s.graph.currentScope = scope)
    (hrun : Ok (attempts root scope remaining attempted) s done s') :
    if done then Replaced g₀ t s'.graph else Ready g₀ t s' ∧ s'.graph.currentScope = scope := by
  induction remaining generalizing s attempted with
  | zero =>
      obtain ⟨rfl, rfl⟩ := ok_pure.mp hrun
      exact ⟨hs, hscope⟩
  | succ remaining ih =>
      unfold attempts at hrun
      rw [ok_get_bind] at hrun
      cases hnext : nextSelector s.controls attempted with
      | none =>
          rw [hnext] at hrun
          obtain ⟨rfl, rfl⟩ := ok_pure.mp hrun
          exact ⟨hs, hscope⟩
      | some selector =>
          rw [hnext] at hrun
          dsimp only at hrun
          rw [ok_get_bind] at hrun
          simp only [ok_bind] at hrun
          obtain ⟨replacement, u, hattempt, _, v, hset, hrest⟩ := hrun
          obtain ⟨hlen, hselector⟩ :=
            Graph.independent_candidates hs.controls _ (mem_of_nextSelector hnext)
          obtain ⟨d, -, hd, hchosen⟩ := (attempt_keeps hg₀ ht hselector hroot hexists hlen
            (hs.trying ht hselector)).ok hattempt
          unfold setScope at hset
          obtain rfl := ok_modify.mp hset
          cases replacement with
          | some replacement =>
              simp only [ok_bind, ok_modify, ok_pure] at hrest
              obtain ⟨_, x, rfl, rfl, rfl⟩ := hrest
              refine ⟨⟨{ d.graph with currentScope := scope }, d.settled⟩, replacement.headD 0,
                hd.kept.setScope scope, fun w hw => ?_, ?_⟩
              · obtain ⟨j, hj, hchoice⟩ := w.exists_chooses selector
                exact (hchosen _ rfl).means w (hw.anti (Grows.setScope _ scope)) j hj hchoice
              · rw [hroot, ← hd.graph]
          | none =>
              simp only [ok_bind, ok_modify] at hrest
              obtain ⟨_, x, rfl, hrest⟩ := hrest
              refine ih ?_ ?_ hrest
              · rw [hs.nodes]
                exact hd.rollback hg₀ scope
              · rfl

/-! ## Selectors from the path -/

/-- Only aliases of the graph change. -/
def aliasing : Ghosts Guarded Graph where
  Inv g s := s.graph = g
  Le g h := h = { g with aliases := h.aliases }
  le_refl := aliasOnly.le_refl
  le_trans := aliasOnly.le_trans

theorem onGraph_aliasing {α : Type} {m : GraphM α} {Q : Unit → α → Prop} (hm : Builds aliasOnly m Q)
    {g : Graph} {s : Guarded} (hs : s.graph = g) :
    Keeps aliasing g s (onGraph m) fun _ _ => True := by
  have hbuilds := hm g trivial
  unfold Keeps onGraph
  rw [hs]
  cases hrun : m g with
  | ok a h =>
      rw [hrun] at hbuilds
      exact ⟨h, hbuilds.2.1, rfl, trivial⟩
  | error e h =>
      rw [hrun] at hbuilds
      exact ⟨h, hbuilds.2, rfl⟩

theorem consider_aliasing (index : Nat) {g : Graph} {s : Guarded} (hs : s.graph = g) :
    Keeps aliasing g s (consider index) fun _ _ => True := by
  unfold consider
  refine Keeps.get_bind ?_
  cases s.graph.nodes[index]? with
  | none => exact Keeps.throw hs
  | some producer =>
      dsimp only
      refine Keeps.ite (fun _ => Keeps.pure hs trivial) fun _ => ?_
      refine (onGraph_aliasing (resolve_aliasOnly _) hs).bind fun condition h u _ hu _ => ?_
      refine Keeps.ite (fun _ => Keeps.pure hu trivial) fun _ => Keeps.get_bind ?_
      cases u.graph.nodes[owner condition]? with
      | none => exact Keeps.throw hu
      | some comparison =>
          dsimp only
          refine Keeps.ite (fun _ => Keeps.pure hu trivial) fun _ => ?_
          refine (onGraph_aliasing (resolved_aliasOnly _) hu).bind fun roots k v _ hv _ => ?_
          refine Keeps.modify (aliasing.le_refl k) ?_ trivial
          split_ifs
          · exact hv
          · exact hv

/-- The selectors are found without adding anything. -/
theorem ready_of_consider (hg₀ : g₀.Intact) (htlt : t < g₀.bound) {path : List Nat}
    (hpath : ∀ i ∈ path, i < g₀.nodes.size) {s : Guarded}
    (hrun : Ok (path.forM consider) { graph := g₀ } ⟨⟩ s) :
    Ready g₀ t s ∧ s.graph.currentScope = g₀.currentScope := by
  have hsealed : Sealed g₀.bound (Progress.Plain g₀ ⟨g₀, fun _ => False⟩) g₀ := by
    refine ⟨hg₀.closed.wf, Nat.le_refl _, fun b s _ hs => hg₀.closed.targets b s hs,
      fun b s hb hs => absurd (hg₀.closed.wf b s hs).2 (by omega), fun b hb hlt => ?_,
      fun b hb => .inl hb⟩
    rcases hb with hb | hb | hb
    · cases ha : g₀.aliases[b]? with
      | none => rfl
      | some s => have := (hg₀.closed.wf b s ha).1; omega
    · omega
    · exact hb.elim
  have hinit : Held g₀ t [] 0 False ⟨g₀, fun _ => False⟩ { graph := g₀ } :=
    ⟨rfl, ⟨hsealed, Grows.refl _, KeepsRoots.refl _ _, fun _ hb => hb.elim⟩,
      fun b hb => absurd hb List.not_mem_nil, fun h => h.elim,
      fun b r hr => (Option.some_ne_none r (hr.symm.trans Std.ExtTreeMap.getElem?_empty)).elim,
      fun b hb => absurd hb List.not_mem_nil⟩
  obtain ⟨d, -, hd, -⟩ := (Keeps.forM (G := evaluating g₀ t [] 0 False)
    (fun i hi e u _ hu => Held.consider hg₀ htlt (hpath i hi) hu) hinit).ok hrun
  obtain ⟨h, hrest, hgraph, -⟩ := (Keeps.forM (G := aliasing)
    (fun i _ e u _ hu => consider_aliasing i hu) (rfl : (Guarded.mk g₀ [] ∅ [] 0).graph = g₀)).ok hrun
  have hnodes : s.graph.nodes = g₀.nodes := by
    rw [show s.graph = h from hgraph, hrest]
  have hbound : d.graph.bound = g₀.bound := by
    unfold Graph.bound
    rw [← hd.graph, hnodes]
  refine ⟨⟨hnodes, hd.kept.old hg₀ hnodes (fun b => ?_) ?_, hd.controls⟩, ?_⟩
  · rw [hd.graph]
    split_ifs with hb
    · rfl
    · cases ha : d.graph.aliases[b]? with
      | none => rfl
      | some s => exact absurd (hd.kept.sealed.wf b s ha).2 (by omega)
  · rw [hd.graph]
    exact hd.kept.grows.rest
  · rw [show s.graph = h from hgraph, hrest]

end

end CppHdl
