import CppHdl.Graph.Valid

/-!
# Saved graphs load again

Each record reads back from its text, each section from its own, and `load`
passes from stage to stage: the graph it has built after a section is the
saved one with the fields of the later sections still at their defaults.
-/

namespace CppHdl

open Failing

/-! ## Records -/

theorem isSpace_blank : isSpace ' ' = true := rfl

theorem isSpace_newline : isSpace '\n' = true := rfl

theorem reads_nat (n : Nat) {c : Char} (hc : isSpace c = true) :
    Reads readNat (natText n ++ [c]) n := Reads.nat n hc

theorem reads_flag (b : Bool) {c : Char} (hc : isSpace c = true) :
    Reads readFlag (flagText b ++ [c]) b := Reads.bool b hc

theorem reads_int (n : Int) {c : Char} (hc : isSpace c = true) :
    Reads readInt (intText n ++ [c]) n := Reads.int n hc

theorem reads_quoted (s : String) : Reads readQuoted (quoted s) s := Reads.quoted s

theorem reads_quoted_sep (s : String) {c : Char} (hc : isSpace c = true) :
    Reads readQuoted (quoted s ++ [c]) s := (reads_quoted s).space hc

def isWord (tag : String) : Bool := !tag.toList.isEmpty && tag.toList.all (!isSpace ·)

theorem reads_tag (tag : String) (htag : isWord tag = true) {c : Char} (hc : isSpace c = true) :
    Reads readTag (tag.toList ++ [c]) tag.toList := by
  obtain ⟨hne, hall⟩ := Bool.and_eq_true_iff.mp htag
  refine Reads.word (by simpa using hne) (fun d hd => ?_) hc
  simpa using List.all_eq_true.mp hall d hd

theorem reads_value {v : Value} (hv : v.length ≤ 1048576) : Reads readValue (valueText v) v := by
  unfold readValue valueText
  refine Reads.bind_sep (reads_nat _ isSpace_blank) ?_
  rw [if_neg (by omega)]
  exact Reads.many fun bit _ => reads_nat bit isSpace_blank

theorem reads_value_sep {v : Value} (hv : v.length ≤ 1048576) {c : Char} (hc : isSpace c = true) :
    Reads readValue (valueText v ++ [c]) v := (reads_value hv).space hc

theorem reads_counted {α β : Type} {item : Reader α} {text : β → List Char} (f : β → α)
    {l : List β} (h : ∀ a ∈ l, Reads item (text a) (f a)) :
    Reads (readCounted item) (countedText text l) (l.map f) :=
  Reads.bind_sep (reads_nat _ isSpace_newline) (Reads.many_map f h)

theorem reads_counted_self {α : Type} {item : Reader α} {text : α → List Char} {l : List α}
    (h : ∀ a ∈ l, Reads item (text a) a) : Reads (readCounted item) (countedText text l) l :=
  Reads.bind_sep (reads_nat _ isSpace_newline) (Reads.many h)

/-- A last item with its separator, followed by a result. -/
theorem reads_last {α β : Type} {item : Reader α} {f : α → β} {t : List Char} {a : α}
    (h : Reads item t a) : Reads (item >>= fun a => pure (f a)) t (f a) := by
  rw [← List.append_nil t]
  exact h.bind (Reads.pure _)

def Value.Fits (v : Value) : Prop := v.length ≤ 1048576

theorem reads_node {n : Node} (hl : Value.Fits n.left) (hr : Value.Fits n.right)
    (hs : Value.Fits n.select) : Reads readNode (nodeText n) { n with scope := "" } := by
  refine Reads.bind_sep (reads_quoted_sep _ isSpace_blank) ?_
  refine Reads.bind_sep (reads_nat _ isSpace_blank) ?_
  refine (reads_value hl).bind ((reads_value hr).bind ((reads_value hs).bind ?_))
  rw [Op.ofText_text]
  exact reads_last (f := fun name => (⟨n.op, n.width, n.left, n.right, n.select, name, ""⟩ : Node))
    (reads_quoted_sep _ isSpace_newline)

theorem reads_port {p : Port} (hbits : Value.Fits p.bits) : Reads readPort (portText p) p :=
  Reads.bind_sep (reads_quoted_sep _ isSpace_blank) ((reads_value hbits).bind
    (reads_last (f := fun input => (⟨p.name, p.bits, input⟩ : Port))
      (reads_flag _ isSpace_newline)))

theorem reads_state {s : State} (hbits : Value.Fits s.bits) (hnext : Value.Fits s.next)
    (htrigger : Value.Fits s.trigger) :
    Reads readState (stateText s) { bits := s.bits, next := s.next, trigger := s.trigger } :=
  (reads_value hbits).bind ((reads_value hnext).bind
    (reads_last (f := fun trigger => ({ bits := s.bits, next := s.next, trigger } : State))
      (reads_value_sep htrigger isSpace_newline)))

theorem reads_memory (m : Memory) :
    Reads readMemory (memoryText m) { name := m.name, width := m.width, depth := m.depth } :=
  Reads.bind_sep (reads_quoted_sep _ isSpace_blank) (Reads.bind_sep (reads_nat _ isSpace_blank)
    (reads_last (f := fun depth => ({ name := m.name, width := m.width, depth } : Memory))
      (reads_nat _ isSpace_newline)))

theorem reads_access {a : MemoryAccess} (haddress : Value.Fits a.address)
    (henabled : Value.Fits a.enabled) : Reads readAccess (accessText a)
      { memory := a.memory, address := a.address, enabled := a.enabled,
        transaction := a.transaction } :=
  Reads.bind_sep (reads_nat _ isSpace_blank) ((reads_value haddress).bind
    ((reads_value henabled).bind (reads_last
      (f := fun transaction =>
        ({ memory := a.memory, address := a.address, enabled := a.enabled, transaction } :
          MemoryAccess))
      (reads_flag _ isSpace_newline))))

theorem reads_write {w : MemoryWrite} (haddress : Value.Fits w.address)
    (hdata : Value.Fits w.data) (henabled : Value.Fits w.enabled) :
    Reads readWrite (writeText w)
      { memory := w.memory, address := w.address, data := w.data, enabled := w.enabled } :=
  Reads.bind_sep (reads_nat _ isSpace_blank) ((reads_value haddress).bind
    ((reads_value hdata).bind (reads_last
      (f := fun enabled =>
        ({ memory := w.memory, address := w.address, data := w.data, enabled } : MemoryWrite))
      (reads_value_sep henabled isSpace_newline))))

theorem reads_clock (c : Clock) : Reads readClock (clockText c) c :=
  Reads.bind_sep (reads_quoted_sep _ isSpace_blank)
    (reads_last (f := fun frequency => (⟨c.name, frequency⟩ : Clock))
      (reads_nat _ isSpace_newline))

theorem reads_attribute (a : ScopeAttribute) : Reads readAttribute (attributeText a) a :=
  Reads.bind_sep (reads_quoted_sep _ isSpace_blank)
    (Reads.bind_sep (reads_quoted_sep _ isSpace_blank)
      (reads_last (f := fun value => (⟨a.scope, a.name, value⟩ : ScopeAttribute))
        (reads_quoted_sep _ isSpace_newline)))

/-- A clock index and its edge, completing a record. -/
theorem reads_edge {α : Type} (f : Int → Bool → α) (clock : Int) (falling : Bool) :
    Reads (do
      let clock ← readInt
      let falling ← readFlag
      pure (f clock falling)) (edgeText clock falling) (f clock falling) :=
  Reads.bind_sep (reads_int _ isSpace_blank)
    (reads_last (f := fun falling => f clock falling) (reads_flag _ isSpace_newline))

theorem reads_edges {α β γ : Type} (complete : β → Int → Bool → γ) (initial : α → β)
    (final : α → γ) (clock : α → Int) (falling : α → Bool)
    (h : ∀ a, complete (initial a) (clock a) (falling a) = final a) (l : List α) :
    Reads ((l.map initial).mapM fun b => do
      let clock ← readInt
      let falling ← readFlag
      pure (complete b clock falling)) (l.flatMap fun a => edgeText (clock a) (falling a))
      (l.map final) :=
  Reads.mapM (f := fun b => do
      let clock ← readInt
      let falling ← readFlag
      pure (complete b clock falling)) initial final fun a _ => by
    rw [← h]
    exact reads_edge (complete (initial a)) (clock a) (falling a)

/-! ## Maps -/

/-- Inserting the entries of a map in order rebuilds it. -/
theorem foldl_insert_toList {κ ν : Type} {cmp : κ → κ → Ordering} [Std.TransCmp cmp]
    [Std.LawfulEqCmp cmp] (m : Std.ExtTreeMap κ ν cmp) :
    m.toList.foldl (fun m p => m.insert p.1 p.2) (∅ : Std.ExtTreeMap κ ν cmp) = m := by
  rw [← Std.ExtTreeMap.ofList_eq_foldl]
  have hmem : ∀ (k : κ) (v : ν), m[k]? = some v →
      (Std.ExtTreeMap.ofList m.toList cmp)[k]? = some v := fun k v hk =>
    Std.ExtTreeMap.getElem?_ofList_of_mem Std.ReflCmp.compare_self
      Std.ExtTreeMap.distinct_keys_toList
      (Std.ExtTreeMap.mem_toList_iff_getElem?_eq_some.mpr hk)
  refine Std.ExtTreeMap.ext_getElem? fun k => ?_
  cases hk : m[k]? with
  | some v => exact hmem k v hk
  | none =>
      classical
      refine Std.ExtTreeMap.getElem?_ofList_of_contains_eq_false ?_
      rw [Std.ExtTreeMap.map_fst_toList_eq_keys, Std.ExtTreeMap.contains_keys,
        Std.ExtTreeMap.contains_eq_isSome_getElem?, hk]
      rfl

/-- Entries before one in the list of a map have other keys. -/
theorem getElem?_foldl_insert {κ ν : Type} {cmp : κ → κ → Ordering} [Std.TransCmp cmp]
    [Std.LawfulEqCmp cmp] {m : Std.ExtTreeMap κ ν cmp} {done : List (κ × ν)} {p : κ × ν}
    (h : done ++ [p] <+: m.toList) :
    (done.foldl (fun m p => m.insert p.1 p.2) (∅ : Std.ExtTreeMap κ ν cmp))[p.1]? = none := by
  classical
  have hdistinct : (done ++ [p]).Pairwise fun a b => ¬ cmp a.1 b.1 = .eq :=
    Std.ExtTreeMap.distinct_keys_toList.sublist h.sublist
  rw [← Std.ExtTreeMap.ofList_eq_foldl]
  refine Std.ExtTreeMap.getElem?_ofList_of_contains_eq_false ?_
  rw [List.contains_eq_mem, decide_eq_false_iff_not, List.mem_map]
  rintro ⟨q, hq, heq⟩
  refine (List.pairwise_append.mp hdistinct).2.2 q hq p (List.mem_singleton_self p) ?_
  rw [heq]
  exact Std.ReflCmp.compare_self

theorem reads_aliases (m : Std.ExtTreeMap Nat Nat) :
    Reads (scanInto readAlias m.toList.length ∅) (m.toList.flatMap aliasText) m := by
  have := Reads.into m.toList (fun done => done.foldl (fun m p => m.insert p.1 p.2) ∅)
    fun done p hp => show Reads (readAlias _) (aliasText p) _ by
      refine Reads.bind_sep (reads_nat _ isSpace_blank) ?_
      rw [← List.append_nil (natText p.2 ++ ['\n'])]
      refine (reads_nat _ isSpace_newline).bind ?_
      rw [getElem?_foldl_insert hp, List.foldl_append]
      exact Reads.pure _
  rwa [foldl_insert_toList] at this

theorem reads_pins {m : Std.ExtTreeMap String Value}
    (h : ∀ p ∈ m.toList, Value.Fits p.2) :
    Reads (scanInto readPin m.toList.length ∅) (m.toList.flatMap pinText) m := by
  have := Reads.into m.toList (fun done => done.foldl (fun m p => m.insert p.1 p.2) ∅)
    fun done p hp => show Reads (readPin _) (pinText p) _ by
      refine Reads.bind_sep (reads_quoted_sep _ isSpace_blank) ?_
      rw [List.foldl_append]
      exact reads_last
        (reads_value_sep (h p (hp.subset (by simp))) isSpace_newline)
  rwa [foldl_insert_toList] at this

theorem reads_stream {p : StreamPipeline} (hpins : ∀ q ∈ p.pins.toList, Value.Fits q.2)
    (hregisters : ∀ v ∈ p.registers, Value.Fits v) : Reads readStream (streamText p) p := by
  refine Reads.bind_sep (reads_quoted_sep _ isSpace_blank) ?_
  refine Reads.bind_sep (reads_quoted_sep _ isSpace_blank) ?_
  refine Reads.bind_sep (reads_nat _ isSpace_blank) ?_
  refine Reads.bind_sep (reads_nat _ isSpace_blank) ?_
  refine Reads.bind_sep (reads_nat _ isSpace_newline) ?_
  rw [countedText, List.append_assoc, List.cons_append]
  refine Reads.bind_sep (reads_nat _ isSpace_newline) ?_
  refine (reads_pins hpins).bind ?_
  exact reads_last (f := fun registers => ({ p with registers } : StreamPipeline))
    (reads_counted_self fun v hv => reads_value_sep (hregisters v hv) isSpace_newline)

theorem reads_replacement {r : PipelineReplacement} (hlatency : r.latency ≠ 0)
    (hsize : r.pins.size = 10) (hpins : ∀ q ∈ r.pins.toList, Value.Fits q.2) :
    Reads readReplacement (replacementText r) r := by
  refine Reads.bind_sep (reads_quoted_sep _ isSpace_blank) ?_
  refine Reads.bind_sep (reads_quoted_sep _ isSpace_blank) ?_
  refine Reads.bind_sep (reads_quoted_sep _ isSpace_blank) ?_
  refine Reads.bind_sep (reads_nat _ isSpace_blank) ?_
  rw [countedText]
  refine Reads.bind_sep (reads_nat _ isSpace_newline) ?_
  rw [if_neg (by rw [Std.ExtTreeMap.length_toList, hsize]; omega)]
  exact reads_last (f := fun pins => ({ r with pins } : PipelineReplacement)) (reads_pins hpins)

/-! ## ROMs -/

theorem reads_words (word : Nat) (words : List Nat) :
    Reads (scanMany readNat (words.length + 1))
      (natText word ++ (words.flatMap (fun word => ' ' :: natText word) ++ ['\n']))
      (word :: words) := by
  induction words generalizing word with
  | nil =>
      refine Reads.bind_sep (reads_nat _ isSpace_newline) ?_
      rw [← List.append_nil []]
      exact (Reads.pure []).bind (Reads.pure _)
  | cons next words ih =>
      rw [List.flatMap_cons, List.cons_append, List.cons_append, List.append_assoc]
      exact Reads.bind_sep (reads_nat _ isSpace_blank) (reads_last (ih next))

/-- A memory before its contents were read. -/
def Memory.cleared (m : Memory) : Memory := { m with contents := [] }

theorem reads_rom {memories : List Memory} {m : Memory} {i : Nat}
    (hm : memories[i]? = some m.cleared) (hne : m.contents ≠ [])
    (hwords : m.contents.length ≤ 16777216) :
    Reads (readRom memories) (romText (m, i)) (memories.set i m) := by
  unfold readRom romText
  refine Reads.bind_sep (reads_nat _ isSpace_blank) ?_
  cases hcontents : m.contents with
  | nil => exact absurd hcontents hne
  | cons word words =>
      rw [List.flatMap_cons, List.cons_append, List.cons_append, List.append_assoc]
      refine Reads.bind_sep (reads_nat _ isSpace_blank) ?_
      rw [hm]
      simp only
      rw [hcontents] at hwords
      rw [if_neg (by simpa [Memory.cleared] using hwords)]
      have := reads_last (f := fun contents => memories.set i { m.cleared with contents })
        (reads_words word words)
      rwa [show ({ m.cleared with contents := word :: words } : Memory) = m by
        rw [← hcontents]; rfl] at this

namespace Graph

/-- The memories while their contents are read. -/
def filled (g : Graph) (done : List (Memory × Nat)) : List Memory :=
  done.foldl (fun memories p => memories.set p.2 p.1) (g.memories.map Memory.cleared)

theorem mem_roms {g : Graph} {p : Memory × Nat} (h : p ∈ g.roms) :
    g.memories[p.2]? = some p.1 ∧ p.1.contents ≠ [] := by
  obtain ⟨hmem, hne⟩ := List.mem_filter.mp h
  refine ⟨List.mem_zipIdx_iff_getElem?.mp hmem, ?_⟩
  simpa using hne

theorem getElem?_filled {g : Graph} {done : List (Memory × Nat)} (hdone : ∀ p ∈ done, p ∈ g.roms)
    (i : Nat) : (g.filled done)[i]? =
      if ∃ p ∈ done, p.2 = i then g.memories[i]? else (g.memories[i]?).map Memory.cleared := by
  unfold filled
  rw [← List.getElem?_map]
  have hlen : (g.memories.map Memory.cleared).length = g.memories.length := by simp
  generalize g.memories.map Memory.cleared = memories at hlen ⊢
  induction done generalizing memories with
  | nil => simp
  | cons p done ih =>
      obtain ⟨hp, -⟩ := mem_roms (hdone p List.mem_cons_self)
      rw [List.foldl_cons, ih (fun q hq => hdone q (List.mem_cons_of_mem _ hq))
        (memories.set p.2 p.1) (by rw [List.length_set, hlen])]
      by_cases hlater : ∃ q ∈ done, q.2 = i
      · obtain ⟨q, hq, hi⟩ := hlater
        rw [if_pos ⟨q, hq, hi⟩, if_pos ⟨q, List.mem_cons_of_mem _ hq, hi⟩]
      · rw [if_neg hlater]
        by_cases hi : p.2 = i
        · obtain ⟨hlt, -⟩ := List.getElem?_eq_some_iff.mp hp
          subst hi
          rw [if_pos ⟨p, List.mem_cons_self, rfl⟩, hp, List.getElem?_set_self (by omega)]
        · rw [List.getElem?_set_ne hi, if_neg]
          rintro ⟨q, hq, rfl⟩
          rcases List.mem_cons.mp hq with rfl | hq
          · exact hi rfl
          · exact hlater ⟨q, hq, rfl⟩

theorem filled_roms (g : Graph) : g.filled g.roms = g.memories := by
  refine List.ext_getElem? fun i => ?_
  rw [getElem?_filled (fun p hp => hp)]
  split_ifs with hread
  · rfl
  · cases hm : g.memories[i]? with
    | none => rfl
    | some m =>
        have hempty : m.contents = [] := by
          by_contra hne
          exact hread ⟨(m, i), List.mem_filter.mpr ⟨List.mem_zipIdx_iff_getElem?.mpr hm,
            by simpa using hne⟩, rfl⟩
        rw [Option.map_some, Memory.cleared, ← hempty]

theorem not_mem_of_prefix_roms {g : Graph} {done : List (Memory × Nat)} {p : Memory × Nat}
    (h : done ++ [p] <+: g.roms) : ¬ ∃ q ∈ done, q.2 = p.2 := by
  have hnodup : (g.roms.map Prod.snd).Nodup := by
    refine List.Nodup.sublist (List.Sublist.map _ List.filter_sublist) ?_
    rw [List.zipIdx_map_snd]
    exact List.nodup_range'
  have hsub : ((done ++ [p]).map Prod.snd).Nodup := hnodup.sublist (h.sublist.map _)
  rw [List.map_append, List.nodup_append] at hsub
  rintro ⟨q, hq, heq⟩
  exact hsub.2.2 q.2 (List.mem_map_of_mem hq) p.2 (by simp) heq

theorem reads_roms {g : Graph} (h : ∀ m ∈ g.memories, m.contents.length ≤ 16777216) :
    Reads (scanInto readRom g.roms.length (g.memories.map Memory.cleared))
      (g.roms.flatMap romText) g.memories := by
  have := Reads.into g.roms g.filled fun done p hp => show Reads (readRom _) (romText p) _ by
    have hdone : ∀ q ∈ done ++ [p], q ∈ g.roms := fun q hq => hp.subset hq
    obtain ⟨hm, hne⟩ := mem_roms (hdone p (by simp))
    have hget : (g.filled done)[p.2]? = some p.1.cleared := by
      rw [getElem?_filled fun q hq => hdone q (List.mem_append_left _ hq),
        if_neg (not_mem_of_prefix_roms hp), hm]
      rfl
    rw [show g.filled (done ++ [p]) = (g.filled done).set p.2 p.1 by
      unfold filled; rw [List.foldl_append]; rfl]
    exact reads_rom hget hne (h p.1 (List.mem_of_getElem? hm))
  rwa [filled_roms] at this

/-! ## Sections -/

def values (g : Graph) : List Value :=
  g.nodes.toList.flatMap (fun n => [n.left, n.right, n.select]) ++ g.ports.map (·.bits) ++
    g.states.flatMap (fun s => [s.bits, s.next, s.trigger, s.reset, s.resetValue]) ++
    g.memoryAccesses.flatMap (fun a => [a.address, a.enabled]) ++
    g.memoryWrites.flatMap (fun w => [w.address, w.data, w.enabled]) ++
    g.pipelines.flatMap (fun p => p.pins.toList.map Prod.snd ++ p.registers) ++
    g.replacements.flatMap fun r => r.pins.toList.map Prod.snd

structure Loadable (g : Graph) : Prop where
  values : ∀ v ∈ g.values, Value.Fits v
  clocks : g.clocks.length ≤ 1024
  pipelines : g.pipelines.length ≤ 1024
  contents : ∀ m ∈ g.memories, m.contents.length ≤ 16777216
  replacements : g.replacements.length ≤ 65536
  interfaces : ∀ r ∈ g.replacements, r.latency ≠ 0 ∧ r.pins.size = 10

def afterLogic (g : Graph) : Graph :=
  { nodes := (g.nodes.toList.map fun n => { n with scope := "" }).toArray
    aliases := g.aliases
    ports := g.ports
    states := g.states.map fun s => { bits := s.bits, next := s.next, trigger := s.trigger } }

def afterMemories (g : Graph) : Graph :=
  { g.afterLogic with
    memories := g.memories.map Memory.cleared
    memoryAccesses := g.memoryAccesses.map fun a => { a with clock := -1, falling := false }
    memoryWrites := g.memoryWrites.map fun w => { w with clock := -1, falling := false } }

def afterClocks (g : Graph) : Graph :=
  { g.afterMemories with
    clockContract := g.clockContract
    clocks := g.clocks
    states := g.states.map fun s => { s with reset := [], resetValue := [] } }

def afterEvents (g : Graph) : Graph :=
  { g.afterClocks with
    states := g.states
    memoryAccesses := g.memoryAccesses
    memoryWrites := g.memoryWrites }

def afterScopes (g : Graph) : Graph :=
  { g.afterEvents with nodes := g.nodes, attributes := g.attributes }

def afterStreams (g : Graph) : Graph := { g.afterScopes with pipelines := g.pipelines }

def afterRoms (g : Graph) : Graph := { g.afterStreams with memories := g.memories }

variable {g : Graph}

theorem reads_logic (hg : g.Loadable) : Reads (loadLogic {}) g.logicText g.afterLogic := by
  have hnode : ∀ n ∈ g.nodes.toList, Value.Fits n.left ∧ Value.Fits n.right ∧
      Value.Fits n.select := fun n hn =>
    ⟨hg.values _ (by simp [values]; grind), hg.values _ (by simp [values]; grind),
      hg.values _ (by simp [values]; grind)⟩
  have hport : ∀ p ∈ g.ports, Value.Fits p.bits := fun p hp =>
    hg.values _ (by simp [values]; grind)
  have hstate : ∀ s ∈ g.states, Value.Fits s.bits ∧ Value.Fits s.next ∧ Value.Fits s.trigger :=
    fun s hs => ⟨hg.values _ (by simp [values]; grind), hg.values _ (by simp [values]; grind),
      hg.values _ (by simp [values]; grind)⟩
  refine (reads_counted (fun n : Node => { n with scope := "" }) fun n hn =>
    reads_node (hnode n hn).1 (hnode n hn).2.1 (hnode n hn).2.2).bind ?_
  rw [countedText, List.append_assoc, List.cons_append]
  refine Reads.bind_sep (reads_nat _ isSpace_newline) ?_
  refine (reads_aliases g.aliases).bind ?_
  refine (reads_counted_self fun p hp => reads_port (hport p hp)).bind ?_
  have := reads_last
    (f := fun states => ({ afterLogic g with states := states } : Graph))
    (reads_counted (fun s : State => { bits := s.bits, next := s.next, trigger := s.trigger })
      fun s hs => reads_state (hstate s hs).1 (hstate s hs).2.1 (hstate s hs).2.2)
  simpa [afterLogic] using this

theorem reads_memories (hg : g.Loadable) :
    Reads (loadMemories g.afterLogic) g.memoriesText g.afterMemories := by
  have haccess : ∀ a ∈ g.memoryAccesses, Value.Fits a.address ∧ Value.Fits a.enabled := fun a ha =>
    ⟨hg.values _ (by simp [values]; grind), hg.values _ (by simp [values]; grind)⟩
  have hwrite : ∀ w ∈ g.memoryWrites, Value.Fits w.address ∧ Value.Fits w.data ∧
      Value.Fits w.enabled := fun w hw =>
    ⟨hg.values _ (by simp [values]; grind), hg.values _ (by simp [values]; grind),
      hg.values _ (by simp [values]; grind)⟩
  refine (reads_counted Memory.cleared fun m _ => reads_memory m).bind ?_
  refine (reads_counted
    (fun a : MemoryAccess => { a with clock := -1, falling := false })
    fun a ha => reads_access (haccess a ha).1 (haccess a ha).2).bind ?_
  have := reads_last
    (f := fun writes => ({ afterMemories g with memoryWrites := writes } : Graph))
    (reads_counted (fun w : MemoryWrite => { w with clock := -1, falling := false })
      fun w hw => reads_write (hwrite w hw).1 (hwrite w hw).2.1 (hwrite w hw).2.2)
  simpa [afterMemories, afterLogic] using this

theorem reads_clocks (hg : g.Loadable) (hvalid : g.validateClocks = .ok ()) :
    Reads (loadClocks g.afterMemories) g.clocksText g.afterClocks := by
  unfold loadClocks clocksText
  refine Reads.bind_sep (reads_tag _ rfl isSpace_blank) ?_
  refine Reads.bind_sep (reads_nat _ isSpace_newline) ?_
  have hrange : ¬ ("clock_contract".toList ≠ "clock_contract".toList ∨
      2 < g.clockContract.number) := by
    cases g.clockContract <;> decide
  rw [if_neg hrange]
  by_cases hcontract : g.clockContract = .namedEdges
  · rw [hcontract, if_pos rfl]
    simp only [ClockContract.number, if_true]
    unfold loadNamedClocks
    rw [countedText, List.append_assoc, List.cons_append]
    refine Reads.bind_sep (reads_nat _ isSpace_newline) ?_
    rw [if_neg (by have := hg.clocks; omega)]
    refine (Reads.many fun c _ => reads_clock c).bind ?_
    have := reads_last
      (f := fun states =>
        ({ afterMemories g with clockContract := .namedEdges, clocks := g.clocks, states } : Graph))
      (reads_edges (fun (s : State) clock falling => ({ s with clock, falling } : State))
        (fun s : State => { bits := s.bits, next := s.next, trigger := s.trigger })
        (fun s => { s with reset := [], resetValue := [] }) State.clock State.falling
        (fun _ => rfl) g.states)
    simpa [afterClocks, afterMemories, afterLogic, hcontract] using this
  · obtain ⟨hclocks, hstates⟩ := unclocked_of_valid hvalid hcontract
    have hnumber : g.clockContract.number ≠ 2 := by
      cases h : g.clockContract <;> rw [h] at hcontract <;>
        first | exact absurd rfl hcontract | decide
    have hsame : (if g.clockContract.number = 0 then ClockContract.explicitEvents
        else .risingEdgeStep) = g.clockContract := by
      cases h : g.clockContract <;> rw [h] at hcontract <;>
        first | exact absurd rfl hcontract | rfl
    rw [if_neg hnumber, if_neg hcontract, hsame]
    have hmap : g.states.map (fun s => ({ bits := s.bits, next := s.next, trigger := s.trigger } :
        State)) = g.states.map fun s => { s with reset := [], resetValue := [] } := by
      refine List.map_congr_left fun s hs => ?_
      rw [(hstates s hs).1, (hstates s hs).2]
    have hafter : ({ g.afterMemories with clockContract := g.clockContract } : Graph) =
        g.afterClocks := by
      simp [afterClocks, afterMemories, afterLogic, hclocks, hmap]
    rw [hafter]
    exact Reads.pure _

theorem reads_events (hg : g.Loadable) :
    Reads (loadEvents g.afterClocks) g.eventsText g.afterEvents := by
  have hreset : ∀ s ∈ g.states, Value.Fits s.reset ∧ Value.Fits s.resetValue := fun s hs =>
    ⟨hg.values _ (by simp [values]; grind), hg.values _ (by simp [values]; grind)⟩
  unfold loadEvents eventsText
  refine Reads.bind_sep (reads_tag _ rfl isSpace_newline) ?_
  rw [if_neg (by simp)]
  have hstates : Reads
      ((g.states.map fun s => { s with reset := [], resetValue := [] }).mapM fun (s : State) => do
        let reset ← readValue
        let resetValue ← readValue
        pure { s with reset, resetValue })
      (g.states.flatMap resetText) (g.states.map id) :=
    Reads.mapM _ id fun s hs => (reads_value (hreset s hs).1).bind
      (reads_last (f := fun resetValue => ({ s with resetValue } : State))
        (reads_value_sep (hreset s hs).2 isSpace_newline))
  refine hstates.bind ?_
  refine (reads_edges (fun (a : MemoryAccess) clock falling =>
    ({ a with clock, falling } : MemoryAccess)) (fun a => { a with clock := -1, falling := false })
    id MemoryAccess.clock MemoryAccess.falling (fun _ => rfl) g.memoryAccesses).bind ?_
  have := reads_last
    (f := fun writes => ({ afterEvents g with memoryWrites := writes } : Graph))
    (reads_edges (fun (w : MemoryWrite) clock falling => ({ w with clock, falling } : MemoryWrite))
      (fun w => { w with clock := -1, falling := false }) id MemoryWrite.clock MemoryWrite.falling
      (fun _ => rfl) g.memoryWrites)
  simpa [afterEvents, afterClocks, afterMemories, afterLogic] using this

theorem reads_scopes : Reads (loadScopes g.afterEvents) g.scopesText g.afterScopes := by
  unfold loadScopes scopesText
  refine Reads.bind_sep (reads_tag _ rfl isSpace_newline) ?_
  rw [if_neg (by simp)]
  have hnodes : Reads
      ((g.nodes.toList.map fun n => { n with scope := "" }).mapM fun (n : Node) => do
        let scope ← readQuoted
        pure { n with scope })
      (g.nodes.toList.flatMap fun n => quoted n.scope ++ ['\n']) (g.nodes.toList.map id) :=
    Reads.mapM _ id fun n _ => reads_last (f := fun scope => ({ n with scope } : Node))
      (reads_quoted_sep n.scope isSpace_newline)
  refine hnodes.bind ?_
  have := reads_last
    (f := fun attributes => ({ afterScopes g with attributes } : Graph))
    (reads_counted_self fun a (_ : a ∈ g.attributes) => reads_attribute a)
  simpa [afterScopes, afterEvents, afterClocks, afterMemories, afterLogic] using this

theorem reads_streams (hg : g.Loadable) :
    Reads (loadStreams g.afterScopes) g.streamsText g.afterStreams := by
  have hstream : ∀ p ∈ g.pipelines, (∀ q ∈ p.pins.toList, Value.Fits q.2) ∧
      ∀ v ∈ p.registers, Value.Fits v := fun p hp =>
    ⟨fun q hq => hg.values _ (by simp [values]; grind),
      fun v hv => hg.values _ (by simp [values]; grind)⟩
  unfold loadStreams streamsText countedText
  refine Reads.bind_sep (reads_tag _ rfl isSpace_newline) ?_
  rw [if_neg (by simp)]
  refine Reads.bind_sep (reads_nat _ isSpace_newline) ?_
  rw [if_neg (by have := hg.pipelines; omega)]
  have := reads_last
    (f := fun pipelines => ({ afterStreams g with pipelines } : Graph))
    (Reads.many fun p hp => reads_stream (hstream p hp).1 (hstream p hp).2)
  simpa [afterStreams, afterScopes, afterEvents, afterClocks, afterMemories, afterLogic] using this

theorem reads_romSection (hg : g.Loadable) :
    Reads (loadRoms g.afterStreams) g.romsText g.afterRoms := by
  unfold loadRoms romsText countedText
  refine Reads.bind_sep (reads_tag _ rfl isSpace_blank) ?_
  refine Reads.bind_sep (reads_nat _ isSpace_newline) ?_
  have hcount : g.roms.length ≤ g.afterStreams.memories.length := by
    change _ ≤ (g.memories.map Memory.cleared).length
    rw [List.length_map]
    exact (List.length_filter_le _ _).trans (by simp)
  rw [if_neg (by simpa using hcount)]
  exact reads_last (f := fun memories => ({ afterStreams g with memories } : Graph))
    (reads_roms hg.contents)

/-- The last section is written only when there is something in it. -/
theorem reads_replacementSection (hg : g.Loadable) {k : Graph → Reader Graph} {h : Graph}
    (hk : ReadsAll (k { g.afterRoms with replacements := g.replacements }) [] h) :
    ReadsAll (scanSection loadReplacements g.afterRoms >>= k) g.replacementsText h := by
  unfold replacementsText
  by_cases hempty : g.replacements.isEmpty
  · rw [if_pos hempty]
    refine ReadsAll.section_none ?_
    rw [List.isEmpty_iff.mp hempty] at hk
    exact hk
  · have hreplacement : ∀ r ∈ g.replacements, ∀ q ∈ r.pins.toList, Value.Fits q.2 :=
      fun r hr q hq => hg.values _ (by simp [values]; grind)
    rw [if_neg hempty]
    refine ReadsAll.section_more (.append (solid_of_tag (by decide)) _) ?_
    rw [← List.append_nil ("replacements_v1".toList ++ _)]
    refine ReadsAll.bind ?_ hk
    unfold loadReplacements countedText
    refine Reads.bind_sep (reads_tag _ rfl isSpace_blank) ?_
    refine Reads.bind_sep (reads_nat _ isSpace_newline) ?_
    have hcount := hg.replacements
    rw [if_neg (by simpa using hcount)]
    exact reads_last
      (f := fun replacements => ({ afterRoms g with replacements } : Graph))
      (Reads.many fun r hr => reads_replacement (hg.interfaces r hr).1 (hg.interfaces r hr).2
        (hreplacement r hr))

theorem reads_records (hvalid : g.validateClocks = .ok ()) (hg : g.Loadable) :
    ReadsAll (loadRecords {}) g.save { g with currentScope := "" } := by
  have hsame : ({ g.afterRoms with replacements := g.replacements } : Graph) =
      { g with currentScope := "" } := by
    simp only [afterRoms, afterStreams, afterScopes, afterEvents, afterClocks, afterMemories,
      afterLogic]
  have hfinal : ReadsAll (loadValidated { g.afterRoms with replacements := g.replacements }) []
      { g with currentScope := "" } := by
    rw [hsame]
    unfold loadValidated
    rw [show validateClocks { g with currentScope := "" } = .ok () from hvalid]
    exact ReadsAll.pure _
  have hmemories : Solid g.memoriesText := .append (.append (solid_digits _) _) _
  have hclocks : Solid g.clocksText := .append (solid_of_tag (by decide)) _
  have hevents : Solid g.eventsText := .append (solid_of_tag (by decide)) _
  have hscopes : Solid g.scopesText := .append (solid_of_tag (by decide)) _
  have hstreams : Solid g.streamsText := .append (solid_of_tag (by decide)) _
  have hroms : Solid g.romsText := .append (solid_of_tag (by decide)) _
  unfold loadRecords save
  refine ReadsAll.bind (reads_logic hg) (ReadsAll.more (hmemories.append _) ?_)
  refine ReadsAll.bind (reads_memories hg) (ReadsAll.section_more (hclocks.append _) ?_)
  refine ReadsAll.bind (reads_clocks hg hvalid) (ReadsAll.section_more (hevents.append _) ?_)
  refine ReadsAll.bind (reads_events hg) (ReadsAll.section_more (hscopes.append _) ?_)
  refine ReadsAll.bind reads_scopes (ReadsAll.section_more (hstreams.append _) ?_)
  refine ReadsAll.bind (reads_streams hg) (ReadsAll.section_more (hroms.append _) ?_)
  refine ReadsAll.bind (reads_romSection hg) ?_
  exact reads_replacementSection (k := loadValidated) hg hfinal

/-- A saved graph loads as itself; only the cursor of its builder is not kept. -/
theorem load_save (hvalid : g.validateClocks = .ok ()) (hg : g.Loadable) :
    load {} g.save = .ok { g with currentScope := "" } := by
  obtain ⟨left, hrun, -⟩ := reads_records hvalid hg g.save rfl
  unfold load
  rw [show loadRecords {} g.save = _ from hrun]

/-- Names with every kind of separator, a clock, a register, a RAM with a port
and a ROM. -/
def namesGraph : Graph :=
  { clockContract := .namedEdges
    clocks := [⟨"clk", 100⟩]
    nodes := #[⟨.input, 1, [], [], [], "a \"b\\\n c", "top\tlevel"⟩,
      ⟨.state, 2, [], [], [], "q", ""⟩]
    aliases := (∅ : Std.ExtTreeMap Nat Nat).insert 130 66
    ports := [⟨"data in", [66], true⟩]
    states := [⟨[131], [66], [1], 0, false, [66], [1]⟩]
    memories := [⟨"ram", 1, 2, []⟩, ⟨"rom \\", 65, 1, [7, 1]⟩]
    memoryAccesses := [⟨1, [66], [1], false, -1, false⟩]
    memoryWrites := [⟨0, [66], [131], [1], 0, true⟩]
    attributes := [⟨"top", "keep", "\"yes\""⟩] }

/-- Every section but the replacements. -/
theorem load_save_names : load {} namesGraph.save = .ok namesGraph := by
  refine load_save (g := namesGraph) rfl ⟨?_, by decide, by decide, by decide, by decide, nofun⟩
  have : ∀ v ∈ namesGraph.values, v.length ≤ 1048576 := by decide +kernel
  exact this

/-- A graph whose builder is in a scope does not load as itself. -/
theorem load_save_drops_scope : ∃ g : Graph, g.validateClocks = .ok () ∧ g.Loadable ∧
    ∀ h, load {} g.save = .ok h → h.currentScope ≠ g.currentScope := by
  refine ⟨{ currentScope := "top" }, rfl, ⟨nofun, by decide, by decide, nofun, by decide, nofun⟩,
    fun h hload => ?_⟩
  have hscope : (load {} (save { currentScope := "top" })).toOption.map currentScope = some "" := by
    decide +kernel
  rw [hload] at hscope
  rw [show h.currentScope = "" from Option.some.inj hscope]
  decide

end Graph

end CppHdl
