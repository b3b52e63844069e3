import CppHdl.Lib.Failing

/-!
# Formatted extraction from a stream of characters

What `>>` does on a stream that throws when an extraction fails: numbers,
words and quoted strings, each after leading space. The formatted output it is
meant to read back ends every item with space, so the space a reader leaves
behind is not significant: `Reads r text a` says that `r` reads `text` as `a`
*up to leading space*, and reading sequentially is appending texts.
-/

namespace CppHdl

open Failing

/-- The characters formatted extraction skips. -/
def isSpace (c : Char) : Bool :=
  c == ' ' || c == '\t' || c == '\n' || c == '\x0b' || c == '\x0c' || c == '\r'

def skip (input : List Char) : List Char := input.dropWhile isSpace

abbrev Scanner (ε α : Type) := Failing ε (List Char) α

section

variable {ε α β : Type} (failure : ε)

def scanDigits : Scanner ε Nat := fun input =>
  let digits := input.takeWhile Char.isDigit
  let rest := input.dropWhile Char.isDigit
  if digits.isEmpty then .error failure rest else .ok (Nat.ofDigitChars 10 digits 0) rest

def scanNat : Scanner ε Nat := fun input => scanDigits failure (skip input)

def scanInt : Scanner ε Int := fun input =>
  let minus := (skip input).head? = some '-'
  match scanDigits failure (if minus then (skip input).tail else skip input) with
  | .ok n rest => .ok (if minus then -(n : Int) else n) rest
  | .error e rest => .error e rest

/-- Truth values are written as numbers. -/
def scanBool : Scanner ε Bool := do
  let n ← scanNat failure
  match n with
  | 0 => pure false
  | 1 => pure true
  | _ => throw failure

def scanWord : Scanner ε (List Char) := fun input =>
  let word := (skip input).takeWhile (!isSpace ·)
  let rest := (skip input).dropWhile (!isSpace ·)
  if word.isEmpty then .error failure rest else .ok word rest

def quoted (s : String) : List Char :=
  '"' :: (s.toList.flatMap fun c => if c = '"' ∨ c = '\\' then ['\\', c] else [c]) ++ ['"']

/-- The rest of a quoted string, past its first quote. -/
def unquote : List Char → List Char → Option (List Char × List Char)
  | _, [] => none
  | done, '"' :: rest => some (done, rest)
  | _, ['\\'] => none
  | done, '\\' :: c :: rest => unquote (done ++ [c]) rest
  | done, c :: rest => unquote (done ++ [c]) rest

/-- A quoted string, or a word where there is no quote. -/
def scanQuoted : Scanner ε String := fun input =>
  match skip input with
  | '"' :: rest =>
      match unquote [] rest with
      | some (s, rest) => .ok (String.ofList s) rest
      | none => .error failure []
  | input =>
      match scanWord failure input with
      | .ok word rest => .ok (String.ofList word) rest
      | .error e rest => .error e rest

/-- Skip space; tells whether anything is left. -/
def scanMore : Scanner ε Bool := fun input => .ok (!(skip input).isEmpty) (skip input)

def scanMany (item : Scanner ε α) : Nat → Scanner ε (List α)
  | 0 => pure []
  | count + 1 => do
      let a ← item
      let rest ← scanMany item count
      pure (a :: rest)

/-- A loop that reads items into an accumulator. -/
def scanInto (item : α → Scanner ε α) : Nat → α → Scanner ε α
  | 0, a => pure a
  | count + 1, a => do
      let a ← item a
      scanInto item count a

/-- A section that may be missing at the end. -/
def scanSection (section_ : α → Scanner ε α) (a : α) : Scanner ε α := do
  if ← scanMore then section_ a else pure a

end

/-! ## Reading back -/

theorem skip_skip (input : List Char) : skip (skip input) = skip input := by
  unfold skip
  induction input with
  | nil => rfl
  | cons c input ih =>
      rw [List.dropWhile_cons]
      split_ifs with hc
      · exact ih
      · rw [List.dropWhile_cons, if_neg hc]

theorem skip_cons_space {c : Char} (hc : isSpace c = true) (input : List Char) :
    skip (c :: input) = skip input := by
  unfold skip
  rw [List.dropWhile_cons, if_pos hc]

theorem skip_cons {c : Char} (hc : isSpace c = false) (input : List Char) :
    skip (c :: input) = c :: input := by
  unfold skip
  rw [List.dropWhile_cons, if_neg (by simp [hc])]

def Solid (text : List Char) : Prop := ∃ c u, text = c :: u ∧ isSpace c = false

theorem Solid.append {t : List Char} (ht : Solid t) (u : List Char) : Solid (t ++ u) := by
  obtain ⟨c, v, rfl, hc⟩ := ht
  exact ⟨c, v ++ u, rfl, hc⟩

theorem solid_of_tag {text : List Char} (h : text.head?.any (!isSpace ·) = true) : Solid text := by
  cases text with
  | nil => cases h
  | cons c u => exact ⟨c, u, rfl, by simpa using h⟩

/-- `r` reads `text` as `a`, up to space in front of what is read and left. -/
def Reads {ε α : Type} (r : Scanner ε α) (text : List Char) (a : α) : Prop :=
  ∀ input rest, skip input = skip (text ++ rest) → ∃ left, Ok r input a left ∧ skip left = skip rest

/-- `r` reads `text` as `a` and nothing but space is left. -/
def ReadsAll {ε α : Type} (r : Scanner ε α) (text : List Char) (a : α) : Prop :=
  ∀ input, skip input = skip text → ∃ left, Ok r input a left ∧ skip left = []

section

variable {ε α β : Type} {failure : ε}

namespace Reads

theorem pure (a : α) : Reads (Pure.pure a : Scanner ε α) [] a :=
  fun input _ h => ⟨input, ok_pure.mpr ⟨rfl, rfl⟩, h⟩

theorem bind {r : Scanner ε α} {f : α → Scanner ε β} {t u : List Char} {a : α} {b : β}
    (hr : Reads r t a) (hf : Reads (f a) u b) : Reads (r >>= f) (t ++ u) b := by
  intro input rest h
  obtain ⟨left, hrun, hleft⟩ := hr input (u ++ rest) (by rw [h, List.append_assoc])
  obtain ⟨left', hrun', hleft'⟩ := hf left rest hleft
  exact ⟨left', ok_bind.mpr ⟨a, left, hrun, hrun'⟩, hleft'⟩

/-- `bind` for an item that ends with its separator. -/
theorem bind_sep {r : Scanner ε α} {f : α → Scanner ε β} {t u : List Char} {c : Char} {a : α}
    {b : β} (hr : Reads r (t ++ [c]) a) (hf : Reads (f a) u b) :
    Reads (r >>= f) (t ++ c :: u) b := by
  rw [List.append_cons]
  exact hr.bind hf

theorem space {r : Scanner ε α} {t : List Char} {a : α} (hr : Reads r t a) {c : Char}
    (hc : isSpace c = true) : Reads r (t ++ [c]) a := by
  intro input rest h
  obtain ⟨left, hrun, hleft⟩ := hr input (c :: rest) (by rw [h, ← List.append_cons])
  exact ⟨left, hrun, hleft.trans (skip_cons_space hc rest)⟩

theorem many_map {γ : Type} {item : Scanner ε α} {text : γ → List Char} (f : γ → α)
    {l : List γ} (h : ∀ c ∈ l, Reads item (text c) (f c)) :
    Reads (scanMany item l.length) (l.flatMap text) (l.map f) := by
  induction l with
  | nil => exact Reads.pure []
  | cons c l ih =>
      rw [List.flatMap_cons]
      refine (h c List.mem_cons_self).bind ?_
      rw [← List.append_nil (l.flatMap text)]
      exact (ih fun d hd => h d (List.mem_cons_of_mem _ hd)).bind (Reads.pure _)

theorem many {item : Scanner ε α} {text : α → List Char} {l : List α}
    (h : ∀ a ∈ l, Reads item (text a) a) : Reads (scanMany item l.length) (l.flatMap text) l := by
  have := many_map id h
  rwa [List.map_id] at this

/-- A loop over records, with what the accumulator is after those done. -/
theorem into {γ : Type} {item : α → Scanner ε α} {text : γ → List Char} (l : List γ)
    (acc : List γ → α)
    (h : ∀ done c, done ++ [c] <+: l → Reads (item (acc done)) (text c) (acc (done ++ [c]))) :
    Reads (scanInto item l.length (acc [])) (l.flatMap text) (acc l) := by
  have main : ∀ rest done, done ++ rest = l →
      Reads (scanInto item rest.length (acc done)) (rest.flatMap text) (acc l) := by
    intro rest
    induction rest with
    | nil =>
        intro done hl
        rw [List.append_nil] at hl
        rw [hl]
        exact Reads.pure _
    | cons c rest ih =>
        intro done hl
        rw [List.flatMap_cons]
        exact (h done c ⟨rest, by simpa using hl⟩).bind (ih (done ++ [c]) (by simpa using hl))
  exact main l [] rfl

/-- Completing every element of a list in place. -/
theorem mapM {γ : Type} {f : α → Scanner ε β} {text : γ → List Char} (initial : γ → α)
    (final : γ → β) {l : List γ} (h : ∀ c ∈ l, Reads (f (initial c)) (text c) (final c)) :
    Reads ((l.map initial).mapM f) (l.flatMap text) (l.map final) := by
  induction l with
  | nil => exact Reads.pure []
  | cons c l ih =>
      rw [List.map_cons, List.mapM_cons, List.flatMap_cons]
      refine (h c List.mem_cons_self).bind ?_
      rw [← List.append_nil (l.flatMap text)]
      exact (ih fun d hd => h d (List.mem_cons_of_mem _ hd)).bind (Reads.pure _)

end Reads

namespace ReadsAll

theorem pure (a : α) : ReadsAll (Pure.pure a : Scanner ε α) [] a :=
  fun input h => ⟨input, ok_pure.mpr ⟨rfl, rfl⟩, h⟩

theorem bind {r : Scanner ε α} {f : α → Scanner ε β} {t u : List Char} {a : α} {b : β}
    (hr : Reads r t a) (hf : ReadsAll (f a) u b) : ReadsAll (r >>= f) (t ++ u) b := by
  intro input h
  obtain ⟨left, hrun, hleft⟩ := hr input u h
  obtain ⟨left', hrun', hleft'⟩ := hf left hleft
  exact ⟨left', ok_bind.mpr ⟨a, left, hrun, hrun'⟩, hleft'⟩

theorem more {f : Bool → Scanner ε β} {t : List Char} {b : β} (ht : Solid t)
    (hf : ReadsAll (f true) t b) : ReadsAll (scanMore >>= f) t b := by
  intro input h
  obtain ⟨c, u, rfl, hc⟩ := ht
  rw [skip_cons hc] at h
  obtain ⟨left, hrun, hleft⟩ := hf (skip input) (by rw [skip_skip, h, skip_cons hc])
  refine ⟨left, ok_bind.mpr ⟨true, skip input, ?_, hrun⟩, hleft⟩
  unfold Ok scanMore
  rw [h]
  rfl

theorem no_more {f : Bool → Scanner ε β} {b : β} (hf : ReadsAll (f false) [] b) :
    ReadsAll (scanMore >>= f) [] b := by
  intro input h
  obtain ⟨left, hrun, hleft⟩ := hf (skip input) (by rw [skip_skip, h])
  refine ⟨left, ok_bind.mpr ⟨false, skip input, ?_, hrun⟩, hleft⟩
  unfold Ok scanMore
  rw [h]
  rfl

theorem section_more {s : α → Scanner ε α} {k : α → Scanner ε β} {a : α} {t : List Char}
    {b : β} (ht : Solid t) (h : ReadsAll (s a >>= k) t b) :
    ReadsAll (scanSection s a >>= k) t b := by
  have hassoc : scanSection s a >>= k =
      scanMore >>= fun more => (if more then s a else Pure.pure a) >>= k := by
    unfold scanSection
    rw [bind_assoc]
  rw [hassoc]
  exact more ht h

theorem section_none {s : α → Scanner ε α} {k : α → Scanner ε β} {a : α} {b : β}
    (h : ReadsAll (k a) [] b) : ReadsAll (scanSection s a >>= k) [] b := by
  have hassoc : scanSection s a >>= k =
      scanMore >>= fun more => (if more then s a else Pure.pure a) >>= k := by
    unfold scanSection
    rw [bind_assoc]
  rw [hassoc]
  exact no_more h

end ReadsAll

/-! ## The items -/

theorem isSpace_of_isDigit {c : Char} (h : c.isDigit = true) : isSpace c = false := by
  by_contra hspace
  simp only [isSpace, Bool.not_eq_false, Bool.or_eq_true, beq_iff_eq, or_assoc] at hspace
  rcases hspace with rfl | rfl | rfl | rfl | rfl | rfl <;> cases h

theorem isDigit_of_isSpace {c : Char} (h : isSpace c = true) : c.isDigit = false := by
  by_contra hdigit
  rw [isSpace_of_isDigit (by simpa using hdigit)] at h
  cases h

theorem solid_digits (n : Nat) : Solid (toString n).toList := by
  rw [Nat.toString_eq_repr, Nat.toList_repr]
  cases h : Nat.toDigits 10 n with
  | nil => exact absurd h Nat.toDigits_ne_nil
  | cons c digits =>
      exact ⟨c, digits, rfl, isSpace_of_isDigit (Nat.isDigit_of_mem_toDigits (by omega)
        (by omega) (h ▸ List.mem_cons_self))⟩

theorem skip_digits (n : Nat) (rest : List Char) :
    skip ((toString n).toList ++ rest) = (toString n).toList ++ rest := by
  obtain ⟨c, u, heq, hc⟩ := solid_digits n
  rw [heq, List.cons_append, skip_cons hc]

theorem takeWhile_digits (n : Nat) {c : Char} (hc : isSpace c = true) (rest : List Char) :
    ((toString n).toList ++ c :: rest).takeWhile Char.isDigit = (toString n).toList ∧
      ((toString n).toList ++ c :: rest).dropWhile Char.isDigit = c :: rest := by
  have hall : ∀ d ∈ (toString n).toList, d.isDigit = true := by
    rw [Nat.toString_eq_repr, Nat.toList_repr]
    exact fun d hd => Nat.isDigit_of_mem_toDigits (by omega) (by omega) hd
  have hnot : ¬ c.isDigit = true := by simp [isDigit_of_isSpace hc]
  rw [List.takeWhile_append_of_pos hall, List.dropWhile_append_of_pos hall,
    List.takeWhile_cons_of_neg hnot, List.dropWhile_cons_of_neg hnot, List.append_nil]
  exact ⟨rfl, rfl⟩

theorem scanDigits_digits (n : Nat) {c : Char} (hc : isSpace c = true) (rest : List Char) :
    scanDigits failure ((toString n).toList ++ c :: rest) = .ok n (c :: rest) := by
  obtain ⟨htake, hdrop⟩ := takeWhile_digits n hc rest
  have hnonempty : ((toString n).toList).isEmpty = false := by
    rw [Nat.toString_eq_repr, Nat.toList_repr]
    simp [Nat.toDigits_ne_nil]
  unfold scanDigits
  simp only [htake, hdrop, hnonempty, Bool.false_eq_true, if_false]
  rw [Nat.toString_eq_repr, Nat.toList_repr, Nat.ofDigitChars_ten_toDigits]

theorem Reads.nat (n : Nat) {c : Char} (hc : isSpace c = true) :
    Reads (scanNat failure) ((toString n).toList ++ [c]) n := by
  intro input rest h
  rw [List.append_assoc, List.singleton_append, skip_digits] at h
  refine ⟨c :: rest, ?_, skip_cons_space hc rest⟩
  unfold Ok scanNat
  rw [h, scanDigits_digits n hc]

theorem Reads.bool (b : Bool) {c : Char} (hc : isSpace c = true) :
    Reads (scanBool failure) ((toString b.toNat).toList ++ [c]) b := by
  rw [← List.append_nil ((toString b.toNat).toList ++ [c])]
  refine (Reads.nat b.toNat hc).bind ?_
  cases b <;> exact Reads.pure _

theorem Reads.int (n : Int) {c : Char} (hc : isSpace c = true) :
    Reads (scanInt failure) ((toString n).toList ++ [c]) n := by
  intro input rest h
  rw [List.append_assoc, List.singleton_append] at h
  refine ⟨c :: rest, ?_, skip_cons_space hc rest⟩
  unfold Ok scanInt
  cases n with
  | ofNat n =>
      change skip input = skip ((toString n).toList ++ c :: rest) at h
      rw [skip_digits] at h
      have hminus : ¬ (skip input).head? = some '-' := by
        intro hhead
        have htake := (takeWhile_digits n hc rest).1
        rw [← h] at htake
        cases hinput : skip input with
        | nil => rw [hinput] at hhead; cases hhead
        | cons d tail =>
            rw [hinput] at hhead htake
            obtain rfl := Option.some.inj hhead
            rw [List.takeWhile_cons_of_neg (by decide)] at htake
            rw [Nat.toString_eq_repr, Nat.toList_repr] at htake
            exact Nat.toDigits_ne_nil htake.symm
      simp only [hminus, if_false]
      rw [h, scanDigits_digits n hc]
      rfl
  | negSucc n =>
      have htext : (toString (Int.negSucc n)).toList = '-' :: (toString (n + 1)).toList := by
        change (Int.repr (Int.negSucc n)).toList = _
        simp [Int.repr, String.toList_append]
      rw [htext, List.cons_append, skip_cons (by decide)] at h
      simp only [h, List.head?_cons, if_true, List.tail_cons]
      rw [scanDigits_digits (n + 1) hc]
      rfl

theorem Reads.word {word : List Char} (hne : word ≠ []) (hword : ∀ d ∈ word, isSpace d = false)
    {c : Char} (hc : isSpace c = true) : Reads (scanWord failure) (word ++ [c]) word := by
  intro input rest h
  have hall : ∀ d ∈ word, (!isSpace d) = true := fun d hd => by rw [hword d hd]; rfl
  have hnot : ¬ (!isSpace c) = true := by simp [hc]
  rw [List.append_assoc, List.singleton_append] at h
  have hskip : skip (word ++ c :: rest) = word ++ c :: rest := by
    cases word with
    | nil => exact absurd rfl hne
    | cons d word => rw [List.cons_append, skip_cons (hword d List.mem_cons_self)]
  rw [hskip] at h
  refine ⟨c :: rest, ?_, skip_cons_space hc rest⟩
  have htake : (word ++ c :: rest).takeWhile (!isSpace ·) = word := by
    rw [List.takeWhile_append_of_pos hall, List.takeWhile_cons, if_neg hnot, List.append_nil]
  have hdrop : (word ++ c :: rest).dropWhile (!isSpace ·) = c :: rest := by
    rw [List.dropWhile_append_of_pos hall, List.dropWhile_cons, if_neg hnot]
  unfold Ok scanWord
  simp only [h, htake, hdrop]
  rw [if_neg (by simpa using hne)]

theorem unquote_escaped (s done rest : List Char) :
    unquote done ((s.flatMap fun c => if c = '"' ∨ c = '\\' then ['\\', c] else [c]) ++
      '"' :: rest) = some (done ++ s, rest) := by
  induction s generalizing done with
  | nil => simp [unquote]
  | cons c s ih =>
      rw [List.flatMap_cons]
      split_ifs with hc
      · simp only [List.cons_append, List.nil_append]
        rw [unquote, ih, List.append_assoc, List.singleton_append]
      · push Not at hc
        simp only [List.cons_append, List.nil_append]
        rw [unquote, ih, List.append_assoc, List.singleton_append]
        all_goals simp [hc.1, hc.2]

theorem Reads.quoted (s : String) : Reads (scanQuoted failure) (quoted s) s := by
  intro input rest h
  refine ⟨rest, ?_, rfl⟩
  have hskip : skip input = '"' :: ((s.toList.flatMap fun c =>
      if c = '"' ∨ c = '\\' then ['\\', c] else [c]) ++ '"' :: rest) := by
    rw [h]
    unfold CppHdl.quoted
    rw [List.cons_append, List.cons_append, skip_cons (by decide), List.append_assoc,
      List.singleton_append]
  unfold Ok scanQuoted
  rw [hskip]
  simp only [unquote_escaped, List.nil_append, String.ofList_toList]

end

end CppHdl
