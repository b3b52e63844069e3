import Std.Data.String.ToNat
import CppHdl.Graph.Build

/-!
# Keys of shared producers

`optimize` merges nodes whose keys are one text. The key runs the scope, the
operation, the width and the operands together, separated by colons, slashes
and commas, so it tells two nodes apart as long as an operation text and the
name of a black box hold no colon: read from its end, every part is delimited
by a separator that cannot occur in the parts behind it.
-/

namespace CppHdl

/-! ## Separators -/

theorem append_cons_inj_first {c : Char} {u v x y : List Char} (hu : c ∉ u) (hv : c ∉ v)
    (h : u ++ c :: x = v ++ c :: y) : u = v ∧ x = y := by
  induction u generalizing v with
  | nil =>
      cases v with
      | nil => exact ⟨rfl, (List.cons.inj h).2⟩
      | cons d v => exact absurd (List.cons.inj h).1 fun hd => hv (hd ▸ List.mem_cons_self)
  | cons d u ih =>
      cases v with
      | nil => exact absurd (List.cons.inj h).1 fun hd => hu (hd ▸ List.mem_cons_self)
      | cons e v =>
          obtain ⟨rfl, htail⟩ := List.cons.inj h
          obtain ⟨rfl, rfl⟩ := ih (fun hm => hu (List.mem_cons_of_mem _ hm))
            (fun hm => hv (List.mem_cons_of_mem _ hm)) htail
          exact ⟨rfl, rfl⟩

/-- The last separator splits a text in one way only. -/
theorem append_cons_inj_last {c : Char} {u v x y : List Char} (hx : c ∉ x) (hy : c ∉ y)
    (h : u ++ c :: x = v ++ c :: y) : u = v ∧ x = y := by
  have hreverse : x.reverse ++ c :: u.reverse = y.reverse ++ c :: v.reverse := by
    simpa using congrArg List.reverse h
  obtain ⟨hxy, huv⟩ := append_cons_inj_first (by simpa using hx) (by simpa using hy) hreverse
  exact ⟨List.reverse_injective huv, List.reverse_injective hxy⟩

/-! ## Digits and values -/

theorem not_mem_toString {c : Char} (hc : c.isDigit = false) (n : Nat) :
    c ∉ (toString n).toList := by
  rw [Nat.toString_eq_repr, Nat.toList_repr]
  intro hmem
  have := Nat.isDigit_of_mem_toDigits (by omega) (by omega) hmem
  rw [hc] at this
  cases this

theorem toString_injective {m n : Nat} (h : (toString m).toList = (toString n).toList) : m = n :=
  Nat.repr_injective (String.toList_inj.mp h)

/-- The characters of a value in a key, past its slash. -/
def valueChars (v : Value) : List Char := v.flatMap fun bit => (toString bit).toList ++ [',']

theorem toList_valueKey (v : Value) : (valueKey v).toList = '/' :: valueChars v := by
  unfold valueKey valueChars
  rw [String.toList_append, String.toList_join, List.flatMap_map]
  simp [String.toList_append]

theorem not_mem_valueChars {c : Char} (hc : c.isDigit = false) (hcomma : c ≠ ',') (v : Value) :
    c ∉ valueChars v := by
  unfold valueChars
  rw [List.mem_flatMap]
  rintro ⟨bit, -, hmem⟩
  rcases List.mem_append.mp hmem with hmem | hmem
  · exact not_mem_toString hc bit hmem
  · exact hcomma (List.mem_singleton.mp hmem)

theorem valueChars_injective {u v : Value} (h : valueChars u = valueChars v) : u = v := by
  unfold valueChars at h
  induction u generalizing v with
  | nil =>
      cases v with
      | nil => rfl
      | cons b v => simp at h
  | cons a u ih =>
      cases v with
      | nil => simp at h
      | cons b v =>
          simp only [List.flatMap_cons, List.append_assoc, List.singleton_append] at h
          obtain ⟨hab, huv⟩ := append_cons_inj_first (not_mem_toString (by decide) a)
            (not_mem_toString (by decide) b) h
          rw [toString_injective hab, ih huv]

/-! ## Keys -/

/-- Texts that keep the parts of a key apart. -/
structure Node.Plain (n : Node) : Prop where
  text : ':' ∉ n.op.text.toList
  letter : ∃ c ∈ n.op.text.toList, c.isDigit = false
  name : n.op = .blackbox → ':' ∉ n.name.toList

/-- A key in front of its operands. -/
def Node.keyHead (n : Node) : List Char :=
  n.scope.toList ++ ':' :: (n.op.text.toList ++ ':' :: ((toString n.width).toList ++
    if n.op = .blackbox then ':' :: n.name.toList else []))

theorem Node.toList_shareKey (n : Node) : n.shareKey.toList =
    n.keyHead ++ '/' :: (valueChars n.left ++ '/' :: (valueChars n.right ++
      '/' :: valueChars n.select)) := by
  unfold Node.shareKey Node.keyHead
  simp only [String.toList_append, toList_valueKey]
  split_ifs <;> simp [String.toList_append]

theorem Node.keyHead_inj {n m : Node} (hn : n.Plain) (hm : m.Plain)
    (h : n.keyHead = m.keyHead) : n.scope = m.scope ∧ n.op = m.op ∧ n.width = m.width ∧
      (n.op = .blackbox → n.name = m.name) := by
  have hcolon : ∀ k : Nat, ':' ∉ (toString k).toList := not_mem_toString (by decide)
  -- scope, operation and width, read from the end
  have hfront : ∀ {s t : String} {a b : Op} {j k : Nat}, ':' ∉ a.text.toList →
      ':' ∉ b.text.toList → s.toList ++ ':' :: (a.text.toList ++ ':' :: (toString j).toList) =
        t.toList ++ ':' :: (b.text.toList ++ ':' :: (toString k).toList) →
      s = t ∧ a = b ∧ j = k := by
    intro s t a b j k ha hb heq
    obtain ⟨hrest, hwidth⟩ := append_cons_inj_last (u := s.toList ++ ':' :: a.text.toList)
      (v := t.toList ++ ':' :: b.text.toList) (hcolon j) (hcolon k) (by simpa using heq)
    obtain ⟨hscope, htext⟩ := append_cons_inj_last ha hb hrest
    exact ⟨String.toList_inj.mp hscope, Op.text_injective (String.toList_inj.mp htext),
      toString_injective hwidth⟩
  -- a width cannot stand where an operation does
  have hmixed : ∀ {n m : Node}, n.Plain → m.Plain → n.op = .blackbox → m.op ≠ .blackbox →
      n.keyHead ≠ m.keyHead := by
    intro n m hn hm hbox hother heq
    unfold Node.keyHead at heq
    rw [if_pos hbox, if_neg hother, List.append_nil] at heq
    obtain ⟨hrest, -⟩ := append_cons_inj_last
      (u := n.scope.toList ++ ':' :: (n.op.text.toList ++ ':' :: (toString n.width).toList))
      (v := m.scope.toList ++ ':' :: m.op.text.toList) (hn.name hbox) (hcolon m.width)
      (by simpa using heq)
    obtain ⟨-, hdigits⟩ := append_cons_inj_last
      (u := n.scope.toList ++ ':' :: n.op.text.toList) (hcolon n.width) hm.text
      (by simpa using hrest)
    obtain ⟨c, hmem, hdigit⟩ := hm.letter
    exact not_mem_toString hdigit n.width (hdigits ▸ hmem)
  by_cases hbox : n.op = .blackbox <;> by_cases hbox' : m.op = .blackbox
  · unfold Node.keyHead at h
    rw [if_pos hbox, if_pos hbox'] at h
    obtain ⟨hrest, hname⟩ := append_cons_inj_last
      (u := n.scope.toList ++ ':' :: (n.op.text.toList ++ ':' :: (toString n.width).toList))
      (v := m.scope.toList ++ ':' :: (m.op.text.toList ++ ':' :: (toString m.width).toList))
      (hn.name hbox) (hm.name hbox') (by simpa using h)
    obtain ⟨hscope, hop, hwidth⟩ := hfront hn.text hm.text hrest
    exact ⟨hscope, hop, hwidth, fun _ => String.toList_inj.mp hname⟩
  · exact absurd h (hmixed hn hm hbox hbox')
  · exact absurd h.symm (hmixed hm hn hbox' hbox)
  · unfold Node.keyHead at h
    rw [if_neg hbox, if_neg hbox', List.append_nil, List.append_nil] at h
    obtain ⟨hscope, hop, hwidth⟩ := hfront hn.text hm.text h
    exact ⟨hscope, hop, hwidth, fun hb => absurd hb hbox⟩

/-- Nodes with one key differ at most in the name of an operation that has no
use for it. -/
theorem Node.shareKey_inj {n m : Node} (hn : n.Plain) (hm : m.Plain)
    (h : n.shareKey = m.shareKey) : n.scope = m.scope ∧ n.op = m.op ∧ n.width = m.width ∧
      (n.op = .blackbox → n.name = m.name) ∧ n.left = m.left ∧ n.right = m.right ∧
      n.select = m.select := by
  have hslash : ∀ v, '/' ∉ valueChars v := not_mem_valueChars (by decide) (by decide)
  have hlist := congrArg String.toList h
  rw [n.toList_shareKey, m.toList_shareKey] at hlist
  obtain ⟨hrest, hselect⟩ := append_cons_inj_last
    (u := n.keyHead ++ '/' :: (valueChars n.left ++ '/' :: valueChars n.right))
    (v := m.keyHead ++ '/' :: (valueChars m.left ++ '/' :: valueChars m.right))
    (hslash n.select) (hslash m.select) (by simpa using hlist)
  obtain ⟨hrest, hright⟩ := append_cons_inj_last
    (u := n.keyHead ++ '/' :: valueChars n.left) (v := m.keyHead ++ '/' :: valueChars m.left)
    (hslash n.right) (hslash m.right) (by simpa using hrest)
  obtain ⟨hhead, hleft⟩ := append_cons_inj_last (hslash n.left) (hslash m.left) hrest
  obtain ⟨hscope, hop, hwidth, hname⟩ := Node.keyHead_inj hn hm hhead
  exact ⟨hscope, hop, hwidth, hname, valueChars_injective hleft, valueChars_injective hright,
    valueChars_injective hselect⟩

end CppHdl
