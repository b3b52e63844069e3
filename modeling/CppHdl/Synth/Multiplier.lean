import CppHdl.Synth.Networks

/-!
# The carry-save multiplier

Rows of partial products, waves of 3:2 compression while more than two rows are
left, and one ripple addition. The rows keep their sum modulo `2 ^ width`
through every wave, and every wave leaves fewer of them.
-/

namespace CppHdl

open Failing

namespace Mapper

/-! ## The network -/

/-- The row of multiplicand lanes that one multiplier bit guards. -/
def partialProduct (a : Value) (width shift bit : Nat) : MapperM Value := do
  let lanes ← (a.take (width - shift)).mapM fun lane => gate .and lane bit
  pure (List.replicate shift 0 ++ lanes)

/-- The rows of the multiplier bits from `shift` on; rows of constant zeros
are left out. -/
def partialProducts (a : Value) (width : Nat) : Nat → Value → MapperM (List Value)
  | _, [] => pure []
  | shift, bit :: bits =>
      if bit = 0 then partialProducts a width (shift + 1) bits
      else do
        let row ← partialProduct a width shift bit
        let rows ← partialProducts a width (shift + 1) bits
        pure (if row.any (· ≠ 0) then row :: rows else rows)

/-- The sums and the majorities of three rows; the last lane has no majority,
since it would leave the width. -/
def compressLanes : Value → Value → Value → MapperM (Value × Value)
  | a :: as, b :: bs, c :: cs => do
      let x ← gate .xor a b
      let sum ← gate .xor x c
      if as.isEmpty then pure ([sum], [])
      else do
        let both ← gate .and a b
        let third ← gate .and x c
        let majority ← gate .or both third
        let rest ← compressLanes as bs cs
        pure (sum :: rest.1, majority :: rest.2)
  | _, _, _ => pure ([], [])

/-- One wave: it reads only rows of the wave before. -/
def compressWave : List Value → MapperM (List Value)
  | a :: b :: c :: rest => do
      let lanes ← compressLanes a b c
      let next ← compressWave rest
      pure (lanes.1 :: (0 :: lanes.2) :: next)
  | rows => pure rows

/-- Waves while more than two rows are left; each leaves fewer, so as many
waves as rows are enough. -/
def compressAll : Nat → List Value → MapperM (List Value)
  | 0, rows => pure rows
  | fuel + 1, rows =>
      if 2 < rows.length then do
        let next ← compressWave rows
        compressAll fuel next
      else pure rows

def multiply (a b : Value) (width : Nat) : MapperM Value := do
  let rows ← partialProducts a width 0 (b.take width)
  let rows ← compressAll rows.length rows
  match rows with
  | [] => pure (List.replicate width 0)
  | [row] => pure row
  | first :: second :: _ => add first second

/-! ## Rows and their sum -/

/-- The rows read numbers that add up to `total` modulo `2 ^ width`. -/
def RowsRead (w : World) (width : Nat) (rows : List Value) (total : Nat) : Prop :=
  ∃ numbers : List (List Bool), List.Forall₂ w.Reads rows numbers ∧
    (numbers.map natOfBits).sum ≡ total [MOD 2 ^ width]

def Rows (g : Graph) (width : Nat) (rows : List Value) : Prop :=
  ∀ row ∈ rows, g.Has row ∧ row.length = width

theorem Rows.mono {g h : Graph} {width : Nat} {rows : List Value} (hrows : Rows g width rows)
    (hgh : g.bound ≤ h.bound) : Rows h width rows := fun row hrow =>
  ⟨(hrows row hrow).1.mono hgh, (hrows row hrow).2⟩

theorem Rows.nil (g : Graph) (width : Nat) : Rows g width [] :=
  fun _ h => absurd h List.not_mem_nil

theorem rows_cons {g : Graph} {width : Nat} {row : Value} {rows : List Value} :
    Rows g width (row :: rows) ↔ (g.Has row ∧ row.length = width) ∧ Rows g width rows :=
  List.forall_mem_cons

abbrev MapsRows (m : Mapper) (program : MapperM (List Value)) (width : Nat)
    (R : World → List Value → Prop) : Prop :=
  Maps m program (fun n rows => Rows n.out width rows) R

theorem RowsRead.nil (w : World) (width : Nat) : RowsRead w width [] 0 := ⟨[], .nil, rfl⟩

theorem RowsRead.congr {w : World} {width total total' : Nat} {rows : List Value}
    (h : RowsRead w width rows total) (heq : total ≡ total' [MOD 2 ^ width]) :
    RowsRead w width rows total' := by
  obtain ⟨numbers, hread, hsum⟩ := h
  exact ⟨numbers, hread, hsum.trans heq⟩

theorem RowsRead.cons {w : World} {width total : Nat} {row : Value} {bits : List Bool}
    {rows : List Value} (hrow : w.Reads row bits) (h : RowsRead w width rows total) :
    RowsRead w width (row :: rows) (natOfBits bits + total) := by
  obtain ⟨numbers, hread, hsum⟩ := h
  refine ⟨bits :: numbers, .cons hrow hread, ?_⟩
  rw [List.map_cons, List.sum_cons]
  exact hsum.add_left _

theorem RowsRead.uncons {w : World} {width total : Nat} {row : Value} {rows : List Value}
    (h : RowsRead w width (row :: rows) total) :
    ∃ bits rest, w.Reads row bits ∧ RowsRead w width rows rest ∧
      natOfBits bits + rest ≡ total [MOD 2 ^ width] := by
  obtain ⟨numbers, hread, hsum⟩ := h
  cases hread with
  | @cons _ bits _ rest hrow hrest =>
  rw [List.map_cons, List.sum_cons] at hsum
  exact ⟨bits, _, hrow, ⟨rest, hrest, rfl⟩, hsum⟩

/-! ## Partial products -/

variable {m : Mapper}

theorem natOfBits_map_and (c : Bool) (xs : List Bool) :
    natOfBits (xs.map (· && c)) = natOfBits xs * c.toNat := by
  induction xs with
  | nil => simp
  | cons x xs ih =>
      rw [List.map_cons, natOfBits_cons, natOfBits_cons, ih]
      cases c <;> simp

theorem partialProduct_maps (hm : m.Sound) {a : Value} {width shift bit : Nat}
    (ha : m.out.Has a) (hlen : a.length = width) (hshift : shift ≤ width)
    (hbit : bit < m.out.bound) :
    MapsValue m (partialProduct a width shift bit) width fun w row => ∀ xs c,
      w.Reads a xs → w.look bit = some c → ∃ bits, w.Reads row bits ∧
        natOfBits bits ≡ natOfBits xs * (2 ^ shift * c.toNat) [MOD 2 ^ width] := by
  unfold partialProduct
  have hlanes : MapsValue m ((a.take (width - shift)).mapM fun lane => gate .and lane bit)
      (a.take (width - shift)).length fun w value => List.Forall₂ (fun lane out => ∀ x y,
        w.look lane = some x → w.look bit = some y → w.look out = some (x && y))
        (a.take (width - shift)) value := by
    refine Maps.mapM hm fun lane h n hn hmn => ?_
    exact and_maps hn (Nat.lt_of_lt_of_le (ha _ (List.mem_of_mem_take h)) hmn)
      (Nat.lt_of_lt_of_le hbit hmn)
  refine hlanes.bind fun lanes n hn hmn hlanes => Maps.pure hn ⟨?_, ?_⟩ ?_
  · exact (Graph.Has.replicate (Graph.Has.zero_lt _) _).append hlanes.1
  · rw [List.length_append, List.length_replicate, hlanes.2, List.length_take, hlen]
    omega
  · intro w hw h xs c hx hc
    have hreads : ∀ (u : Value) (us : List Bool) (out : Value), w.Reads u us →
        List.Forall₂ (fun lane bit' => ∀ x y, w.look lane = some x → w.look bit = some y →
          w.look bit' = some (x && y)) u out → w.Reads out (us.map (· && c)) := by
      intro u us out hu
      induction hu generalizing out with
      | nil =>
          intro hout
          cases hout
          exact .nil
      | cons hx _ ih =>
          intro hout
          cases hout with
          | cons hbit hbits => exact .cons (hbit _ _ hx hc) (ih _ hbits)
    refine ⟨List.replicate shift false ++ (xs.take (width - shift)).map (· && c),
      (World.reads_replicate hw.consts.zero shift).append (hreads _ _ _ (hx.take _) h), ?_⟩
    rw [natOfBits_append, natOfBits_replicate_false, List.length_replicate, natOfBits_map_and,
      natOfBits_take, Nat.zero_add]
    have hsplit : 2 ^ width = 2 ^ shift * 2 ^ (width - shift) := by
      rw [← Nat.pow_add, Nat.add_sub_cancel' hshift]
    have hmod : natOfBits xs % 2 ^ (width - shift) * c.toNat ≡ natOfBits xs * c.toNat
        [MOD 2 ^ (width - shift)] := (Nat.mod_modEq _ _).mul_right _
    rw [hsplit, Nat.mul_left_comm (natOfBits xs)]
    exact hmod.mul_left' _

theorem partialProducts_maps (hm : m.Sound) {a b : Value} {width shift : Nat}
    (ha : m.out.Has a) (hb : m.out.Has b) (hlen : a.length = width)
    (hshift : shift + b.length ≤ width) :
    MapsRows m (partialProducts a width shift b) width fun w rows => ∀ xs ys,
      w.Reads a xs → w.Reads b ys →
        RowsRead w width rows (natOfBits xs * (2 ^ shift * natOfBits ys)) := by
  induction b generalizing m shift with
  | nil =>
      unfold partialProducts
      refine Maps.pure hm (Rows.nil _ _) ?_
      intro w _ xs ys _ hy
      cases hy
      exact RowsRead.nil w width
  | cons bit bits ih =>
      obtain ⟨hbit, hbits⟩ := has_cons.mp hb
      rw [List.length_cons] at hshift
      have hpow : ∀ n : Nat, 2 ^ shift * (2 * n) = 2 ^ (shift + 1) * n := fun n => by
        rw [Nat.pow_succ, Nat.mul_assoc]
      unfold partialProducts
      by_cases hzero : bit = 0
      · rw [if_pos hzero]
        have hrest : MapsRows m (partialProducts a width (shift + 1) bits) width _ :=
          ih hm ha hbits (by omega)
        refine hrest.mono (fun _ _ _ h => h) ?_
        intro w rows hw h xs ys hx hy
        cases hy with
        | @cons _ c _ cs hc hcs =>
        rw [hzero, hw.zero] at hc
        rw [← Option.some.inj hc, natOfBits_cons, Bool.toNat_false, Nat.zero_add, hpow]
        exact h xs cs hx hcs
      · rw [if_neg hzero]
        refine (partialProduct_maps hm ha hlen (by omega) hbit).bind fun row n hn hmn hrow => ?_
        have hrest : MapsRows n (partialProducts a width (shift + 1) bits) width _ :=
          ih hn (ha.mono hmn) (hbits.mono hmn) (by omega)
        refine hrest.bind fun rows k hk hnk hrows => ?_
        have hrow' : k.out.Has row ∧ row.length = width := ⟨hrow.1.mono hnk, hrow.2⟩
        refine Maps.pure hk ?_ ?_
        · split_ifs
          · exact rows_cons.mpr ⟨hrow', hrows⟩
          · exact hrows
        · intro w hw h rrow xs ys hx hy
          cases hy with
          | @cons _ c _ cs hc hcs =>
          obtain ⟨number, hread, hnumber⟩ := rrow xs c hx hc
          have hrest := h xs cs hx hcs
          have htotal : natOfBits number + natOfBits xs * (2 ^ (shift + 1) * natOfBits cs) ≡
              natOfBits xs * (2 ^ shift * natOfBits (c :: cs)) [MOD 2 ^ width] := by
            rw [natOfBits_cons, Nat.mul_add, Nat.mul_add, hpow]
            exact hnumber.add_right _
          split_ifs with hany
          · exact (hrest.cons hread).congr htotal
          · -- a row of constant zeros adds nothing
            refine hrest.congr (Nat.ModEq.trans ?_ htotal)
            have hrowZero : row = List.replicate width 0 := by
              rw [List.eq_replicate_iff]
              refine ⟨hrow.2, fun b hb => ?_⟩
              by_contra hne
              exact hany (List.any_eq_true.mpr ⟨b, hb, by simpa using hne⟩)
            rw [hrowZero] at hread
            rw [hread.unique (World.reads_replicate hw.consts.zero width),
              natOfBits_replicate_false, Nat.zero_add]

/-! ## Compression -/

theorem compressLanes_maps (hm : m.Sound) {a b c : Value} (ha : m.out.Has a) (hb : m.out.Has b)
    (hc : m.out.Has c) (hab : b.length = a.length) (hac : c.length = a.length) :
    Maps m (compressLanes a b c) (fun n lanes => (n.out.Has lanes.1 ∧ lanes.1.length = a.length) ∧
        n.out.Has lanes.2 ∧ lanes.2.length = a.length - 1)
      fun w lanes => ∀ xs ys zs, w.Reads a xs → w.Reads b ys → w.Reads c zs →
        w.Reads lanes.1 (carrySave xs ys zs).1 ∧ w.Reads lanes.2 (carrySave xs ys zs).2 := by
  induction a generalizing m b c with
  | nil =>
      unfold compressLanes
      refine Maps.pure hm ⟨⟨Graph.Has.nil, rfl⟩, Graph.Has.nil, rfl⟩ ?_
      intro w _ xs ys zs hx _ _
      cases hx
      exact ⟨.nil, .nil⟩
  | cons a as ih =>
      obtain _ | ⟨b, bs⟩ := b
      · simp at hab
      obtain _ | ⟨c, cs⟩ := c
      · simp at hac
      obtain ⟨ha, has⟩ := has_cons.mp ha
      obtain ⟨hb, hbs⟩ := has_cons.mp hb
      obtain ⟨hc, hcs⟩ := has_cons.mp hc
      unfold compressLanes
      refine (xor_maps hm ha hb).bind fun x m₁ h₁ le₁ hx => ?_
      refine (xor_maps h₁ hx (Nat.lt_of_lt_of_le hc le₁)).bind fun sum m₂ h₂ le₂ hsum => ?_
      have le₂' := Nat.le_trans le₁ le₂
      by_cases hlast : as = []
      · subst hlast
        obtain rfl : bs = [] := List.length_eq_zero_iff.mp (Nat.succ.inj hab)
        obtain rfl : cs = [] := List.length_eq_zero_iff.mp (Nat.succ.inj hac)
        rw [List.isEmpty_nil, if_pos rfl]
        refine Maps.pure h₂ ⟨⟨Graph.Has.singleton hsum, rfl⟩, Graph.Has.nil, rfl⟩ ?_
        intro w _ rsum rx xs ys zs hx hy hz
        cases hx with
        | cons hx hxs =>
        cases hy with
        | cons hy hys =>
        cases hz with
        | cons hz hzs =>
        cases hxs
        exact ⟨.cons (rsum _ _ (rx _ _ hx hy) hz) .nil, .nil⟩
      · rw [if_neg (by simpa using hlast)]
        refine (and_maps h₂ (Nat.lt_of_lt_of_le ha le₂') (Nat.lt_of_lt_of_le hb le₂')).bind
          fun both m₃ h₃ le₃ hboth => ?_
        have le₃' := Nat.le_trans le₂' le₃
        refine (and_maps h₃ (Nat.lt_of_lt_of_le hx (Nat.le_trans le₂ le₃))
          (Nat.lt_of_lt_of_le hc le₃')).bind fun third m₄ h₄ le₄ hthird => ?_
        refine (or_maps h₄ (Nat.lt_of_lt_of_le hboth le₄) hthird).bind
          fun majority m₅ h₅ le₅ hmajority => ?_
        have le₅' := Nat.le_trans le₃' (Nat.le_trans le₄ le₅)
        refine (ih h₅ (has.mono le₅') (hbs.mono le₅') (hcs.mono le₅') (Nat.succ.inj hab)
          (Nat.succ.inj hac)).bind fun rest m₆ h₆ le₆ hrest => ?_
        have hsum' : sum < m₆.out.bound := Nat.lt_of_lt_of_le hsum
          (Nat.le_trans le₃ (Nat.le_trans le₄ (Nat.le_trans le₅ le₆)))
        have has' := List.length_pos_iff.mpr hlast
        refine Maps.pure h₆ ⟨⟨has_cons.mpr ⟨hsum', hrest.1.1⟩, by simp [hrest.1.2]⟩,
          has_cons.mpr ⟨Nat.lt_of_lt_of_le hmajority le₆, hrest.2.1⟩, ?_⟩ ?_
        · rw [List.length_cons, List.length_cons, hrest.2.2]
          omega
        · intro w _ rrest rmajority rthird rboth rsum rx xs ys zs hx hy hz
          cases hx with
          | @cons _ x _ xs hx hxs =>
          cases hy with
          | cons hy hys =>
          cases hz with
          | cons hz hzs =>
          obtain ⟨hfirst, hsecond⟩ := rrest _ _ _ hxs hys hzs
          have hne : xs.isEmpty = false := by
            rw [List.isEmpty_eq_false_iff, ← List.length_pos_iff, ← hxs.length_eq]
            exact has'
          have hxor := rx _ _ hx hy
          simp only [carrySave, hne, Bool.false_eq_true, if_false, List.singleton_append]
          exact ⟨.cons (rsum _ _ hxor hz) hfirst,
            .cons (rmajority _ _ (rboth _ _ hx hy) (rthird _ _ hxor hz)) hsecond⟩

theorem carrySave_rows {w : World} {width total : Nat} {a b c first second : Value}
    {rows next : List Value} (hw : w.Consts) (ha : a.length = width) (hb : b.length = width)
    (hc : c.length = width) (h : RowsRead w width (a :: b :: c :: rows) total)
    (hlanes : ∀ xs ys zs, w.Reads a xs → w.Reads b ys → w.Reads c zs →
      w.Reads first (carrySave xs ys zs).1 ∧ w.Reads second (carrySave xs ys zs).2)
    (hnext : ∀ rest, RowsRead w width rows rest → RowsRead w width next rest) :
    RowsRead w width (first :: (0 :: second) :: next) total := by
  obtain ⟨xs, _, hx, h, hsum⟩ := h.uncons
  obtain ⟨ys, _, hy, h, hsum'⟩ := h.uncons
  obtain ⟨zs, rest, hz, h, hsum''⟩ := h.uncons
  obtain ⟨hfirst, hsecond⟩ := hlanes xs ys zs hx hy hz
  have hxs : xs.length = width := by rw [← hx.length_eq, ha]
  have hys : ys.length = xs.length := by rw [← hy.length_eq, hb, hxs]
  have hsave := natOfBits_carrySave hys (by rw [← hz.length_eq, hc, hxs] : zs.length = xs.length)
  rw [hxs] at hsave
  refine (((hnext rest h).cons (.cons hw.zero hsecond)).cons hfirst).congr ?_
  rw [natOfBits_cons, Bool.toNat_false, Nat.zero_add, ← Nat.add_assoc]
  refine (hsave.add_right rest).trans ?_
  rw [Nat.add_assoc, Nat.add_assoc]
  exact ((hsum''.add_left _).trans hsum' |>.add_left _).trans hsum

theorem compressWave_maps (hm : m.Sound) {rows : List Value} {width : Nat} (hwidth : 0 < width)
    (hrows : Rows m.out width rows) :
    Maps m (compressWave rows) (fun n next => Rows n.out width next ∧
        next.length = rows.length - rows.length / 3)
      fun w next => ∀ total, RowsRead w width rows total → RowsRead w width next total := by
  induction rows using compressWave.induct generalizing m with
  | case1 a b c rest ih =>
      obtain ⟨ha, hrows⟩ := rows_cons.mp hrows
      obtain ⟨hb, hrows⟩ := rows_cons.mp hrows
      obtain ⟨hc, hrows⟩ := rows_cons.mp hrows
      unfold compressWave
      refine (compressLanes_maps hm ha.1 hb.1 hc.1 (by rw [hb.2, ha.2])
        (by rw [hc.2, ha.2])).bind fun lanes n hn hmn hlanes => ?_
      refine (ih hn (hrows.mono hmn)).bind fun next k hk hnk hnext => ?_
      have hzero := Graph.Has.zero_lt k.out
      refine Maps.pure hk ⟨rows_cons.mpr ⟨⟨hlanes.1.1.mono hnk, by rw [hlanes.1.2, ha.2]⟩,
        rows_cons.mpr ⟨⟨has_cons.mpr ⟨hzero, hlanes.2.1.mono hnk⟩, ?_⟩, hnext.1⟩⟩, ?_⟩ ?_
      · rw [List.length_cons, hlanes.2.2, ha.2]
        omega
      · simp only [List.length_cons, hnext.2]
        omega
      · intro w hw rnext rlanes total h
        exact carrySave_rows hw.consts ha.2 hb.2 hc.2 h rlanes rnext
  | case2 rows hshort =>
      have hlen : rows.length < 3 := by
        match rows, hshort with
        | [], _ => decide
        | [_], _ => simp
        | [_, _], _ => simp
        | a :: b :: c :: rest, h => exact absurd rfl (h a b c rest)
      rw [compressWave]
      · exact Maps.pure hm ⟨hrows, by omega⟩ fun _ _ _ h => h
      · exact hshort

theorem compressAll_maps (hm : m.Sound) {fuel : Nat} {rows : List Value} {width : Nat}
    (hwidth : 0 < width) (hfuel : rows.length ≤ fuel + 2) (hrows : Rows m.out width rows) :
    Maps m (compressAll fuel rows) (fun n next => Rows n.out width next ∧ next.length ≤ 2)
      fun w next => ∀ total, RowsRead w width rows total → RowsRead w width next total := by
  induction fuel generalizing m rows with
  | zero => exact Maps.pure hm ⟨hrows, by omega⟩ fun _ _ _ h => h
  | succ fuel ih =>
      unfold compressAll
      by_cases hmany : 2 < rows.length
      · rw [if_pos hmany]
        refine (compressWave_maps hm hwidth hrows).bind fun next n hn _ hnext => ?_
        refine (ih hn (by rw [hnext.2]; omega) hnext.1).mono (fun _ _ _ h => h) ?_
        exact fun w last _ h hwave total hread => h total (hwave total hread)
      · rw [if_neg hmany]
        exact Maps.pure hm ⟨hrows, by omega⟩ fun _ _ _ h => h

/-! ## The product -/

theorem multiply_maps (hm : m.Sound) {a b : Value} {width : Nat} (ha : m.out.Has a)
    (hb : m.out.Has b) (hlena : a.length = width) (hlenb : b.length = width) (hwidth : 0 < width) :
    MapsValue m (multiply a b width) width fun w value => ∀ xs ys,
      w.Reads a xs → w.Reads b ys → ∃ bits, w.Reads value bits ∧
        natOfBits bits ≡ natOfBits xs * natOfBits ys [MOD 2 ^ width] := by
  unfold multiply
  rw [List.take_of_length_le (by omega)]
  refine (partialProducts_maps hm ha hb hlena (by omega)).bind fun rows n hn hmn hrows => ?_
  refine (compressAll_maps hn hwidth (by omega) hrows).bind fun last k hk hnk hlast => ?_
  obtain ⟨hlast, hshort⟩ := hlast
  -- the two or fewer rows that are left still add up to the product
  have htotal : ∀ {w : World} {xs ys : List Bool},
      (∀ total, RowsRead w width rows total → RowsRead w width last total) →
      (∀ xs ys, w.Reads a xs → w.Reads b ys →
        RowsRead w width rows (natOfBits xs * (2 ^ 0 * natOfBits ys))) →
      w.Reads a xs → w.Reads b ys →
        RowsRead w width last (natOfBits xs * natOfBits ys) := by
    intro w xs ys hall hproducts hx hy
    have := hall _ (hproducts xs ys hx hy)
    rwa [Nat.pow_zero, Nat.one_mul] at this
  match last, hlast, hshort with
  | [], _, _ =>
      refine Maps.pure hk ⟨Graph.Has.replicate (Graph.Has.zero_lt _) _, by simp⟩ ?_
      intro w hw hall hproducts xs ys hx hy
      obtain ⟨numbers, hread, hsum⟩ := htotal hall hproducts hx hy
      cases hread
      refine ⟨_, World.reads_replicate hw.consts.zero width, ?_⟩
      rwa [natOfBits_replicate_false]
  | [row], hlast, _ =>
      obtain ⟨hrow, -⟩ := rows_cons.mp hlast
      refine Maps.pure hk hrow ?_
      intro w hw hall hproducts xs ys hx hy
      obtain ⟨bits, rest, hread, ⟨numbers, hnil, hzero⟩, hsum⟩ :=
        (htotal hall hproducts hx hy).uncons
      cases hnil
      exact ⟨bits, hread, (hzero.add_left (natOfBits bits)).trans hsum⟩
  | [first, second], hlast, _ =>
      obtain ⟨hfirst, hlast⟩ := rows_cons.mp hlast
      obtain ⟨hsecond, -⟩ := rows_cons.mp hlast
      have hadd := add_maps hk false hfirst.1 hsecond.1 (by rw [hfirst.2, hsecond.2])
      rw [hfirst.2] at hadd
      refine hadd.mono (fun _ _ _ h => h) ?_
      intro w value _ h hall hproducts xs ys hx hy
      obtain ⟨us, _, hus, hrest, hsum⟩ := (htotal hall hproducts hx hy).uncons
      obtain ⟨vs, rest, hvs, ⟨numbers, hnil, hzero⟩, hsum'⟩ := hrest.uncons
      cases hnil
      refine ⟨_, h us vs hus hvs, ?_⟩
      have hsame : us.length = vs.length := by
        rw [← hus.length_eq, ← hvs.length_eq, hfirst.2, hsecond.2]
      have hripple : natOfBits (rippleSum false us vs) ≡ _ [MOD _] := natOfBits_rippleSum hsame
      rw [← hus.length_eq, hfirst.2, Bool.toNat_false, Nat.zero_add] at hripple
      refine hripple.trans (Nat.ModEq.trans ?_ hsum)
      exact ((hzero.add_left (natOfBits vs)).trans hsum').add_left _

end Mapper

end CppHdl
