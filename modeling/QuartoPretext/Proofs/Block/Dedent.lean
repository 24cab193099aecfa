/-
# How much indentation an item takes

The text of an item starts at a column, in which a tab counts as four, and the
lines that continue the item lose indentation up to there. What they lose is counted
in another way: the column is that of the bytes before the text, and a tab that
reaches over it goes as a whole. So a line loses the shortest part of its
indentation that is as wide as there are bytes before the text, and that is up to
the text just if this part is as wide as it should be.

Key definitions: `Text.width`, `Text.IsIndent`, `Text.Reaches`, `Line.Continues`,
`ListItem.DedentedFrom`.
Key theorems: `Line.dropColumns_reaches`, `Line.continues_dedent`, `Body.list_dedents`.
-/
import QuartoPretext.Proofs.Block.ListBodies
import QuartoPretext.Proofs.Text.Bytes

namespace QuartoPretext

/-! ### Indentation -/

namespace Text

/-- The columns that a text takes: four for a tab, and one for any other character. -/
def width : Text → Nat
  | [] => 0
  | c :: s => (if c = '\t' then 4 else 1) + width s

/-- A part of the spaces and tabs that a text starts with. -/
def IsIndent (part s : Text) : Prop := part <+: s ∧ ∀ c ∈ part, isTabOrSpace c

/-- The shortest part of the indentation that takes so many columns. -/
structure Reaches (n : Nat) (part s : Text) : Prop where
  indent : IsIndent part s
  le : n ≤ width part
  shortest : ∀ other, IsIndent other s → n ≤ width other → part <+: other

variable {s t part other : Text} {n : Nat}

theorem width_append (s t : Text) : width (s ++ t) = width s + width t := by
  induction s with
  | nil => exact (Nat.zero_add _).symm
  | cons c s ih => rw [List.cons_append, width, width, ih, Nat.add_assoc]

theorem width_le_of_prefix (h : s <+: t) : width s ≤ width t := by
  obtain ⟨more, rfl⟩ := h
  rw [width_append]
  exact Nat.le_add_right _ _

theorem width_eq_length (h : '\t' ∉ s) : width s = s.length := by
  induction s with
  | nil => rfl
  | cons c s ih =>
    simp only [List.mem_cons, not_or] at h
    rw [width, if_neg (Ne.symm h.1), ih h.2, List.length_cons, Nat.add_comm]

theorem isIndent_nil (s : Text) : IsIndent [] s := ⟨List.nil_prefix, nofun⟩

theorem IsIndent.cons {c : Char} (hc : isTabOrSpace c) (h : IsIndent part s) : IsIndent (c :: part) (c :: s) :=
  ⟨List.cons_prefix_cons.2 ⟨rfl, h.1⟩, List.forall_mem_cons.2 ⟨hc, h.2⟩⟩

theorem isIndent_cons_iff {c d : Char} : IsIndent (c :: part) (d :: s) ↔ c = d ∧ isTabOrSpace c ∧ IsIndent part s := by
  rw [IsIndent, IsIndent, List.cons_prefix_cons, List.forall_mem_cons]
  tauto

theorem reaches_zero (s : Text) : Reaches 0 [] s := ⟨isIndent_nil s, Nat.zero_le _, fun _ _ _ => List.nil_prefix⟩

theorem Reaches.cons {c : Char} {m : Nat} (hc : isTabOrSpace c) (hm : 0 < m) (h : Reaches n part s)
    (hn : ∀ k, m ≤ (if c = '\t' then 4 else 1) + k ↔ n ≤ k) : Reaches m (c :: part) (c :: s) where
  indent := h.indent.cons hc
  le := (hn _).2 h.le
  shortest := by
    intro other hother hle
    cases other with
    | nil => exact absurd hle (Nat.not_le_of_gt hm)
    | cons d other =>
      obtain ⟨rfl, -, hother⟩ := isIndent_cons_iff.1 hother
      exact List.cons_prefix_cons.2 ⟨rfl, h.shortest other hother ((hn _).1 hle)⟩

/-- Spaces reach so many columns and no more. -/
theorem Reaches.width_eq (h : Reaches n part s) (hpart : '\t' ∉ part) : width part = n := by
  have hle := h.le
  rw [width_eq_length hpart] at hle ⊢
  have htake : IsIndent (part.take n) s := ⟨(List.take_prefix n part).trans h.indent.1, fun c hc =>
    h.indent.2 c (List.mem_of_mem_take hc)⟩
  have hwidth : width (part.take n) = n := by
    rw [width_eq_length fun hc => hpart (List.mem_of_mem_take hc), List.length_take, Nat.min_eq_left hle]
  have hshort := (h.shortest _ htake hwidth.ge).length_le
  rw [List.length_take, Nat.min_eq_left hle] at hshort
  omega

end Text

open Text

namespace Line

theorem columns_append {part : Text} (s : Text) (h : ∀ c ∈ part, isTabOrSpace c) :
    columns (part ++ s) = width part + columns s := by
  induction part with
  | nil => exact (Nat.zero_add _).symm
  | cons c part ih =>
    obtain ⟨hc, hpart⟩ := List.forall_mem_cons.1 h
    have ih := ih hpart
    simp only [isTabOrSpace, Bool.or_eq_true, beq_iff_eq] at hc
    rcases hc with rfl | rfl
    · rw [List.cons_append, columns, ih, width, ← Nat.add_assoc]
      rfl
    · rw [List.cons_append, columns, ih, width, ← Nat.add_assoc]
      rfl

/-- What is dropped is the shortest part that takes so many columns, if the text has them. -/
theorem dropColumns_reaches : ∀ (n : Nat) (s : Text), n ≤ columns s →
    ∃ part, Reaches n part s ∧ s = part ++ dropColumns n s
  | 0, s, _ => ⟨[], reaches_zero s, by simp [dropColumns]⟩
  | n + 1, [], h => absurd h (Nat.not_succ_le_zero n)
  | n + 1, c :: s, h => by
    unfold columns at h
    unfold dropColumns
    split at h
    · next heq =>
      cases heq
      obtain ⟨part, hreaches, hs⟩ := dropColumns_reaches n s (by omega)
      refine ⟨' ' :: part, hreaches.cons rfl n.succ_pos fun k => ?_, congrArg _ hs⟩
      rw [if_neg (by decide)]
      omega
    · next heq =>
      cases heq
      obtain ⟨part, hreaches, hs⟩ := dropColumns_reaches (n - 3) s (by omega)
      refine ⟨'\t' :: part, hreaches.cons rfl n.succ_pos fun k => ?_, congrArg _ hs⟩
      rw [if_pos rfl]
      omega
    · omega

/-- A line that continues an item whose text stands after `before`, as it is in the
body of the item. It loses the shortest part of its indentation that is as wide as
there are bytes before the text, and none of this is too much or too little just if
it is as wide as what stands before the text, or as the whole indentation. -/
structure Continues (before : Text) (k' k : Line) : Prop where
  number : k'.number = k.number
  taken : ∃ part, Reaches (min (utf8Length before) k.indent) part k.text ∧ k.text = part ++ k'.text
  indent_iff : k'.indent = k.indent - width before ↔
    ∃ part, k.text = part ++ k'.text ∧ width part = min (width before) k.indent
  indent_iff_of_bytes : utf8Length before = width before → (k'.indent = k.indent - width before ↔
    ∃ part, IsIndent part k.text ∧ width part = min (width before) k.indent)
  indent_of_spaces : utf8Length before = width before → (∀ part, IsIndent part k.text → '\t' ∉ part) →
    k'.indent = k.indent - width before

theorem continues_dedent (before : Text) (k : Line) :
    Continues before (k.dedent (min (utf8Length before) k.indent)) k := by
  obtain ⟨part, hreaches, htext⟩ :=
    dropColumns_reaches (min (utf8Length before) k.indent) k.text (Nat.min_le_right _ _)
  have hindent : k.indent = width part + (k.dedent (min (utf8Length before) k.indent)).indent := by
    show columns k.text = _
    conv_lhs => rw [htext]
    exact columns_append _ hreaches.indent.2
  have hiff : (k.dedent (min (utf8Length before) k.indent)).indent = k.indent - width before ↔
      width part = min (width before) k.indent := by omega
  refine ⟨rfl, ⟨part, hreaches, htext⟩, hiff.trans ⟨fun h => ⟨part, htext, h⟩, ?_⟩, fun hbytes => hiff.trans ?_,
    fun hbytes hspaces => hiff.2 ?_⟩
  · rintro ⟨other, hother, hwidth⟩
    rwa [List.append_cancel_right (htext.symm.trans hother)]
  · constructor
    · exact fun h => ⟨part, hreaches.indent, h⟩
    · -- a part of that width is no shorter than the one that is taken
      rintro ⟨other, hother, hwidth⟩
      have hle := hreaches.le
      have hshort := width_le_of_prefix (hreaches.shortest other hother (by rw [hbytes]; exact hwidth.ge))
      rw [hbytes] at hle
      omega
  · rw [hreaches.width_eq (hspaces part hreaches.indent), hbytes]

end Line

/-! ### Items -/

/-- An item was read from its lines, and its text `first` stands after `before`. The
lines that are written in its body are the text and those that continue it. -/
structure ListItem.DedentedFrom (i : ListItem) (p : ItemLines) (before first : Text) : Prop where
  marker : p.marker.text = before ++ first
  marked : ListReader.marker? p.marker = some (i.marker, first, utf8Length before)
  body : ∃ continued, Line.filled i.body = Line.filled [⟨p.marker.number, first⟩] ++ continued ∧
    List.Forall₂ (Line.Continues before) continued (Line.filled p.more)

/-- The column of the text of an item is counted in the bytes before it. -/
theorem ListReader.column_of_marker? {l : Line} {marker first : Text} {column : Nat}
    (h : marker? l = some (marker, first, column)) : ∃ before, l.text = before ++ first ∧ column = utf8Length before := by
  obtain ⟨-, before, htext⟩ := marker?_endOf h
  refine ⟨before, htext.symm, ?_⟩
  obtain ⟨m, -, heq⟩ := Option.map_eq_some_iff.1 h
  simp only [Prod.mk.injEq] at heq
  obtain ⟨-, rfl, rfl⟩ := heq
  rw [← htext, utf8Length_append, Nat.add_sub_cancel]

theorem ListItem.MadeFrom.dedentedFrom {f : ListReader.Frame} {i : ListItem} {p : ItemLines} (h : i.MadeFrom f p) :
    ∃ before first, i.DedentedFrom p before first := by
  obtain ⟨-, marker, first, column, hm, rfl⟩ := h
  obtain ⟨before, htext, rfl⟩ := ListReader.column_of_marker? hm
  refine ⟨before, first, htext, hm, (Line.filled p.more).map fun k => k.dedent (min (utf8Length before) k.indent), ?_, ?_⟩
  · rw [ListReader.Item.filled_close]
    show Line.filled ([⟨p.marker.number, first⟩] ++ ListReader.laid (utf8Length before) false p.more) = _
    rw [Line.filled_append, ListReader.filled_laid]
  · rw [List.forall₂_map_left_iff, List.forall₂_same]
    exact fun k _ => Line.continues_dedent before k

/-- Each item of a list loses the indentation of the lines that continue it by the
bytes before its text, in whole spaces and tabs. A line of `w` columns whose item has
its text at the column `c` keeps `w - c` columns just if what it loses is `min c w`
columns wide; where bytes are columns, just if some part of its indentation is; and
so it always does where its indentation is spaces. -/
theorem Body.list_dedents {text : Text} {ls : List Line} (hbody : Body text ls) {l : Line} {following : List Line}
    (hpos : l :: following <:+ ls) (hkind : classify l following = .listItem) :
    ∃ (list : ListBlock) (rest : List Line) (ps : List ItemLines),
      Block.read l following = .ok (.list list, rest) ∧ l :: following = ps.flatMap ItemLines.all ++ rest ∧
      List.Forall₂ (fun i p => ∃ before first, ListItem.DedentedFrom i p before first) list.items ps := by
  have hof := BlockStart.of_listItem hkind
  have hm := Block.marker?_isSome (hbody.bare l (hpos.subset List.mem_cons_self)) hof
  obtain ⟨ps, hlines, hmade, -⟩ := ListReader.read_made following hm
  refine ⟨(ListReader.read l following).1, (ListReader.read l following).2, ps, ?_, hlines,
    hmade.imp fun _ _ => ListItem.MadeFrom.dedentedFrom⟩
  rw [Block.read, hof]

/-- A line of four spaces keeps two of them in an item whose text stands at the third column. -/
theorem Body.list_dedents_spaces : ∃ ps : List ItemLines,
    [⟨1, "- a".toList⟩, ⟨2, "    b".toList⟩] = ps.flatMap ItemLines.all ∧
    Block.read ⟨1, "- a".toList⟩ [⟨2, "    b".toList⟩] =
      .ok (.list ⟨1, .unordered, [⟨1, ['-'], [⟨1, ['a']⟩, ⟨2, "  b".toList⟩]⟩], none⟩, []) ∧
    List.Forall₂ (fun i p => ∃ before first, ListItem.DedentedFrom i p before first)
      [⟨1, ['-'], [⟨1, ['a']⟩, ⟨2, "  b".toList⟩]⟩] ps := by
  have hlines : [⟨1, "- a".toList⟩, ⟨2, "    b".toList⟩] <:+ Line.ofText "- a\n    b".toList := by decide +kernel
  have hread : Block.read ⟨1, "- a".toList⟩ [⟨2, "    b".toList⟩] =
      .ok (.list ⟨1, .unordered, [⟨1, ['-'], [⟨1, ['a']⟩, ⟨2, "  b".toList⟩]⟩], none⟩, []) := by decide +kernel
  obtain ⟨list, rest, ps, hlist, hps, hitems⟩ := Body.list_dedents .document hlines (by decide +kernel)
  obtain ⟨⟨⟩, ⟨⟩⟩ := hread.symm.trans hlist
  exact ⟨ps, by rw [hps, List.append_nil], hread, hitems⟩

/-- After a tab and a marker the text stands at the seventh column, and there are
three bytes before it: a line of six columns keeps three of them. -/
theorem Body.list_dedents_tab :
    Block.read ⟨1, "\t- a".toList⟩ [⟨2, "      b".toList⟩] =
      .ok (.list ⟨1, .unordered, [⟨1, ['-'], [⟨1, ['a']⟩, ⟨2, "   b".toList⟩]⟩], none⟩, []) ∧
    Text.width "\t- ".toList = 6 ∧ Line.indent ⟨2, "      b".toList⟩ = 6 ∧ Line.indent ⟨2, "   b".toList⟩ = 3 := by
  decide +kernel

end QuartoPretext
