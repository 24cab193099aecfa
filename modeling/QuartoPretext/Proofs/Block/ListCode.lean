/-
# Code in items

An item that a code fence is written under, at two spaces, has the lines of the
fence in its body as they are without these spaces, except that of empty lines that
follow each other only the first is left. All of them belong to the item, if the
list stands at the left margin.

Key definitions: `Line.inItem`, `Text.Apart`, `CodeItem`, `CodeItem.lines`.
Key theorems: `CodeItem.map_text_keptCode`, `CodeItem.exists_body`, `CodeItem.body_of_read`.
-/
import QuartoPretext.Proofs.Block.ListBodies
import QuartoPretext.Proofs.Block.Numbers
import QuartoPretext.Proofs.Block.Stop
import Mathlib.Data.List.Destutter

namespace QuartoPretext

open Text

/-- Texts that do not follow each other in a body if both are empty. -/
def Text.Apart (s t : Text) : Prop := s ≠ [] ∨ t ≠ []

instance : DecidableRel Text.Apart := fun s t => inferInstanceAs (Decidable (s ≠ [] ∨ t ≠ []))

/-- A line as it is written in an item: after two spaces, or empty. -/
def Line.inItem (l : Line) : Line := ⟨l.number, if l.text = [] then [] else ' ' :: ' ' :: l.text⟩

namespace Line

variable {l : Line}

theorem inItem_of_ne (h : l.text ≠ []) : l.inItem = ⟨l.number, ' ' :: ' ' :: l.text⟩ := by
  rw [inItem, if_neg h]

theorem isBlank_inItem (l : Line) : l.inItem.isBlank = l.isBlank := by
  by_cases h : l.text = []
  · simp [inItem, isBlank, h]
  · rw [inItem_of_ne h]
    rfl

theorem two_le_indent_inItem (h : l.text ≠ []) : 2 ≤ l.inItem.indent := by
  rw [inItem_of_ne h, indent, columns, columns]
  omega

/-- Without the two spaces the line is left. -/
theorem dedent_inItem (h : l.text ≠ []) : l.inItem.dedent (min 2 l.inItem.indent) = l := by
  rw [Nat.min_eq_left (two_le_indent_inItem h), inItem_of_ne h]
  simp [dedent, dropColumns]

theorem bare_of_inItem (h : l.inItem.Bare) : l.Bare := by
  by_cases hl : l.text = []
  · rw [Bare, hl]
    nofun
  · rw [inItem_of_ne hl] at h
    exact h.suffix ⟨[' ', ' '], rfl⟩

end Line

/-- An item of a text and a fence of code that is not executed. -/
structure CodeItem where
  number : Nat
  text : Text
  /-- blank lines between the text and the fence -/
  gap : List Line
  fence : CodeFence
  opening : Line
  code : List Line
  closing : Line
  starts : ∃ c ∈ text.head?, isTabOrSpace c = false
  blank : ∀ k ∈ gap, k.isBlank
  opens : CodeFence.parse? opening.text = some fence
  static : fence.executable = false
  margin : opening.indent = 0
  kept : ∀ k ∈ code, fence.mark.closedBy k.text = false
  closes : fence.mark.closedBy closing.text

namespace CodeItem

variable (c : CodeItem)

/-- The lines of the fence at the left margin. -/
def fenceLines : List Line := c.opening :: (c.code ++ [c.closing])

/-- The lines of the item at the left margin, with the fence at two spaces. -/
def lines : List Line := ⟨c.number, '-' :: ' ' :: c.text⟩ :: (c.gap ++ c.fenceLines.map Line.inItem)

/-- The lines of the code as they stand in the body of the item. -/
def keptCode : List Line := ListReader.laid 2 false (c.code.map Line.inItem)

variable {c}

theorem opening_filled : c.opening.isBlank = false := by
  refine Bool.eq_false_iff.2 fun hblank => ?_
  have hopens := c.opens
  rw [CodeFence.parse?, trim_of_isBlank hblank] at hopens
  cases hopens

theorem closing_filled : c.closing.isBlank = false := by
  refine Bool.eq_false_iff.2 fun hblank => ?_
  have hcloses := c.closes
  have hmark : 0 < c.fence.mark.length := FenceMark.detect?_length (CodeFence.detect?_of_parse? c.opens)
  rw [FenceMark.not_closedBy_of_isBlank hmark hblank] at hcloses
  cases hcloses

theorem ne_nil_of_filled {l : Line} (h : l.isBlank = false) : l.text ≠ [] := by
  intro hl
  rw [Line.isBlank, hl] at h
  cases h

end CodeItem

namespace ListReader

/-- After `s`, which is the text of the line before, the lines of the code keep one of
the empty lines that follow each other. -/
theorem map_text_laid_inItem : ∀ {ks : List Line}, (∀ k ∈ ks, k.Bare) → ∀ s : Text,
    s :: (laid 2 s.isEmpty (ks.map Line.inItem)).map (·.text) = (ks.map (·.text)).destutter' Text.Apart s
  | [], _, _ => rfl
  | k :: ks, h, s => by
    obtain ⟨hk, hks⟩ := List.forall_mem_cons.1 h
    rw [List.map_cons, List.map_cons]
    by_cases hempty : k.text = []
    · have hblank : k.inItem.isBlank := by
        rw [Line.isBlank_inItem]
        exact hk.isBlank_iff.2 hempty
      rw [laid, if_pos hblank, hempty]
      by_cases hs : s = []
      · rw [hs, List.destutter'_cons_neg _ (by simp [Text.Apart]), ← map_text_laid_inItem hks]
        rfl
      · rw [if_neg (by simpa using hs), List.destutter'_cons_pos _ (.inl hs), ← map_text_laid_inItem hks]
        rfl
    · have hfilled : k.inItem.isBlank = false := by
        rw [Line.isBlank_inItem]
        exact Bool.eq_false_iff.2 fun hblank => hempty (hk.isBlank_iff.1 hblank)
      rw [laid_cons_of_filled hfilled, Line.dedent_inItem hempty, List.destutter'_cons_pos _ (.inr hempty),
        ← map_text_laid_inItem hks, show k.text.isEmpty = false by simpa using hempty]
      rfl

theorem Item.exists_close {i : Item} {as bs : List Line} {l : Line} (hl : l.isBlank = false)
    (h : i.item.body = as ++ l :: bs) : ∃ back, i.close.body = as ++ l :: back := by
  refine ⟨(bs.reverse.dropWhile Line.isBlank).reverse, ?_⟩
  rw [close, h, List.reverse_append, List.reverse_cons, List.append_assoc, List.singleton_append,
    Line.dropWhile_stop hl]
  simp

/-- Lines that end before a line at the margin have all that are indented before that line. -/
theorem exists_more {under taken tail after : List Line} {z : Line}
    (hunder : ∀ k ∈ under ++ [z], k.isBlank = false → 2 ≤ k.indent) (hz : z.isBlank = false)
    (htail : ∀ k ∈ (tail.dropWhile Line.isBlank).head?, k.indent ≤ 1) (h : taken ++ tail = under ++ z :: after) :
    ∃ more, taken = under ++ z :: more := by
  -- else the line where they end is one of those that are indented
  have absurd {k : Line} (hk : k ∈ under ++ [z]) (hfilled : k.isBlank = false)
      (hhead : (tail.dropWhile Line.isBlank).head? = some k) : False := by
    have hle := htail k hhead
    have hge := hunder k hk hfilled
    omega
  rcases List.append_eq_append_iff.1 h with ⟨left, rfl, rfl⟩ | ⟨more, rfl, hmore⟩
  · rw [Line.dropWhile_stop hz] at absurd
    cases hdrop : left.dropWhile Line.isBlank with
    | nil => exact (absurd (by simp) hz (by rw [hdrop]; rfl)).elim
    | cons k rest =>
      have hk : k ∈ left := (List.dropWhile_sublist Line.isBlank).subset (hdrop ▸ List.mem_cons_self)
      have hfilled : k.isBlank = false := by
        have hhead := List.head?_dropWhile_not Line.isBlank left
        simpa [hdrop] using hhead
      exact (absurd (by simp [hk]) hfilled (by rw [hdrop]; rfl)).elim
  · cases more with
    | nil =>
      rw [List.nil_append] at hmore
      exact (absurd (by simp) hz (by rw [← hmore, List.dropWhile_cons_of_neg (by simp [hz])]; rfl)).elim
    | cons k more =>
      obtain ⟨rfl, -⟩ := List.cons.inj hmore
      exact ⟨more, rfl⟩

end ListReader

namespace CodeItem

variable {c : CodeItem}

theorem bare_of_lines (h : ∀ k ∈ c.lines, k.Bare) : ∀ k ∈ c.fenceLines, k.Bare := fun _ hk =>
  Line.bare_of_inItem (h _ (List.mem_cons_of_mem _ (List.mem_append_right _ (List.mem_map_of_mem hk))))

/-- Of the code there are left all texts but those empty ones that follow an empty one. -/
theorem map_text_keptCode (h : ∀ k ∈ c.lines, k.Bare) :
    c.keptCode.map (·.text) = (c.code.map (·.text)).destutter Text.Apart := by
  have hcode : ∀ k ∈ c.code, k.Bare := fun k hk =>
    bare_of_lines h k (List.mem_cons_of_mem _ (List.mem_append_left _ hk))
  -- as if they came after a line that is not empty
  have hlaid := ListReader.map_text_laid_inItem hcode ['-']
  rw [keptCode]
  cases htexts : c.code.map (·.text) with
  | nil =>
    rw [htexts] at hlaid
    exact List.cons.inj hlaid |>.2
  | cons s ss =>
    rw [htexts, List.destutter'_cons_pos _ (.inl (by simp))] at hlaid
    exact List.cons.inj hlaid |>.2

/-- The body of an item that takes the lines of the fence. -/
theorem exists_body {i : ListItem} {more : List Line}
    (hi : i = ((ListReader.Item.start c.number ['-'] c.text 2).extend
      (c.gap ++ c.fenceLines.map Line.inItem ++ more)).close) :
    ∃ back, i.body = ⟨c.number, c.text⟩ :: ListReader.laid 2 false c.gap ++
      c.opening :: (c.keptCode ++ c.closing :: back) := by
  have hopening := c.opening_filled
  have hclosing := c.closing_filled
  have hlaid : ListReader.laid 2 false (c.gap ++ c.fenceLines.map Line.inItem ++ more) =
      ListReader.laid 2 false c.gap ++ c.opening :: (c.keptCode ++ c.closing :: ListReader.laid 2 false more) := by
    rw [fenceLines, List.map_cons, List.map_append, List.map_singleton, List.append_assoc, List.cons_append,
      List.append_assoc, List.singleton_append, ListReader.laid_append_cons ((Line.isBlank_inItem _).trans hopening),
      ListReader.laid_cons_of_filled ((Line.isBlank_inItem _).trans hopening),
      Line.dedent_inItem (ne_nil_of_filled hopening),
      ListReader.laid_append_cons ((Line.isBlank_inItem _).trans hclosing),
      ListReader.laid_cons_of_filled ((Line.isBlank_inItem _).trans hclosing),
      Line.dedent_inItem (ne_nil_of_filled hclosing), keptCode]
  have hbody : ((ListReader.Item.start c.number ['-'] c.text 2).extend
      (c.gap ++ c.fenceLines.map Line.inItem ++ more)).item.body =
        (⟨c.number, c.text⟩ :: ListReader.laid 2 false c.gap ++ c.opening :: c.keptCode) ++
          c.closing :: ListReader.laid 2 false more := by
    show [⟨c.number, c.text⟩] ++ ListReader.laid 2 false _ = _
    rw [hlaid]
    simp
  obtain ⟨back, hback⟩ := ListReader.Item.exists_close hclosing hbody
  exact ⟨back, by rw [hi, hback]; simp⟩

/-! ### The lines that the item takes -/

theorem marker? (c : CodeItem) :
    ListReader.marker? ⟨c.number, '-' :: ' ' :: c.text⟩ = some (['-'], c.text, 2) := by
  obtain ⟨d, hd, hspace⟩ := c.starts
  have htext : c.text.dropWhile isTabOrSpace = c.text := by
    cases htext : c.text with
    | nil => rfl
    | cons e s =>
      rw [htext] at hd
      cases hd
      exact List.dropWhile_cons_of_neg (by simp [hspace])
  have hlist : BlockStart.listMarker? ('-' :: ' ' :: c.text) = some (['-'], c.text) := by
    show some (['-'], c.text.dropWhile isTabOrSpace) = _
    rw [htext]
  have hlength : utf8Length ('-' :: ' ' :: c.text) = 2 + utf8Length c.text := by
    show 1 + (1 + utf8Length c.text) = _
    omega
  have htrim : Line.trimmed ⟨c.number, '-' :: ' ' :: c.text⟩ = '-' :: ' ' :: c.text := rfl
  rw [ListReader.marker?, htrim, hlist, hlength]
  simp

/-- What is written under the item is blank or stands at two spaces or more. -/
theorem indent_of_mem {k : Line} (hk : k ∈ c.gap ++ c.fenceLines.map Line.inItem) (hfilled : k.isBlank = false) :
    2 ≤ k.indent := by
  rcases List.mem_append.1 hk with hk | hk
  · rw [c.blank k hk] at hfilled
    cases hfilled
  · obtain ⟨j, -, rfl⟩ := List.mem_map.1 hk
    rw [Line.isBlank_inItem] at hfilled
    exact Line.two_le_indent_inItem (ne_nil_of_filled hfilled)

end CodeItem

/-- A line is found by its number where the numbers ascend. -/
theorem Line.append_cons_inj {x y : Line} : ∀ {as bs cs ds : List Line}, (numbers (as ++ x :: bs)).Pairwise (· < ·) →
    as ++ x :: bs = cs ++ y :: ds → x.number = y.number → x = y ∧ bs = ds
  | [], bs, [], ds, _, h, _ => List.cons.inj h
  | [], bs, c :: cs, ds, hascending, h, hn => by
    obtain ⟨rfl, rfl⟩ := List.cons.inj h
    have hlt : x.number < y.number := (List.pairwise_cons.1 hascending).1 _ (List.mem_map_of_mem (by simp))
    omega
  | a :: as, bs, [], ds, hascending, h, hn => by
    obtain ⟨rfl, rfl⟩ := List.cons.inj h
    have hlt : a.number < x.number := (List.pairwise_cons.1 hascending).1 _ (List.mem_map_of_mem (by simp))
    omega
  | a :: as, bs, c :: cs, ds, hascending, h, hn =>
    append_cons_inj (List.pairwise_cons.1 hascending).2 (List.cons.inj h).2 hn

/-- In a list at the left margin an item takes the lines of the fence that is written under it. -/
theorem CodeItem.body_of_read (c : CodeItem) {l : Line} {following rest before after : List Line} {list : ListBlock}
    {i : ListItem} (hbare : ∀ k ∈ l :: following, k.Bare)
    (hascending : (Line.numbers (l :: following)).Pairwise (· < ·))
    (hread : Block.read l following = .ok (.list list, rest)) (hmargin : l.indent = 0) (hi : i ∈ list.items)
    (hline : i.line = c.number) (hlines : l :: following = before ++ c.lines ++ after) :
    list.style = .unordered ∧ ∃ back, i.body = ⟨c.number, c.text⟩ :: ListReader.laid 2 false c.gap ++
      c.opening :: (c.keptCode ++ c.closing :: back) := by
  obtain ⟨hof, hlist⟩ := Block.read_list hread
  obtain ⟨ps, hall, hmade, hstop⟩ := ListReader.read_made following (Block.marker?_isSome (hbare l List.mem_cons_self) hof)
  rw [hlist, hmargin] at hmade hstop
  rw [hlist] at hall
  have hstop : ∀ k ∈ (rest.dropWhile Line.isBlank).head?, ListReader.Frame.atMargin ⟨0, list.style⟩ k := fun k hk => by
    simpa [ListReader.Frame.atMargin] using hstop k hk
  obtain ⟨before', p, tail, hsplit, ⟨hsibling, marker, first, column, hm, hitem⟩, htail⟩ :=
    ListReader.exists_made hmade hstop hi
  have hnumber : p.marker.number = c.number := by
    rw [← hline, hitem]
    rfl
  have hsource : before' ++ p.marker :: (p.more ++ tail) = before ++ ⟨c.number, '-' :: ' ' :: c.text⟩ ::
      ((c.gap ++ c.opening.inItem :: c.code.map Line.inItem) ++ c.closing.inItem :: after) := by
    rw [← hsplit, ← hall, hlines, lines, fenceLines]
    simp
  -- the line of the item has its marker
  rw [hall, hsplit] at hascending
  obtain ⟨hmarker, hmore⟩ := Line.append_cons_inj hascending hsource hnumber
  have hm' := c.marker?
  rw [← hmarker, hm] at hm'
  cases hm'
  -- the item takes the lines of the fence, since those after it start at the margin
  have hunder : ∀ k ∈ (c.gap ++ c.opening.inItem :: c.code.map Line.inItem) ++ [c.closing.inItem], k.isBlank = false →
      2 ≤ k.indent := fun k hk => c.indent_of_mem (by simpa [fenceLines, or_assoc] using hk)
  obtain ⟨more, htaken⟩ := ListReader.exists_more hunder ((Line.isBlank_inItem _).trans c.closing_filled)
    (fun k hk => by simpa [ListReader.Frame.atMargin] using htail k hk) hmore
  have hbody : i = ((ListReader.Item.start c.number ['-'] c.text 2).extend
      (c.gap ++ c.fenceLines.map Line.inItem ++ more)).close := by
    rw [hitem, hnumber, htaken, fenceLines]
    simp
  rw [hmarker, ListReader.Frame.isSibling, c.marker?, Option.any_some, Bool.and_eq_true, beq_iff_eq] at hsibling
  exact ⟨hsibling.2.symm, c.exists_body hbody⟩

end QuartoPretext
