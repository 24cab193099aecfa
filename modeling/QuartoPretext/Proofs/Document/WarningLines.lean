/-
# The lines that warnings about texts go by

A warning about a text should be about a line that the text was read from. It
is, where the text is transformed before anything else is read: so are all
texts of blocks, and the title of the first exercise of a list. The title of a
later exercise is transformed when the exercises before it are done, and the
title in front matter when all blocks are; their warnings are about the line of
the block that was read last.

Key definitions: `Origin`, `Conversion.Transforms`, `Origin.Spans`, `Origin.Timely`.
Key theorems: `Conversion.transforms_of_reached`, `Conversion.Transforms.spans_iff`,
`convert_warning_lines`.
-/
import QuartoPretext.Proofs.Document.Matter
import QuartoPretext.Proofs.Document.TextWarnings

namespace QuartoPretext

/-- What a text of a document was read from. -/
inductive Origin
  | block (taken : List Line)
  /-- an exercise of a list, after those that are earlier in the list -/
  | item (earlier : List ListItem) (i : ListItem)
  | frontMatter (taken : List Line)

namespace Origin

/-- The numbers of the source lines. -/
def numbers : Origin → List Nat
  | block taken | frontMatter taken => Line.numbers taken
  | item _ i => i.numbers

/-- A line is one of the source lines, or between them. -/
def Spans (o : Origin) (line : Option Nat) : Prop :=
  ∃ n ∈ line, (∃ m ∈ o.numbers, m ≤ n) ∧ ∃ m ∈ o.numbers, n ≤ m

end Origin

namespace Conversion

/-- The conversion of a document comes to a block. -/
abbrev Comes (set : Setting) (input : Text) (context : Context) (taken : List Line) (b : Block) (s : Session) : Prop :=
  Meets set (contextOf set input) (.lines .document (Line.ofText input)) .start context taken b s

/-- The conversion of a document transforms a text that has an origin, in a session
that is at some line: a text of a block, the title of an exercise, or the title
in front matter where there is no heading for it. -/
inductive Transforms (set : Setting) (input : Text) : Origin → Text → Option Nat → Prop
  | block {context : Context} {taken : List Line} {b : Block} {s s' : Session} {p : Piece} {text : Text} :
      Comes set input context taken b s → b.isExercises set context = false →
      Carries set (contextOf set input) (.pieces (Plan.ofBlock set context s.exerciseCount b))
        { s with line := some b.line } p s' →
      text ∈ p.texts → Transforms set input (.block taken) text s'.line
  | item {context : Context} {taken : List Line} {lb : ListBlock} {earlier later : List ListItem} {i : ListItem}
      {s s₁ s' : Session} {p : Piece} {text : Text} :
      Comes set input context taken (.list lb) s → (Block.list lb).isExercises set context →
      lb.items = earlier ++ i :: later →
      Runs set (contextOf set input)
        (.pieces (Plan.interruption lb ++ Plan.exerciseItems set.solutions s.exerciseCount earlier))
        { s with line := some lb.line } s₁ →
      Carries set (contextOf set input)
        (.pieces (Plan.exerciseItem set.solutions (s.exerciseCount + earlier.length + 1) i)) s₁ p s' →
      text ∈ p.texts → Transforms set input (.item earlier i) text s'.line
  | frontMatter {context : Context} {taken : List Line} {n : Nat} {yaml text : Text} {s₁ s : Session} :
      Comes set input context taken (.frontMatter n yaml) s₁ →
      convertLines set (contextOf set input) .document (Line.ofText input) .start = .ok s →
      FrontMatter.parse? yaml = some s.frontMatter → s.heading = none → s.frontMatter.title = some text →
      Transforms set input (.frontMatter taken) text s.line

end Conversion

/-- Nothing is read between an origin and the transformation of its texts, or nothing
that starts after the origin. -/
def Origin.Timely (set : Setting) (input : Text) : Origin → Prop
  | block _ => True
  | item earlier _ => earlier = []
  | frontMatter taken => ∀ context taken' b s, Conversion.Comes set input context taken' b s →
      ∃ m ∈ Line.numbers taken, b.line ≤ m

variable {set : Setting} {ctx : Inline.Context} {t t₀ : Task} {s s' s₀ s₀' : Session} {input : Text}
  {context : Context} {taken : List Line} {b : Block}

/-! ### Exercises one after the other -/

theorem Plan.exerciseItems_append (book : Option SolutionBook) : ∀ (count : Nat) (is js : List ListItem),
    exerciseItems book count (is ++ js) = exerciseItems book count is ++ exerciseItems book (count + is.length) js
  | _, [], _ => rfl
  | count, i :: is, js => by
    rw [List.cons_append, exerciseItems, exerciseItems, exerciseItems_append, List.length_cons, List.append_assoc,
      Nat.add_assoc, Nat.add_comm 1]

/-- A leaf of some exercises is one of an exercise, after the earlier ones are done. -/
theorem Carries.exerciseItem {book : Option SolutionBook} {p : Piece} : ∀ {items : List ListItem} {count : Nat}
    {s : Session}, Carries set ctx (.pieces (Plan.exerciseItems book count items)) s p s' →
      ∃ earlier i later s₁, items = earlier ++ i :: later ∧
        Runs set ctx (.pieces (Plan.exerciseItems book count earlier)) s s₁ ∧
        Carries set ctx (.pieces (Plan.exerciseItem book (count + earlier.length + 1) i)) s₁ p s'
  | [], _, _, h => by cases h
  | i :: items, count, s, h => by
    rw [Plan.exerciseItems] at h
    rcases h.append with h | ⟨s₁, hr, h⟩
    · exact ⟨[], i, items, s, rfl, .noPieces, h⟩
    · obtain ⟨earlier, j, later, s₂, rfl, hearlier, h⟩ := Carries.exerciseItem h
      refine ⟨i :: earlier, j, later, s₂, rfl, ?_, ?_⟩
      · rw [Plan.exerciseItems]
        exact runs_append.2 ⟨s₁, hr, hearlier⟩
      · rwa [List.length_cons, ← Nat.add_assoc, Nat.add_right_comm count]

theorem Plan.leads_exerciseItem (number : Nat) {i : ListItem} (h : i.Placed) :
    Piece.Leads i.numbers (exerciseItem none number i) := by
  have hnone : solutionOf none number i.line = [] := rfl
  rw [exerciseItem_eq, hnone, List.append_nil, ← List.singleton_append]
  exact (leads_exerciseHead h).element.after (.leaf rfl rfl)

/-- A text that no body comes before finds the line that the pieces started with. -/
theorem Carries.line_of_leads {p : Piece} {ps : List Piece} {ns : List Nat} {text : Text}
    (h : Carries set ctx (.pieces ps) s p s') (hps : Piece.Leads ns ps) (ht : text ∈ p.texts) : s'.line = s.line := by
  obtain ⟨before, after, hleaves, hline⟩ := h.line
  refine hline.resolve_right ?_
  rw [hps.numbersIn_before hleaves (List.ne_nil_of_mem ht)]
  rintro ⟨n, hn, _⟩
  cases hn

namespace Conversion

/-! ### All texts have an origin -/

/-- A text of a leaf that is reached has an origin. -/
theorem transforms_of_reached {p : Piece} {text : Text}
    (h : Reached set (contextOf set input) (.lines .document (Line.ofText input)) .start (.piece p) s)
    (ht : text ∈ p.texts) : ∃ o, Transforms set input o text s.line := by
  have hp : p.isSimple := by
    cases p <;> first | rfl | cases ht
  obtain ⟨context, taken, b, s₁, hb, hcarries⟩ := h.carried hp
  cases hexercises : b.isExercises set context with
  | false => exact ⟨_, .block hb hexercises hcarries ht⟩
  | true =>
    cases b with
    | list lb =>
      rw [Plan.ofBlock_list, if_pos hexercises] at hcarries
      rcases hcarries.append with hcarries | ⟨s₂, hinterruption, hcarries⟩
      · -- the warning that ends a list has no text
        rw [Plan.texts_interruption hcarries.mem_leaves] at ht
        cases ht
      · obtain ⟨earlier, i, later, s₃, hitems, hearlier, hcarries⟩ := hcarries.exerciseItem
        exact ⟨_, .item hb hexercises hitems (runs_append.2 ⟨s₂, hinterruption, hearlier⟩) hcarries ht⟩
    | _ => cases hexercises

/-- The warnings about texts in a converted document are those of texts that have an
origin, each with the line at which its text was transformed. -/
theorem mem_warnings_iff (hbook : set.solutions = none) (htitle : set.profile.title = none) {w : Warning}
    (hw : w.cause.isInline)
    (hs : convertLines set (contextOf set input) .document (Line.ofText input) .start = .ok s) :
    w ∈ (ofSession set (contextOf set input) s).warnings ↔ ∃ o text, Transforms set input o text w.line ∧
      w.cause ∈ (Inline.transform (contextOf set input) text).2 := by
  have hrun : Runs set (contextOf set input) (.lines .document (Line.ofText input)) .start s := runs_iff.2 hs
  have hleaves := hrun.mem_warnings_iff hw
  rw [mem_warnings_ofSession hbook htitle]
  constructor
  · rintro (hmem | ⟨hheading, text, htext, hline, hcause⟩)
    · rcases hleaves.1 hmem with hstart | ⟨p, s₁, hr, text, htext, hline, hcause⟩
      · cases hstart
      · obtain ⟨o, ho⟩ := transforms_of_reached hr htext
        exact ⟨o, text, hline ▸ ho, hcause⟩
    · rcases hrun.frontMatter with hempty | ⟨context, taken, n, yaml, s₁, hparse, hb⟩
      · rw [hempty] at htext
        cases htext
      · have ho : Transforms set input (.frontMatter taken) text s.line := .frontMatter hb hs hparse hheading htext
        exact ⟨_, text, hline ▸ ho, hcause⟩
  · rintro ⟨o, text, ho, hcause⟩
    generalize hline : w.line = line at ho
    have ofLeaf {p : Piece} {s' : Session} (hr : Reached set (contextOf set input) (.lines .document (Line.ofText input))
        .start (.piece p) s') (htext : text ∈ p.texts) (hline : w.line = s'.line) : w ∈ s.warnings :=
      hleaves.2 (.inr ⟨p, s', hr, text, htext, hline, hcause⟩)
    cases ho with
    | block hb _ hcarries htext => exact .inl (ofLeaf (hb.reached hcarries) htext hline)
    | @item context taken lb earlier later i s₀ s₁ s' p _ hb hexercises hitems hr hcarries htext =>
      have hplan : Carries set (contextOf set input) (.pieces (Plan.ofBlock set context s₀.exerciseCount (.list lb)))
          { s₀ with line := some lb.line } p s' := by
        rw [Plan.ofBlock_list, if_pos hexercises, hitems, Plan.exerciseItems_append, ← List.append_assoc, Plan.exerciseItems]
        exact .append_right hr hcarries.append_left
      exact .inl (ofLeaf (hb.reached hplan) htext hline)
    | frontMatter _ hs' _ hheading htext =>
      cases hs.symm.trans hs'
      exact .inr ⟨hheading, text, htext, rfl, hcause⟩

/-! ### Which warnings are about lines of their origin -/

theorem Comes.numbers_list {lb : ListBlock} (h : Comes set input context taken (.list lb) s) :
    (lb.items.flatMap ListItem.numbers).Pairwise (· < ·) ∧ lb.items.head?.map (·.line) = some lb.line := by
  cases h with
  | intro hr hread =>
    have hascending := (hr.ordered (Task.ordered_document _ input)).ascending
    have hitems := (List.sublist_append_left _ _).trans (Block.read_numbers hread)
    refine ⟨hascending.sublist hitems, ?_⟩
    rw [Block.read_list_items (hr.lines_body.bare _ List.mem_cons_self) hread]
    exact congrArg some (Block.read_line hread).symm

/-- The title of an exercise goes by a line of the exercise exactly if this is the first
one of its list. -/
theorem spans_item_iff {lb : ListBlock} {earlier later : List ListItem} {i : ListItem} {n : Nat}
    (h : Comes set input context taken (.list lb) s) (hitems : lb.items = earlier ++ i :: later)
    (hn : n = lb.line ∨ n ∈ earlier.flatMap ListItem.numbers) :
    (Origin.item earlier i).Spans (some n) ↔ earlier = [] := by
  obtain ⟨hascending, hhead⟩ := h.numbers_list
  rw [hitems] at hascending hhead
  constructor
  · rintro ⟨k, hk, ⟨m, hm, hle⟩, _⟩
    cases hk
    cases earlier with
    | nil => rfl
    | cons e es =>
      have hbefore : n ∈ (e :: es).flatMap ListItem.numbers := by
        refine hn.elim ?_ id
        rintro rfl
        rw [← Option.some.inj hhead]
        exact List.mem_cons_self
      rw [List.flatMap_append, List.pairwise_append] at hascending
      have hlt := hascending.2.2 n hbefore m (List.mem_append_left _ hm)
      omega
  · rintro rfl
    have hline : n = i.line := by
      rcases hn with rfl | hn
      · exact (Option.some.inj hhead).symm
      · cases hn
    exact ⟨n, rfl, ⟨n, hline ▸ List.mem_cons_self, Nat.le_refl n⟩, n, hline ▸ List.mem_cons_self, Nat.le_refl n⟩

/-- The title in front matter goes by a line of it exactly if no block starts after it. -/
theorem spans_frontMatter_iff {n : Nat} {yaml : Text} {s₁ : Session}
    (hb : Comes set input context taken (.frontMatter n yaml) s₁)
    (hs : convertLines set (contextOf set input) .document (Line.ofText input) .start = .ok s) :
    (Origin.frontMatter taken).Spans s.line ↔ (Origin.frontMatter taken).Timely set input := by
  have hrun : Runs set (contextOf set input) (.lines .document (Line.ofText input)) .start s := runs_iff.2 hs
  have hordered := Task.ordered_document .document input
  constructor
  · rintro ⟨k, hk, -, m, hm, hle⟩ context' taken' b s₂ hb'
    obtain ⟨k', hk', hle'⟩ := hb'.line_le hordered hrun
    rw [hk] at hk'
    cases hk'
    exact ⟨m, hm, Nat.le_trans hle' hle⟩
  · intro htimely
    obtain ⟨k, hk, hle⟩ := hb.line_le hordered hrun
    refine ⟨k, hk, ⟨_, hb.line_mem, hle⟩, ?_⟩
    rcases hrun.line_meets .start with hline | ⟨context', taken', b, s₂, hb', hline⟩
    · rw [hline] at hk
      cases hk
    · rw [hline] at hk
      cases hk
      exact htimely _ _ _ _ hb'

/-- A text goes by a line of its origin exactly if nothing else was read before it
was transformed. -/
theorem Transforms.spans_iff (hbook : set.solutions = none) {o : Origin} {text : Text} {line : Option Nat}
    (h : Transforms set input o text line) : o.Spans line ↔ o.Timely set input := by
  cases h with
  | @block context taken b s s' p _ hb hexercises hcarries htext =>
    refine iff_of_true ?_ trivial
    have hmatter : ∀ n yaml, b ≠ .frontMatter n yaml := by
      rintro n yaml rfl
      rw [List.mem_singleton.1 hcarries.mem_leaves] at htext
      cases htext
    have hline := hcarries.line_of_leads (Plan.leads_ofBlock hb.placed hexercises hmatter) htext
    exact ⟨b.line, hline, ⟨_, hb.line_mem, Nat.le_refl _⟩, _, hb.line_mem, Nat.le_refl _⟩
  | @item context taken lb earlier later i s s₁ s' p _ hb hexercises hitems hr hcarries htext =>
    rw [hbook] at hr hcarries
    have hplaced : ∀ j ∈ earlier ++ i :: later, j.Placed := hitems ▸ hb.placed lb rfl
    have hi : i.Placed := hplaced i (List.mem_append_right _ List.mem_cons_self)
    rw [hcarries.line_of_leads (Plan.leads_exerciseItem _ hi) htext]
    have hkeeps := ((Plan.plain_interruption lb).leads []).keeps.append (Plan.keeps_exerciseItems none s.exerciseCount
      fun j hj => hplaced j (List.mem_append_left _ hj))
    rcases hr.line with hline | ⟨n, hn, hline⟩
    · rw [hline]
      exact spans_item_iff hb hitems (.inl rfl)
    · rw [hline]
      exact spans_item_iff hb hitems (.inr (hkeeps.numbers.subset hn))
  | frontMatter hb hs _ _ _ => exact spans_frontMatter_iff hb hs

end Conversion

/-- Warnings about texts are about lines of their origin, but for the titles of exercises
after the first one of a list, and for a title in front matter that blocks come after.
The document is converted without solutions, and without a title of the profile. -/
theorem convert_warning_lines {set : Setting} {input : Text} {c : Conversion} (hbook : set.solutions = none)
    (htitle : set.profile.title = none) (h : convert set input = .ok c) :
    (∀ w : Warning, w.cause.isInline → (w ∈ c.warnings ↔ ∃ o text, Conversion.Transforms set input o text w.line ∧
      w.cause ∈ (Inline.transform (Conversion.contextOf set input) text).2)) ∧
    ∀ o text line, Conversion.Transforms set input o text line → (o.Spans line ↔ o.Timely set input) := by
  refine ⟨fun w hw => ?_, fun o text line ho => ho.spans_iff hbook⟩
  obtain ⟨s, hs⟩ : ∃ s, convertLines set (Conversion.contextOf set input) .document (Line.ofText input) .start = .ok s :=
    convert_eq_ok_iff.1 ⟨c, h⟩
  cases h.symm.trans (Conversion.convert_of_run hs)
  exact Conversion.mem_warnings_iff hbook htitle hw hs

/-- A dollar sign without its partner in a paragraph. -/
theorem convert_warning_lines_paragraph :
    let set : Setting := ⟨.ofKind .chapter, none⟩
    let input : Text := "A $x".toList
    ∃ c, set.solutions = none ∧ set.profile.title = none ∧ convert set input = .ok c ∧
      ⟨some 1, .unmatched ['$']⟩ ∈ c.warnings ∧
      ∀ o text line, Conversion.Transforms set input o text line → (o.Spans line ↔ o.Timely set input) := by
  intro set input
  have hlines : Line.ofText input = [⟨1, "A $x".toList⟩] := rfl
  have hread : Block.read ⟨1, "A $x".toList⟩ ([] ++ []) = .ok (.paragraph 1 "A $x".toList, []) := rfl
  obtain ⟨c, hc⟩ := convert_paragraph set hlines hread
  obtain ⟨hwarnings, hspans⟩ := convert_warning_lines rfl rfl hc
  refine ⟨c, rfl, rfl, hc, (hwarnings _ rfl).2 ⟨.block [⟨1, "A $x".toList⟩], "A $x".toList, ?_, by decide +kernel⟩, hspans⟩
  have hcomes : Conversion.Comes set input .document [⟨1, "A $x".toList⟩] (.paragraph 1 "A $x".toList) .start := by
    rw [Conversion.Comes, hlines]
    exact .intro .start hread
  exact .block hcomes rfl (.first (.here rfl)) List.mem_cons_self

/-- The title in front matter goes by the line of the paragraph after it. -/
theorem convert_warning_lines_title :
    let set : Setting := ⟨.ofKind .chapter, none⟩
    let input : Text := "---\ntitle: A $x\n---\n\nText.\n".toList
    let matter : Origin := .frontMatter [⟨1, "---".toList⟩, ⟨2, "title: A $x".toList⟩, ⟨3, "---".toList⟩]
    ∃ c, convert set input = .ok c ∧ Conversion.Transforms set input matter "A $x".toList (some 5) ∧
      ⟨some 5, .unmatched ['$']⟩ ∈ c.warnings ∧ ¬ matter.Spans (some 5) := by
  intro set input matter
  have hlines : Line.ofText input = [⟨1, "---".toList⟩, ⟨2, "title: A $x".toList⟩, ⟨3, "---".toList⟩, ⟨4, []⟩,
      ⟨5, "Text.".toList⟩] := rfl
  have hmatter : Block.read ⟨1, "---".toList⟩ ([⟨2, "title: A $x".toList⟩, ⟨3, "---".toList⟩] ++
      [⟨4, []⟩, ⟨5, "Text.".toList⟩]) =
      .ok (.frontMatter 1 "title: A $x\n".toList, [⟨4, []⟩, ⟨5, "Text.".toList⟩]) := by decide +kernel
  have hblank : Block.read ⟨4, []⟩ [⟨5, "Text.".toList⟩] = .ok (.skipped 4 .blank, [⟨5, "Text.".toList⟩]) := rfl
  have hparagraph : Block.read ⟨5, "Text.".toList⟩ [] = .ok (.paragraph 5 "Text.".toList, []) := rfl
  have hparse : FrontMatter.parse? "title: A $x\n".toList = some ⟨some "A $x".toList, none⟩ := by decide +kernel
  let ctx := Conversion.contextOf set input
  let last : Session := { Session.start with line := some 5, frontMatter := ⟨some "A $x".toList, none⟩ }
  obtain ⟨s, hparagraph'⟩ : ∃ s, last.write ctx .chapter (.paragraph "Text.".toList) = .ok s := ⟨_, rfl⟩
  have hrun : Runs set ctx (.lines .document (Line.ofText input)) .start s := by
    rw [hlines]
    exact .lines hmatter (.pieces (.write rfl (Session.write_frontMatter hparse)) .noPieces) (.lines hblank .noPieces
      (.lines hparagraph (.pieces (.write rfl hparagraph') .noPieces) .noLines))
  have hs : convertLines set ctx .document (Line.ofText input) .start = .ok s := hrun.run_eq
  have hheading : s.heading = none := by
    rw [← Except.ok.inj hparagraph']
    exact (Session.paragraph_root ctx last "Text.".toList).1
  have hfront : s.frontMatter = ⟨some "A $x".toList, none⟩ := by
    rw [← Except.ok.inj hparagraph']
    exact (Session.paragraph_root ctx last "Text.".toList).2
  have hcomes : Conversion.Comes set input .document _ _ .start := .intro (hlines ▸ .start) hmatter
  have htransforms : Conversion.Transforms set input matter "A $x".toList (some 5) := by
    rw [← show s.line = some 5 from (Session.write_line hparagraph').1]
    exact .frontMatter hcomes hs (by rw [hparse, hfront]) hheading (by rw [hfront])
  have hwarning : ⟨some 5, .unmatched ['$']⟩ ∈ (Conversion.ofSession set ctx s).warnings :=
    (Conversion.mem_warnings_iff rfl rfl rfl hs).2 ⟨matter, _, htransforms, by decide +kernel⟩
  have hspans : ¬ matter.Spans (some 5) := by
    rintro ⟨n, hn, -, m, hm, hle⟩
    cases hn
    have hle' : m ≤ 3 := by
      revert m
      decide
    omega
  exact ⟨_, Conversion.convert_of_run hs, htransforms, hwarning, hspans⟩

end QuartoPretext
