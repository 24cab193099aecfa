/-
# Where front matter is read

Front matter is known by the number of its first line, and a line keeps its
number when the marker of an item is taken off. So it is read where a document
starts, and where the first item of a list starts that stands there: if the
first line is an item of a list, what is taken for front matter is a part of
the item. No div and no later item is ever read as front matter.

Key definitions: `Heads`, `Conversion.takesTitle`, `Conversion.takesId`.
Key theorems: `Reached.heads_of_frontMatter`, `Runs.frontMatter`, `convert_frontMatter`.
-/
import QuartoPretext.Proofs.Document.Order

namespace QuartoPretext

open Text

/-- Lines that start where the document starts: those of the document, and those of
the first item of a list that starts there. -/
inductive Heads (set : Setting) (input : Text) : Context → List Line → Prop
  | document : Heads set input .document (Line.ofText input)
  | item {context : Context} {l : Line} {following rest : List Line} {lb : ListBlock} {i : ListItem}
      {more : List ListItem} :
      Heads set input context (l :: following) → Block.read l following = .ok (.list lb, rest) →
      lb.items = i :: more → Heads set input .container (Plan.itemBody set context lb i)

namespace Conversion

/-- Whether the title of the root is that of the front matter. -/
def takesTitle (set : Setting) (s : Session) : Bool :=
  set.profile.title.isNone && s.heading.isNone && s.frontMatter.title.isSome

/-- Whether the identifier of the root is that of the front matter. -/
def takesId (set : Setting) (s : Session) : Bool :=
  set.profile.rootId.isNone && (s.heading.bind (·.id)).isNone && s.frontMatter.id.isSome

end Conversion

variable {set : Setting} {ctx : Inline.Context} {input : Text} {context : Context} {s : Session}

theorem Session.write_frontMatter {kind : DocumentKind} {n : Nat} {yaml : Text} {fm : FrontMatter}
    (hparse : FrontMatter.parse? yaml = some fm) :
    s.write ctx kind (.frontMatter n yaml) = .ok { s with frontMatter := fm } := by
  rw [write, hparse]

theorem Conversion.title_of_takesTitle (h : takesTitle set s) : (ofSession set ctx s).title =
    s.frontMatter.title.map fun text => (Inline.transform ctx text).1 := by
  have htitle := (ofSession_after set ctx s.writer.events s.warnings s.bare).2.1
  rw [s.after_bare] at htitle
  simp only [takesTitle, Bool.and_eq_true, Option.isNone_iff_eq_none, Option.isSome_iff_exists] at h
  obtain ⟨⟨hprofile, hheading⟩, text, htext⟩ := h
  rw [htitle, rootTitle, hprofile, show s.bare.heading = none from hheading,
    show s.bare.frontMatter.title = some text from htext, htext]
  rfl

theorem Conversion.rootId_of_takesId (h : takesId set s) : s.frontMatter.id = some (ofSession set ctx s).rootId := by
  have hid := (ofSession_after set ctx s.writer.events s.warnings s.bare).1
  rw [s.after_bare] at hid
  simp only [takesId, Bool.and_eq_true, Option.isNone_iff_eq_none, Option.isSome_iff_exists] at h
  obtain ⟨⟨hprofile, hheading⟩, id, hmatter⟩ := h
  rw [hid, settledId, hprofile, show s.bare.heading.bind (·.id) = none from hheading,
    show s.bare.frontMatter.id = some id from hmatter, hmatter]
  rfl

theorem Line.one_le_of_mem_numbers {n : Nat} (h : n ∈ numbers (ofText input)) : 1 ≤ n := by
  obtain ⟨l, hl, rfl⟩ := List.mem_map.1 h
  exact le_number_of_mem hl

/-- Lines after another one do not start the document. -/
theorem Line.one_not_mem_numbers {ns : List Nat} {n : Nat} (h : (n :: ns).Sublist (numbers (ofText input))) : 1 ∉ ns := by
  intro hone
  have hpos := one_le_of_mem_numbers (h.subset List.mem_cons_self)
  have hlt := (List.pairwise_cons.1 ((ascending_numberFrom 1 _).sublist h)).1 1 hone
  omega

theorem Block.read_frontMatter {l : Line} {following rest : List Line} {n : Nat} {yaml : Text}
    (h : read l following = .ok (.frontMatter n yaml, rest)) : BlockStart.of l following = .frontMatter := by
  unfold read at h
  simp only at h
  split at h
  case h_3 hof => exact hof
  case h_7 =>
    unfold readMath at h
    repeat' split at h
    all_goals cases h
  all_goals
    try split at h
    all_goals cases h

theorem Piece.numbers_sublist_numbersIn {ps : List Piece} {c : Context} {ls : List Line} (h : .blocks c ls ∈ ps) :
    (Line.numbers ls).Sublist (numbersIn ps) := by
  obtain ⟨before, after, rfl⟩ := List.append_of_mem h
  have hnumbers : numbersIn (before ++ .blocks c ls :: after) =
      numbersIn before ++ (Line.numbers ls ++ numbersIn after) := numbersIn_append ..
  rw [hnumbers]
  exact (List.sublist_append_left _ _).trans (List.sublist_append_right _ _)

/-- A body of a block starts where the document starts only if it is the first
item of a list that does. -/
theorem Heads.inner {l : Line} {following rest : List Line} {b : Block} {count : Nat} {c : Context} {ls : List Line}
    (hsub : (Line.numbers (l :: following)).Sublist (Line.numbers (Line.ofText input)))
    (h : Heads set input context (l :: following) ∨ 1 ∉ Line.numbers (l :: following))
    (hb : Block.read l following = .ok (b, rest))
    (hls : .blocks c ls ∈ Piece.leavesOf (Plan.ofBlock set context count b)) :
    Heads set input c ls ∨ 1 ∉ Line.numbers ls := by
  have hplaced := Block.read_placed hb
  by_cases hlist : ∃ lb, b = .list lb
  · obtain ⟨lb, rfl⟩ := hlist
    obtain ⟨rfl, i, hi, rfl⟩ := Plan.mem_leaves_list hls
    have hbody : (Line.numbers (Plan.itemBody set context lb i)).Sublist i.numbers :=
      Plan.numbers_itemBody (hplaced lb rfl i hi)
    have hitems := (List.sublist_append_left _ _).trans (Block.read_numbers hb)
    cases hlb : lb.items with
    | nil =>
      rw [hlb] at hi
      cases hi
    | cons i₀ more =>
      rw [hlb] at hi
      rw [Block.numbers, hlb, List.flatMap_cons] at hitems
      rcases List.mem_cons.1 hi with rfl | hmore
      · refine h.imp (fun h => .item h hb hlb) fun h hone => h ?_
        exact hitems.subset (List.mem_append_left _ (hbody.subset hone))
      · -- a later item comes after the line of the first one
        refine .inr fun hone => Line.one_not_mem_numbers (hitems.trans hsub) (List.mem_append_right _ ?_)
        exact List.mem_flatMap.2 ⟨i, hmore, hbody.subset hone⟩
  · obtain ⟨more, rfl⟩ := Block.rest_suffix hb
    have hmore := Block.read_numbers_tail hb rfl fun lb hlb => hlist ⟨lb, hlb⟩
    have hbody := (Piece.numbers_sublist_numbersIn hls).trans (Plan.numbersIn_ofBlock hplaced)
    refine .inr fun hone => Line.one_not_mem_numbers hsub ?_
    show 1 ∈ Line.numbers (more ++ rest)
    rw [Line.numbers_append]
    exact List.mem_append_left _ (hmore.subset (hbody.subset hone))

/-- Lines that a conversion comes to start where the document starts, or have not
its first line. -/
theorem Reached.heads {ls : List Line}
    (h : Reached set ctx (.lines .document (Line.ofText input)) .start (.lines context ls) s) :
    (Line.numbers ls).Sublist (Line.numbers (Line.ofText input)) ∧
      (Heads set input context ls ∨ 1 ∉ Line.numbers ls) := by
  refine h.lines_induct (P := fun context ls => (Line.numbers ls).Sublist (Line.numbers (Line.ofText input)) ∧
    (Heads set input context ls ∨ 1 ∉ Line.numbers ls)) ⟨.refl _, .inl .document⟩ ?_ ?_
  · rintro context l following rest b ⟨hsub, _⟩ hb
    have hrest := Line.numbers_sublist (Block.rest_suffix hb).sublist
    exact ⟨(hrest.cons l.number).trans hsub, .inr fun hone => Line.one_not_mem_numbers hsub (hrest.subset hone)⟩
  · rintro context l following rest b count c ls ⟨hsub, hheads⟩ hb hls
    refine ⟨?_, Heads.inner hsub hheads hb hls⟩
    have hbody := (Piece.numbers_sublist_numbersIn hls).trans (Plan.numbersIn_ofBlock (Block.read_placed hb))
    exact (hbody.trans ((List.sublist_append_left _ _).trans (Block.read_numbers hb))).trans hsub

/-- Front matter is read nowhere but where the document starts. -/
theorem Reached.heads_of_frontMatter {l : Line} {following rest : List Line} {n : Nat} {yaml : Text}
    (hr : Reached set ctx (.lines .document (Line.ofText input)) .start (.lines context (l :: following)) s)
    (hread : Block.read l following = .ok (.frontMatter n yaml, rest)) :
    n = 1 ∧ trim l.text = BlockStart.yamlOpen ∧ Heads set input context (l :: following) := by
  have hmatter := BlockStart.of_eq_frontMatter_iff.1 (Block.read_frontMatter hread)
  simp only [BlockStart.isFrontMatter, Bool.and_eq_true, beq_iff_eq] at hmatter
  obtain ⟨⟨hone, hopen⟩, _⟩ := hmatter
  refine ⟨(Block.read_line hread).trans hone, hopen, hr.heads.2.resolve_right fun h => h ?_⟩
  rw [← hone]
  exact List.mem_cons_self

/-- What is known of front matter after a conversion was read there. -/
theorem Runs.frontMatter (h : Runs set ctx (.lines .document (Line.ofText input)) .start s) :
    s.frontMatter = .empty ∨ ∃ context taken n yaml s₁, FrontMatter.parse? yaml = some s.frontMatter ∧
      Meets set ctx (.lines .document (Line.ofText input)) .start context taken (.frontMatter n yaml) s₁ := by
  refine h.keeps (J := fun s => s.frontMatter = .empty ∨ ∃ context taken n yaml s₁,
      FrontMatter.parse? yaml = some s.frontMatter ∧
      Meets set ctx (.lines .document (Line.ofText input)) .start context taken (.frontMatter n yaml) s₁)
    .start (fun _ _ => id) (fun _ => id) (fun _ _ => id) ?_ (.inl rfl)
  intro p s s' hp hreached hw hs
  rcases (Session.write_line hw).2 with hsame | ⟨n, yaml, rfl, hparse⟩
  · rwa [hsame]
  · obtain ⟨context, taken, b, s₁, hb, hcarries⟩ := hreached.carried hp
    cases Plan.eq_frontMatter_of_mem hb.placed hcarries.mem_leaves
    exact .inr ⟨context, taken, n, yaml, s₁, hparse, hb⟩

/-- Only an item on the first line takes the place of the document. -/
theorem Heads.document_or_item {ls : List Line} (h : Heads set input context ls) : ls = Line.ofText input ∨
    ∃ l following, Line.ofText input = l :: following ∧ classify l following = .listItem := by
  induction h with
  | document => exact .inl rfl
  | @item context l following rest lb i more _ hb _ ih =>
    refine .inr (ih.elim (fun heq => ⟨l, following, heq.symm, ?_⟩) id)
    rw [classify, (Block.read_list hb).1]
    rfl

/-- Front matter of a document is read where the document starts. If title or
identifier of the root are taken from it, it is the block of the first line, which
has three hyphens and nothing else, unless the first line is an item of a list. -/
theorem convert_frontMatter (set : Setting) (input : Text) :
    (∀ (context : Context) (l : Line) (following rest : List Line) (n : Nat) (yaml : Text) (s : Session),
      Reached set (Conversion.contextOf set input) (.lines .document (Line.ofText input)) .start
        (.lines context (l :: following)) s →
      Block.read l following = .ok (.frontMatter n yaml, rest) → Heads set input context (l :: following)) ∧
    ∀ s : Session,
      convertLines set (Conversion.contextOf set input) .document (Line.ofText input) .start = .ok s →
      Conversion.takesTitle set s ∨ Conversion.takesId set s →
      (∃ c, convert set input = .ok c ∧
        (Conversion.takesTitle set s → c.title =
          s.frontMatter.title.map fun text => (Inline.transform (Conversion.contextOf set input) text).1) ∧
        (Conversion.takesId set s → s.frontMatter.id = some c.rootId)) ∧
      ∃ yaml, FrontMatter.parse? yaml = some s.frontMatter ∧
        (∃ context l following rest, Heads set input context (l :: following) ∧
          Block.read l following = .ok (.frontMatter 1 yaml, rest)) ∧
        ((∃ l following rest, Line.ofText input = l :: following ∧ trim l.text = BlockStart.yamlOpen ∧
            Block.read l following = .ok (.frontMatter 1 yaml, rest)) ↔
          ∀ l following, Line.ofText input = l :: following → classify l following ≠ .listItem) := by
  refine ⟨fun _ _ _ _ _ _ _ hr hread => (hr.heads_of_frontMatter hread).2.2, fun s hs htaken => ⟨?_, ?_⟩⟩
  · exact ⟨_, Conversion.convert_of_run hs, Conversion.title_of_takesTitle, Conversion.rootId_of_takesId⟩
  have hrun : Runs set (Conversion.contextOf set input) (.lines .document (Line.ofText input)) .start s := runs_iff.2 hs
  rcases hrun.frontMatter with hempty | ⟨context, taken, n, yaml, s₁, hparse, hmeets⟩
  · rcases htaken with htaken | htaken <;>
      simp [Conversion.takesTitle, Conversion.takesId, hempty, FrontMatter.empty] at htaken
  cases hmeets with
  | @intro l more rest _ _ hr hread =>
    obtain ⟨rfl, hopen, hheads⟩ := hr.heads_of_frontMatter hread
    refine ⟨yaml, hparse, ⟨context, l, more ++ rest, rest, hheads, hread⟩, ?_, ?_⟩
    · rintro ⟨l', following', rest', hlines, -, hread'⟩ l₁ following₁ hlines₁
      cases hlines.symm.trans hlines₁
      rw [classify, Block.read_frontMatter hread']
      intro h
      cases h
    · intro hnot
      rcases hheads.document_or_item with hlines | ⟨l₁, following₁, hlines₁, hitem⟩
      · exact ⟨l, more ++ rest, rest, hlines.symm, hopen, hread⟩
      · exact absurd hitem (hnot l₁ following₁ hlines₁)

/-- The title of a document that is nothing but front matter. -/
theorem convert_frontMatter_title :
    let set : Setting := ⟨.ofKind .chapter, none⟩
    let input : Text := "---\ntitle: T\n---\n".toList
    ∃ s, convertLines set (Conversion.contextOf set input) .document (Line.ofText input) .start = .ok s ∧
      Conversion.takesTitle set s ∧
      ∃ yaml, FrontMatter.parse? yaml = some s.frontMatter ∧
        ∃ l following rest, Line.ofText input = l :: following ∧ trim l.text = BlockStart.yamlOpen ∧
          Block.read l following = .ok (.frontMatter 1 yaml, rest) := by
  intro set input
  have hlines : Line.ofText input = [⟨1, "---".toList⟩, ⟨2, "title: T".toList⟩, ⟨3, "---".toList⟩] := rfl
  have hread : Block.read ⟨1, "---".toList⟩ [⟨2, "title: T".toList⟩, ⟨3, "---".toList⟩] =
      .ok (.frontMatter 1 "title: T\n".toList, []) := by decide +kernel
  have hparse : FrontMatter.parse? "title: T\n".toList = some ⟨some ['T'], none⟩ := by decide +kernel
  have hrun : Runs set (Conversion.contextOf set input) (.lines .document (Line.ofText input)) .start
      { Session.start with line := some 1, frontMatter := ⟨some ['T'], none⟩ } := by
    rw [hlines]
    exact .lines hread (.pieces (.write rfl (Session.write_frontMatter hparse)) .noPieces) .noLines
  obtain ⟨-, yaml, hyaml, -, hiff⟩ := (convert_frontMatter set input).2 _ hrun.run_eq (.inl rfl)
  refine ⟨_, hrun.run_eq, rfl, yaml, hyaml, hiff.2 ?_⟩
  intro l following hl
  cases hlines.symm.trans hl
  rw [classify, Block.read_frontMatter hread]
  intro h
  cases h

/-- An item on the first line whose text is taken for front matter. -/
theorem convert_frontMatter_item :
    let set : Setting := ⟨.ofKind .chapter, none⟩
    let input : Text := "* ---\n  title: T\n  ---\n".toList
    ∃ s l following, convert set input = .ok (.ofSession set (Conversion.contextOf set input) s) ∧
      Conversion.takesTitle set s ∧ s.frontMatter = ⟨some ['T'], none⟩ ∧
      Line.ofText input = l :: following ∧ trim l.text ≠ BlockStart.yamlOpen := by
  intro set input
  have hlines : Line.ofText input = [⟨1, "* ---".toList⟩, ⟨2, "  title: T".toList⟩, ⟨3, "  ---".toList⟩] := rfl
  have hlist : Block.read ⟨1, "* ---".toList⟩ [⟨2, "  title: T".toList⟩, ⟨3, "  ---".toList⟩] =
      .ok (.list ⟨1, .unordered, [⟨1, ['*'],
        [⟨1, "---".toList⟩, ⟨2, "title: T".toList⟩, ⟨3, "---".toList⟩]⟩], none⟩, []) := by decide +kernel
  have hread : Block.read ⟨1, "---".toList⟩ [⟨2, "title: T".toList⟩, ⟨3, "---".toList⟩] =
      .ok (.frontMatter 1 "title: T\n".toList, []) := by decide +kernel
  have hparse : FrontMatter.parse? "title: T\n".toList = some ⟨some ['T'], none⟩ := by decide +kernel
  obtain ⟨s, hrun, htakes, hfront⟩ : ∃ s, Runs set (Conversion.contextOf set input) (.lines .document (Line.ofText input))
      .start s ∧ Conversion.takesTitle set s ∧ s.frontMatter = ⟨some ['T'], none⟩ := by
    rw [hlines]
    exact ⟨_, .lines hlist (.pieces (.element (.pieces (.element (.pieces (.element (.pieces (.blocks
      (.lines hread (.pieces (.write rfl (Session.write_frontMatter hparse)) .noPieces) .noLines)) .noPieces)) .noPieces)) .noPieces)) .noPieces)
      .noLines, rfl, rfl⟩
  exact ⟨s, _, _, Conversion.convert_of_run hrun.run_eq, htakes, hfront, hlines, by decide⟩

end QuartoPretext
