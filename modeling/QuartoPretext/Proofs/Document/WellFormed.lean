/-
# Converted documents are well formed

All markup that a session writes is nested, and so is the title that it keeps
for the root. So a document is one element, and each end tag in it belongs to
the start tag that was opened last.

Key definitions: `Piece.texts`, `Conversion.rootText?`, `Conversion.HandsOver`,
`Session.Sound`.
Key theorems: `Session.Sound.write`, `Runs.keeps_sound`, `convert_wellFormed`.
-/
import QuartoPretext.Proofs.Document.Sections
import QuartoPretext.Proofs.Inline.Balanced
import QuartoPretext.Proofs.Markup.Writer

namespace QuartoPretext

open Markup

/-! ### Texts that are transformed -/

/-- The texts that are transformed when a piece is written. -/
def Piece.texts : Piece → List Text
  | leaf _ (.inline text) | leaf _ (.alert text) | paragraph text => [text]
  | heading _ _ title _ => [title]
  | _ => []

namespace Conversion

/-- The text of the root's title, unless it was transformed already. -/
def rootText? (set : Setting) (s : Session) : Option Text :=
  match set.profile.title, s.heading, s.frontMatter.title with
  | some text, _, _ => some text
  | none, some _, _ => none
  | none, none, text => text

/-- What the texts of a document are transformed with. -/
def contextOf (set : Setting) (input : Text) : Inline.Context :=
  .of set.profile (Footnotes.collect (Line.ofText input))

/-- A run over all lines of a document converts it. -/
theorem convert_of_run {set : Setting} {input : Text} {s : Session}
    (h : convertLines set (contextOf set input) .document (Line.ofText input) .start = .ok s) :
    convert set input = .ok (ofSession set (contextOf set input) s) := by
  rw [contextOf] at h
  simp only [convert, h, contextOf]

/-- The conversion of a document transforms a text: it belongs to a piece that
is reached, to the title of the root, or to a note in one of these. -/
inductive HandsOver (set : Setting) (input : Text) : Text → Prop
  | piece {p : Piece} {s : Session} {text t : Text} :
      Reached set (contextOf set input) (.lines .document (Line.ofText input)) .start (.piece p) s →
      text ∈ p.texts → Inline.Hands (contextOf set input) Inline.noteDepth text t → HandsOver set input t
  | title {s : Session} {text t : Text} :
      convertLines set (contextOf set input) .document (Line.ofText input) .start = .ok s →
      rootText? set s = some text → Inline.Hands (contextOf set input) Inline.noteDepth text t →
      HandsOver set input t

end Conversion

/-! ### Sessions -/

/-- What is written so far is nested, and the title that is kept is balanced. -/
structure Session.Sound (s : Session) : Prop where
  writer : s.writer.Sound
  heading : ∀ h, s.heading = some h → Balanced h.xml

namespace Session

variable {ctx : Inline.Context} {s s' : Session}

theorem sound_start : start.Sound := ⟨Writer.sound_empty, nofun⟩

theorem Sound.openTag (h : s.Sound) (t : Tag) : (s.openTag t).Sound := ⟨h.writer.openTag t, h.heading⟩

theorem Sound.close (h : s.Sound) : s.close.Sound := ⟨h.writer.close, h.heading⟩

theorem Sound.add (h : s.Sound) {e : Event} (he : ∀ stack, e.Nests stack stack) : (s.add e).Sound :=
  ⟨h.writer.add (he _), h.heading⟩

theorem Sound.addLeaf (h : s.Sound) (t : Tag) {xml : Text} (hx : Balanced xml) : (s.add (.leaf t xml)).Sound :=
  h.add (Event.nests_leaf t hx)

theorem Sound.warn (h : s.Sound) (line : Option Nat) (cause : Cause) : (s.warn line cause).Sound :=
  ⟨h.writer, h.heading⟩

theorem Sound.inline (h : s.Sound) (ctx : Inline.Context) (text : Text) : (s.inline ctx text).2.Sound :=
  ⟨h.writer, h.heading⟩

theorem Sound.closeTo (h : s.Sound) (level : Nat) : (s.closeTo level).Sound :=
  ⟨h.writer.foldl_close _, h.heading⟩

theorem Sound.openSection {line level : Nat} {id : Option Text} {title : Text} {e : Element} (h : s.Sound)
    (ht : Balanced title) (ho : s.openSection line level id title e = .ok s') : s'.Sound := by
  obtain ⟨-, rfl⟩ := openSection_eq_ok_iff.1 ho
  have hs := ((h.closeTo level).openTag (.withId e id)).addLeaf (.plain .title) ht
  exact ⟨hs.writer, hs.heading⟩

theorem balanced_alert {xml : Text} (h : Balanced xml) : Balanced (alertXml xml) :=
  balanced_element (by decide) h

theorem Sound.documentHeading {kind : DocumentKind} {line level : Nat} {title : Text} {id : Option Text}
    (h : s.Sound) (ht : Balanced (Inline.transform ctx title).1)
    (ho : s.documentHeading ctx kind line level title id = .ok s') : s'.Sound := by
  have hi := h.inline ctx title
  have hc := hi.closeTo 0
  cases headed_of_documentHeading ho with
  | root _ _ =>
    refine ⟨hc.writer, ?_⟩
    rintro _ ⟨⟩
    exact ht
  | second _ _ ho => exact (hc.warn _ _).openSection ht ho
  | inner _ _ ho => exact hi.openSection ht ho
  | alert _ _ _ => exact hi.addLeaf _ (balanced_alert ht)

theorem Sound.leaf (h : s.Sound) (t : Tag) : ∀ {content : Content},
    (∀ xml, content = .markup xml → Balanced xml) →
      (∀ text ∈ (Piece.leaf t content).texts, Balanced (Inline.transform ctx text).1) →
        (s.leaf ctx t content).Sound
  | .markup xml, hready, _ => h.addLeaf t (hready xml rfl)
  | .inline text, _, htexts => by
    simp only [Session.leaf]
    exact (h.inline ctx text).addLeaf t (htexts text List.mem_cons_self).trim
  | .alert text, _, htexts => by
    simp only [Session.leaf]
    exact (h.inline ctx text).addLeaf t (balanced_alert (htexts text List.mem_cons_self))

theorem Sound.paragraph (h : s.Sound) {text : Text} (ht : Balanced (Inline.transform ctx text).1) :
    (s.paragraph ctx text).Sound := by
  unfold Session.paragraph
  simp only
  split
  · exact h.inline ctx text
  · exact (h.inline ctx text).addLeaf _ ht.trim

/-- Writing a piece keeps what is written sound, if its ready markup and the
markup of its texts are balanced. -/
theorem Sound.write {kind : DocumentKind} {p : Piece} (h : s.Sound)
    (hready : ∀ t xml, p = .leaf t (.markup xml) → Balanced xml)
    (htexts : ∀ text ∈ p.texts, Balanced (Inline.transform ctx text).1)
    (hw : s.write ctx kind p = .ok s') : s'.Sound := by
  cases p with
  | heading line level title id => exact h.documentHeading (htexts title List.mem_cons_self) hw
  | frontMatter line yaml =>
    simp only [Session.write] at hw
    split at hw
    · cases hw
      exact ⟨h.writer, h.heading⟩
    · cases hw
  | leaf t content =>
    simp only [Session.write, Except.ok.injEq] at hw
    exact hw ▸ h.leaf t (fun xml hx => hready t xml (by rw [hx])) htexts
  | paragraph text =>
    simp only [Session.write, Except.ok.injEq] at hw
    exact hw ▸ h.paragraph (htexts text List.mem_cons_self)
  | empty t =>
    simp only [Session.write, Except.ok.injEq] at hw
    exact hw ▸ h.add (Event.nests_empty t)
  | code lines =>
    simp only [Session.write, Except.ok.injEq] at hw
    exact hw ▸ h.add (Event.nests_verbatim .code lines)
  | inclusion href =>
    simp only [Session.write, Except.ok.injEq] at hw
    have hs := h.add (Event.nests_empty ⟨.inclusion, [(.href, href)]⟩)
    exact hw ▸ ⟨hs.writer, hs.heading⟩
  | _ =>
    simp only [Session.write, Except.ok.injEq] at hw
    exact hw ▸ ⟨h.writer, h.heading⟩

end Session

/-! ### Runs -/

variable {set : Setting} {ctx : Inline.Context} {s s' : Session}

/-- Ready markup that is reached is escaped text. -/
theorem Reached.ready {ls : List Line} {t : Tag} {xml : Text}
    (h : Reached set ctx (.lines .document ls) .start (.piece (.leaf t (.markup xml))) s) :
    ∃ text, xml = escapeContent text := by
  have htame : (Piece.leaf t (.markup xml)).All (Piece.Tame fun _ => True) := by
    rcases h.agrees_or_contained with ⟨hp, _⟩ | hc
    · exact hp
    · exact hc
  exact htame

theorem Runs.keeps_sound {ls : List Line} (h : Runs set ctx (.lines .document ls) .start s)
    (htexts : ∀ p s, Reached set ctx (.lines .document ls) .start (.piece p) s → ∀ text ∈ p.texts,
      Balanced (Inline.transform ctx text).1) : s.Sound := by
  refine h.keeps .start (fun tag s hs => hs.openTag tag) (fun s hs => hs.close)
    (fun n s hs => ⟨hs.writer, hs.heading⟩) ?_ Session.sound_start
  intro p s s' _ hr hw hs
  refine hs.write ?_ (htexts p s hr) hw
  rintro t xml rfl
  obtain ⟨text, rfl⟩ := hr.ready
  exact nested_escapeContent text

/-! ### The root -/

namespace Conversion

/-- What holds of the title that is kept, and of the markup of one that is still to be
transformed, holds of the title of the root. -/
theorem rootTitle_of {M : Text → Prop} (set : Setting) (ctx : Inline.Context) (hheading : ∀ h, s.heading = some h → M h.xml)
    (ht : ∀ text, rootText? set s = some text → M (Inline.transform ctx text).1) :
    (∀ title, (rootTitle set ctx s).1 = some title → M title) ∧ (rootTitle set ctx s).2.writer = s.writer := by
  cases hp : set.profile.title with
  | some text =>
    simp only [rootText?, hp] at ht
    simp only [rootTitle, hp]
    refine ⟨?_, rfl⟩
    intro title he
    cases he
    exact ht text rfl
  | none =>
    cases hh : s.heading with
    | some heading =>
      simp only [rootTitle, hp, hh]
      refine ⟨?_, trivial⟩
      intro title he
      cases he
      exact hheading heading hh
    | none =>
      simp only [rootText?, hp, hh] at ht
      cases hf : s.frontMatter.title with
      | none =>
        simp only [rootTitle, hp, hh, hf]
        exact ⟨nofun, trivial⟩
      | some text =>
        simp only [rootTitle, hp, hh, hf]
        refine ⟨?_, rfl⟩
        intro title he
        cases he
        exact ht text hf

/-- The document that a session makes: the root with its title, and what was written. -/
theorem xml_ofSession {M : Text → Prop} (set : Setting) (ctx : Inline.Context) (hheading : ∀ h, s.heading = some h → M h.xml)
    (ht : ∀ text, rootText? set s = some text → M (Inline.transform ctx text).1) :
    ∃ rootId title usesInclusion, (∀ xml, title = some xml → M xml) ∧ (ofSession set ctx s).xml =
      declaration ++ render 0 (events set.profile.kind rootId title usesInclusion (s.closeTo 0).writer.finish) := by
  obtain ⟨warnings, hw⟩ := unusedSolutions_eq set (s.closeTo 0)
  obtain ⟨htitle, hwriter⟩ := rootTitle_of (s := { s.closeTo 0 with warnings := warnings }) set ctx hheading ht
  unfold ofSession
  rw [hw]
  simp only
  rw [hwriter]
  exact ⟨_, _, _, htitle, rfl⟩

/-- The root holds its title and the body. -/
theorem wellFormed_events (kind : DocumentKind) (rootId : Text) {title : Option Text} (usesInclusion : Bool)
    {body : List Event} (ht : ∀ xml, title = some xml → Balanced xml) (hb : Balanced (render 1 body)) :
    WellFormed (declaration ++ render 0 (events kind rootId title usesInclusion body)) := by
  unfold events
  cases title with
  | none => exact wellFormed_root _ hb
  | some xml =>
    have hleaf := Event.nests_leaf (.plain .title) (ht xml rfl) [] 1
    exact wellFormed_root _ (hleaf.trans hb)

/-- A sound session makes a document that is well formed. -/
theorem wellFormed_ofSession (h : s.Sound)
    (ht : ∀ text, rootText? set s = some text → Balanced (Inline.transform ctx text).1) :
    WellFormed (ofSession set ctx s).xml := by
  obtain ⟨rootId, title, usesInclusion, htitle, hxml⟩ := xml_ofSession set ctx h.heading ht
  rw [hxml]
  exact wellFormed_events _ _ _ htitle ((h.closeTo 0).writer.finish 1)

end Conversion

/-! ### A document of one paragraph -/

theorem Footnotes.collect_single {l : Line} (hcode : FenceMark.isCode none l.text = false)
    (hdef : definition? l.text = none) : collect [l] = .empty := by
  rw [collect, definitions, if_neg (by simp [hcode])]
  simp only [hdef, definitions]
  rfl

theorem Inline.Hands.eq_of_no_notes {ctx : Inline.Context} (h : ctx.footnotes = .empty) {depth : Nat} {s t : Text}
    (ht : Hands ctx depth s t) : t = s := by
  cases ht with
  | self => rfl
  | note hnote _ =>
    obtain ⟨span, _, hspan⟩ := List.mem_flatMap.1 hnote
    cases span with
    | text u =>
      obtain ⟨p, _, hp⟩ := List.mem_filterMap.1 hspan
      rw [h] at hp
      cases p <;> cases hp
    | mark m => cases hspan

/-- A document that is one paragraph. -/
theorem Runs.paragraph {l : Line} {n : Nat} {text : Text} (hb : Block.read l [] = .ok (.paragraph n text, []))
    (s : Session) :
    Runs set ctx (.lines .document [l]) s (Session.paragraph ctx { s with line := some n } text) :=
  .lines hb (.pieces (.write rfl rfl) .noPieces) .noLines

/-- The tasks of a document that is one paragraph. -/
inductive Task.OfParagraph (l : Line) (text : Text) : Task → Prop
  | lines : OfParagraph l text (.lines .document [l])
  | pieces : OfParagraph l text (.pieces [.paragraph text])
  | piece : OfParagraph l text (.piece (.paragraph text))
  | noPieces : OfParagraph l text (.pieces [])
  | noLines : OfParagraph l text (.lines .document [])

theorem Reached.ofParagraph {l : Line} {n : Nat} {text : Text} (hb : Block.read l [] = .ok (.paragraph n text, []))
    (h : Reached set ctx (.lines .document [l]) s₀ t s) : t.OfParagraph l text := by
  induction h with
  | start => exact .lines
  | content _ ih | body _ ih => cases ih
  | first _ ih =>
    cases ih
    exact .piece
  | next _ _ ih =>
    cases ih
    exact .noPieces
  | block _ hb' ih =>
    cases ih
    rw [hb] at hb'
    cases hb'
    exact .pieces
  | nextBlock _ hb' _ ih =>
    cases ih
    rw [hb] at hb'
    cases hb'
    exact .noLines

theorem Session.paragraph_root (ctx : Inline.Context) (s : Session) (text : Text) :
    (s.paragraph ctx text).heading = s.heading ∧ (s.paragraph ctx text).frontMatter = s.frontMatter := by
  unfold Session.paragraph
  simp only
  split <;> exact ⟨rfl, rfl⟩

theorem Conversion.rootText?_paragraph (ctx : Inline.Context) (line : Option Nat) (text : Text) :
    rootText? set (Session.paragraph ctx { Session.start with line := line } text) = set.profile.title := by
  obtain ⟨hheading, hfront⟩ := Session.paragraph_root ctx { Session.start with line := line } text
  generalize Session.paragraph ctx { Session.start with line := line } text = s at hheading hfront
  have hheading' : s.heading = none := hheading
  have hfront' : s.frontMatter.title = none := by
    rw [hfront]
    rfl
  cases htitle : set.profile.title <;> simp only [rootText?, htitle, hheading', hfront']

/-- A document that is one paragraph hands over this and the title of the profile. -/
theorem Conversion.HandsOver.of_paragraph {input : Text} {l : Line} {n : Nat} {text u : Text}
    (hl : Line.ofText input = [l]) (hb : Block.read l [] = .ok (.paragraph n text, []))
    (hnotes : Footnotes.collect [l] = .empty) (h : HandsOver set input u) :
    u = text ∨ set.profile.title = some u := by
  have hctx : (contextOf set input).footnotes = .empty := by
    rw [← hnotes, ← hl]
    rfl
  cases h with
  | piece hr ht hh =>
    rw [hl] at hr
    rw [hh.eq_of_no_notes hctx]
    cases hr.ofParagraph hb
    exact .inl (List.mem_singleton.1 ht)
  | title hs ht hh =>
    rw [hh.eq_of_no_notes hctx]
    have hrun : convertLines set (contextOf set input) .document [l] .start = _ :=
      (Runs.paragraph hb .start).run_eq
    rw [hl] at hs
    rw [Except.ok.inj (hs.symm.trans hrun), rootText?_paragraph] at ht
    exact .inr ht

theorem convert_paragraph (set : Setting) {input : Text} {l : Line} {n : Nat} {text : Text}
    (hl : Line.ofText input = [l]) (hb : Block.read l [] = .ok (.paragraph n text, [])) :
    ∃ c, convert set input = .ok c := by
  have hrun : convertLines set (Conversion.contextOf set input) .document [l] .start = _ :=
    (Runs.paragraph hb .start).run_eq
  rw [← hl] at hrun
  unfold convert
  simp only
  split
  · exact ⟨_, rfl⟩
  · next f hf => cases hrun.symm.trans hf

/-- Where citations become references, and no text that is transformed holds an
angle bracket or a caret before a bracket, the document is well formed. -/
theorem convert_wellFormed {set : Setting} {input : Text} {c : Conversion}
    (hpolicy : set.profile.citations = .xref)
    (htexts : ∀ t, Conversion.HandsOver set input t → Inline.IsPlain t)
    (h : convert set input = .ok c) : WellFormed c.xml := by
  unfold convert at h
  simp only at h
  split at h
  · next s hs =>
    cases h
    have hrun : Runs set (Conversion.contextOf set input) (.lines .document (Line.ofText input)) .start s :=
      runs_iff.2 hs
    refine Conversion.wellFormed_ofSession (hrun.keeps_sound ?_) ?_
    · intro p s hr text htext
      exact Inline.balanced_transform hpolicy fun t ht => htexts t (.piece hr htext ht)
    · intro text htext
      exact Inline.balanced_transform hpolicy fun t ht => htexts t (.title hs htext ht)
  · cases h

/-- Emphasis that crosses a link, math with an ampersand and a citation. -/
theorem convert_wellFormed_paragraph :
    (∀ t, Conversion.HandsOver ⟨{ Profile.ofKind .chapter with title := some "Sets & maps".toList }, none⟩
      "*If $a & b$, see [one **or](a.html) two** [@key].*".toList t → Inline.IsPlain t) ∧
    ∃ c, convert ⟨{ Profile.ofKind .chapter with title := some "Sets & maps".toList }, none⟩
      "*If $a & b$, see [one **or](a.html) two** [@key].*".toList = .ok c ∧ WellFormed c.xml := by
  have hlines : Line.ofText "*If $a & b$, see [one **or](a.html) two** [@key].*".toList =
      [⟨1, "*If $a & b$, see [one **or](a.html) two** [@key].*".toList⟩] := by rfl
  have hread : Block.read ⟨1, "*If $a & b$, see [one **or](a.html) two** [@key].*".toList⟩ [] =
      .ok (.paragraph 1 "*If $a & b$, see [one **or](a.html) two** [@key].*".toList, []) := by rfl
  have hnotes : Footnotes.collect [⟨1, "*If $a & b$, see [one **or](a.html) two** [@key].*".toList⟩] = .empty :=
    Footnotes.collect_single (by decide) (by decide)
  have htexts : ∀ t, Conversion.HandsOver
      ⟨{ Profile.ofKind .chapter with title := some "Sets & maps".toList }, none⟩
      "*If $a & b$, see [one **or](a.html) two** [@key].*".toList t → Inline.IsPlain t := by
    intro t ht
    rcases ht.of_paragraph hlines hread hnotes with rfl | htitle
    · exact ⟨by decide, by simp [List.infix_cons_iff, List.cons_prefix_cons]⟩
    · rw [← Option.some.inj htitle]
      exact ⟨by decide, by simp [List.infix_cons_iff, List.cons_prefix_cons]⟩
  obtain ⟨c, hc⟩ := convert_paragraph _ hlines hread
  exact ⟨htexts, c, hc, convert_wellFormed rfl htexts hc⟩

end QuartoPretext
