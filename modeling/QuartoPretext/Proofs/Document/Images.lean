/-
# The images of a document

Blocks that become figures have an image each, and only they have. What a run
writes comes from its pieces, so the images in its output are those of the
blocks that it came to.

Key definitions: `Piece.images`, `Block.figureWidth?`, `Piece.Writes`.
Key theorems: `Plan.images_ofBlock`, `Runs.mem_events`, `Piece.Writes.imageless`, `Runs.image_iff`.
-/
import QuartoPretext.Proofs.Document.Order
import QuartoPretext.Proofs.Inline.Imageless

namespace QuartoPretext

open Markup

/-! ### The images of a plan -/

/-- A tag, if it is that of an image. -/
def Markup.Tag.images (t : Tag) : List Tag := if t.element = .image then [t] else []

@[simp] theorem Markup.Tag.images_plain {e : Element} (he : e ≠ .image) : (plain e).images = [] := if_neg he

@[simp] theorem Markup.Tag.images_withId {e : Element} (he : e ≠ .image) (id : Option Text) : (withId e id).images = [] :=
  if_neg he

namespace Piece

mutual

/-- The tags of the images in a piece, in order. -/
def images : Piece → List Tag
  | element tag content => tag.images ++ imagesOf content
  | leaf tag _ | empty tag => tag.images
  | _ => []

def imagesOf : List Piece → List Tag
  | [] => []
  | p :: ps => images p ++ imagesOf ps

end

theorem imagesOf_append : ∀ ps qs : List Piece, imagesOf (ps ++ qs) = imagesOf ps ++ imagesOf qs
  | [], _ => rfl
  | p :: ps, qs => by simp only [List.cons_append, imagesOf, imagesOf_append ps, List.append_assoc]

theorem imagesOf_map {α : Type} {f : α → Piece} : ∀ {as : List α}, (∀ a ∈ as, images (f a) = []) → imagesOf (as.map f) = []
  | [], _ => rfl
  | a :: as, h => by
    simp only [List.map_cons, imagesOf, h a List.mem_cons_self, List.nil_append,
      imagesOf_map fun b hb => h b (List.mem_cons_of_mem a hb)]

end Piece

/-- The width that a block asks for as a figure, if it becomes one: an image by its
attributes, a chunk by its directives and its header. -/
def Block.figureWidth? : Block → Option (Option Text)
  | image _ _ _ attrs => some ((attrs.get? "width".toList).orElse fun _ => attrs.get? "out-width".toList)
  | fence _ f body =>
    let m := Plan.chunkMetadata f body
    if f.executable && m.included then
      ((m.get? "label".toList).filter fun l => Plan.figureStem.isPrefixOf l || Plan.tableStem.isPrefixOf l).map fun _ =>
        m.get? "out-width".toList
    else none
  | _ => none

namespace Plan

open Piece

/-- The tag of an image. -/
def imageTag (source width : Text) : Tag := ⟨.image, [(.source, source), (.width, width)]⟩

@[simp] theorem images_listTag (style : ListStyle) : (listTag style).images = [] := by
  cases style <;> rfl

theorem images_figure (id : Option Text) (caption source width : Text) (alt : Option Text) :
    (figure id caption source width alt).images = [imageTag source width] := by
  have himage : (image source width alt).images = [imageTag source width] := by
    cases alt <;> rfl
  simp only [figure, Piece.images, imagesOf, himage]
  split <;> rfl

theorem images_part {e : Element} (he : e ≠ .image) (chunks : List (List Line)) : imagesOf (part e chunks) = [] := by
  unfold part
  split
  · rfl
  · have hblocks : imagesOf (chunks.map (.blocks .container)) = [] := imagesOf_map fun _ _ => rfl
    simp [plainElement, imagesOf, Piece.images, hblocks, he]

theorem images_titled (body : List Line) : imagesOf (titled body).1 = [] := by
  unfold titled
  split <;> rfl

theorem images_callout (attrs : Attributes) (body : List Line) : (callout attrs body).images = [] := by
  unfold callout
  split
  next title rest ht =>
    have htitle : imagesOf title = [] := by
      split at ht
      · cases ht
        rfl
      · have h := images_titled body
        rwa [ht] at h
    simp [Piece.images, imagesOf_append, htitle, imagesOf]

theorem images_important (attrs : Attributes) (body : List Line) : (important attrs body).images = [] := by
  unfold important
  split <;> rfl

theorem images_workedExample (attrs : Attributes) (body : List Line) : (workedExample attrs body).images = [] := by
  unfold workedExample
  have htitle := images_titled body
  simp only
  split
  · simp [Piece.images, imagesOf_append, htitle, images_part]
  · simp [Piece.images, imagesOf_append, htitle, imagesOf]

theorem images_exerciseParts (body : List Line) : imagesOf (exerciseParts body) = [] := by
  unfold exerciseParts
  split
  · simp [imagesOf_append, images_part]
  · split <;> simp [imagesOf_append, images_part]

theorem images_exercise (attrs : Attributes) (body : List Line) : (exercise attrs body).images = [] := by
  unfold exercise
  split
  next title rest ht =>
    have htitle : imagesOf title = [] := by
      split at ht
      · split at ht <;> cases ht <;> rfl
      · cases ht
        rfl
    simp [Piece.images, imagesOf_append, htitle, images_exerciseParts]

theorem images_ofDiv (p : Profile) (context : Context) (line : Nat) (label : Text) (attrs : Attributes) (body : List Line) :
    imagesOf (ofDiv p context line label attrs body) = [] := by
  unfold ofDiv
  split
  · rfl
  · rfl
  · rfl
  · rfl
  · rfl
  · simp [imagesOf, images_callout]
  · simp [imagesOf, images_important]
  · simp [imagesOf, images_workedExample]
  · simp [imagesOf, images_exercise]

theorem images_ofMath (rows : List Text) (id : Option Text) : imagesOf (ofMath rows id) = [] := by
  unfold ofMath
  split
  · rfl
  · rfl
  · next rs _ =>
    have hrows : imagesOf (rs.map fun r => .leaf (.plain .mrow) (.markup (escapeContent r))) = [] :=
      imagesOf_map fun _ _ => rfl
    simp [plainElement, imagesOf, Piece.images, hrows]

theorem images_interruption (l : ListBlock) : imagesOf (interruption l) = [] := by
  unfold interruption
  cases l.interruptedAt <;> rfl

theorem images_ofList (l : ListBlock) : imagesOf (ofList l) = [] := by
  have hitems : imagesOf (l.items.map fun i => plainElement .li [.blocks .container i.body]) = [] :=
    imagesOf_map fun _ _ => rfl
  have hinterruption := images_interruption l
  simpa [ofList, imagesOf_append, hinterruption, plainElement, imagesOf, Piece.images] using hitems

theorem images_solution (text : Text) : (solution text).images = [] := by
  unfold solution
  split
  · next parts _ =>
    have hparts : imagesOf (parts.map fun part => plainElement .li [inlineLeaf .p part]) = [] := imagesOf_map fun _ _ => rfl
    simpa [plainElement, imagesOf, Piece.images] using hparts
  · rfl

theorem images_solutionOf (book : Option SolutionBook) (number line : Nat) :
    imagesOf (solutionOf book number line) = [] := by
  unfold solutionOf
  split
  · rfl
  · split
    · simp [imagesOf, images_solution]
    · split <;> rfl

theorem images_promotedItem (i : ListItem) : imagesOf (promotedItem i).1 = [] := by
  unfold promotedItem
  split
  · rfl
  · split <;> rfl

theorem images_exerciseItems (book : Option SolutionBook) : ∀ (count : Nat) (items : List ListItem),
    imagesOf (exerciseItems book count items) = []
  | _, [] => rfl
  | count, i :: items => by
    have htitle := images_promotedItem i
    simp [exerciseItems, exerciseItem, imagesOf_append, images_exerciseItems book _ items, plainElement, imagesOf,
      Piece.images, htitle, images_part, images_solutionOf]

theorem images_ofExercises (book : Option SolutionBook) (count : Nat) (l : ListBlock) :
    imagesOf (ofExercises book count l) = [] := by
  unfold ofExercises
  split
  · simp [imagesOf_append, images_interruption, images_exerciseItems]
  · exact images_ofList l

/-- A chunk becomes an image if it is included and its label is that of a figure or a table. -/
theorem images_ofFence (p : Profile) (line : Nat) (f : CodeFence) (body : List Line) : ∃ source,
    imagesOf (ofFence p f body) =
      ((Block.fence line f body).figureWidth?.map fun given => imageTag source (width p given)).toList := by
  unfold ofFence ofChunk
  simp only [Block.figureWidth?]
  cases f.executable with
  | false => exact ⟨[], rfl⟩
  | true =>
    cases (chunkMetadata f body).included with
    | false => exact ⟨[], rfl⟩
    | true =>
      cases ((chunkMetadata f body).get? "label".toList).filter
          fun l => figureStem.isPrefixOf l || tableStem.isPrefixOf l with
      | some label => exact ⟨_, by simp [chunkFigure, imagesOf, images_figure]; rfl⟩
      | none =>
        refine ⟨[], ?_⟩
        simp only [Bool.not_true, Bool.false_eq_true, if_false, if_true]
        split <;> rfl

/-- A block becomes one image, or none. -/
theorem images_ofBlock (set : Setting) (context : Context) (count : Nat) (b : Block) : ∃ source,
    imagesOf (ofBlock set context count b) =
      (b.figureWidth?.map fun given => imageTag source (width set.profile given)).toList := by
  cases b with
  | image line caption source attrs => exact ⟨source, by simp [ofBlock, imagesOf, images_figure, Block.figureWidth?]⟩
  | fence line f body => exact images_ofFence ..
  | heading line level title attrs => exact ⟨[], by cases context <;> rfl⟩
  | div line label attrs body => exact ⟨[], images_ofDiv ..⟩
  | displayMath line rows id trailing =>
    refine ⟨[], ?_⟩
    cases trailing <;> simp [ofBlock, imagesOf_append, images_ofMath, imagesOf, Piece.images, Block.figureWidth?]
  | list l =>
    refine ⟨[], ?_⟩
    simp only [ofBlock]
    split
    · exact images_ofExercises ..
    · exact images_ofList l
  | _ => exact ⟨[], rfl⟩

end Plan

variable {set : Setting} {ctx : Inline.Context} {t t₀ : Task} {s s' s₀ s₀' : Session} {e : Event}

/-! ### What is written -/

/-- What a piece writes, apart from end tags. -/
inductive Piece.Writes (ctx : Inline.Context) : Piece → Event → Prop
  | element {tag : Tag} {content : List Piece} : Writes ctx (.element tag content) (.startTag tag)
  | empty {tag : Tag} : Writes ctx (.empty tag) (.empty tag)
  | ready {tag : Tag} {xml : Text} : Writes ctx (.leaf tag (.markup xml)) (.leaf tag xml)
  | inline {tag : Tag} {text : Text} :
      Writes ctx (.leaf tag (.inline text)) (.leaf tag (Text.trim (Inline.transform ctx text).1))
  | alert {tag : Tag} {text : Text} :
      Writes ctx (.leaf tag (.alert text)) (.leaf tag (Session.alertXml (Inline.transform ctx text).1))
  | code {lines : List Text} : Writes ctx (.code lines) (.verbatim .code lines)
  | paragraph {text : Text} :
      Writes ctx (.paragraph text) (.leaf (.plain .p) (Text.trim (Inline.transform ctx text).1))
  | inclusion {href : Text} : Writes ctx (.inclusion href) (.empty ⟨.inclusion, [(.href, href)]⟩)
  | division {n level k : Nat} {title : Text} {id : Option Text} :
      Writes ctx (.heading n level title id) (.startTag (.withId (division k) id))
  | subexercises {n level : Nat} {title : Text} {id : Option Text} :
      Writes ctx (.heading n level title id) (.startTag (.withId .subexercises id))
  | title {n level : Nat} {title : Text} {id : Option Text} :
      Writes ctx (.heading n level title id) (.leaf (.plain .title) (Inline.transform ctx title).1)
  | alertTitle {n level : Nat} {title : Text} {id : Option Text} :
      Writes ctx (.heading n level title id) (.leaf (.plain .p) (Session.alertXml (Inline.transform ctx title).1))

namespace Session

theorem mem_events_close (h : e ∈ s.close.writer.events) : e ∈ s.writer.events ∨ ∃ el, e = .endTag el := by
  cases hstack : s.writer.stack with
  | nil =>
    rw [close, Writer.close, hstack] at h
    exact .inl h
  | cons el stack =>
    rw [events_close hstack] at h
    exact (List.mem_append.1 h).imp_right fun h => ⟨el, List.mem_singleton.1 h⟩

theorem mem_events_closeTo {level : Nat} (h : e ∈ (s.closeTo level).writer.events) :
    e ∈ s.writer.events ∨ ∃ el, e = .endTag el := by
  have hfold : ∀ (levels : List Nat) (w : Writer), e ∈ (levels.foldl (fun w _ => w.close) w).events →
      e ∈ w.events ∨ ∃ el, e = .endTag el := by
    intro levels
    induction levels with
    | nil => exact fun _ => .inl
    | cons _ levels ih => exact fun w h => (ih _ h).elim (mem_events_close (s := { s with writer := w })) .inr
  exact hfold _ _ h

theorem mem_events_openSection {n level : Nat} {id : Option Text} {title : Text} {el : Element}
    (h : s.openSection n level id title el = .ok s') (he : e ∈ s'.writer.events) :
    (e ∈ s.writer.events ∨ ∃ el, e = .endTag el) ∨ e = .startTag (.withId el id) ∨ e = .leaf (.plain .title) title := by
  obtain ⟨-, rfl⟩ := openSection_eq_ok_iff.1 h
  simp only [withSection, openTag, add, Writer.openTag, Writer.add, List.mem_append, List.mem_singleton] at he
  rcases he with (he | he) | he
  · exact .inl (mem_events_closeTo he)
  · exact .inr (.inl he)
  · exact .inr (.inr he)

theorem mem_events_documentHeading {kind : DocumentKind} {n level : Nat} {title : Text} {id : Option Text}
    (h : s.documentHeading ctx kind n level title id = .ok s') (he : e ∈ s'.writer.events) :
    (e ∈ s.writer.events ∨ ∃ el, e = .endTag el) ∨ (Piece.heading n level title id).Writes ctx e := by
  have section' {el : Element} {k : Nat} {s₁ : Session}
      (h : s₁.openSection n k id (Inline.transform ctx title).1 el = .ok s')
      (hel : (Piece.heading n level title id).Writes ctx (.startTag (.withId el id)))
      (hs : e ∈ s₁.writer.events → e ∈ s.writer.events ∨ ∃ el, e = .endTag el) :
      (e ∈ s.writer.events ∨ ∃ el, e = .endTag el) ∨ (Piece.heading n level title id).Writes ctx e := by
    rcases mem_events_openSection h he with (he | he) | rfl | rfl
    · exact .inl (hs he)
    · exact .inl (.inr he)
    · exact .inr hel
    · exact .inr .title
  cases headed_of_documentHeading h with
  | root _ _ => exact .inl (mem_events_closeTo (s := (s.inline ctx title).2) he)
  | second _ _ ho => exact section' ho .division (mem_events_closeTo (s := (s.inline ctx title).2))
  | inner _ hel ho =>
    rcases hel with ⟨-, rfl⟩ | ⟨-, -, rfl⟩
    · exact section' ho .division .inl
    · exact section' ho .subexercises .inl
  | alert _ _ _ =>
    rcases List.mem_append.1 he with he | he
    · exact .inl (.inl he)
    · exact .inr (List.mem_singleton.1 he ▸ .alertTitle)

/-- Writing a piece adds what it writes, and end tags. -/
theorem mem_events_write {kind : DocumentKind} {p : Piece} (h : s.write ctx kind p = .ok s') (he : e ∈ s'.writer.events) :
    (e ∈ s.writer.events ∨ ∃ el, e = .endTag el) ∨ p.Writes ctx e := by
  have added {e' : Event} (he : e ∈ s.writer.events ++ [e']) (hw : p.Writes ctx e') :
      (e ∈ s.writer.events ∨ ∃ el, e = .endTag el) ∨ p.Writes ctx e := by
    rcases List.mem_append.1 he with he | he
    · exact .inl (.inl he)
    · rw [List.mem_singleton.1 he]
      exact .inr hw
  cases p with
  | heading n level title id => exact mem_events_documentHeading h he
  | frontMatter n yaml =>
    simp only [write] at h
    split at h
    · cases h
      exact .inl (.inl he)
    · cases h
  | leaf tag content =>
    simp only [write, Except.ok.injEq] at h
    subst h
    cases content with
    | markup xml => exact added he .ready
    | inline text => exact added he .inline
    | alert text => exact added he .alert
  | paragraph text =>
    simp only [write, Except.ok.injEq, paragraph] at h
    subst h
    split at he
    · exact .inl (.inl he)
    · exact added he .paragraph
  | empty tag =>
    cases h
    exact added he .empty
  | code lines =>
    cases h
    exact added he .code
  | inclusion href =>
    cases h
    exact added he .inclusion
  | _ =>
    cases h
    exact .inl (.inl he)

end Session

/-- Everything in the output of a run was there before, or is an end tag, or a piece
that the run came to has written it. -/
theorem Runs.mem_events (h : Runs set ctx t s s') (hr : Reached set ctx t₀ s₀ t s) (he : e ∈ s'.writer.events) :
    (e ∈ s.writer.events ∨ ∃ el, e = .endTag el) ∨
      ∃ p s₁, Reached set ctx t₀ s₀ (.piece p) s₁ ∧ p.Writes ctx e := by
  induction h with
  | @element tag content s s' h ih =>
    rcases Session.mem_events_close he with he | he
    · rcases ih (.content hr) he with (he | he) | he
      · rcases List.mem_append.1 he with he | he
        · exact .inl (.inl he)
        · exact .inr ⟨_, s, hr, List.mem_singleton.1 he ▸ .element⟩
      · exact .inl (.inr he)
      · exact .inr he
    · exact .inl (.inr he)
  | blocks _ ih => exact ih (.body hr) he
  | write _ hw => exact (Session.mem_events_write hw he).imp_right fun hwrites => ⟨_, _, hr, hwrites⟩
  | noPieces | noLines => exact .inl (.inl he)
  | pieces h₁ _ ih₁ ih₂ =>
    rcases ih₂ (.next hr h₁) he with (he | he) | he
    · exact ih₁ (.first hr) he
    · exact .inl (.inr he)
    · exact .inr he
  | lines hb h₁ _ ih₁ ih₂ =>
    rcases ih₂ (.nextBlock hr hb h₁) he with (he | he) | he
    · exact ih₁ (.block hr hb) he
    · exact .inl (.inr he)
    · exact .inr he

/-! ### Images that are written -/

theorem Markup.Tag.mem_images {t tag : Tag} : t ∈ tag.images ↔ t = tag ∧ tag.element = .image := by
  unfold Tag.images
  split <;> simp [*]

theorem division_ne_image (level : Nat) : division level ≠ .image := by
  unfold division
  repeat' split
  all_goals simp

/-- A piece writes the tag of an image only if it is one. -/
theorem Piece.Writes.mem_images {p : Piece} {t : Tag} (h : p.Writes ctx e) (ht : e.tag? = some t)
    (himage : t.element = .image) : t ∈ p.images := by
  cases h with
  | element =>
    cases ht
    exact List.mem_append_left _ (Tag.mem_images.2 ⟨rfl, himage⟩)
  | empty | ready | inline | alert =>
    cases ht
    exact Tag.mem_images.2 ⟨rfl, himage⟩
  | division =>
    cases ht
    exact absurd himage (division_ne_image _)
  | code | paragraph | inclusion | subexercises | title | alertTitle =>
    cases ht
    cases himage

/-- What stands between the tags of an element on one line has no image in it, unless
it is ready markup that has one. -/
theorem Piece.Writes.imageless {p : Piece} {tag : Tag} {xml : Text} (h : p.Writes ctx (.leaf tag xml))
    (hready : ∀ tag xml, p = .leaf tag (.markup xml) → ∃ text, xml = escapeContent text) : Imageless xml := by
  cases h with
  | ready =>
    obtain ⟨text, rfl⟩ := hready _ _ rfl
    exact .of_angleless (angleless_escapeContent text)
  | inline | paragraph => exact (Inline.imageless_transform ctx _).trim
  | title => exact Inline.imageless_transform ctx _
  | alert | alertTitle =>
    exact Mark.imageless_element (by simp [Emphasis.name, Angleless]) (by simp [Emphasis.name, Element.name])
      (Inline.imageless_transform ctx _)

/-- The tags of the images that a task writes by itself. -/
def Task.images : Task → List Tag
  | piece p => p.images
  | pieces ps => Piece.imagesOf ps
  | lines .. => []

/-- An image that a run comes to is that of a block. -/
theorem Reached.image_meets {context₀ : Context} {ls₀ : List Line} {tag : Tag}
    (h : Reached set ctx (.lines context₀ ls₀) s₀ t s) (ht : tag ∈ t.images) : ∃ context taken b s₁,
      Meets set ctx (.lines context₀ ls₀) s₀ context taken b s₁ ∧
      tag ∈ Piece.imagesOf (Plan.ofBlock set context s₁.exerciseCount b) := by
  induction h with
  | start | body _ _ | nextBlock _ _ _ _ => cases ht
  | content _ ih => exact ih (List.mem_append_right _ ht)
  | first _ ih => exact ih (List.mem_append_left _ ht)
  | next _ _ ih => exact ih (List.mem_append_right _ ht)
  | block h hb _ =>
    obtain ⟨_, _, hmeets⟩ := h.meets hb
    exact ⟨_, _, _, _, hmeets, ht⟩

theorem Runs.events_subset (h : Runs set ctx t s s') : s.writer.events ⊆ s'.writer.events := by
  obtain ⟨d, _, rfl⟩ := h.adds
  exact List.subset_append_left _ _

theorem Session.events_subset_close (s : Session) : s.writer.events ⊆ s.close.writer.events := by
  cases hstack : s.writer.stack with
  | nil =>
    rw [close, Writer.close, hstack]
    exact List.Subset.refl _
  | cons el stack =>
    rw [events_close hstack]
    exact List.subset_append_left _ _

theorem Session.events_subset_closeTo (s : Session) (level : Nat) : s.writer.events ⊆ (s.closeTo level).writer.events := by
  have hfold : ∀ (levels : List Nat) (w : Writer), w.events ⊆ (levels.foldl (fun w _ => w.close) w).events := by
    intro levels
    induction levels with
    | nil => exact fun w => List.Subset.refl _
    | cons _ levels ih => exact fun w => List.Subset.trans { s with writer := w }.events_subset_close (ih _)
  exact hfold _ _

/-- A run writes the images of its task. -/
theorem Runs.exists_event {tag : Tag} (h : Runs set ctx t s s') (ht : tag ∈ t.images) :
    ∃ e ∈ s'.writer.events, e.tag? = some tag := by
  induction h with
  | @element tag' content s s' h ih =>
    rcases List.mem_append.1 ht with ht | ht
    · obtain ⟨rfl, -⟩ := Tag.mem_images.1 ht
      exact ⟨.startTag tag, Session.events_subset_close _ (h.events_subset (List.mem_append_right _ List.mem_cons_self)), rfl⟩
    · obtain ⟨e, he, hte⟩ := ih ht
      exact ⟨e, Session.events_subset_close _ he, hte⟩
  | blocks _ _ | noPieces | noLines | lines _ _ _ _ _ => cases ht
  | @write p s s' hp hw =>
    cases p with
    | leaf tag' content =>
      obtain ⟨rfl, -⟩ := Tag.mem_images.1 ht
      cases hw
      cases content <;> exact ⟨.leaf tag _, List.mem_append_right _ List.mem_cons_self, rfl⟩
    | empty tag' =>
      obtain ⟨rfl, -⟩ := Tag.mem_images.1 ht
      cases hw
      exact ⟨.empty tag, List.mem_append_right _ List.mem_cons_self, rfl⟩
    | element tag' content => cases hp
    | _ => cases ht
  | pieces _ h₂ ih₁ ih₂ =>
    rcases List.mem_append.1 ht with ht | ht
    · obtain ⟨e, he, hte⟩ := ih₁ ht
      exact ⟨e, h₂.events_subset he, hte⟩
    · exact ih₂ ht

/-- The tags of images in the output of a run are those of the blocks that the run came to. -/
theorem Runs.image_iff {context₀ : Context} {ls₀ : List Line} {tag : Tag} (h : Runs set ctx (.lines context₀ ls₀) .start s)
    (himage : tag.element = .image) : (∃ e ∈ s.writer.events, e.tag? = some tag) ↔ ∃ context taken b s₁,
      Meets set ctx (.lines context₀ ls₀) .start context taken b s₁ ∧
      tag ∈ Piece.imagesOf (Plan.ofBlock set context s₁.exerciseCount b) := by
  constructor
  · rintro ⟨e, he, ht⟩
    rcases h.mem_events .start he with (he | ⟨el, rfl⟩) | ⟨p, s₁, hr, hwrites⟩
    · cases he
    · cases ht
    · exact hr.image_meets (hwrites.mem_images ht himage)
  · rintro ⟨context, taken, b, s₁, ⟨hr, hb⟩, hmem⟩
    obtain ⟨s₂, hplan, hlast⟩ := (Reached.block hr hb).runs (P := fun s' => s'.writer.events ⊆ s.writer.events) h
      (List.Subset.refl _) (fun s' hs => List.Subset.trans s'.events_subset_close hs)
      fun _ _ _ _ hrun hs => List.Subset.trans hrun.events_subset hs
    obtain ⟨e, he, ht⟩ := hplan.exists_event hmem
    exact ⟨e, hlast he, ht⟩

end QuartoPretext
