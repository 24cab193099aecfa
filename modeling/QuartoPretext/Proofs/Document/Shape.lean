/-
# The shape of plans

What the pieces of a block are like is said here once. Inside a container no
piece opens a section, ready markup is escaped text, and the lines that are
still to be read are an excerpt of a body of the block. In the body of the
document there may be a heading besides, or lines that are read as the body of
the document.

Key definitions: `Piece.All`, `Line.Excerpt`, `Piece.Within`, `Piece.Tame`.
Key theorems: `Plan.shape_ofBlock`, `Plan.within_ofBlock`.
-/
import QuartoPretext.Document.Size

namespace QuartoPretext

namespace Piece

mutual

/-- A property of a piece and of every piece within it. -/
def All (P : Piece → Prop) : Piece → Prop
  | element tag content => P (element tag content) ∧ AllIn P content
  | p => P p

def AllIn (P : Piece → Prop) : List Piece → Prop
  | [] => True
  | p :: ps => All P p ∧ AllIn P ps

end

variable {P : Piece → Prop}

theorem allIn_iff : ∀ ps : List Piece, AllIn P ps ↔ ∀ p ∈ ps, All P p
  | [] => by simp [AllIn]
  | p :: ps => by simp [AllIn, allIn_iff ps]

theorem allIn_append (ps qs : List Piece) : AllIn P (ps ++ qs) ↔ AllIn P ps ∧ AllIn P qs := by
  simp only [allIn_iff, List.forall_mem_append]

theorem allIn_map {α : Type} {f : α → Piece} (as : List α) (h : ∀ a ∈ as, All P (f a)) :
    AllIn P (as.map f) := by
  rw [allIn_iff]
  exact List.forall_mem_map.2 h

/-- Holds for pieces inside a container, if `L` holds for the lines in them. That an
exercise of a set is counted, or has no solution, is among them only if `E` holds. -/
def Within (L : List Line → Prop) (E : Prop) : Piece → Prop
  | leaf _ (.markup xml) => ∃ text, xml = Markup.escapeContent text
  | blocks context ls => context = .container ∧ L ls
  | heading .. => False
  | countExercise | warn _ (.missingSolution _) | warn _ (.unusedSolution _) => E
  | _ => True

/-- Holds for pieces inside a container and for those of the exercises of a set. -/
abbrev Tame (L : List Line → Prop) : Piece → Prop := Within L True

end Piece

/-- Some lines of a body in order, or all of them with a title taken out of one. -/
def Line.Excerpt (body ls : List Line) : Prop :=
  ls.Sublist body ∨ ∃ before l after n title text, body = before ++ l :: after ∧
    Div.strongTitle? l.text = some (title, text) ∧ ls = before ++ ⟨n, text⟩ :: after

namespace Plan

open Piece Markup

variable {L : List Line → Prop} {E : Prop}

theorem within_inlineLeaf (e : Element) (text : Text) : All (Within L E) (inlineLeaf e text) := by
  simp [inlineLeaf, All, Within]

theorem within_escaped (tag : Tag) (text : Text) :
    All (Within L E) (.leaf tag (.markup (escapeContent text))) := by
  simp only [All, Within]
  exact ⟨text, rfl⟩

theorem within_figure (id : Option Text) (caption source width : Text) (alt : Option Text) :
    All (Within L E) (figure id caption source width alt) := by
  unfold figure image inlineLeaf
  cases alt <;> simp [All, AllIn, Within]

theorem within_program (language : Option Text) (code : List Line) :
    All (Within L E) (program language code) := by
  simp [program, All, AllIn, Within]

theorem within_ofFence (p : Profile) (f : CodeFence) (body : List Line) :
    AllIn (Within L E) (ofFence p f body) := by
  unfold ofFence ofChunk chunkFigure
  split
  · simp [AllIn, within_program]
  · simp only
    split
    · split
      · simp [AllIn, within_figure]
      · split <;> simp [AllIn, within_program]
    · simp [AllIn]

theorem within_ofMath (rows : List Text) (id : Option Text) : AllIn (Within L E) (ofMath rows id) := by
  unfold ofMath plainElement
  split
  · trivial
  · next tex _ =>
    have h := within_escaped (L := L) (E := E) (.withId .me id) tex
    simp only [All, AllIn]
    exact ⟨⟨trivial, h, trivial⟩, trivial⟩
  · next rs _ =>
    have h := allIn_map (P := Within L E) rs fun r _ => within_escaped (.plain .mrow) r
    simp only [All, AllIn]
    exact ⟨⟨trivial, ⟨trivial, h⟩, trivial⟩, trivial⟩

theorem within_interruption (l : ListBlock) : AllIn (Within L E) (interruption l) := by
  unfold interruption
  cases l.interruptedAt <;> simp [All, AllIn, Within]

theorem within_part (e : Element) (chunks : List (List Line)) (h : ∀ c ∈ chunks, L c) :
    AllIn (Within L E) (part e chunks) := by
  unfold part plainElement
  split
  · trivial
  · have hc := allIn_map (P := Within L E) (f := Piece.blocks .container) chunks
      (fun c hc => by simp [All, Within, h c hc])
    simp [All, AllIn, Within, hc]

/-- A container of some pieces and of blocks. -/
theorem within_container {tag : Tag} (content : List Piece) {ls : List Line}
    (hc : AllIn (Within L E) content) (h : L ls) :
    All (Within L E) (.element tag (content ++ [.blocks .container ls])) := by
  simp [All, AllIn, Within, allIn_append, hc, h]

theorem titled_shape (body : List Line) :
    AllIn (Within L E) (titled body).1 ∧ (titled body).2.Sublist body := by
  unfold titled titleLeaf
  split
  · next h => exact ⟨by simp [AllIn, within_inlineLeaf], (Div.leadingHeading?_suffix h).sublist⟩
  · exact ⟨trivial, List.Sublist.refl _⟩

theorem within_callout (attrs : Attributes) {body : List Line} (h : ∀ ls, ls.Sublist body → L ls) :
    All (Within L E) (callout attrs body) := by
  unfold callout
  split
  next title rest ht =>
    split at ht
    · obtain ⟨rfl, rfl⟩ := Prod.mk.inj ht
      exact within_container [_] (by simp [AllIn, titleLeaf, within_inlineLeaf]) (h _ (.refl _))
    · have hs := titled_shape (L := L) (E := E) body
      rw [ht] at hs
      exact within_container _ hs.1 (h _ hs.2)

theorem promoteTitle?_excerpt : ∀ {body rest : List Line} {title : Text},
    Div.promoteTitle? body = some (title, rest) → Line.Excerpt body rest
  | [], _, _, h => by simp [Div.promoteTitle?] at h
  | l :: body, rest, title, h => by
    unfold Div.promoteTitle? at h
    split at h
    · obtain ⟨⟨t, r⟩, h', e⟩ := Option.map_eq_some_iff.1 h
      simp only [Prod.mk.injEq] at e
      rw [← e.2]
      rcases promoteTitle?_excerpt h' with hs | ⟨before, x, after, n, tx, text, h₁, h₂, h₃⟩
      · exact .inl (hs.cons_cons l)
      · exact .inr ⟨l :: before, x, after, n, tx, text, by simp [h₁], h₂, by simp [h₃]⟩
    · obtain ⟨⟨t, text⟩, h', e⟩ := Option.map_eq_some_iff.1 h
      simp only [Prod.mk.injEq] at e
      exact .inr ⟨[], l, body, l.number, t, text, rfl, h', e.2.symm⟩

theorem within_important (attrs : Attributes) {body : List Line} (h : ∀ ls, Line.Excerpt body ls → L ls) :
    All (Within L E) (important attrs body) := by
  unfold important titleLeaf
  split
  · next title rest ht =>
    have hr := h rest (promoteTitle?_excerpt ht)
    have htitle := within_inlineLeaf (L := L) (E := E) .title title
    simp [All, AllIn, Within, hr, htitle]
  · have hb := h body (.inl (.refl _))
    simp [All, AllIn, Within, hb]

theorem splitTop?_sublists {accepts : Line → Option DivFence → Bool} {ls before after : List Line}
    {l : Line} {depth : Nat} {fence : Option FenceMark}
    (h : Div.splitTop? accepts depth fence ls = some (before, l, after)) :
    before.Sublist ls ∧ after.Sublist ls := by
  rw [Div.splitTop?_eq h]
  exact ⟨List.sublist_append_left _ _,
    (List.sublist_cons_self _ _).trans (List.sublist_append_right _ _)⟩

theorem within_workedExample (attrs : Attributes) {body : List Line} (h : ∀ ls, ls.Sublist body → L ls) :
    All (Within L E) (workedExample attrs body) := by
  unfold workedExample
  have ht := titled_shape (L := L) (E := E) body
  simp only
  split
  · next before l after hsplit =>
    have hs := splitTop?_sublists hsplit
    have hw := (Div.withoutSolutionHeading_suffix after).sublist.trans hs.2
    have h₁ := within_part (L := L) (E := E) .statement [before]
      (by simpa using h _ (hs.1.trans ht.2))
    have h₂ := within_part (L := L) (E := E) .solution [Div.withoutSolutionHeading after]
      (by simpa using h _ (hw.trans ht.2))
    simp [All, Within, allIn_append, ht.1, h₁, h₂]
  · exact within_container _ ht.1 (h _ ht.2)

theorem within_exerciseParts (body : List Line) (h : ∀ ls, ls.Sublist body → L ls) :
    AllIn (Within L E) (exerciseParts body) := by
  unfold exerciseParts
  split
  · next before l rest hsplit =>
    have hs := splitTop?_sublists hsplit
    have h₁ := within_part (L := L) (E := E) .statement [before] (by simpa using h _ hs.1)
    split
    next inside after hi =>
      have hb : inside.Sublist rest ∧ after.Sublist rest := by
        split at hi
        · next hc =>
          obtain ⟨rfl, rfl⟩ := Prod.mk.inj hi
          exact splitTop?_sublists hc
        · obtain ⟨rfl, rfl⟩ := Prod.mk.inj hi
          exact ⟨.refl _, List.nil_sublist _⟩
      have hw := (Div.withoutSolutionHeading_suffix inside).sublist.trans hb.1
      have h₂ := within_part (L := L) (E := E) .solution [Div.withoutSolutionHeading inside, after] (by
        intro c hc
        simp only [List.mem_cons, List.not_mem_nil, or_false] at hc
        rcases hc with rfl | rfl
        · exact h _ (hw.trans hs.2)
        · exact h _ (hb.2.trans hs.2))
      simp [allIn_append, h₁, h₂]
  · split
    · next before l after hsplit =>
      have hs := splitTop?_sublists hsplit
      have h₁ := within_part (L := L) (E := E) .statement [before] (by simpa using h _ hs.1)
      have h₂ := within_part (L := L) (E := E) .solution [after] (by simpa using h _ hs.2)
      simp [allIn_append, h₁, h₂]
    · exact within_part _ [body] (by simpa using h _ (.refl _))

theorem within_exercise (attrs : Attributes) {body : List Line} (h : ∀ ls, ls.Sublist body → L ls) :
    All (Within L E) (exercise attrs body) := by
  unfold exercise
  split
  next title rest ht =>
    have hr : AllIn (Within L E) title ∧ rest.Sublist body := by
      split at ht
      · next hl =>
        split at ht <;> obtain ⟨rfl, rfl⟩ := Prod.mk.inj ht
        · exact ⟨trivial, .refl _⟩
        · exact ⟨by simp [AllIn, titleLeaf, within_inlineLeaf], (Div.leadingHeading?_suffix hl).sublist⟩
      · obtain ⟨rfl, rfl⟩ := Prod.mk.inj ht
        exact ⟨trivial, .refl _⟩
    have hp := within_exerciseParts (L := L) (E := E) rest fun ls hls => h ls (hls.trans hr.2)
    simp [All, Within, allIn_append, hr.1, hp]

theorem within_ofList {l : ListBlock} (h : ∀ i ∈ l.items, L i.body) : AllIn (Within L E) (ofList l) := by
  unfold ofList plainElement
  have hi := within_interruption (L := L) (E := E) l
  have hl := allIn_map (P := Within L E) (f := fun i : ListItem =>
    Piece.element (.plain .li) [.blocks .container i.body]) l.items
    (fun i hi => by simp [All, AllIn, Within, h i hi])
  simp [All, AllIn, Within, allIn_append, hi, hl]

theorem within_solution (text : Text) : All (Within L E) (solution text) := by
  unfold solution plainElement inlineLeaf
  split
  · next parts _ =>
    have h := allIn_map (P := Within L E) (f := fun part =>
      Piece.element (.plain .li) [.leaf (.plain .p) (.inline part)]) parts
      (fun a _ => by simp [All, AllIn, Within])
    simp [All, AllIn, Within, h]
  · simp [All, AllIn, Within]

theorem tame_solutionOf (book : Option SolutionBook) (number line : Nat) :
    AllIn (Tame L) (solutionOf book number line) := by
  unfold solutionOf
  split
  · trivial
  · split
    · simp [AllIn, within_solution]
    · split <;> simp [All, AllIn, Within]

theorem promotedItem_shape (i : ListItem) :
    AllIn (Within L E) (promotedItem i).1 ∧ Line.Excerpt i.body (promotedItem i).2 := by
  unfold promotedItem titleLeaf
  split
  · exact ⟨trivial, .inl (List.nil_sublist _)⟩
  · next first more hbody =>
    split
    · next title rest ht =>
      split at ht
      · exact ⟨by simp [AllIn, within_inlineLeaf], .inr ⟨[], first, more, i.line, title, rest, hbody, ht, rfl⟩⟩
      · simp at ht
    · exact ⟨trivial, .inl (hbody ▸ .refl _)⟩

theorem tame_exerciseItems (book : Option SolutionBook) :
    ∀ {items : List ListItem} (count : Nat), (∀ i ∈ items, ∀ ls, Line.Excerpt i.body ls → L ls) →
      AllIn (Tame L) (exerciseItems book count items)
  | [], _, _ => trivial
  | i :: items, count, h => by
    have ih := tame_exerciseItems book (count + 1) fun j hj => h j (List.mem_cons_of_mem i hj)
    have hp := promotedItem_shape (L := L) (E := True) i
    have h₁ := within_part (L := L) (E := True) .statement [(promotedItem i).2]
      (by simpa using h i List.mem_cons_self _ hp.2)
    have h₂ := tame_solutionOf (L := L) book (count + 1) i.line
    simp [exerciseItems, exerciseItem, plainElement, All, AllIn, Within, allIn_append, hp.1, h₁, h₂, ih]

theorem tame_ofExercises {book : Option SolutionBook} {count : Nat} {l : ListBlock}
    (h : ∀ i ∈ l.items, ∀ ls, Line.Excerpt i.body ls → L ls) :
    AllIn (Tame L) (ofExercises book count l) := by
  unfold ofExercises
  split
  · rw [allIn_append]
    exact ⟨within_interruption l, tame_exerciseItems book count h⟩
  · exact within_ofList fun i hi => h i hi _ (.inl (.refl _))

/-- Pieces in the body of a document: a heading, lines in the body of the
document, or a piece that could as well stand in a container. -/
inductive Shape (L : List Line → Prop) (E : Prop) (context : Context) (b : Block) : Piece → Prop
  | heading {line level : Nat} {title : Text} {attrs : Attributes} :
      b = .heading line level title attrs → context = .document →
      Shape L E context b (.heading line level title attrs.id)
  | body {ls : List Line} : context = .document → L ls → Shape L E context b (.blocks .document ls)
  | tame {p : Piece} : All (Within L E) p → Shape L E context b p

theorem shape_of_allIn {context : Context} {b : Block} {ps : List Piece} (h : AllIn (Within L E) ps) :
    ∀ p ∈ ps, Shape L E context b p := fun p hp => .tame ((allIn_iff ps).1 h p hp)

theorem shape_blocks {context : Context} {b : Block} {body : List Line} (h : L body) :
    Shape L E context b (.blocks context body) := by
  cases context with
  | document => exact .body rfl h
  | container => exact .tame (by simp [All, Within, h])

theorem shape_ofDiv {context : Context} {b : Block} (p : Profile) (line : Nat) (label : Text)
    (attrs : Attributes) {body : List Line} (h : ∀ ls, Line.Excerpt body ls → L ls) :
    ∀ q ∈ ofDiv p context line label attrs body, Shape L E context b q := by
  have hsub : ∀ ls, ls.Sublist body → L ls := fun ls hls => h ls (.inl hls)
  have hbody : L body := hsub body (.refl _)
  unfold ofDiv
  split
  · simp
  · simpa using shape_blocks hbody
  · intro q hq
    simp only [List.mem_cons, List.not_mem_nil, or_false] at hq
    rcases hq with rfl | rfl
    · exact .tame (by simp [All, Within])
    · exact shape_blocks hbody
  · refine shape_of_allIn ⟨?_, trivial⟩
    have hd : "Data".toList = escapeContent "Data".toList := by decide
    have hc := within_escaped (L := L) (E := E) (.plain .title) "Data".toList
    rw [hd]
    exact within_container [_] ⟨hc, trivial⟩ hbody
  · exact shape_of_allIn ⟨within_container [] trivial hbody, trivial⟩
  · exact shape_of_allIn ⟨within_callout attrs hsub, trivial⟩
  · exact shape_of_allIn ⟨within_important attrs h, trivial⟩
  · exact shape_of_allIn ⟨within_workedExample attrs hsub, trivial⟩
  · exact shape_of_allIn ⟨within_exercise attrs hsub, trivial⟩

/-- All that the pieces of a block can be. Exercises of a set are among them for an ordered list only. -/
theorem shape_ofBlock {set : Setting} {context : Context} {count : Nat} {b : Block}
    (hE : set.profile.kind = .exercises → context = .document → (∃ l, b = .list l ∧ l.style = .ordered) → E)
    (h : ∀ body ∈ b.bodies, ∀ ls, Line.Excerpt body ls → L ls) :
    ∀ p ∈ ofBlock set context count b, Shape L E context b p := by
  unfold ofBlock
  split
  · split
    · simpa using Shape.heading rfl rfl
    · exact shape_of_allIn (by simp [All, AllIn, Within])
  · exact shape_of_allIn (by simp [All, AllIn, Within])
  · exact shape_of_allIn (within_ofFence ..)
  · next body => exact shape_ofDiv _ _ _ _ (h body (by simp [Block.bodies]))
  · next rows id trailing =>
    refine shape_of_allIn ((allIn_append _ _).2 ⟨within_ofMath rows id, ?_⟩)
    cases trailing <;> simp [All, AllIn, Within]
  · exact shape_of_allIn (by simp [All, AllIn, Within])
  · exact shape_of_allIn (by simp [AllIn, within_figure])
  · next l =>
    have h' : ∀ i ∈ l.items, ∀ ls, Line.Excerpt i.body ls → L ls := fun i hi =>
      h i.body (by simpa [Block.bodies] using ⟨i, hi, rfl⟩)
    split
    · next hplace =>
      simp only [Bool.and_eq_true, decide_eq_true_eq] at hplace
      by_cases hl : l.style = .ordered
      · obtain rfl : E = True := eq_true (hE hplace.1 hplace.2 ⟨l, rfl, hl⟩)
        exact shape_of_allIn (tame_ofExercises h')
      · rw [ofExercises, if_neg hl]
        exact shape_of_allIn (within_ofList fun i hi => h' i hi _ (.inl (.refl _)))
    · exact shape_of_allIn (within_ofList fun i hi => h' i hi _ (.inl (.refl _)))
  · exact shape_of_allIn (by simp [All, AllIn, Within])
  · simp

/-- In a container nothing but pieces of a container comes of a block. -/
theorem within_ofBlock {set : Setting} {count : Nat} {b : Block}
    (h : ∀ body ∈ b.bodies, ∀ ls, Line.Excerpt body ls → L ls) :
    ∀ p ∈ ofBlock set .container count b, All (Within L E) p := by
  intro p hp
  cases shape_ofBlock (fun _ hc => by cases hc) h p hp with
  | heading _ hc => cases hc
  | body hc _ => cases hc
  | tame ht => exact ht

end Plan
end QuartoPretext
