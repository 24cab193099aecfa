/-
# Nesting of inline markup

Links, notes and emphasis are opened and closed by marks of their own. A walk
over cells tells what is open after them, or fails where a mark closes
something else than what was opened last. If it comes back to where nothing is
open, and every other mark is balanced, so is the markup of the cells.

Key definitions: `Opening`, `Mark.after`, `Cell.walk`, `Cell.opens`, `Mark.Sound`.
Key theorems: `Mark.after_opening`, `Mark.after_closing`, `Cell.walk_append`,
`Cell.walk_mark_cases`, `Cell.walk_frame`, `Span.nested_render`.
-/
import QuartoPretext.Proofs.Inline.Rewrite
import QuartoPretext.Proofs.Markup.Nested

namespace QuartoPretext

/-- What a mark can open. -/
inductive Opening
  | link (scope : Nat)
  | note (scope : Nat)
  | emphasis (e : Emphasis)
  deriving Repr, DecidableEq

namespace Opening

def name : Opening → Text
  | link _ => "url".toList
  | note _ => "fn".toList
  | emphasis e => e.name

def scope? : Opening → Option Nat
  | link n | note n => some n
  | emphasis _ => none

end Opening

namespace Mark

def opening? : Mark → Option Opening
  | linkOpen _ n => some (.link n)
  | noteOpen n => some (.note n)
  | emphasisOpen e => some (.emphasis e)
  | _ => none

def closing? : Mark → Option Opening
  | linkClose n => some (.link n)
  | noteClose n => some (.note n)
  | emphasisClose e => some (.emphasis e)
  | _ => none

/-- What is open after a mark, innermost first. -/
def after (m : Mark) (σ : List Opening) : Option (List Opening) :=
  match m.opening?, m.closing? with
  | some o, _ => some (o :: σ)
  | none, some o => if σ.head? = some o then some σ.tail else none
  | none, none => some σ

/-- A mark that neither opens nor closes anything. -/
def IsInert (m : Mark) : Prop := m.opening? = none ∧ m.closing? = none

theorem opens?_eq (m : Mark) : m.opens? = m.opening?.bind Opening.scope? := by cases m <;> rfl

theorem closes?_eq (m : Mark) : m.closes? = m.closing?.bind Opening.scope? := by cases m <;> rfl

section

variable {m : Mark} {o : Opening} {σ τ : List Opening}

theorem opening?_of_closing (h : m.closing? = some o) : m.opening? = none := by
  cases m <;> first | rfl | cases h

theorem closing?_of_opening (h : m.opening? = some o) : m.closing? = none := by
  cases m <;> first | rfl | cases h

theorem after_opening (h : m.opening? = some o) (σ : List Opening) : m.after σ = some (o :: σ) := by
  rw [after, h]

theorem after_closing (h : m.closing? = some o) : m.after σ = some τ ↔ σ = o :: τ := by
  rw [after, opening?_of_closing h, h]
  cases σ with
  | nil => simp
  | cons o' σ => by_cases ho : o' = o <;> simp [ho]

theorem IsInert.after (h : m.IsInert) (σ : List Opening) : m.after σ = some σ := by
  rw [Mark.after, h.1, h.2]

end

end Mark

namespace Cell

/-- What is open after some cells. -/
def walk (σ : List Opening) : List Cell → Option (List Opening)
  | [] => some σ
  | .char _ :: cs => walk σ cs
  | .mark m :: cs => (m.after σ).bind fun τ => walk τ cs

variable {σ τ ρ : List Opening} {cs ds : List Cell}

theorem walk_append : ∀ (cs : List Cell) (σ : List Opening) (ds : List Cell),
    walk σ (cs ++ ds) = (walk σ cs).bind fun τ => walk τ ds
  | [], _, _ => rfl
  | .char _ :: cs, σ, ds => walk_append cs σ ds
  | .mark m :: cs, σ, ds => by
    rw [List.cons_append, walk, walk, Option.bind_assoc]
    congr
    funext τ
    exact walk_append cs τ ds

theorem walk_append_some {υ : List Opening} (h : walk σ cs = some τ) (h' : walk τ ds = some υ) :
    walk σ (cs ++ ds) = some υ := by
  rw [walk_append, h]
  exact h'

theorem exists_of_walk_append (h : walk σ (cs ++ ds) = some τ) :
    ∃ υ, walk σ cs = some υ ∧ walk υ ds = some τ := by
  rw [walk_append] at h
  exact Option.bind_eq_some_iff.1 h

theorem walk_inert (h : ∀ m ∈ marks cs, m.IsInert) (σ : List Opening) : walk σ cs = some σ := by
  induction cs with
  | nil => rfl
  | cons c cs ih =>
    cases c with
    | char c => exact ih h
    | mark m =>
      rw [walk, (h m List.mem_cons_self).after]
      exact ih fun m' hm => h m' (List.mem_cons_of_mem m hm)

/-- Only marks count. -/
theorem walk_marks : ∀ (cs : List Cell) (σ : List Opening), walk σ cs = walk σ ((marks cs).map .mark)
  | [], _ => rfl
  | .char _ :: cs, σ => walk_marks cs σ
  | .mark m :: cs, σ => by
    rw [marks_mark, List.map_cons, walk, walk]
    congr
    funext τ
    exact walk_marks cs τ

/-- The steps of a walk by what a mark does. -/
theorem walk_mark_cases {m : Mark} (h : walk σ (.mark m :: cs) = some τ) :
    (∃ o, m.opening? = some o ∧ m.closing? = none ∧ walk (o :: σ) cs = some τ) ∨
    (∃ o υ, m.opening? = none ∧ m.closing? = some o ∧ σ = o :: υ ∧ walk υ cs = some τ) ∨
    (m.opening? = none ∧ m.closing? = none ∧ walk σ cs = some τ) := by
  obtain ⟨υ, hυ, h⟩ := Option.bind_eq_some_iff.1 h
  cases hopen : m.opening? with
  | some o =>
    rw [Mark.after_opening hopen] at hυ
    cases hυ
    exact .inl ⟨o, rfl, Mark.closing?_of_opening hopen, h⟩
  | none =>
    cases hclose : m.closing? with
    | some o => exact .inr (.inl ⟨o, υ, rfl, rfl, (Mark.after_closing hclose).1 hυ, h⟩)
    | none =>
      rw [Mark.IsInert.after ⟨hopen, hclose⟩] at hυ
      cases hυ
      exact .inr (.inr ⟨rfl, rfl, h⟩)

theorem after_frame {m : Mark} (h : m.after σ = some τ) (ρ : List Opening) :
    m.after (σ ++ ρ) = some (τ ++ ρ) := by
  unfold Mark.after at h ⊢
  split at h
  · cases h
    rfl
  · split at h
    · next hhead =>
      cases h
      cases σ with
      | nil => cases hhead
      | cons o σ => simpa using hhead
    · cases h
  · cases h
    rfl

/-- What is open around the cells stays open. -/
theorem walk_frame : ∀ {cs : List Cell} {σ τ : List Opening}, walk σ cs = some τ → ∀ ρ : List Opening,
    walk (σ ++ ρ) cs = some (τ ++ ρ)
  | [], σ, τ, h, ρ => by
    cases h
    rfl
  | .char _ :: cs, σ, τ, h, ρ => by
    have h' : walk σ cs = some τ := h
    exact walk_frame h' ρ
  | .mark m :: cs, σ, τ, h, ρ => by
    obtain ⟨υ, hm, h⟩ := Option.bind_eq_some_iff.1 h
    rw [walk, after_frame hm]
    exact walk_frame h ρ

/-- The scopes that some cells open. -/
def opens (cs : List Cell) : List Nat := (marks cs).filterMap fun m => m.opening?.bind Opening.scope?

theorem opens_mark (m : Mark) (cs : List Cell) :
    opens (.mark m :: cs) = (m.opening?.bind Opening.scope?).toList ++ opens cs := by
  rw [opens, marks_mark, List.filterMap_cons]
  cases m.opening?.bind Opening.scope? <;> rfl

theorem opens_char (c : Char) (cs : List Cell) : opens (.char c :: cs) = opens cs := rfl

@[simp] theorem opens_append (cs ds : List Cell) : opens (cs ++ ds) = opens cs ++ opens ds := by
  rw [opens, marks_append, List.filterMap_append]
  rfl

/-- The scopes among openings. -/
def scopesOf (σ : List Opening) : List Nat := σ.filterMap Opening.scope?

theorem scopesOf_some {o : Opening} {n : Nat} (h : o.scope? = some n) (σ : List Opening) :
    scopesOf (o :: σ) = n :: scopesOf σ := List.filterMap_cons_some h

theorem scopesOf_none {o : Opening} (h : o.scope? = none) (σ : List Opening) : scopesOf (o :: σ) = scopesOf σ :=
  List.filterMap_cons_none h

end Cell

/-! ### Markup -/

namespace Markup

theorem balanced_element {name content : Text} (hn : isName name) (h : Balanced content) :
    Balanced (Mark.element name content) := by
  have hs := Nested.startTag hn .nil ((h.of_balanced [name]).trans (.endTag hn .nil))
  simpa [Mark.element, Mark.startTag, Mark.endTag] using hs

theorem balanced_flatMap {α : Type} {f : α → Text} : ∀ {as : List α}, (∀ a ∈ as, Balanced (f a)) →
    Balanced (as.flatMap f)
  | [], _ => .nil
  | a :: _, h => (h a List.mem_cons_self).trans (balanced_flatMap fun b hb => h b (List.mem_cons_of_mem a hb))

/-- What holds of the parts and of what separates them, and of one text after the
other, holds of the parts joined. -/
theorem joinWith_of {Q : Text → Prop} (nil : Q []) (append : ∀ {s t}, Q s → Q t → Q (s ++ t)) {sep : Text} (hsep : Q sep) :
    ∀ {parts : List Text}, (∀ part ∈ parts, Q part) → Q (Text.joinWith sep parts)
  | [], _ => nil
  | [part], h => by simpa [Text.joinWith] using h part List.mem_cons_self
  | part :: part' :: parts, h => by
    have ih : Q (Text.joinWith sep (part' :: parts)) :=
      joinWith_of nil append hsep fun p hp => h p (List.mem_cons_of_mem part hp)
    have hs := append (h part List.mem_cons_self) (append hsep ih)
    simpa [Text.joinWith] using hs

theorem isAttributes_single {name value : Text} (hn : isName name) (hv : IsValue value) :
    IsAttributes (' ' :: name ++ '=' :: '"' :: value ++ ['"']) := .cons hn hv .nil

end Markup

namespace Mark

open Markup

/-- The attribute of a link. -/
def linkAttribute (href : Text) : Text := ' ' :: "href".toList ++ '=' :: '"' :: escapeAttribute href ++ ['"']

theorem linkTag_eq (href : Text) : linkTag href = '<' :: "url".toList ++ linkAttribute href := by
  have h : "<url href=\"".toList = '<' :: "url".toList ++ ' ' :: "href".toList ++ ['=', '"'] := by simp
  unfold linkTag linkAttribute
  rw [h]
  simp only [List.append_assoc, List.cons_append, List.nil_append]

theorem isAttributes_link (href : Text) : IsAttributes (linkAttribute href) :=
  isAttributes_single (by decide) (isValue_escapeAttribute href)

theorem balanced_reference (r : Reference) : Balanced (referenceXml r) := by
  have hkey := isValue_escapeAttribute r.key
  have href : "<xref ref=\"".toList = '<' :: "xref".toList ++ ' ' :: "ref".toList ++ ['=', '"'] := by simp
  unfold referenceXml
  split
  · have hglobal : "\" text=\"global\"/>".toList =
        '"' :: ' ' :: "text".toList ++ '=' :: '"' :: "global".toList ++ ['"', '/', '>'] := by decide
    have hvalue : IsValue "global".toList := isValue_escapeAttribute "global".toList
    have hs : Nested [] _ [] := .emptyTag (show isName "xref".toList by decide)
      (.cons (show isName "ref".toList by decide) hkey
        (.cons (show isName "text".toList by decide) hvalue .nil)) .nil
    rw [href, hglobal]
    simpa only [List.append_assoc, List.cons_append, List.nil_append] using hs
  · have hend : "\"/>".toList = ['"', '/', '>'] := by decide
    have hs : Nested [] _ [] := .emptyTag (show isName "xref".toList by decide)
      (isAttributes_single (show isName "ref".toList by decide) hkey) .nil
    rw [href, hend]
    simpa only [List.append_assoc, List.cons_append, List.nil_append] using hs

/-- The markup of a mark that opens and closes nothing is balanced. -/
def Sound (m : Mark) : Prop := m.IsInert → Balanced m.xml

theorem sound_math (tex : Text) : (math tex).Sound := fun _ =>
  balanced_element (by decide) (nested_escapeContent tex)

theorem sound_displayMath (tex : Text) : (displayMath tex).Sound := fun _ =>
  balanced_element (by decide) (nested_escapeContent tex)

theorem sound_code (content : Text) : (code content).Sound := fun _ =>
  balanced_element (by decide) (nested_escapeContent content)

theorem sound_references (refs : List Reference) : (references refs).Sound := fun _ =>
  joinWith_of (Q := Balanced) .nil .trans (.char (by decide) (by decide) (.char (by decide) (by decide) .nil)) fun part hp => by
    obtain ⟨r, _, rfl⟩ := List.mem_map.1 hp
    exact balanced_reference r

theorem sound_footnote {xml : Text} (h : Balanced xml) : (footnote xml).Sound := fun _ =>
  balanced_element (by decide) h

theorem sound_index (levels : List Text) : (index levels).Sound := fun _ =>
  balanced_element (by decide) (balanced_flatMap fun level _ =>
    balanced_element (by decide) (nested_escapeContent level))

theorem sound_bareLink (href : Text) : (bareLink href).Sound := fun _ => by
  have hs : Nested [] _ [] := .emptyTag (show isName "url".toList by decide) (isAttributes_link href) .nil
  simpa [xml, linkTag_eq] using hs

/-- Marks that open or close something are sound whatever they bear. -/
theorem sound_of_opening {m : Mark} {o : Opening} (h : m.opening? = some o) : m.Sound := fun hi => by
  rw [hi.1] at h
  cases h

theorem sound_of_closing {m : Mark} {o : Opening} (h : m.closing? = some o) : m.Sound := fun hi => by
  rw [hi.2] at h
  cases h

theorem isName_opening (o : Opening) : isName o.name := by
  cases o with
  | emphasis e => cases e <;> decide
  | link _ => exact show isName "url".toList by decide
  | note _ => exact show isName "fn".toList by decide

theorem nested_opening {m : Mark} {o : Opening} (h : m.opening? = some o) (stack : List Text) :
    Nested stack m.xml (o.name :: stack) := by
  have hs (attrs : Text) (ha : IsAttributes attrs) :
      Nested stack ('<' :: o.name ++ attrs ++ ['>']) (o.name :: stack) :=
    .startTag (isName_opening o) ha .nil
  cases m with
  | linkOpen href n =>
    cases h
    have hl := hs _ (isAttributes_link href)
    rwa [xml, linkTag_eq]
  | noteOpen n =>
    cases h
    exact hs [] .nil
  | emphasisOpen e =>
    cases h
    have he := hs [] .nil
    rwa [List.append_nil] at he
  | _ => cases h

theorem nested_closing {m : Mark} {o : Opening} (h : m.closing? = some o) (stack : List Text) :
    Nested (o.name :: stack) m.xml stack := by
  have hs : Nested (o.name :: stack) ('<' :: '/' :: o.name ++ ['>']) stack := .endTag (isName_opening o) .nil
  cases m with
  | linkClose _ | noteClose _ | emphasisClose _ =>
    cases h
    exact hs
  | _ => cases h

theorem nested_xml {m : Mark} (hm : m.Sound) {σ τ : List Opening} (h : m.after σ = some τ) :
    Nested (σ.map Opening.name) m.xml (τ.map Opening.name) := by
  unfold after at h
  split at h
  · next hopen =>
    cases h
    exact nested_opening hopen _
  · next hclose =>
    split at h
    · next hhead =>
      cases h
      obtain ⟨ρ, rfl⟩ := List.head?_eq_some_iff.1 hhead
      exact nested_closing hclose _
    · cases h
  · next hopen hclose =>
    cases h
    exact (hm ⟨hopen, hclose⟩).of_balanced _

end Mark

/-- Spans are rendered to markup that opens what the walk over them opens. -/
theorem Span.nested_render : ∀ {spans : List Span} {σ τ : List Opening}, Cell.walk σ (toCells spans) = some τ →
    (∀ m ∈ marks spans, m.Sound) → Markup.Nested (σ.map Opening.name) (render spans) (τ.map Opening.name)
  | [], σ, τ, h, _ => by
    cases h
    exact .nil
  | .text s :: spans, σ, τ, h, hm => by
    rw [toCells_text] at h
    obtain ⟨υ, hs, h'⟩ := Cell.exists_of_walk_append h
    rw [Cell.walk_inert (by simp)] at hs
    cases hs
    exact (Markup.nested_escapeText s).trans (nested_render h' hm)
  | .mark m :: spans, σ, τ, h, hm => by
    obtain ⟨υ, hs, h'⟩ := Option.bind_eq_some_iff.1 h
    exact (Mark.nested_xml (hm m List.mem_cons_self) hs).trans
      (nested_render h' fun m' hm' => hm m' (List.mem_cons_of_mem m hm'))

end QuartoPretext
