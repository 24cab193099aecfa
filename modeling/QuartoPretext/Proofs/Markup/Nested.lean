/-
# Nested markup

Markup is read with a stack of the elements that are open. A start tag adds its
name, and an end tag takes away the name it bears. Between tags stands text in
which every ampersand starts an entity reference; attribute values stand in
double quotes. A document is well formed if it is one element whose content is
nested in this way.

Key definitions: `isName`, `IsValue`, `IsAttributes`, `Nested`, `WellFormed`.
Key theorems: `Nested.trans`, `Nested.frame`, `Nested.trim`, `nested_escapeText`,
`nested_escapeContent`, `isValue_escapeAttribute`.
-/
import QuartoPretext.Document.Convert

namespace QuartoPretext.Markup

open Text

/-- A letter, and letters, digits and colons. -/
def isName : Text → Bool
  | [] => false
  | c :: rest => c.isAlpha && rest.all fun d => d.isAlphanum || d == ':'

/-- What may stand between the quotes of an attribute. -/
inductive IsValue : Text → Prop
  | nil : IsValue []
  | char {c : Char} {s : Text} : c ≠ '<' → c ≠ '&' → c ≠ '"' → IsValue s → IsValue (c :: s)
  | reference {name s : Text} : isEntityName name → IsValue s → IsValue ('&' :: name ++ ';' :: s)

/-- Attributes, each after a space. -/
inductive IsAttributes : Text → Prop
  | nil : IsAttributes []
  | cons {name value s : Text} : isName name → IsValue value → IsAttributes s →
      IsAttributes (' ' :: name ++ '=' :: '"' :: value ++ '"' :: s)

/-- Markup that is read with some elements open, innermost first, and leaves
some open. -/
inductive Nested : List Text → Text → List Text → Prop
  | nil {open' : List Text} : Nested open' [] open'
  | char {c : Char} {s : Text} {open' after : List Text} : c ≠ '<' → c ≠ '&' →
      Nested open' s after → Nested open' (c :: s) after
  | reference {name s : Text} {open' after : List Text} : isEntityName name →
      Nested open' s after → Nested open' ('&' :: name ++ ';' :: s) after
  | startTag {name attrs s : Text} {open' after : List Text} : isName name → IsAttributes attrs →
      Nested (name :: open') s after → Nested open' ('<' :: name ++ attrs ++ '>' :: s) after
  | emptyTag {name attrs s : Text} {open' after : List Text} : isName name → IsAttributes attrs →
      Nested open' s after → Nested open' ('<' :: name ++ attrs ++ '/' :: '>' :: s) after
  | endTag {name s : Text} {open' after : List Text} : isName name →
      Nested open' s after → Nested (name :: open') ('<' :: '/' :: name ++ '>' :: s) after

/-- Markup in which no element is closed that it does not open, and all that it
opens are closed. -/
abbrev Balanced (s : Text) : Prop := Nested [] s []

/-- One element after the declaration, with balanced content. -/
def WellFormed (document : Text) : Prop :=
  ∃ name attrs content, isName name ∧ IsAttributes attrs ∧ Balanced content ∧
    document = Conversion.declaration ++ '<' :: name ++ attrs ++ '>' :: content ++
      '<' :: '/' :: name ++ ['>', '\n']

namespace Nested

variable {s t : Text} {open₁ open₂ open₃ : List Text}

theorem trans (h : Nested open₁ s open₂) (h' : Nested open₂ t open₃) : Nested open₁ (s ++ t) open₃ := by
  induction h with
  | nil => exact h'
  | char h₁ h₂ _ ih => exact .char h₁ h₂ (ih h')
  | reference hn _ ih =>
    simp only [List.cons_append, List.append_assoc]
    exact .reference hn (ih h')
  | startTag hn ha _ ih =>
    have hs := startTag hn ha (ih h')
    simpa only [List.cons_append, List.append_assoc] using hs
  | emptyTag hn ha _ ih =>
    have hs := emptyTag hn ha (ih h')
    simpa only [List.cons_append, List.append_assoc] using hs
  | endTag hn _ ih =>
    have hs := endTag hn (ih h')
    simpa only [List.cons_append, List.append_assoc] using hs

/-- Elements around the markup stay open. -/
theorem frame (h : Nested open₁ s open₂) (outer : List Text) : Nested (open₁ ++ outer) s (open₂ ++ outer) := by
  induction h with
  | nil => exact .nil
  | char h₁ h₂ _ ih => exact .char h₁ h₂ ih
  | reference hn _ ih => exact .reference hn ih
  | startTag hn ha _ ih => exact .startTag hn ha ih
  | emptyTag hn ha _ ih => exact .emptyTag hn ha ih
  | endTag hn _ ih => exact .endTag hn ih

theorem of_balanced (h : Balanced s) (outer : List Text) : Nested outer s outer := h.frame outer

theorem plain {open' : List Text} : ∀ {s : Text}, (∀ c ∈ s, c ≠ '<' ∧ c ≠ '&') → Nested open' s open'
  | [], _ => .nil
  | c :: _, h =>
    .char (h c List.mem_cons_self).1 (h c List.mem_cons_self).2
      (plain fun d hd => h d (List.mem_cons_of_mem c hd))

end Nested

/-! ### White space at the ends -/

/-- What stays true when white space at an end is taken away stays true when all of it is. -/
theorem trim_of {Q : Text → Prop} (first : ∀ {c s}, isSpace c → Q (c :: s) → Q s)
    (last : ∀ {c s}, isSpace c → Q (s ++ [c]) → Q s) {s : Text} (h : Q s) : Q (trim s) := by
  have hstart : ∀ s : Text, Q s → Q (trimStart s) := by
    intro s
    unfold trimStart
    induction s with
    | nil => exact id
    | cons c s ih =>
      intro hs
      by_cases hc : isSpace c
      · rw [List.dropWhile_cons_of_pos hc]
        exact ih (first hc hs)
      · rw [List.dropWhile_cons_of_neg hc]
        exact hs
  have hend : ∀ r : Text, Q r.reverse → Q (r.dropWhile isSpace).reverse := by
    intro r
    induction r with
    | nil => exact id
    | cons c r ih =>
      intro hr
      by_cases hc : isSpace c
      · rw [List.dropWhile_cons_of_pos hc]
        exact ih (last hc (List.reverse_cons ▸ hr))
      · rw [List.dropWhile_cons_of_neg hc]
        exact hr
  exact hend _ (by rw [List.reverse_reverse]; exact hstart s h)

theorem isSpace_markup {c : Char} (h : isSpace c) : c ≠ '<' ∧ c ≠ '&' ∧ c ≠ '>' ∧ c ≠ ';' := by
  refine ⟨?_, ?_, ?_, ?_⟩ <;>
  · rintro rfl
    revert h
    decide

theorem Nested.of_space_cons {c : Char} {s : Text} {open₁ open₂ : List Text} (hc : isSpace c)
    (h : Nested open₁ (c :: s) open₂) : Nested open₁ s open₂ := by
  obtain ⟨hlt, hamp, -, -⟩ := isSpace_markup hc
  cases h with
  | char _ _ h => exact h
  | reference _ _ => exact absurd rfl hamp
  | startTag _ _ _ => exact absurd rfl hlt
  | emptyTag _ _ _ => exact absurd rfl hlt
  | endTag _ _ => exact absurd rfl hlt

/-- A character at the end that does not end what stands before the rest
belongs to the rest. -/
theorem append_snoc {p s t : Text} {c d : Char} (h : p ++ d :: s = t ++ [c]) (hd : c ≠ d) :
    ∃ s', s = s' ++ [c] ∧ t = p ++ d :: s' := by
  rcases List.eq_nil_or_concat s with rfl | ⟨s', c', rfl⟩
  · have hlast := congrArg List.getLast? h
    simp at hlast
    exact absurd hlast.symm hd
  · have h' : (p ++ d :: s') ++ [c'] = t ++ [c] := by simpa using h
    obtain ⟨h₁, h₂⟩ := List.append_inj' h' rfl
    cases h₂
    exact ⟨s', List.concat_eq_append, h₁.symm⟩

theorem Nested.of_snoc_space {c : Char} {s t : Text} {open₁ open₂ : List Text} (hc : isSpace c)
    (h : Nested open₁ t open₂) (ht : t = s ++ [c]) : Nested open₁ s open₂ := by
  obtain ⟨-, -, hgt, hsemi⟩ := isSpace_markup hc
  induction h generalizing s with
  | nil => simp at ht
  | @char d t _ _ h₁ h₂ hn ih =>
    cases s with
    | nil =>
      cases t with
      | nil => exact hn
      | cons e t => simp at ht
    | cons e s =>
      simp only [List.cons_append, List.cons.injEq] at ht
      obtain ⟨rfl, ht⟩ := ht
      exact .char h₁ h₂ (ih ht)
  | @reference name t _ _ hname _ ih =>
    obtain ⟨t', rfl, rfl⟩ := append_snoc (p := '&' :: name) ht hsemi
    exact .reference hname (ih rfl)
  | @startTag name attrs t _ _ hname hattrs _ ih =>
    obtain ⟨t', rfl, rfl⟩ := append_snoc (p := '<' :: name ++ attrs) ht hgt
    exact .startTag hname hattrs (ih rfl)
  | @emptyTag name attrs t _ _ hname hattrs _ ih =>
    have ht' : ('<' :: name ++ attrs ++ ['/']) ++ '>' :: t = s ++ [c] := by simpa using ht
    obtain ⟨t', rfl, rfl⟩ := append_snoc ht' hgt
    have hs := emptyTag hname hattrs (ih rfl)
    simpa using hs
  | @endTag name t _ _ hname _ ih =>
    obtain ⟨t', rfl, rfl⟩ := append_snoc (p := '<' :: '/' :: name) ht hgt
    exact .endTag hname (ih rfl)

/-- Markup without the white space around it is nested like before. -/
theorem Nested.trim {s : Text} {open₁ open₂ : List Text} (h : Nested open₁ s open₂) : Nested open₁ (trim s) open₂ :=
  trim_of (Q := fun s => Nested open₁ s open₂) (fun hc => of_space_cons hc) (fun hc h => of_snoc_space hc h rfl) h

/-! ### Escaped text -/

theorem nested_contentChar {s : Text} {open₁ open₂ : List Text} (c : Char) (h : Nested open₁ s open₂) :
    Nested open₁ (contentChar c ++ s) open₂ := by
  unfold contentChar
  split
  · exact .reference (show isEntityName "lt".toList by decide) h
  · next hlt =>
    split
    · exact .reference (show isEntityName "gt".toList by decide) h
    · split
      · exact .reference (show isEntityName "amp".toList by decide) h
      · next hamp => exact .char (by simpa using hlt) (by simpa using hamp) h

theorem nested_escapeContent {open' : List Text} : ∀ s : Text, Nested open' (escapeContent s) open'
  | [] => .nil
  | c :: s => nested_contentChar c (nested_escapeContent s)

theorem nested_escapeText {open' : List Text} (s : Text) : Nested open' (escapeText s) open' := by
  fun_induction escapeText s with
  | case1 => exact .nil
  | case2 c s hc name rest he ih =>
    obtain ⟨_, hname⟩ := Option.filter_eq_some_iff.1 he
    exact .reference hname ih
  | case3 c s _ _ ih => exact nested_contentChar c ih
  | case4 c s _ ih => exact nested_contentChar c ih

theorem isValue_attributeChar {s : Text} (c : Char) (h : IsValue s) : IsValue (attributeChar c ++ s) := by
  unfold attributeChar contentChar
  split
  · exact .reference (show isEntityName "apos".toList by decide) h
  · split
    · exact .reference (show isEntityName "quot".toList by decide) h
    · next hquot =>
      split
      · exact .reference (show isEntityName "lt".toList by decide) h
      · next hlt =>
        split
        · exact .reference (show isEntityName "gt".toList by decide) h
        · split
          · exact .reference (show isEntityName "amp".toList by decide) h
          · next hamp => exact .char (by simpa using hlt) (by simpa using hamp) (by simpa using hquot) h

theorem isValue_escapeAttribute : ∀ s : Text, IsValue (escapeAttribute s)
  | [] => .nil
  | c :: s => isValue_attributeChar c (isValue_escapeAttribute s)

end QuartoPretext.Markup
