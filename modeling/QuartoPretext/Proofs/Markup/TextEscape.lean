/-
# Escaped text says the same

Running text may hold entity references, and escaping leaves them where they are:
the text before a reference and the text after it are escaped on their own. All
other ampersands and the angle brackets become references, so nothing is left to
escape, and a reader who takes the three references for their characters reads the
same text before and after.

Key definitions: `EntityName`, `unescapeContent`.
Key theorems: `isEntityName_iff`, `escapeText_append_reference`,
`unescape_escape`, `unescapeContent_escapeText`, `escapeText_safe`.
-/
import QuartoPretext.Proofs.Markup.Reference
import QuartoPretext.Proofs.Text.Division

namespace QuartoPretext.Markup

open Text

/-- What may stand between the two ends of an entity reference: a number in decimal or
hexadecimal digits, or a letter with letters and digits after it. -/
inductive EntityName : Text → Prop
  | decimal {digits : Text} : digits ≠ [] → (∀ c ∈ digits, c.isDigit) → EntityName ('#' :: digits)
  | hexadecimal {x : Char} {digits : Text} : x = 'x' ∨ x = 'X' → digits ≠ [] → (∀ c ∈ digits, isHexDigit c) →
      EntityName ('#' :: x :: digits)
  | alphanumeric {c : Char} {s : Text} : c.isAlpha → (∀ d ∈ c :: s, d.isAlphanum) → EntityName (c :: s)

/-- Element content as text: what the three references stand for. -/
def unescapeContent : Text → Text
  | '&' :: 'l' :: 't' :: ';' :: s => '<' :: unescapeContent s
  | '&' :: 'g' :: 't' :: ';' :: s => '>' :: unescapeContent s
  | '&' :: 'a' :: 'm' :: 'p' :: ';' :: s => '&' :: unescapeContent s
  | c :: s => c :: unescapeContent s
  | [] => []

variable {s t name : Text} {c : Char}

/-! ### Names -/

theorem isEntityName_iff : isEntityName name ↔ EntityName name := by
  constructor
  · intro h
    unfold isEntityName at h
    split at h
    · cases h
    all_goals simp only [Bool.and_eq_true, Bool.not_eq_true', List.isEmpty_eq_false_iff, List.all_eq_true] at h
    · exact .hexadecimal (.inl rfl) h.1 h.2
    · exact .hexadecimal (.inr rfl) h.1 h.2
    · exact .decimal h.1 h.2
    · exact .alphanumeric h.1 h.2
  · intro h
    cases h with
    | @decimal digits hne hdigits =>
      obtain ⟨d, more, rfl⟩ := List.exists_cons_of_ne_nil hne
      have hd : d.isDigit := hdigits d List.mem_cons_self
      unfold isEntityName
      split
      · next h => cases h
      · next h =>
        cases h
        cases hd
      · next h =>
        cases h
        cases hd
      · next h =>
        cases h
        simpa using hdigits
      · next hnumber h =>
        cases h
        exact absurd rfl hnumber
    | hexadecimal hx hne hdigits =>
      rcases hx with rfl | rfl <;> simpa [isEntityName, hne] using hdigits
    | @alphanumeric c s hc hs =>
      have hnumber : c ≠ '#' := by
        rintro rfl
        cases hc
      unfold isEntityName
      split
      · next h => cases h
      · next h => exact absurd (List.cons.inj h).1 hnumber
      · next h => exact absurd (List.cons.inj h).1 hnumber
      · next h => exact absurd (List.cons.inj h).1 hnumber
      · next h =>
        cases h
        simpa [hc] using hs

theorem EntityName.not_mem (h : EntityName name) : '&' ∉ name := by
  intro hmem
  rcases isEntityName_char (isEntityName_iff.2 h) _ hmem with hh | hh
  · cases hh
  · revert hh
    decide

/-! ### References are kept -/

/-- A reference does not reach over an ampersand. -/
theorem entity?_append (h : entity? s = none) (t : Text) : entity? (s ++ '&' :: t) = none := by
  refine Option.eq_none_iff_forall_not_mem.2 fun ⟨name, rest⟩ hfound => ?_
  obtain ⟨hname, hsplit⟩ := entity?_eq hfound
  rcases List.append_eq_append_iff.1 hsplit with ⟨between, hbefore, hafter⟩ | ⟨between, hbefore, hafter⟩
  · -- the name would hold the ampersand
    cases between with
    | nil => cases hafter
    | cons d between =>
      obtain ⟨rfl, -⟩ := List.cons.inj hafter
      exact (isEntityName_iff.1 hname).not_mem (hbefore ▸ List.mem_append_right s List.mem_cons_self)
  · cases between with
    | nil => cases hafter
    | cons d between =>
      obtain ⟨rfl, -⟩ := List.cons.inj hafter
      rw [hbefore, entity?_reference hname] at h
      cases h

theorem escapeText_ampersand (h : entity? s = none) : escapeText ('&' :: s) = "&amp;".toList ++ escapeText s := by
  rw [escapeText, if_pos (beq_self_eq_true '&')]
  split
  · next he =>
    rw [h] at he
    cases he
  · rfl

/-- **A reference is kept as it is written.** What stands before it and what stands
after it is escaped on its own. -/
theorem escapeText_append_reference (hname : isEntityName name) (before after : Text) :
    escapeText (before ++ ('&' :: name ++ ';' :: after)) =
      escapeText before ++ ('&' :: name ++ ';' :: escapeText after) := by
  fun_induction escapeText before with
  | case1 => exact escapeText_reference hname after
  | case2 c s hc first rest he ih =>
    obtain ⟨hfirst, rfl⟩ := entity?_eq he
    obtain rfl := beq_iff_eq.1 hc
    have hsplit : '&' :: (first ++ ';' :: rest) ++ ('&' :: name ++ ';' :: after) =
        '&' :: first ++ ';' :: (rest ++ ('&' :: name ++ ';' :: after)) := by simp
    rw [hsplit, escapeText_reference hfirst, ih]
    simp
  | case3 c s hc he ih =>
    obtain rfl := beq_iff_eq.1 hc
    have hnone : entity? (s ++ ('&' :: name ++ ';' :: after)) = none := entity?_append he _
    rw [List.cons_append, escapeText_ampersand hnone, ih, ← List.append_assoc]
    rfl
  | case4 c s hc ih => rw [List.cons_append, escapeText_char (by simpa using hc), ih, List.append_assoc]

/-- Every ampersand of referenced text starts a reference. -/
theorem Referenced.exists_name (h : Referenced s) : ∀ {before after : Text}, s = before ++ '&' :: after →
    ∃ name rest, EntityName name ∧ after = name ++ ';' :: rest := by
  induction h with
  | nil => intro before after h; simp at h
  | @char c s hc _ ih =>
    intro before after h
    cases before with
    | nil => exact absurd (List.cons.inj h).1 hc
    | cons d before => exact ih (List.cons.inj h).2
  | @reference name s hname _ ih =>
    intro before after h
    cases before with
    | nil => exact ⟨name, s, isEntityName_iff.1 hname, (List.cons.inj h).2.symm⟩
    | cons d before =>
      have hrest : (name ++ [';']) ++ s = before ++ '&' :: after := by simpa using (List.cons.inj h).2
      have hamp : '&' ∉ name ++ [';'] := by simp [(isEntityName_iff.1 hname).not_mem]
      obtain ⟨more, -, hmore⟩ := exists_append_of_not_mem hrest.symm hamp
      exact ih hmore

/-! ### Reading escaped text -/

theorem unescapeContent_cons (h : c ≠ '&') (s : Text) : unescapeContent (c :: s) = c :: unescapeContent s := by
  rw [unescapeContent]
  all_goals
    intro _ hc _
    exact h hc

theorem unescapeContent_append : ∀ {s : Text}, '&' ∉ s → ∀ t, unescapeContent (s ++ t) = s ++ unescapeContent t
  | [], _, _ => rfl
  | c :: s, h, t => by
    rw [List.mem_cons, not_or] at h
    rw [List.cons_append, unescapeContent_cons (Ne.symm h.1), unescapeContent_append h.2]
    rfl

/-- An ampersand that starts none of the three references stands for itself. -/
theorem unescapeContent_ampersand (hlt : ∀ t, s ≠ "lt;".toList ++ t) (hgt : ∀ t, s ≠ "gt;".toList ++ t)
    (hamp : ∀ t, s ≠ "amp;".toList ++ t) : unescapeContent ('&' :: s) = '&' :: unescapeContent s := by
  rw [unescapeContent]
  · rintro t - rfl
    exact hlt t rfl
  · rintro t - rfl
    exact hgt t rfl
  · rintro t - rfl
    exact hamp t rfl

theorem unescapeContent_contentChar (c : Char) (s : Text) :
    unescapeContent (contentChar c ++ s) = c :: unescapeContent s := by
  unfold contentChar
  split
  · next h => simp [unescapeContent, beq_iff_eq.1 h]
  · split
    · next h => simp [unescapeContent, beq_iff_eq.1 h]
    · split
      · next h => simp [unescapeContent, beq_iff_eq.1 h]
      · next h => exact unescapeContent_cons (by simpa using h) s

/-- Escaping is undone. -/
theorem unescape_escape : ∀ s : Text, unescapeContent (escapeContent s) = s
  | [] => rfl
  | c :: s => by
    have hcons : escapeContent (c :: s) = contentChar c ++ escapeContent s := rfl
    rw [hcons, unescapeContent_contentChar, unescape_escape s]

/-- What a reference reads as does not depend on the text after it. -/
theorem unescapeContent_reference (hname : isEntityName name) : ∃ read, ∀ t,
    unescapeContent ('&' :: name ++ ';' :: t) = read ++ unescapeContent t := by
  by_cases hlt : name = "lt".toList
  · exact ⟨['<'], fun t => by simp [hlt, unescapeContent]⟩
  by_cases hgt : name = "gt".toList
  · exact ⟨['>'], fun t => by simp [hgt, unescapeContent]⟩
  by_cases hamp : name = "amp".toList
  · exact ⟨['&'], fun t => by simp [hamp, unescapeContent]⟩
  have other {word : Text} (hne : name ≠ word) (hword : ';' ∉ word) (t u : Text) : name ++ ';' :: t ≠ word ++ [';'] ++ u :=
    fun h => hne (append_cons_inj (by simpa using h) (semicolon_not_mem hname) hword).1
  have hnot : '&' ∉ name ++ [';'] := by simp [(isEntityName_iff.1 hname).not_mem]
  refine ⟨'&' :: (name ++ [';']), fun t => ?_⟩
  rw [List.cons_append, unescapeContent_ampersand (other hlt (by decide) t) (other hgt (by decide) t) (other hamp (by decide) t)]
  have happend := unescapeContent_append hnot t
  rw [List.append_assoc] at happend
  exact congrArg ('&' :: ·) happend

/-- Where no reference starts, none of the three does. -/
theorem ne_of_entity?_eq_none (h : entity? s = none) (hname : isEntityName name) : ∀ t, s ≠ name ++ [';'] ++ t := by
  rintro t rfl
  rw [List.append_assoc, List.singleton_append, entity?_reference hname] at h
  cases h

/-- Escaping does not change what is read. -/
theorem unescapeContent_escapeText (s : Text) : unescapeContent (escapeText s) = unescapeContent s := by
  fun_induction escapeText s with
  | case1 => rfl
  | case2 c s hc name rest he ih =>
    obtain ⟨hname, rfl⟩ := entity?_eq he
    obtain rfl := beq_iff_eq.1 hc
    obtain ⟨read, hread⟩ := unescapeContent_reference hname
    rw [hread, ih]
    exact (hread rest).symm
  | case3 c s hc he ih =>
    obtain rfl := beq_iff_eq.1 hc
    have hlt : isEntityName "lt".toList := by decide
    have hgt : isEntityName "gt".toList := by decide
    have hamp : isEntityName "amp".toList := by decide
    rw [unescapeContent_contentChar, ih, unescapeContent_ampersand (ne_of_entity?_eq_none he hlt)
      (ne_of_entity?_eq_none he hgt) (ne_of_entity?_eq_none he hamp)]
  | case4 c s hc ih => rw [unescapeContent_contentChar, ih, unescapeContent_cons (by simpa using hc)]

/-- **Escaping text is safe and idempotent.** Escaped text has no angle bracket, and
each of its ampersands starts an entity reference; escaping it again changes nothing.
Every reference of the text is kept between the escaped texts around it, and the
escaped text reads as the text does. -/
theorem escapeText_safe (t : Text) :
    (∀ c ∈ escapeText t, c ≠ '<' ∧ c ≠ '>') ∧
    (∀ before after, escapeText t = before ++ '&' :: after → ∃ name rest, EntityName name ∧ after = name ++ ';' :: rest) ∧
    escapeText (escapeText t) = escapeText t ∧
    (∀ before name after, EntityName name → t = before ++ ('&' :: name ++ ';' :: after) →
      escapeText t = escapeText before ++ ('&' :: name ++ ';' :: escapeText after)) ∧
    unescapeContent (escapeText t) = unescapeContent t := by
  have hsettled := settled_escapeText t
  refine ⟨hsettled.angleless, fun before after h => hsettled.referenced.exists_name h, hsettled.escapeText_eq, ?_,
    unescapeContent_escapeText t⟩
  rintro before name after hname rfl
  exact escapeText_append_reference (isEntityName_iff.2 hname) before after

example : escapeText "&a&b; &#x; <".toList = "&amp;a&b; &amp;#x; &lt;".toList := by decide +kernel

end QuartoPretext.Markup
