/-
# Escaping

Text becomes element content by replacing three characters, and an attribute
value by replacing five. Running text may hold entity references already;
`escapeText` leaves them as they are.

Key definitions: `escapeContent`, `escapeAttribute`, `escapeText`, `entity?`,
`isEntityName`.
-/
import QuartoPretext.Attributes.Basic

namespace QuartoPretext.Markup

open Text

/-- A character of element content. -/
def contentChar (c : Char) : Text :=
  if c == '<' then "&lt;".toList
  else if c == '>' then "&gt;".toList
  else if c == '&' then "&amp;".toList
  else [c]

/-- A character of an attribute value. -/
def attributeChar (c : Char) : Text :=
  if c == '\'' then "&apos;".toList
  else if c == '"' then "&quot;".toList
  else contentChar c

/-- Text as element content. -/
def escapeContent (s : Text) : Text := s.flatMap contentChar

/-- Text as an attribute value. -/
def escapeAttribute (s : Text) : Text := s.flatMap attributeChar

def isHexDigit (c : Char) : Bool :=
  c.isDigit || ('a' ≤ c && c ≤ 'f') || ('A' ≤ c && c ≤ 'F')

/-- What may stand between `&` and `;`: a name, or a number in decimal or
hexadecimal digits. -/
def isEntityName (name : Text) : Bool :=
  match name with
  | [] => false
  | '#' :: 'x' :: digits | '#' :: 'X' :: digits => !digits.isEmpty && digits.all isHexDigit
  | '#' :: digits => !digits.isEmpty && digits.all Char.isDigit
  | c :: _ => c.isAlpha && name.all Char.isAlphanum

/-- The name of the entity reference that an ampersand before `s` starts, and
the text after the reference. -/
def entity? (s : Text) : Option (Text × Text) :=
  (cutWhere? (· == ';') s).filter fun nr => isEntityName nr.1

theorem length_entity? {s name rest : Text} (h : entity? s = some (name, rest)) :
    rest.length < s.length := by
  obtain ⟨h, _⟩ := Option.filter_eq_some_iff.1 h
  have := length_cutWhere? h
  omega

/-- Running text as element content: entity references stay as they are. -/
def escapeText : Text → Text
  | [] => []
  | c :: s =>
    if c == '&' then
      match _h : entity? s with
      | some (name, rest) => '&' :: name ++ ';' :: escapeText rest
      | none => contentChar c ++ escapeText s
    else contentChar c ++ escapeText s
termination_by s => s.length
decreasing_by
  · have := length_entity? _h
    simp only [List.length_cons]
    omega
  · simp
  · simp

end QuartoPretext.Markup
