/-
# Attribute blocks

The inside of an attribute block such as `#sec-a .wide width="70%"`: an
identifier, classes and keyed values. What is none of these is passed over
character by character.

Key definitions: `Attribute`, `Attribute.read`, `Attributes.list`,
`Attributes`, `Attributes.parse`.
-/
import QuartoPretext.Assoc
import QuartoPretext.Text.Basic

namespace QuartoPretext

/-- One entry of an attribute block. -/
inductive Attribute
  | ident (name : Text)
  | className (name : Text)
  | keyed (key value : Text)
  deriving Repr, DecidableEq

/-- What the entries of an attribute block say together. -/
structure Attributes where
  id : Option Text
  classes : List Text
  values : Assoc Text Text
  deriving Repr, DecidableEq

namespace Text

theorem length_cutWhere? {p : Char → Bool} : ∀ {s a b : Text},
    cutWhere? p s = some (a, b) → a.length + b.length + 1 = s.length
  | [], _, _, h => by simp [cutWhere?] at h
  | c :: s, a, b, h => by
    unfold cutWhere? at h
    split at h
    · simp only [Option.some.injEq, Prod.mk.injEq] at h
      simp [← h.1, ← h.2]
    · obtain ⟨⟨a', b'⟩, h', e⟩ := Option.map_eq_some_iff.1 h
      have := length_cutWhere? h'
      simp only [Prod.mk.injEq] at e
      simp [← e.1, ← e.2]
      omega

end Text

namespace Attribute

open Text

/-- Identifiers and classes end at white space and at the start of another. -/
def isNameChar (c : Char) : Bool := !(isSpace c || c == '.' || c == '#')

/-- Whether a text can be the key of a value. -/
def isKey (key : Text) : Bool :=
  match key with
  | [] => false
  | c :: _ => !key.any isSpace && c != '#' && c != '.'

/-- A value up to its closing quote, and what follows the quote. -/
def quoted? (quote : Char) (s : Text) : Option (Text × Text) := cutWhere? (· == quote) s

/-- The value after an equals sign, and what follows it: quoted, or up to white
space. -/
def value? (s : Text) : Option (Text × Text) :=
  match s with
  | '"' :: rest => quoted? '"' rest
  | '\'' :: rest => quoted? '\'' rest
  | _ => some (s.takeWhile (!isSpace ·), s.dropWhile (!isSpace ·))

/-- A key and its value, and what follows them. -/
def keyed? (s : Text) : Option (Attribute × Text) :=
  match cutWhere? (· == '=') s with
  | none => none
  | some (before, after) =>
    if isKey (trim before) then
      (value? after).map fun (v, rest) => (keyed (trim before) v, rest)
    else none

/-- An entry made of a name, if the name is not empty. -/
def named (make : Text → Attribute) (s : Text) : Option Attribute × Text :=
  let name := s.takeWhile isNameChar
  (if name.isEmpty then none else some (make name), s.dropWhile isNameChar)

/-- Reads an entry that starts with `c` and goes on with `s`; what starts no
entry loses its first character. -/
def read (c : Char) (s : Text) : Option Attribute × Text :=
  if c == '#' then named ident s
  else if c == '.' then named className s
  else
    match keyed? (c :: s) with
    | some (a, rest) => (some a, rest)
    | none => (none, s)

theorem length_dropWhile_le (p : Char → Bool) (s : Text) : (s.dropWhile p).length ≤ s.length :=
  (List.dropWhile_sublist p).length_le

theorem length_value? {s v rest : Text} (h : value? s = some (v, rest)) :
    rest.length ≤ s.length := by
  unfold value? quoted? at h
  split at h
  · have := length_cutWhere? h
    simp only [List.length_cons]
    omega
  · have := length_cutWhere? h
    simp only [List.length_cons]
    omega
  · simp only [Option.some.injEq, Prod.mk.injEq] at h
    rw [← h.2]
    exact length_dropWhile_le _ _

theorem length_keyed? {s rest : Text} {a : Attribute} (h : keyed? s = some (a, rest)) :
    rest.length < s.length := by
  unfold keyed? at h
  split at h
  · simp at h
  · next before after hc =>
    split at h
    · obtain ⟨⟨v, r⟩, hv, e⟩ := Option.map_eq_some_iff.1 h
      simp only [Prod.mk.injEq] at e
      have h1 := length_cutWhere? hc
      have h2 := length_value? hv
      rw [← e.2]
      omega
    · simp at h

/-- Reading an entry uses up its first character at least. -/
theorem length_read (c : Char) (s : Text) : (read c s).2.length ≤ s.length := by
  unfold read
  split
  · exact length_dropWhile_le _ _
  · split
    · exact length_dropWhile_le _ _
    · split
      · next h =>
        have := length_keyed? h
        exact Nat.lt_succ_iff.1 this
      · exact Nat.le_refl _

end Attribute

namespace Attributes

open Text

def none : Attributes := ⟨Option.none, [], Assoc.empty⟩

instance : Inhabited Attributes := ⟨none⟩

/-- The entries of an attribute block, in order. -/
def list (s : Text) : List Attribute :=
  match _h : trimStart s with
  | [] => []
  | c :: rest => (Attribute.read c rest).1.toList ++ list (Attribute.read c rest).2
termination_by s.length
decreasing_by
  have h1 := Attribute.length_dropWhile_le isSpace s
  have h2 := Attribute.length_read c rest
  have h3 := congrArg List.length _h
  simp only [trimStart, List.length_cons] at h3
  omega

/-- A later identifier or value replaces an earlier one; classes add up. -/
def add (as : Attributes) : Attribute → Attributes
  | .ident name => { as with id := some name }
  | .className name => { as with classes := as.classes ++ [name] }
  | .keyed k v => { as with values := as.values.insert k v }

/-- Reads the inside of an attribute block. -/
def parse (s : Text) : Attributes := (list s).foldl add none

/-- The value of a key. -/
def get? (as : Attributes) (key : Text) : Option Text := as.values.get? key

end Attributes
end QuartoPretext
