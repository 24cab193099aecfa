/-
# Front matter

A document may start with a YAML mapping. Its title and its identifier are
taken; other keys are passed over.

Key definitions: `FrontMatter`, `FrontMatter.parse?`.
-/
import QuartoPretext.Yaml.Node

namespace QuartoPretext

structure FrontMatter where
  title : Option Text
  id : Option Text
  deriving Repr, DecidableEq

namespace FrontMatter

open Yaml

def empty : FrontMatter := ⟨none, none⟩

/-- The ways to write that there is no value. -/
def nullNames : List Text := ["null", "Null", "NULL", "~"].map String.toList

/-- The tag of the missing value. -/
def nullTag : Text := "tag:yaml.org,2002:null".toList

/-- The text of a value, if it has one. A plain scalar may say that there is
none; it is taken as it is written otherwise. -/
def value? (anchors : Anchors) (n : Node) : Option (Option Text) :=
  match anchors.scalar? n with
  | some (s, tag) =>
    if !s.plain then some (some s.text)
    else if tag == some nullTag then if nullNames.contains s.text then some none else none
    else if tag.isSome then some (some s.text)
    else if s.text.isEmpty || nullNames.contains s.text then some none
    else some (some s.text)
  | none => none

/-- The text of a key. -/
def key? (anchors : Anchors) (n : Node) : Option Text := (anchors.scalar? n).map (·.1.text)

/-- The values of a key, as often as it stands in a mapping. -/
def valuesOf (anchors : Anchors) (key : Text) (entries : List (Node × Node)) : List Node :=
  (entries.filter fun e => key? anchors e.1 == some key).map (·.2)

/-- The value of a key that may be missing but not stand twice. -/
def field? (anchors : Anchors) (key : Text) (entries : List (Node × Node)) : Option (Option Text) :=
  match valuesOf anchors key entries with
  | [] => some none
  | [v] => value? anchors v
  | _ => none

/-- Takes title and identifier out of a mapping, whose keys are scalars. -/
def ofEntries? (anchors : Anchors) (entries : List (Node × Node)) : Option FrontMatter :=
  if entries.any fun e => (key? anchors e.1).isNone then none
  else
    match field? anchors "title".toList entries, field? anchors "id".toList entries with
    | some title, some id => some ⟨title, id⟩
    | _, _ => none

/-- Takes front matter from a node. A scalar that is not written out stands for
the empty mapping. -/
def ofNode? (anchors : Anchors) : Node → Option FrontMatter
  | .mapping entries => ofEntries? anchors entries
  | .scalar s _ => if s.plain && s.text.isEmpty then some empty else none
  | _ => none

/-- Reads the text between the lines around front matter. -/
def parse? (yaml : Text) : Option FrontMatter :=
  if Text.isBlank yaml then some empty
  else
    match Document.parse? yaml with
    | some .empty => some empty
    | some (.node n anchors) => ofNode? anchors n
    | none => none

end FrontMatter
end QuartoPretext
