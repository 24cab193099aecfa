/-
# Settings in a TOML document

The document has a table for each group of settings. What is not set keeps its
standard value, and entries that are no settings only have to be readable. A
group may also be written as a list of its values in order; a date stands for a
group where nothing is set.

Key definitions: `entries?`, `setting?`, `Config.ofToml?`.
-/
import QuartoPretext.Config.Basic
import QuartoPretext.Toml.Reader

namespace QuartoPretext.Config

open Toml

/-- The values of a group with given settings, by name. -/
def entries? (names : List Text) : Value → Option Entries
  | .table _ entries =>
    if entries.all fun (k, v) => names.contains k || v.isReadable then some entries else none
  | .array _ elements => some (names.zip elements)
  | .dateTime => some []
  | _ => none

/-- The value of a setting, or a standard value if it is not set. -/
def setting? {α : Type} (read : Value → Option α) (standard : α) (name : String)
    (entries : Entries) : Option α :=
  match entries.lookup name.toList with
  | none => some standard
  | some v => read v

def text? : Value → Option Text
  | .string t => some t
  | _ => none

def texts? : Value → Option (List Text)
  | .array _ elements => elements.mapM text?
  | _ => none

def isEmpty : Value → Bool
  | .array _ elements => elements.isEmpty
  | .table _ entries => entries.isEmpty
  | _ => false

/-- A choice by its exact name. The name may also be the only key of a table, with
an empty value. -/
def choice? {α : Type} [Policy α] : Value → Option α
  | .string t => Policy.ofName? t
  | .table _ [(k, v)] => if isEmpty v then Policy.ofName? k else none
  | _ => none

/-- A group of settings. -/
def group? (name : String) (settings : List String) (document : Entries) : Option Entries :=
  setting? (entries? (settings.map String.toList)) [] name document

/-- The beginning of derived identifiers in the group of a kind of document. -/
def ids? (group : String) (document : Entries) : Option (Option Text) :=
  (group? group ["id_prefix"] document).bind (setting? (fun v => (text? v).map some) none "id_prefix")

/-- The settings of a document. -/
def ofEntries? (document : Entries) : Option Config := do
  let groups := ["output", "chapter", "exercises", "divs", "xref"]
  let document ← entries? (groups.map String.toList) (.table .header document)
  let output ← group? "output" ["image_dir", "figure_width", "code_blocks", "citations"] document
  let divs ← group? "divs" ["skip"] document
  let xref ← group? "xref" ["prefixes"] document
  return {
    imageDir := ← setting? text? standard.imageDir "image_dir" output
    figureWidth := ← setting? text? standard.figureWidth "figure_width" output
    codeBlocks := ← setting? choice? standard.codeBlocks "code_blocks" output
    citations := ← setting? choice? standard.citations "citations" output
    chapterIds := ← ids? "chapter" document
    exercisesIds := ← ids? "exercises" document
    skipDivs := ← setting? texts? standard.skipDivs "skip" divs
    xrefPrefixes := ← setting? texts? standard.xrefPrefixes "prefixes" xref }

/-- The settings that a TOML text makes. -/
def ofToml? (s : Text) : Option Config := (Toml.parse? s).bind ofEntries?

end QuartoPretext.Config
