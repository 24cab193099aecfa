/-
# Emphasis nests and spends only delimiters

Two things are true of every text. The tags that the rule puts in are nested, and
they are nested with the scopes if these are nested themselves. And a cell that
the rule takes away is a delimiter that one tag stands for: it belongs to a run
that no backslash escapes and that is not within a word, if it is of low lines.

Key theorems: `resolve_nested`, `canOpen_within_word`, `resolve_spends`.
-/
import QuartoPretext.Proofs.Emphasis.Account
import QuartoPretext.Proofs.Text.Characters

namespace QuartoPretext

namespace Emphasis

open DelimiterRun

variable {spans : List Span}

/-- In spans whose scopes are nested, and each entered once, the tags of emphasis
and the edges of scopes are nested. -/
theorem resolve_nested (h : Nested [] ((Span.toCells spans).flatMap scopeTags) [])
    (hnodup : (entered ((Span.toCells spans).flatMap scopeTags)).Nodup) :
    ∃ ns, Accounts spans ns ∧ Nested [] (tags true ns) [] := by
  obtain ⟨ns, hlaid, hruns⟩ := exists_laid true h hnodup
  exact ⟨ns.reverse, hlaid.accounts hruns, hlaid.nested⟩

/-- One pair is made within a link and one around it, and none across its edge. -/
theorem resolve_nested_link : ∃ spans : List Span,
    spans = [.text "*a ".toList, .mark (.linkOpen "u".toList 0), .text "b* *c*".toList, .mark (.linkClose 0),
      .text " d*".toList] ∧
    (resolve spans).1 = [.mark (.emphasisOpen .em), .text "a ".toList, .mark (.linkOpen "u".toList 0),
      .text "b* ".toList, .mark (.emphasisOpen .em), .text "c".toList, .mark (.emphasisClose .em), .mark (.linkClose 0),
      .text " d".toList, .mark (.emphasisClose .em)] ∧
    ∃ ns, Accounts spans ns ∧ Nested [] (tags true ns) [] := by
  refine ⟨_, rfl, by decide +kernel, resolve_nested ?_ (by decide)⟩
  exact .opening (.enter 0) (.closing (.leave 0) .nil)

/-! ### What is spent -/

theorem flank_of_alphanumeric {c : Char} (h : Text.isAlphanumeric c = true) : Flank.ofChar c = .other := by
  have hspace : ¬Text.isSpace c = true := fun hs => by
    rw [Text.isAlphanumeric_of_isSpace hs] at h
    cases h
  have hpunct : Text.isAsciiPunctuation c = false := by
    by_contra hp
    simp only [Bool.not_eq_false, Text.isAsciiPunctuation, Bool.and_eq_true, decide_eq_true_eq,
      Bool.not_eq_true'] at hp
    obtain ⟨⟨-, hle⟩, halpha⟩ := hp
    rw [Text.isAlphanumeric, if_pos (by omega), halpha] at h
    cases h
  simp [Flank.ofChar, hspace, hpunct, h]

/-- A low line between letters or numbers neither opens nor closes. -/
theorem canOpen_within_word : canOpen '_' .other .other = false := by decide

/-- **Only matched delimiters go.** A run that has lost delimiters to its tags
does not follow a backslash, and is not of low lines with letters or numbers at
both sides. -/
theorem resolve_spends (spans : List Span) : ∃ ns, Accounts spans ns ∧
    ∀ p ∈ places [] ns, p.run.unmatched < p.run.delimiters → p.left ≠ some (.char '\\') ∧
      ¬(p.run.char = '_' ∧ ∃ a b, p.left = some (.char a) ∧ p.right = some (.char b) ∧
        Text.isAlphanumeric a = true ∧ Text.isAlphanumeric b = true) := by
  obtain ⟨ns, haccounts, -, hsettled⟩ := exists_settled spans
  refine ⟨ns, haccounts, fun p hp hlost => ⟨(haccounts.isRun p hp).unescaped, ?_⟩⟩
  rintro ⟨hchar, a, b, hleft, hright, ha, hb⟩
  have hopen : p.canOpen = false := by
    rw [Place.canOpen, hchar, hleft, hright, Flank.of, Flank.of, flank_of_alphanumeric ha, flank_of_alphanumeric hb]
    exact canOpen_within_word
  have hclose : p.canClose = false := by
    rw [Place.canClose, hchar, hleft, hright, Flank.of, Flank.of, flank_of_alphanumeric ha, flank_of_alphanumeric hb]
    exact canOpen_within_word
  have hopened : p.run.opened = [] := by
    by_contra hne
    rw [(hsettled p hp).opens hne] at hopen
    cases hopen
  have hclosed : p.run.closed = [] := by
    by_contra hne
    rw [(hsettled p hp).closes hne] at hclose
    cases hclose
  simp [delimiters, hopened, hclosed] at hlost

end Emphasis
end QuartoPretext
