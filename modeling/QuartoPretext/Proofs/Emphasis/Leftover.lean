/-
# Warnings about delimiters that are left

There is one warning for each run that is reported, in the order of the text, and
it quotes the delimiters that are left of the run. Which runs are reported is
decided when all pairs are made: by then a run within an element counts as one
that cannot open, although its neighbours would let it.

Key definitions: `Place.opensStill`, `Place.report`.
Key theorems: `filterMap_places`, `Place.Settled.report_eq`, `resolve_reports`.
-/
import QuartoPretext.Proofs.Emphasis.Account

namespace QuartoPretext.Emphasis

namespace Place

variable (p : Place)

/-- Whether a run could open an element that begins at its place. -/
def opensStill : Bool := p.canOpen && !p.isInside

/-- The warning about what is left of a run. -/
def report : Option Cause :=
  if 0 < p.run.unmatched && (p.opensStill || p.canClose) && !(p.run.char == '_' && p.opensStill && p.canClose) then
    some (.unmatched (List.replicate p.run.unmatched p.run.char))
  else none

end Place

/-- What is said of the runs is said of their places. -/
theorem filterMap_places {α : Type} (f : DelimiterRun → Option α) : ∀ (ns before : List Node),
    (places before ns).filterMap (fun p => f p.run) = (runs ns).filterMap f
  | [], _ => rfl
  | .cell c :: ns, before => filterMap_places f ns (before ++ [.cell c])
  | .run r :: ns, before => by
    have ih := filterMap_places f ns (before ++ [.run r])
    have hruns : runs (.run r :: ns) = r :: runs ns := rfl
    rw [places, hruns, List.filterMap_cons, List.filterMap_cons, ih]

theorem warnings_eq (rs : List DelimiterRun) : warnings rs = rs.filterMap fun r =>
    if isReported r then some (.unmatched (List.replicate r.unmatched r.char)) else none := by
  rw [warnings, ← List.filterMap_eq_map, List.filterMap_filter]
  rfl

theorem Place.Settled.report_eq {p : Place} (h : p.Settled) : p.report =
    if isReported p.run then some (.unmatched (List.replicate p.run.unmatched p.run.char)) else none := by
  rw [Place.report, isReported, h.canOpen, h.canClose]
  rfl

/-- **One warning for each run that is reported.** Of a run with delimiters left
that its neighbours let open or close, low lines that could do both apart, there
is a warning exactly if it could close, or is not within an element. -/
theorem resolve_reports (spans : List Span) : ∃ ns, Accounts spans ns ∧
    (resolve spans).2 = (places [] ns).filterMap Place.report ∧
    ∀ p ∈ places [] ns, 0 < p.run.unmatched → (p.canOpen || p.canClose) = true →
      ¬(p.run.char = '_' ∧ p.canOpen = true ∧ p.canClose = true) →
      p.report = if p.canClose || !p.isInside then some (.unmatched (List.replicate p.run.unmatched p.run.char))
        else none := by
  obtain ⟨ns, haccounts, hwarnings, hsettled⟩ := exists_settled spans
  refine ⟨ns, haccounts, ?_, fun p _ hleft hcan hboth => ?_⟩
  · rw [hwarnings, warnings_eq, ← filterMap_places _ ns []]
    exact List.filterMap_congr fun p hp => (hsettled p hp).report_eq.symm
  · have hlines : (p.run.char == '_' && p.canOpen && p.canClose) = false := by
      simpa [and_assoc] using hboth
    unfold Place.report Place.opensStill
    cases hclose : p.canClose with
    | true =>
      rw [hclose, Bool.and_true] at hlines
      simp [hleft, ← Bool.and_assoc, hlines]
    | false =>
      rw [hclose, Bool.or_false] at hcan
      simp [hleft, hcan]

/-- A low line that starts a word within an element is left, and nothing is said. -/
theorem resolve_enclosed_silent : ∃ cs ds : List Cell,
    Span.toCells [.text "*a _b c*".toList] = cs ++ List.replicate 1 (.char '_') ++ ds ∧
    IsRun cs.getLast? '_' 1 ds.head? ∧
    canOpen '_' (.of cs.getLast?) (.of ds.head?) = true ∧ canClose '_' (.of cs.getLast?) (.of ds.head?) = false ∧
    resolve [.text "*a _b c*".toList] =
      ([.mark (.emphasisOpen .em), .text "a _b c".toList, .mark (.emphasisClose .em)], []) :=
  ⟨Span.cellsOf "*a ".toList, Span.cellsOf "b c*".toList, by decide,
    ⟨by decide, by decide, by decide, by decide, by decide⟩, by decide +kernel, by decide +kernel, by decide +kernel⟩

end QuartoPretext.Emphasis
