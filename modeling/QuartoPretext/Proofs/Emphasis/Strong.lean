/-
# Runs of two delimiters

A run of two that gives up any of its delimiters makes a first pair, and both of
them are there to be taken. They are taken at once if the run at the other end
has two left as well. Otherwise one is taken, and the other one stays or makes
a pair of its own.

Key definitions: `Place.IsWhole`, `Place.Joined`.
Key theorems: `Nested.element_of_start`, `Nested.element_of_stop`,
`Place.isWhole_iff`, `resolve_strong`.
-/
import QuartoPretext.Proofs.Emphasis.Account

namespace QuartoPretext.Emphasis

open DelimiterRun

/-! ### The two tags of an element -/

section

variable {σ : List Enclosure} {ts ts₁ ts₂ : List Tag} {c : Char} {e : Emphasis} {k : Nat}

/-- After a start tag, and tags that are nested on their own, its element is open. -/
theorem Nested.element_of_start (h : Nested [] (ts₁ ++ .start c e k :: ts₂) σ) (hin : Nested [] ts₂ []) :
    ∃ τ, σ = .element c e k :: τ := by
  obtain ⟨τ, -, h⟩ := h.of_append
  cases h with
  | opening ht h =>
    cases ht
    exact ⟨τ, h.unique (hin.extend _)⟩
  | closing ht _ => cases ht

/-- Before an end tag, and tags that are nested on their own, its element is open. -/
theorem Nested.element_of_stop (h : Nested σ (ts₁ ++ .stop c e k :: ts₂) []) (hin : Nested [] ts₁ []) :
    ∃ left τ, σ = .element c e left :: τ ∧ (width e = 2 ↔ 2 ≤ left ∧ 2 ≤ k) := by
  obtain ⟨τ, hts, hrest⟩ := h.of_append
  obtain rfl : τ = σ := hts.unique (hin.extend σ)
  cases hrest with
  | opening ht _ => cases ht
  | closing ht _ =>
    cases ht with
    | @stop _ _ left _ strong => exact ⟨left, _, rfl, strong⟩

end

namespace Place

/-- A run is taken whole, as one end of one strong element. -/
def IsWhole (p : Place) : Prop := p.run.unmatched = 0 ∧ ∃ e, width e = 2 ∧ p.run.closed ++ p.run.opened = [e]

/-- `k` delimiters were left of the run at the other end when a run made its first
pair: the pair of its first end tag, or, if it has none, of its last start tag. -/
inductive Joined (p : Place) : Nat → Prop
  | closing {e : Emphasis} {es : List Emphasis} {k : Nat} {ts₁ ts₂ : List Tag} : p.run.closed = e :: es →
      tags false p.before = ts₁ ++ .start p.run.char e k :: ts₂ → Nested [] ts₂ [] → Joined p k
  | opening {e : Emphasis} {es : List Emphasis} {k : Nat} {ts₁ ts₂ : List Tag} : p.run.closed = [] →
      p.run.opened = es ++ [e] → tags false p.after = ts₁ ++ .stop p.run.char e k :: ts₂ → Nested [] ts₁ [] →
      Joined p k

variable {p : Place} {ns : List Node} {e : Emphasis} {es es' : List Emphasis}

/-- A run of two is whole if any of its elements is strong. -/
theorem isWhole_iff (h : p.run.delimiters = 2) (hes : p.run.closed ++ p.run.opened = es ++ e :: es') :
    p.IsWhole ↔ width e = 2 := by
  have hsum := congrArg widths hes
  rw [widths_append, widths_append, widths_cons] at hsum
  rw [delimiters] at h
  constructor
  · rintro ⟨-, e', hstrong, hone⟩
    have hmem : e ∈ p.run.closed ++ p.run.opened := by simp [hes]
    rw [hone, List.mem_singleton] at hmem
    rw [hmem, hstrong]
  · intro hstrong
    obtain rfl : es = [] := eq_nil_of_widths (by omega)
    obtain rfl : es' = [] := eq_nil_of_widths (by omega)
    exact ⟨by omega, e, hstrong, hes⟩

/-- The tags around the end tags of a run. -/
theorem nested_stops (h : Nested [] (tags false ns) []) (hp : p ∈ places [] ns) : ∃ σ,
    Nested [] (tags false p.before) σ ∧ Nested σ (p.run.stops ++ (p.run.starts ++ tags false p.after)) [] := by
  rw [mem_places.1 hp, tags_append, tags_run, List.append_assoc] at h
  exact h.of_append

/-- The first end tag of a run, with the element that it ends. -/
theorem closes_first (h : Nested [] (tags false ns) []) (hp : p ∈ places [] ns) (hc : p.run.closed = e :: es) :
    ∃ left σ, Nested [] (tags false p.before) (.element p.run.char e left :: σ) ∧
      (width e = 2 ↔ 2 ≤ left ∧ 2 ≤ p.run.delimiters) := by
  obtain ⟨σ, hbefore, hrest⟩ := nested_stops h hp
  have hstops : p.run.stops = .stop p.run.char e p.run.delimiters ::
      stopTags p.run.char (p.run.unmatched + widths p.run.opened) es := by
    rw [stops, delimiters, hc, stopTags, widths_cons, Nat.add_assoc (width e + widths es)]
  rw [hstops, List.cons_append, ← List.nil_append (Tag.stop _ _ _ :: _)] at hrest
  obtain ⟨left, τ, rfl, hstrong⟩ := hrest.element_of_stop .nil
  exact ⟨left, τ, hbefore, hstrong⟩

/-- The last start tag of a run without end tags, with what comes before its end. -/
theorem opens_last (h : Nested [] (tags false ns) []) (hp : p ∈ places [] ns) (hc : p.run.closed = [])
    (ho : p.run.opened = es ++ [e]) : ∃ σ, Nested (.element p.run.char e p.run.delimiters :: σ) (tags false p.after) [] := by
  obtain ⟨σ, -, hrest⟩ := nested_stops h hp
  have hstarts : p.run.starts = startTags p.run.char p.run.unmatched es ++ [.start p.run.char e p.run.delimiters] := by
    rw [starts, delimiters, hc, ho, startTags_snoc, widths_append, widths_cons, widths_nil, Nat.zero_add,
      Nat.add_zero, Nat.add_assoc]
  rw [hstarts, List.append_assoc, ← List.append_assoc, List.singleton_append] at hrest
  obtain ⟨τ, -, hrest⟩ := hrest.of_append
  cases hrest with
  | opening ht hrest =>
    cases ht
    exact ⟨τ, hrest⟩
  | closing ht _ => cases ht

/-- A run of two that takes part has made a first pair. -/
theorem exists_joined (h : Nested [] (tags false ns) []) (hp : p ∈ places [] ns)
    (hlost : p.run.unmatched < p.run.delimiters) : ∃ k, p.Joined k := by
  cases hc : p.run.closed with
  | cons e es =>
    obtain ⟨left, σ, hbefore, -⟩ := closes_first h hp hc
    rcases hbefore.opened_or with ⟨υ, hυ, -⟩ | ⟨ts₁, t, ts₂, hts, -, ht, hin⟩
    · simp at hυ
    · cases ht
      exact ⟨left, .closing hc hts hin⟩
  | nil =>
    rcases List.eq_nil_or_concat' p.run.opened with ho | ⟨es, e, ho⟩
    · simp [delimiters, hc, ho] at hlost
    · obtain ⟨σ, hafter⟩ := opens_last h hp hc ho
      rcases hafter.closed_or (υ := []) with ⟨υ, -, hυ⟩ | ⟨ts₁, t, ts₂, hts, hin, ht, -⟩
      · simp at hυ
      · cases ht with
        | @stop _ _ _ k strong => exact ⟨k, .opening hc ho hts hin⟩

/-- The first pair of a run of two takes it whole if two were left at the other end. -/
theorem Joined.isWhole_iff {k : Nat} (hk : p.Joined k) (h : Nested [] (tags false ns) []) (hp : p ∈ places [] ns)
    (htwo : p.run.delimiters = 2) : p.IsWhole ↔ 2 ≤ k := by
  cases hk with
  | @closing e es _ ts₁ ts₂ hc hts hin =>
    obtain ⟨left, σ, hbefore, hstrong⟩ := closes_first h hp hc
    rw [hts] at hbefore
    obtain ⟨τ, hσ⟩ := hbefore.element_of_start hin
    cases hσ
    have hes : p.run.closed ++ p.run.opened = [] ++ e :: (es ++ p.run.opened) := by rw [hc]; rfl
    rw [Place.isWhole_iff htwo hes, hstrong, htwo]
    simp
  | @opening e es _ ts₁ ts₂ hc ho hts hin =>
    obtain ⟨σ, hafter⟩ := opens_last h hp hc ho
    rw [hts] at hafter
    obtain ⟨left, τ, hσ, hstrong⟩ := hafter.element_of_stop hin
    cases hσ
    have hes : p.run.closed ++ p.run.opened = es ++ e :: [] := by rw [hc, ho]; rfl
    rw [Place.isWhole_iff htwo hes, hstrong, htwo]
    simp

end Place

/-- **A run of two is taken whole or in parts.** If it takes part at all it makes
a first pair, and it is taken whole exactly if two delimiters were left at the
other end of this pair. -/
theorem resolve_strong (spans : List Span) : ∃ ns, Accounts spans ns ∧
    ∀ p ∈ places [] ns, p.run.delimiters = 2 → p.run.unmatched < 2 →
      (∃ k, p.Joined k) ∧ ∀ k, p.Joined k → (p.IsWhole ↔ 2 ≤ k) := by
  obtain ⟨ns, haccounts, -⟩ := exists_settled spans
  refine ⟨ns, haccounts, fun p hp htwo hlost => ⟨?_, fun k hk => ?_⟩⟩
  · exact Place.exists_joined haccounts.nested hp (htwo ▸ hlost)
  · exact hk.isWhole_iff haccounts.nested hp htwo

/-- Two asterisks become two plain start tags where single ones close. -/
theorem resolve_split_strong : ∃ ds : List Cell,
    Span.toCells [.text "**a* b*".toList] = List.replicate 2 (.char '*') ++ ds ∧ IsRun none '*' 2 ds.head? ∧
    (resolve [.text "**a* b*".toList]).1 =
      [.mark (.emphasisOpen .em), .mark (.emphasisOpen .em), .text "a".toList, .mark (.emphasisClose .em),
        .text " b".toList, .mark (.emphasisClose .em)] :=
  ⟨Span.cellsOf "a* b*".toList, by decide, ⟨by decide, by decide, by decide, by decide, by decide⟩, by decide +kernel⟩

end QuartoPretext.Emphasis
