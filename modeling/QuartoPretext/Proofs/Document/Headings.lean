/-
# Headings in the body of a document

A heading is the title of the root, or opens a section, or is an alert in an
exercise set. What it does to a session is said here once, and later proofs go
by these cases.

Key definitions: `Session.withSection`, `Session.Headed`.
Key theorems: `Session.openSection_eq_ok_iff`, `Session.openSection_eq_error_iff`,
`Session.headed_of_documentHeading`.
-/
import QuartoPretext.Document.Session

namespace QuartoPretext.Session

open Markup

variable {ctx : Inline.Context} {kind : DocumentKind} {s s' : Session} {n level : Nat} {id : Option Text} {title : Text}
  {e : Element}

/-- A session in which a section has been opened, after those that it does not stand in were closed. -/
def withSection (s : Session) (level : Nat) (id : Option Text) (title : Text) (e : Element) : Session :=
  { ((s.closeTo level).openTag (.withId e id)).add (.leaf (.plain .title) title) with
    levels := level :: (s.closeTo level).levels }

/-- A section is opened in one of the level above its own, unless it is of level 2. -/
theorem openSection_eq_ok_iff : s.openSection n level id title e = .ok s' ↔
    (2 < level → (s.closeTo level).levels.head? = some (level - 1)) ∧ s' = s.withSection level id title e := by
  unfold openSection
  simp only
  split
  · next hskip =>
    simp only [Bool.and_eq_true, decide_eq_true_eq, bne_iff_ne] at hskip
    refine ⟨nofun, fun h => absurd (h.1 hskip.1) hskip.2⟩
  · next hopen =>
    simp only [Bool.and_eq_true, decide_eq_true_eq, bne_iff_ne, ne_eq, not_and, Decidable.not_not] at hopen
    rw [Except.ok.injEq, eq_comm]
    exact (and_iff_right hopen).symm

theorem openSection_eq_error_iff {f : Fault} : s.openSection n level id title e = .error f ↔
    (2 < level ∧ (s.closeTo level).levels.head? ≠ some (level - 1)) ∧ f = .levelSkip n level := by
  unfold openSection
  simp only
  split
  · next hskip =>
    simp only [Bool.and_eq_true, decide_eq_true_eq, bne_iff_ne] at hskip
    rw [Except.error.injEq, eq_comm]
    exact (and_iff_right hskip).symm
  · next hopen =>
    simp only [Bool.and_eq_true, decide_eq_true_eq, bne_iff_ne] at hopen
    exact ⟨nofun, fun h => absurd h.1 hopen⟩

/-- What a heading does, if it does not fail. -/
inductive Headed (ctx : Inline.Context) (kind : DocumentKind) (s : Session) (n level : Nat) (title : Text)
    (id : Option Text) : Session → Prop
  /-- the first heading of level 1 is the title of the root -/
  | root : level = 1 → s.heading = none → Headed ctx kind s n level title id
      { (s.inline ctx title).2.closeTo 0 with heading := some ⟨(Inline.transform ctx title).1, title, id⟩ }
  /-- a later one opens a section of level 2 -/
  | second {s' : Session} : level = 1 → s.heading ≠ none →
      (((s.inline ctx title).2.closeTo 0).warn (some n) (.secondTitle title)).openSection n 2 id
        (Inline.transform ctx title).1 (division 2) = .ok s' → Headed ctx kind s n level title id s'
  | inner {s' : Session} {e : Element} : level ≠ 1 →
      kind = .chapter ∧ e = division level ∨ kind = .exercises ∧ level = 2 ∧ e = .subexercises →
      (s.inline ctx title).2.openSection n level id (Inline.transform ctx title).1 e = .ok s' →
      Headed ctx kind s n level title id s'
  /-- deeper headings of an exercise set open no sections -/
  | alert : level ≠ 1 → level ≠ 2 → kind = .exercises →
      Headed ctx kind s n level title id ((s.inline ctx title).2.addAlert (Inline.transform ctx title).1)

theorem headed_of_documentHeading (h : s.documentHeading ctx kind n level title id = .ok s') :
    Headed ctx kind s n level title id s' := by
  unfold documentHeading at h
  simp only at h
  split at h
  · next hone =>
    split at h
    · next hnone =>
      cases h
      exact .root hone (Option.isNone_iff_eq_none.1 hnone)
    · next hsome => exact .second hone (fun hnone => hsome (Option.isNone_iff_eq_none.2 hnone)) h
  · next hone =>
    cases kind with
    | chapter => exact .inner hone (.inl ⟨rfl, rfl⟩) h
    | exercises =>
      simp only at h
      split at h
      · next htwo => exact .inner hone (.inr ⟨rfl, htwo, rfl⟩) h
      · next htwo =>
        cases h
        exact .alert hone htwo rfl

end QuartoPretext.Session
