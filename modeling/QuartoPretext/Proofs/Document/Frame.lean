/-
# What was written before changes nothing

A task adds events and warnings to those that are there, and nothing that it
adds depends on them: it runs after any others as it runs after none. A task
of a container does not depend on the book of solutions either, and unless it
is an exercise of a set, it warns of no solutions and counts no exercises.

Key definitions: `Session.after`, `Session.bare`, `Warning.isMissingSolution`.
Key theorems: `Task.run_after`, `Runs.beside`, `Runs.of_profile_eq`, `Runs.sameCount`.
-/
import QuartoPretext.Proofs.Document.Sections
import QuartoPretext.Proofs.Inline.Causes

namespace QuartoPretext

open Markup

/-- A writer where events were written before. -/
def Markup.Writer.after (es : List Event) (w : Writer) : Writer := ⟨es ++ w.events, w.stack⟩

namespace Session

/-- A session where events and warnings were there before. -/
def after (es : List Event) (ws : List Warning) (s : Session) : Session :=
  { s with writer := s.writer.after es, warnings := ws ++ s.warnings }

/-- A session without the events and warnings so far. -/
def bare (s : Session) : Session := { s with writer := ⟨[], s.writer.stack⟩, warnings := [] }

end Session

variable {set : Setting} {ctx : Inline.Context} {t : Task} {s s' : Session} (es : List Event) (ws : List Warning)

/-! ### Steps -/

namespace Session

theorem after_bare (s : Session) : s.bare.after s.writer.events s.warnings = s := by
  simp [after, bare, Writer.after]

theorem stack_eq_of_bare (h : s'.bare = s.bare) : s'.writer.stack = s.writer.stack :=
  congrArg (·.writer.stack) h

theorem bare_close (s : Session) : s.close.bare = { s.bare with writer := ⟨[], s.writer.stack.tail⟩ } := by
  cases hstack : s.writer.stack <;> simp [Session.close, Writer.close, bare, hstack]

theorem bare_close_congr (h : s'.bare = s.bare) : s'.close.bare = s.close.bare := by
  rw [bare_close, bare_close, h, stack_eq_of_bare h]

theorem events_close {e : Element} {stack : List Element} (h : s.writer.stack = e :: stack) :
    s.close.writer.events = s.writer.events ++ [.endTag e] := by
  simp [close, Writer.close, h]

theorem openTag_after (s : Session) (tag : Tag) : (s.after es ws).openTag tag = (s.openTag tag).after es ws := by
  simp [openTag, after, Writer.openTag, Writer.after]

theorem close_after (s : Session) : (s.after es ws).close = s.close.after es ws := by
  cases hstack : s.writer.stack <;> simp [close, after, Writer.close, Writer.after, hstack]

theorem add_after (s : Session) (e : Event) : (s.after es ws).add e = (s.add e).after es ws := by
  simp [add, after, Writer.add, Writer.after]

theorem warn_after (s : Session) (n : Option Nat) (c : Cause) : (s.after es ws).warn n c = (s.warn n c).after es ws := by
  simp [warn, after]

theorem inline_after (s : Session) (text : Text) : (s.after es ws).inline ctx text =
    ((s.inline ctx text).1, (s.inline ctx text).2.after es ws) := by
  simp [inline, after]

theorem foldl_close_after : ∀ (levels : List Nat) (w : Writer),
    levels.foldl (fun w _ => w.close) (w.after es) = (levels.foldl (fun w _ => w.close) w).after es
  | [], _ => rfl
  | _ :: levels, ⟨events, []⟩ => foldl_close_after levels ⟨events, []⟩
  | _ :: levels, ⟨events, e :: stack⟩ => by
    have hclose : (Writer.after es ⟨events, e :: stack⟩).close = Writer.after es ⟨events ++ [.endTag e], stack⟩ := by
      simp [Writer.close, Writer.after]
    rw [List.foldl_cons, List.foldl_cons, hclose, foldl_close_after levels]
    rfl

theorem closeTo_after (s : Session) (level : Nat) : (s.after es ws).closeTo level = (s.closeTo level).after es ws := by
  simp only [closeTo, after, foldl_close_after]

theorem openSection_after (s : Session) (n level : Nat) (id : Option Text) (title : Text) (e : Element) :
    (s.after es ws).openSection n level id title e = (s.openSection n level id title e).map (after es ws) := by
  simp only [openSection, closeTo_after, openTag_after, add_after]
  show (if 2 < level && (s.closeTo level).levels.head? != some (level - 1) then _ else _) = _
  split <;> rfl

theorem documentHeading_after (kind : DocumentKind) (s : Session) (n level : Nat) (title : Text) (id : Option Text) :
    (s.after es ws).documentHeading ctx kind n level title id =
      (s.documentHeading ctx kind n level title id).map (after es ws) := by
  simp only [documentHeading, inline_after, closeTo_after, warn_after, openSection_after, addAlert, add_after]
  split
  · show (if ((s.inline ctx title).2.closeTo 0).heading.isNone then _ else _) = _
    split <;> rfl
  · cases kind with
    | chapter => rfl
    | exercises =>
      simp only
      split <;> rfl

theorem leaf_after (s : Session) (tag : Tag) (content : Content) :
    (s.after es ws).leaf ctx tag content = (s.leaf ctx tag content).after es ws := by
  cases content <;> simp only [leaf, inline_after, add_after]

theorem paragraph_after (s : Session) (text : Text) :
    (s.after es ws).paragraph ctx text = (s.paragraph ctx text).after es ws := by
  simp only [paragraph, inline_after, add_after]
  split <;> rfl

theorem write_after (kind : DocumentKind) (s : Session) (p : Piece) :
    (s.after es ws).write ctx kind p = (s.write ctx kind p).map (after es ws) := by
  cases p with
  | heading n level title id => exact documentHeading_after es ws kind s n level title id
  | leaf tag content => exact congrArg Except.ok (leaf_after es ws s tag content)
  | paragraph text => exact congrArg Except.ok (paragraph_after es ws s text)
  | warn n cause => exact congrArg Except.ok (warn_after es ws s (some n) cause)
  | empty tag => exact congrArg Except.ok (add_after es ws s (.empty tag))
  | code lines => exact congrArg Except.ok (add_after es ws s (.verbatim .code lines))
  | frontMatter n yaml =>
    simp only [write]
    split <;> rfl
  | inclusion href =>
    simp only [write, add_after]
    rfl
  | _ => rfl

end Session

/-! ### Runs -/

/-- A task does the same whatever was written before. -/
theorem Task.run_after (set : Setting) (ctx : Inline.Context) (t : Task) (s : Session) :
    t.run set ctx (s.after es ws) = (t.run set ctx s).map (Session.after es ws) := by
  induction t, s using Task.run_induct set ctx with
  | element tag content s ih =>
    rw [run_element, run_element, Session.openTag_after, ih]
    cases (Task.pieces content).run set ctx (s.openTag tag) with
    | error f => rfl
    | ok s₁ => exact congrArg Except.ok (Session.close_after es ws s₁)
  | blocks context ls s ih => rw [run_blocks, run_blocks, ih]
  | write p s hp => rw [run_simple hp, run_simple hp, Session.write_after]
  | noPieces s =>
    rw [run_noPieces, run_noPieces]
    rfl
  | pieces p ps s ih₁ ih₂ =>
    rw [run_pieces, run_pieces, ih₁]
    cases hfirst : (Task.piece p).run set ctx s with
    | error f => rfl
    | ok s₁ => exact ih₂ s₁ hfirst
  | noLines context s =>
    rw [run_noLines, run_noLines]
    rfl
  | unread context l following s f hb =>
    rw [run_unread hb, run_unread hb]
    rfl
  | lines context l following rest b s hb ih₁ ih₂ =>
    have hbefore : (Task.pieces (Plan.ofBlock set context (s.after es ws).exerciseCount b)).run set ctx
        { s.after es ws with line := some b.line } = _ := ih₁
    rw [run_lines hb, run_lines hb, hbefore]
    cases hfirst : (Task.pieces (Plan.ofBlock set context s.exerciseCount b)).run set ctx { s with line := some b.line } with
    | error f => rfl
    | ok s₁ => exact ih₂ s₁ hfirst

/-- A task adds events and warnings to those of the session. -/
theorem Runs.adds (h : Runs set ctx t s s') : ∃ d, Runs set ctx t s.bare d ∧
    s' = d.after s.writer.events s.warnings := by
  have hrun := t.run_after s.writer.events s.warnings set ctx s.bare
  rw [s.after_bare, h.run_eq] at hrun
  cases hd : t.run set ctx s.bare with
  | error f =>
    rw [hd] at hrun
    cases hrun
  | ok d =>
    rw [hd] at hrun
    exact ⟨d, runs_iff.2 hd, Except.ok.inj hrun⟩

theorem Runs.after (h : Runs set ctx t s s') : Runs set ctx t (s.after es ws) (s'.after es ws) := by
  rw [runs_iff, Task.run_after, h.run_eq]
  rfl

/-- Two sessions that differ in events and warnings only are added the same events. -/
theorem Runs.beside {s₀ : Session} (h : Runs set ctx t s s') (hbare : s₀.bare = s.bare) : ∃ s₀' more,
    Runs set ctx t s₀ s₀' ∧ s₀'.bare = s'.bare ∧ s'.writer.events = s.writer.events ++ more ∧
      s₀'.writer.events = s₀.writer.events ++ more := by
  obtain ⟨d, hd, rfl⟩ := h.adds
  have hd₀ := hd.after s₀.writer.events s₀.warnings
  rw [← hbare, s₀.after_bare] at hd₀
  exact ⟨_, d.writer.events, hd₀, rfl, rfl, rfl⟩

/-! ### Tasks of a container -/

/-- In a container no book of solutions is asked. -/
theorem Runs.of_profile_eq {set' : Setting} (h : Runs set ctx t s s') (ht : t.Contained)
    (hprofile : set'.profile = set.profile) : Runs set' ctx t s s' := by
  induction h with
  | element _ ih => exact .element (ih ht.2)
  | blocks _ ih => exact .blocks (ih ht.1)
  | write hp hw => exact .write hp (hprofile ▸ hw)
  | noPieces => exact .noPieces
  | pieces _ _ ih₁ ih₂ => exact .pieces (ih₁ ht.1) (ih₂ ht.2)
  | noLines => exact .noLines
  | @lines context l following rest b s s₁ s' hb _ _ ih₁ ih₂ =>
    cases ht
    have hplan : Plan.ofBlock set' .container s.exerciseCount b = Plan.ofBlock set .container s.exerciseCount b := by
      cases b <;> simp [Plan.ofBlock, hprofile]
    exact .lines hb (hplan ▸ ih₁ (Plan.inside_ofBlock ..)) (ih₂ rfl)

/-- Whether a warning is about a solution without an exercise or an exercise without a solution. -/
def Warning.isMissingSolution (w : Warning) : Bool := w.cause.kind == "missing solution".toList

theorem Cause.isMissingSolution_of_isInline {c : Cause} (h : c.isInline) (n : Option Nat) :
    Warning.isMissingSolution ⟨n, c⟩ = false := by
  cases c <;> first | rfl | cases h

/-- A session with as many exercises and the same warnings of missing solutions. -/
structure Session.SameCount (s s' : Session) : Prop where
  count : s'.exerciseCount = s.exerciseCount
  warnings : s'.warnings.filter Warning.isMissingSolution = s.warnings.filter Warning.isMissingSolution

namespace Session

theorem SameCount.refl (s : Session) : s.SameCount s := ⟨rfl, rfl⟩

theorem SameCount.trans {s'' : Session} (h : s.SameCount s') (h' : s'.SameCount s'') : s.SameCount s'' :=
  ⟨h'.count.trans h.count, h'.warnings.trans h.warnings⟩

theorem inline_sameCount (ctx : Inline.Context) (s : Session) (text : Text) : s.SameCount (s.inline ctx text).2 := by
  refine ⟨rfl, ?_⟩
  have hnone : ((Inline.transform ctx text).2.map fun c => (⟨s.line, c⟩ : Warning)).filter Warning.isMissingSolution = [] := by
    rw [List.filter_eq_nil_iff, List.forall_mem_map]
    intro c hc
    simp [Cause.isMissingSolution_of_isInline (Inline.transform_causes ctx text c hc)]
  simp [inline, hnone]

theorem warn_sameCount {c : Cause} {n : Option Nat} (h : Warning.isMissingSolution ⟨n, c⟩ = false) :
    s.SameCount (s.warn n c) := ⟨rfl, by simp [warn, h]⟩

theorem leaf_sameCount (ctx : Inline.Context) (s : Session) (tag : Tag) (content : Content) :
    s.SameCount (s.leaf ctx tag content) := by
  cases content with
  | markup xml => exact ⟨rfl, rfl⟩
  | inline text => exact (s.inline_sameCount ctx text).trans ⟨rfl, rfl⟩
  | alert text => exact (s.inline_sameCount ctx text).trans ⟨rfl, rfl⟩

theorem paragraph_sameCount (ctx : Inline.Context) (s : Session) (text : Text) : s.SameCount (s.paragraph ctx text) := by
  unfold paragraph
  simp only
  split
  · exact s.inline_sameCount ctx text
  · exact (s.inline_sameCount ctx text).trans ⟨rfl, rfl⟩

theorem openSection_sameCount {n level : Nat} {id : Option Text} {title : Text} {e : Element}
    (h : s.openSection n level id title e = .ok s') : s.SameCount s' := by
  obtain ⟨-, rfl⟩ := openSection_eq_ok_iff.1 h
  exact ⟨rfl, rfl⟩

theorem documentHeading_sameCount {kind : DocumentKind} {n level : Nat} {title : Text} {id : Option Text}
    (h : s.documentHeading ctx kind n level title id = .ok s') : s.SameCount s' := by
  have hi := s.inline_sameCount ctx title
  cases headed_of_documentHeading h with
  | root _ _ => exact hi.trans ⟨rfl, rfl⟩
  | second _ _ ho =>
    have hw : ((s.inline ctx title).2.closeTo 0).SameCount
        (((s.inline ctx title).2.closeTo 0).warn (some n) (.secondTitle title)) := warn_sameCount rfl
    exact (hi.trans ⟨hw.count, hw.warnings⟩).trans (openSection_sameCount ho)
  | inner _ _ ho => exact hi.trans (openSection_sameCount ho)
  | alert _ _ _ => exact hi.trans ⟨rfl, rfl⟩

/-- A piece that is not about the exercises of a set. -/
theorem write_sameCount {kind : DocumentKind} {p : Piece} {L : List Line → Prop} (hp : p.All (Piece.Within L False))
    (h : s.write ctx kind p = .ok s') : s.SameCount s' := by
  cases p with
  | heading n level title id => exact hp.elim
  | countExercise => exact hp.elim
  | leaf tag content =>
    simp only [write, Except.ok.injEq] at h
    exact h ▸ s.leaf_sameCount ctx tag content
  | paragraph text =>
    simp only [write, Except.ok.injEq] at h
    exact h ▸ s.paragraph_sameCount ctx text
  | warn n cause =>
    simp only [write, Except.ok.injEq] at h
    refine h ▸ warn_sameCount ?_
    cases cause <;> first | rfl | exact hp.elim
  | frontMatter n yaml =>
    simp only [write] at h
    split at h
    · simp only [Except.ok.injEq] at h
      exact h ▸ ⟨rfl, rfl⟩
    · cases h
  | _ =>
    simp only [write, Except.ok.injEq] at h
    exact h ▸ ⟨rfl, rfl⟩

end Session

/-- A container counts no exercises and warns of no solutions. -/
theorem Runs.sameCount (h : Runs set ctx t s s') (ht : t.Inside False) : s.SameCount s' := by
  refine h.keeps (J := s.SameCount) .start (fun _ _ h => ⟨h.count, h.warnings⟩) ?_ (fun _ _ h => ⟨h.count, h.warnings⟩) ?_
    (.refl s)
  · intro s₁ h₁
    exact ⟨h₁.count, h₁.warnings⟩
  · intro p s₁ s₂ _ hr hw h₁
    exact h₁.trans (Session.write_sameCount (hr.inside ht) hw)

mutual

theorem Piece.all_within_true {L : List Line → Prop} {E : Prop} : ∀ {p : Piece}, p.All (Within L E) → p.All (Within L True)
  | .element _ _, h => ⟨trivial, allIn_within_true h.2⟩
  | .leaf _ (.markup _), h | .blocks _ _, h => h
  | .heading .., h => h.elim
  | .leaf _ (.inline _), _ | .leaf _ (.alert _), _ | .empty _, _ | .code _, _ | .paragraph _, _ | .frontMatter .., _
  | .inclusion _, _ | .countExercise, _ => trivial
  | .warn _ cause, _ => by cases cause <;> trivial

theorem Piece.allIn_within_true {L : List Line → Prop} {E : Prop} : ∀ {ps : List Piece},
    Piece.AllIn (Within L E) ps → Piece.AllIn (Within L True) ps
  | [], _ => trivial
  | _ :: _, h => ⟨all_within_true h.1, allIn_within_true h.2⟩

end

theorem Task.Inside.contained {E : Prop} (h : t.Inside E) : t.Contained := by
  cases t with
  | piece p => exact Piece.all_within_true h
  | pieces ps => exact Piece.allIn_within_true h
  | lines context ls => exact h

end QuartoPretext
