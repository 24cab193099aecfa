/-
# Every solution is attached or reported

The items of the ordered lists in the body of an exercise set are the
exercises, numbered in order. A conversion with a book of solutions is here
run beside the one without a book: what it writes more is, at the end of each
exercise, the solution that the book has under its number. A number of an
exercise that the book should have and has not is reported at the item, and the
numbers of the book after the last exercise are reported in the end.

Key definitions: `Exercise`, `Exercise.events`, `exerciseItemsOf`,
`Session.Accounts`, `Conversion.Accounts`.
Key theorems: `Session.Accounts.item`, `Session.Accounts.block`,
`Session.Accounts.flow`, `convert_solutions`.
-/
import QuartoPretext.Proofs.Document.Flow
import QuartoPretext.Proofs.Document.Frame
import QuartoPretext.Proofs.Solutions

namespace QuartoPretext

open Markup Plan

/-! ### Exercises and what is written for them -/

/-- The events of an element that holds some events. -/
def Markup.enclose (t : Tag) (content : List Event) : List Event := .startTag t :: content ++ [.endTag t.element]

/-- The event of an inline text in an element. -/
def Solution.leaf (ctx : Inline.Context) (text : Text) : Event :=
  .leaf (.plain .p) (Text.trim (Inline.transform ctx text).1)

/-- The events of a solution, by parts if it has any. -/
def Solution.events (ctx : Inline.Context) (text : Text) : List Event :=
  enclose (.plain .solution)
    (match Solution.parts? text with
    | some parts =>
      enclose (.plain .p) (enclose (listTag .lettered) (parts.flatMap fun part => enclose (.plain .li) [leaf ctx part]))
    | none => [leaf ctx text])

namespace SolutionBook

/-- The events of the solution of an exercise, if a book has one. -/
def events (ctx : Inline.Context) (b : SolutionBook) (n : Nat) : List Event :=
  match b.get? n with
  | some text => Solution.events ctx text
  | none => []

/-- The warning that a book has no solution of an exercise, although it has one of a number of its parity. -/
def warning? (b : SolutionBook) (n line : Nat) : Option Warning :=
  if n ∉ b.numbers ∧ ∃ m ∈ b.numbers, m % 2 = n % 2 then some ⟨some line, .missingSolution n⟩ else none

theorem warning?_eq (b : SolutionBook) (n line : Nat) : b.warning? n line =
    if (b.get? n).isNone && b.expects n then some ⟨some line, .missingSolution n⟩ else none := by
  refine if_congr ?_ rfl rfl
  simp only [mem_numbers_iff, Bool.and_eq_true, expects_iff, Option.isNone_iff_eq_none, Option.not_isSome_iff_eq_none]

end SolutionBook

/-- What an item of an exercise set becomes before its solution: a title and a statement. -/
def Plan.exerciseHead (i : ListItem) : List Piece :=
  (promotedItem i).1 ++ part .statement [(promotedItem i).2]

theorem Plan.exerciseItem_eq (book : Option SolutionBook) (n : Nat) (i : ListItem) : exerciseItem book n i =
    [.countExercise, plainElement .exercise (exerciseHead i ++ solutionOf book n i.line)] := rfl

theorem Plan.inside_exerciseHead (i : ListItem) : (Task.pieces (exerciseHead i)).Inside False :=
  (Piece.allIn_append _ _).2 ⟨(promotedItem_shape i).1, within_part .statement _ fun _ _ => trivial⟩

/-- An exercise of a set that has been written. -/
structure Exercise where
  number : Nat
  item : ListItem
  /-- what is written after the exercise before it -/
  before : List Event
  /-- its title and its statement -/
  head : List Event

namespace Exercise

/-- The events up to the end of an exercise, which its solution is the last part of. -/
def events (solution : List Event) (e : Exercise) : List Event :=
  e.before ++ enclose (.plain .exercise) (e.head ++ solution)

/-- The head of an exercise is what the title and the statement of its item write. -/
def Proper (p : Profile) (ctx : Inline.Context) (e : Exercise) : Prop :=
  ∃ s s', Runs ⟨p, none⟩ ctx (.pieces (exerciseHead e.item)) s s' ∧ s'.writer.events = s.writer.events ++ e.head

end Exercise

/-- The items of the ordered lists among blocks. -/
def Block.exerciseItems : Block → List ListItem
  | .list l => if l.style = .ordered then l.items else []
  | _ => []

/-- The items of the ordered lists in the body of a document, in order. -/
def exerciseItemsOf (p : Profile) (input : Text) : List ListItem :=
  (Flow.ofLines p (Line.ofText input)).blocks.flatMap Block.exerciseItems

/-! ### A solution -/

variable {set : Setting} {ctx : Inline.Context} {t : Task} {s s' s₀ : Session}

/-- The second session has some events more, and perhaps warnings. -/
structure Session.Writes (es : List Event) (s s' : Session) : Prop where
  events : s'.writer.events = s.writer.events ++ es
  bare : s'.bare = s.bare

namespace Session

theorem Writes.trans {es es' : List Event} {s'' : Session} (h : s.Writes es s') (h' : s'.Writes es' s'') :
    s.Writes (es ++ es') s'' :=
  ⟨by rw [h'.events, h.events, List.append_assoc], h'.bare.trans h.bare⟩

/-- What is written after the start tag of an element is enclosed in its tags. -/
theorem events_enclose {es : List Event} {tag : Tag} (hevents : s'.writer.events = (s.openTag tag).writer.events ++ es)
    (hstack : s'.writer.stack = (s.openTag tag).writer.stack) :
    s'.close.writer.events = s.writer.events ++ enclose tag es := by
  rw [events_close hstack, hevents]
  simp [openTag, Writer.openTag, enclose]

theorem Writes.element {es : List Event} {tag : Tag} (h : (s.openTag tag).Writes es s') :
    s.Writes (enclose tag es) s'.close := by
  have hstack : s'.writer.stack = (s.openTag tag).writer.stack := stack_eq_of_bare h.bare
  refine ⟨events_enclose h.events hstack, ?_⟩
  rw [bare_close, h.bare, hstack]
  rfl

/-- A session in which an exercise starts. -/
def openExercise (s : Session) : Session := { s with exerciseCount := s.exerciseCount + 1 }.openTag (.plain .exercise)

theorem bare_openExercise (h : s'.bare = s.bare) : s'.openExercise.bare = s.openExercise.bare :=
  congrArg (fun b : Session => { b with
    exerciseCount := b.exerciseCount + 1, writer := ⟨[], .exercise :: b.writer.stack⟩ }) h

end Session

/-- An element writes its tags and between them what its content writes. -/
theorem Runs.element_writes {es : List Event} {tag : Tag} {content : List Piece}
    (hcontent : ∀ s₁, Runs set ctx (.pieces content) (s.openTag tag) s₁ → (s.openTag tag).Writes es s₁)
    (h : Runs set ctx (.piece (.element tag content)) s s') : s.Writes (enclose tag es) s' := by
  obtain ⟨s₁, hs₁, rfl⟩ := runs_element.1 h
  exact (hcontent s₁ hs₁).element

theorem Runs.leaf_writes {text : Text} (h : Runs set ctx (.pieces [inlineLeaf .p text]) s s') :
    s.Writes [Solution.leaf ctx text] s' := by
  have hw := (runs_write rfl).1 (runs_singleton.1 h)
  cases hw
  exact ⟨rfl, rfl⟩

/-- The parts of a solution. -/
theorem Runs.parts_writes : ∀ {parts : List Text} {s : Session},
    Runs set ctx (.pieces (parts.map fun part => plainElement .li [inlineLeaf .p part])) s s' →
    s.Writes (parts.flatMap fun part => enclose (.plain .li) [Solution.leaf ctx part]) s'
  | [], s, h => by
    obtain rfl := runs_nil.1 h
    exact ⟨(List.append_nil _).symm, rfl⟩
  | part :: parts, s, h => by
    obtain ⟨s₁, hpart, hmore⟩ := runs_cons.1 h
    exact (hpart.element_writes fun _ hleaf => hleaf.leaf_writes).trans (parts_writes hmore)

theorem Runs.solution_writes {text : Text} (h : Runs set ctx (.piece (solution text)) s s') :
    s.Writes (Solution.events ctx text) s' := by
  unfold solution at h
  refine h.element_writes fun s₁ h₁ => ?_
  cases hparts : Solution.parts? text with
  | some parts =>
    rw [hparts] at h₁
    exact (runs_singleton.1 h₁).element_writes fun s₂ h₂ =>
      (runs_singleton.1 h₂).element_writes fun s₃ h₃ => h₃.parts_writes
  | none =>
    rw [hparts] at h₁
    exact h₁.leaf_writes

/-- After the statement of an exercise stands the solution of a book, or a warning that it is missing. -/
theorem Runs.solutionOf_writes {b : SolutionBook} {n line : Nat}
    (h : Runs set ctx (.pieces (solutionOf (some b) n line)) s s') : s.Writes (b.events ctx n) s' ∧
      s'.warnings.filter Warning.isMissingSolution =
        s.warnings.filter Warning.isMissingSolution ++ (b.warning? n line).toList := by
  unfold solutionOf at h
  cases hget : b.get? n with
  | some text =>
    simp only [hget] at h
    have hsolution := runs_singleton.1 h
    have hsame := hsolution.sameCount (within_solution text)
    simp only [SolutionBook.events, SolutionBook.warning?_eq, hget]
    exact ⟨hsolution.solution_writes, by simp [hsame.warnings]⟩
  | none =>
    simp only [hget] at h
    simp only [SolutionBook.events, SolutionBook.warning?_eq, hget]
    cases hexpects : b.expects n with
    | true =>
      rw [hexpects] at h
      have hw := (runs_write rfl).1 (runs_singleton.1 h)
      cases hw
      refine ⟨⟨(List.append_nil _).symm, rfl⟩, ?_⟩
      show (s.warnings ++ [(⟨some line, .missingSolution n⟩ : Warning)]).filter _ = _
      rw [List.filter_append]
      rfl
    | false =>
      rw [hexpects] at h
      obtain rfl := runs_nil.1 h
      exact ⟨⟨(List.append_nil _).symm, rfl⟩, by simp⟩

/-- An exercise is its head and its solution. -/
theorem runs_exerciseItem {book : Option SolutionBook} {n : Nat} {i : ListItem} :
    Runs set ctx (.pieces (exerciseItem book n i)) s s' ↔ ∃ s₁ s₂,
      Runs set ctx (.pieces (exerciseHead i)) s.openExercise s₁ ∧
      Runs set ctx (.pieces (solutionOf book n i.line)) s₁ s₂ ∧ s' = s₂.close := by
  rw [exerciseItem_eq, runs_cons]
  constructor
  · rintro ⟨s₀, hnext, hexercise⟩
    cases (runs_write rfl).1 hnext
    obtain ⟨s₂, hcontent, rfl⟩ := runs_element.1 (runs_singleton.1 hexercise)
    obtain ⟨s₁, hhead, hsolution⟩ := runs_append.1 hcontent
    exact ⟨s₁, s₂, hhead, hsolution, rfl⟩
  · rintro ⟨s₁, s₂, hhead, hsolution, rfl⟩
    exact ⟨_, (runs_write rfl).2 rfl, runs_singleton.2 (runs_element.2 ⟨s₂, runs_append.2 ⟨s₁, hhead, hsolution⟩, rfl⟩)⟩

/-! ### The pieces of an exercise set -/

variable {p : Profile} {book : SolutionBook}

theorem Plan.own_of_ordered (hkind : p.kind = .exercises) {l : ListBlock} (hl : l.style = .ordered)
    (book : Option SolutionBook) (count : Nat) :
    own ⟨p, book⟩ count (.list l) = interruption l ++ exerciseItems book count l.items := by
  simp [own, ofBlock, ofExercises, hkind, hl]

/-- A block that is no ordered list is the same with and without a book, and counts no exercises. -/
theorem Runs.own_without {b : Block} (hb : ¬ ∃ l, b = .list l ∧ l.style = .ordered) {count : Nat}
    (hr : Runs ⟨p, some book⟩ ctx (.pieces (own ⟨p, some book⟩ count b)) s s') :
    Runs ⟨p, none⟩ ctx (.pieces (own ⟨p, none⟩ count b)) s s' ∧ s.SameCount s' := by
  have hown : own ⟨p, some book⟩ count b = own ⟨p, none⟩ count b := by
    cases b with
    | list l =>
      have hl : ¬ l.style = .ordered := fun hl => hb ⟨l, rfl, hl⟩
      simp [own, ofBlock, ofExercises, hl]
    | _ => rfl
  rw [hown] at hr
  by_cases hheading : ∃ n level title attrs, b = .heading n level title attrs
  · obtain ⟨n, level, title, attrs, rfl⟩ := hheading
    have hw := (runs_write rfl).1 (runs_singleton.1 hr)
    exact ⟨runs_singleton.2 ((runs_write rfl).2 hw), Session.documentHeading_sameCount hw⟩
  · have hinside : (Task.pieces (own ⟨p, none⟩ count b)).Inside False :=
      within_own (fun n level title attrs h => hheading ⟨n, level, title, attrs, h⟩) fun _ hl => hb hl
    exact ⟨hr.of_profile_eq hinside.contained rfl, hr.sameCount hinside⟩

/-! ### With and without a book -/

variable {exs : List Exercise} {tail : List Event}

/-- Sessions with a book and without it, after some exercises and the events
`tail`: with the book each exercise ends with its solution, and the missing ones
are reported. Otherwise they differ in no more than warnings. -/
structure Session.Accounts (p : Profile) (ctx : Inline.Context) (book : SolutionBook) (exs : List Exercise)
    (tail : List Event) (s s₀ : Session) : Prop where
  bare : s₀.bare = s.bare
  count : s.exerciseCount = exs.length
  numbers : exs.map (·.number) = List.range' 1 exs.length
  proper : ∀ e ∈ exs, e.Proper p ctx
  events : s.writer.events = (exs.flatMap fun e => e.events (book.events ctx e.number)) ++ tail
  plain : s₀.writer.events = (exs.flatMap fun e => e.events []) ++ tail
  warnings : s.warnings.filter Warning.isMissingSolution = exs.filterMap fun e => book.warning? e.number e.item.line

namespace Session.Accounts

theorem start : Session.start.Accounts p ctx book [] [] .start := ⟨rfl, rfl, rfl, List.forall_mem_nil _, rfl, rfl, rfl⟩

/-- A task that is the same with and without the book, and does not count exercises. -/
theorem step (h : s.Accounts p ctx book exs tail s₀) (hr : Runs ⟨p, none⟩ ctx t s s') (hcount : s.SameCount s') :
    ∃ s₀' more, Runs ⟨p, none⟩ ctx t s₀ s₀' ∧ s'.Accounts p ctx book exs (tail ++ more) s₀' := by
  obtain ⟨s₀', more, hr₀, hbare, hevents, hplain⟩ := hr.beside h.bare
  refine ⟨s₀', more, hr₀, ?_⟩
  exact {
    bare := hbare
    count := hcount.count.trans h.count
    numbers := h.numbers
    proper := h.proper
    events := by rw [hevents, h.events, List.append_assoc]
    plain := by rw [hplain, h.plain, List.append_assoc]
    warnings := hcount.warnings.trans h.warnings }

/-- An item of an ordered list is the next exercise. -/
theorem item (h : s.Accounts p ctx book exs tail s₀) {i : ListItem}
    (hr : Runs ⟨p, some book⟩ ctx (.pieces (exerciseItem (some book) (exs.length + 1) i)) s s') :
    ∃ s₀' head, Runs ⟨p, none⟩ ctx (.pieces (exerciseItem none (exs.length + 1) i)) s₀ s₀' ∧
      s'.Accounts p ctx book (exs ++ [⟨exs.length + 1, i, tail, head⟩]) [] s₀' := by
  obtain ⟨s₁, s₂, hhead, hsolution, rfl⟩ := runs_exerciseItem.1 hr
  have hinside := Plan.inside_exerciseHead i
  have hcount : s.openExercise.SameCount s₁ := hhead.sameCount hinside
  have hstack₁ : s₁.writer.stack = s.openExercise.writer.stack := (hhead.sameOpen hinside.contained).stack
  -- the head is the same without the book, and there nothing follows it
  have hhead' : Runs ⟨p, none⟩ ctx (.pieces (exerciseHead i)) s.openExercise s₁ :=
    hhead.of_profile_eq hinside.contained rfl
  obtain ⟨s₃, head, hhead₀, hbare, hevents, hplain⟩ := hhead'.beside (Session.bare_openExercise h.bare)
  have hstack₃ : s₃.writer.stack = s₀.openExercise.writer.stack := (hhead₀.sameOpen hinside.contained).stack
  obtain ⟨hwrites, hwarnings⟩ := hsolution.solutionOf_writes
  have hstack₂ : s₂.writer.stack = s.openExercise.writer.stack := (Session.stack_eq_of_bare hwrites.bare).trans hstack₁
  have hcontent : s₂.writer.events = s.openExercise.writer.events ++ (head ++ book.events ctx (exs.length + 1)) := by
    rw [hwrites.events, hevents, List.append_assoc]
  refine ⟨s₃.close, head, runs_exerciseItem.2 ⟨s₃, s₃, hhead₀, runs_nil.2 rfl, rfl⟩, ?_⟩
  exact {
    bare := Session.bare_close_congr (hbare.trans hwrites.bare.symm)
    count := by
      have hsolution_count : s₂.exerciseCount = s₁.exerciseCount := congrArg (·.exerciseCount) hwrites.bare
      rw [List.length_append, List.length_singleton, ← h.count]
      exact hsolution_count.trans hcount.count
    numbers := by
      rw [List.map_append, h.numbers, List.length_append, List.length_singleton, List.range'_concat]
      simp [Nat.add_comm]
    proper := by
      refine List.forall_mem_append.2 ⟨h.proper, List.forall_mem_singleton.2 ?_⟩
      exact ⟨_, s₁, hhead', hevents⟩
    events := by
      rw [Session.events_enclose hcontent hstack₂, h.events]
      simp [Exercise.events]
    plain := by
      rw [Session.events_enclose hplain hstack₃, h.plain]
      simp [Exercise.events]
    warnings := by
      have hbefore : s₁.warnings.filter Warning.isMissingSolution = s.warnings.filter Warning.isMissingSolution :=
        hcount.warnings
      show s₂.warnings.filter Warning.isMissingSolution = _
      rw [hwarnings, hbefore, h.warnings, List.filterMap_append]
      cases hmissing : book.warning? (exs.length + 1) i.line <;> simp [hmissing] }

/-- The items of an ordered list are the next exercises. -/
theorem items {items : List ListItem} (h : s.Accounts p ctx book exs tail s₀)
    (hr : Runs ⟨p, some book⟩ ctx (.pieces (exerciseItems (some book) exs.length items)) s s') :
    ∃ s₀' more tail', Runs ⟨p, none⟩ ctx (.pieces (exerciseItems none exs.length items)) s₀ s₀' ∧
      more.map (·.item) = items ∧ s'.Accounts p ctx book (exs ++ more) tail' s₀' := by
  induction items generalizing exs tail s s₀ with
  | nil =>
    obtain rfl := runs_nil.1 hr
    exact ⟨s₀, [], tail, .noPieces, rfl, by rwa [List.append_nil]⟩
  | cons i items ih =>
    obtain ⟨s₁, hitem, hmore⟩ := runs_append.1 hr
    obtain ⟨s₂, head, hitem₀, hs₁⟩ := h.item hitem
    have hlength : (exs ++ [⟨exs.length + 1, i, tail, head⟩] : List Exercise).length = exs.length + 1 := by simp
    rw [← hlength] at hmore
    obtain ⟨s₀', more, tail', hmore₀, hitems, hs'⟩ := ih hs₁ hmore
    rw [hlength] at hmore₀
    refine ⟨s₀', ⟨exs.length + 1, i, tail, head⟩ :: more, tail', ?_, by rw [List.map_cons, hitems], by simpa using hs'⟩
    exact runs_append.2 ⟨s₂, hitem₀, hmore₀⟩

/-- A block of the flow counts the items of an ordered list, and no other exercises. -/
theorem block {b : Block} {count : Nat} (hkind : p.kind = .exercises) (h : s.Accounts p ctx book exs tail s₀)
    (hcount : count = exs.length)
    (hr : Runs ⟨p, some book⟩ ctx (.pieces (own ⟨p, some book⟩ count b)) { s with line := some b.line } s') :
    ∃ s₀' more tail', Runs ⟨p, none⟩ ctx (.pieces (own ⟨p, none⟩ count b)) { s₀ with line := some b.line } s₀' ∧
      more.map (·.item) = b.exerciseItems ∧ s'.Accounts p ctx book (exs ++ more) tail' s₀' := by
  have hline : ({ s with line := some b.line } : Session).Accounts p ctx book exs tail { s₀ with line := some b.line } :=
    { h with bare := congrArg (fun d : Session => { d with line := some b.line }) h.bare }
  by_cases hb : ∃ l, b = .list l ∧ l.style = .ordered
  · obtain ⟨l, rfl, hl⟩ := hb
    subst hcount
    rw [own_of_ordered hkind hl] at hr ⊢
    obtain ⟨s₁, hinterruption, hitems⟩ := runs_append.1 hr
    have hinside : (Task.pieces (interruption l)).Inside False := within_interruption l
    obtain ⟨s₂, more, hinterruption₀, hs₁⟩ := hline.step (hinterruption.of_profile_eq hinside.contained rfl)
      (hinterruption.sameCount hinside)
    obtain ⟨s₀', exs', tail', hitems₀, hexs, hs'⟩ := hs₁.items hitems
    exact ⟨s₀', exs', tail', runs_append.2 ⟨s₂, hinterruption₀, hitems₀⟩, by simp [hexs, Block.exerciseItems, hl], hs'⟩
  · obtain ⟨hr₀, hsame⟩ := hr.own_without hb
    obtain ⟨s₀', more, hr₀', hs'⟩ := hline.step hr₀ hsame
    have hnone : b.exerciseItems = [] := by
      cases b with
      | list l => exact if_neg fun hl => hb ⟨l, rfl, hl⟩
      | _ => rfl
    exact ⟨s₀', [], _, hr₀', hnone.symm, by rwa [List.append_nil]⟩

/-- The exercises of a flow are the items of its ordered lists. -/
theorem flow (hkind : p.kind = .exercises) : ∀ {bs : List Block} {exs : List Exercise} {tail : List Event}
    {s s₀ : Session}, s.Accounts p ctx book exs tail s₀ → Flow.run ⟨p, some book⟩ ctx bs s = .ok s' →
    ∃ s₀' more tail', Flow.run ⟨p, none⟩ ctx bs s₀ = .ok s₀' ∧ more.map (·.item) = bs.flatMap Block.exerciseItems ∧
      s'.Accounts p ctx book (exs ++ more) tail' s₀'
  | [], exs, tail, s, s₀, h, hrun => by
    cases hrun
    exact ⟨s₀, [], tail, rfl, rfl, by rwa [List.append_nil]⟩
  | b :: bs, exs, tail, s, s₀, h, hrun => by
    rw [Flow.run] at hrun
    cases hfirst : runPieces ⟨p, some book⟩ ctx (own ⟨p, some book⟩ s.exerciseCount b) { s with line := some b.line } with
    | error f =>
      rw [hfirst] at hrun
      cases hrun
    | ok s₁ =>
      rw [hfirst] at hrun
      obtain ⟨s₂, first, tail₁, hfirst₀, hitems, hs₁⟩ := h.block hkind h.count (runs_iff.2 hfirst)
      obtain ⟨s₀', more, tail', hmore₀, hmore, hs'⟩ := hs₁.flow hkind hrun
      have hcount : s₀.exerciseCount = s.exerciseCount := congrArg (·.exerciseCount) h.bare
      refine ⟨s₀', first ++ more, tail', ?_, by simp [hitems, hmore], by rwa [← List.append_assoc]⟩
      rw [← hcount] at hfirst₀
      rw [Flow.run, show runPieces _ ctx _ _ = .ok s₂ from hfirst₀.run_eq]
      exact hmore₀

end Session.Accounts

/-! ### Wrapping up -/

namespace Conversion

/-- The numbers after those of the exercises are reported in order. -/
theorem unusedSolutions_exercises (hkind : p.kind = .exercises) (book : SolutionBook) (s : Session) :
    unusedSolutions ⟨p, some book⟩ s = { s with warnings := s.warnings ++
      (book.numbers.filter (s.exerciseCount < ·)).map fun n => ⟨s.line, .unusedSolution n⟩ } := by
  simp only [unusedSolutions, hkind]
  exact foldl_warn_unusedSolution _ s

/-- The title of the root is found in what a session keeps of headings and front matter. -/
theorem rootTitle_congr (hheading : s'.heading = s.heading) (hmatter : s'.frontMatter = s.frontMatter) :
    (rootTitle set ctx s').1 = (rootTitle set ctx s).1 := by
  simp only [rootTitle, hheading, hmatter]
  split <;> rfl

/-- To find the title of the root gives rise to warnings at most. -/
theorem rootTitle_eq (set : Setting) (ctx : Inline.Context) (s : Session) :
    ∃ warnings, (rootTitle set ctx s).2 = { s with warnings := warnings } ∧
      s.SameCount (rootTitle set ctx s).2 := by
  unfold rootTitle
  split
  · exact ⟨_, rfl, s.inline_sameCount ctx _⟩
  · exact ⟨_, rfl, .refl s⟩
  · exact ⟨_, rfl, s.inline_sameCount ctx _⟩
  · exact ⟨_, rfl, .refl s⟩

/-- What was written before stands before the rest in the document, and changes nothing else but warnings. -/
theorem ofSession_after (set : Setting) (ctx : Inline.Context) (es : List Event) (ws : List Warning) (s : Session) :
    (ofSession set ctx (s.after es ws)).rootId = settledId set s ∧
    (ofSession set ctx (s.after es ws)).title = (rootTitle set ctx s).1 ∧
    (ofSession set ctx (s.after es ws)).xml = declaration ++ render 0 (events set.profile.kind (settledId set s)
      (rootTitle set ctx s).1 s.usesInclusion (es ++ (s.closeTo 0).writer.finish)) := by
  obtain ⟨warnings, hunused⟩ := unusedSolutions_eq set ((s.after es ws).closeTo 0)
  obtain ⟨warnings', hroot, _⟩ := rootTitle_eq set ctx { (s.after es ws).closeTo 0 with warnings := warnings }
  have htitle : (rootTitle set ctx { (s.after es ws).closeTo 0 with warnings := warnings }).1 =
      (rootTitle set ctx s).1 := rootTitle_congr rfl rfl
  have hclosed : ((s.after es ws).closeTo 0).writer.finish = es ++ (s.closeTo 0).writer.finish := by
    rw [s.closeTo_after es ws]
    exact List.append_assoc ..
  simp only [ofSession, hunused, hroot, htitle]
  exact ⟨rfl, trivial, hclosed ▸ rfl⟩

/-- Sessions that differ in what was written become documents that differ in it. -/
theorem ofSession_beside {set set₀ : Setting} (hprofile : set₀.profile = set.profile) (ctx : Inline.Context)
    (hbare : s₀.bare = s.bare) : ∃ usesInclusion rest,
      (ofSession set ctx s).xml = declaration ++ render 0 (events set.profile.kind (ofSession set ctx s).rootId
        (ofSession set ctx s).title usesInclusion (s.writer.events ++ rest)) ∧
      (ofSession set₀ ctx s₀).xml = declaration ++ render 0 (events set.profile.kind (ofSession set ctx s).rootId
        (ofSession set ctx s).title usesInclusion (s₀.writer.events ++ rest)) := by
  obtain ⟨hid, htitle, hxml⟩ := ofSession_after set ctx s.writer.events s.warnings s.bare
  obtain ⟨_, _, hxml₀⟩ := ofSession_after set₀ ctx s₀.writer.events s₀.warnings s₀.bare
  rw [s.after_bare] at hid htitle hxml
  rw [s₀.after_bare, hprofile, hbare] at hxml₀
  have hid₀ : settledId set₀ s.bare = settledId set s.bare := by rw [settledId, settledId, hprofile]
  have htitle₀ : (rootTitle set₀ ctx s.bare).1 = (rootTitle set ctx s.bare).1 := by rw [rootTitle, rootTitle, hprofile]
  rw [hid₀, htitle₀] at hxml₀
  rw [hid, htitle]
  exact ⟨_, _, hxml, hxml₀⟩

/-- Wrapping up reports the solutions after the last exercise, and no others. -/
theorem warnings_ofSession (hkind : p.kind = .exercises) (book : SolutionBook) (ctx : Inline.Context) (s : Session) :
    (ofSession ⟨p, some book⟩ ctx s).warnings.filter Warning.isMissingSolution =
      s.warnings.filter Warning.isMissingSolution ++
        (book.numbers.filter (s.exerciseCount < ·)).map fun n => ⟨s.line, .unusedSolution n⟩ := by
  obtain ⟨_, _, hroot⟩ := rootTitle_eq ⟨p, some book⟩ ctx (unusedSolutions ⟨p, some book⟩ (s.closeTo 0))
  have hunused : ((book.numbers.filter (s.exerciseCount < ·)).map fun n =>
      (⟨s.line, .unusedSolution n⟩ : Warning)).filter Warning.isMissingSolution =
        (book.numbers.filter (s.exerciseCount < ·)).map fun n => ⟨s.line, .unusedSolution n⟩ :=
    List.filter_eq_self.2 (List.forall_mem_map.2 fun _ _ => rfl)
  rw [unusedSolutions_exercises hkind] at hroot
  refine (show _ = _ from ?_).trans (hroot.warnings.trans ?_)
  · simp only [ofSession, unusedSolutions_exercises hkind]
  · exact (List.filter_append ..).trans (congrArg _ hunused)

/-- How the solutions of a book are accounted for in the conversion of an
exercise set with it, beside the one without it. -/
structure Accounts (p : Profile) (book : SolutionBook) (input : Text) (exs : List Exercise) (plain c : Conversion) :
    Prop where
  /-- The exercises are the items of the ordered lists in order. -/
  items : exs.map (·.item) = exerciseItemsOf p input
  /-- They have the numbers from one on. -/
  numbers : exs.map (·.number) = List.range' 1 exs.length
  /-- Before its solution an exercise has the title and the statement of its item. -/
  proper : ∀ e ∈ exs, e.Proper p (.of p (Footnotes.collect (Line.ofText input)))
  /-- The book adds to each exercise the solution of its number, and nothing else. -/
  documents : ∃ usesInclusion rest,
    plain.xml = declaration ++ render 0 (events .exercises c.rootId c.title usesInclusion
      (exs.flatMap (·.events []) ++ rest)) ∧
    c.xml = declaration ++ render 0 (events .exercises c.rootId c.title usesInclusion
      ((exs.flatMap fun e => e.events
        (book.events (.of p (Footnotes.collect (Line.ofText input))) e.number)) ++ rest))
  /-- The exercises without a solution are reported at their items, then the solutions without an exercise. -/
  warnings : ∃ line, c.warnings.filter Warning.isMissingSolution =
    (exs.filterMap fun e => book.warning? e.number e.item.line) ++
      (book.numbers.filter (exs.length < ·)).map fun n => ⟨line, .unusedSolution n⟩
  ascending : book.numbers.Pairwise (· < ·)
  /-- A solution belongs to an exercise or is reported. -/
  attached : ∀ n ∈ book.numbers, 1 ≤ n →
    (∃ e ∈ exs, e.number = n) ∨ ∃ line, (⟨line, .unusedSolution n⟩ : Warning) ∈ c.warnings

end Conversion

/-- In an exercise set that is converted with a book of solutions each exercise
has the solution of its number, and all others are reported. -/
theorem convert_solutions {p : Profile} (hkind : p.kind = .exercises) {key input : Text} {c : Conversion}
    (h : convert ⟨p, some (.parse key)⟩ input = .ok c) : ∃ plain exs, convert ⟨p, none⟩ input = .ok plain ∧
      Conversion.Accounts p (.parse key) input exs plain c := by
  let book := SolutionBook.parse key
  let ctx := Inline.Context.of p (Footnotes.collect (Line.ofText input))
  obtain ⟨s, hs, rfl⟩ : ∃ s, convertLines ⟨p, some book⟩ ctx .document (Line.ofText input) .start = .ok s ∧
      c = Conversion.ofSession ⟨p, some book⟩ ctx s := by
    unfold convert at h
    simp only at h
    split at h
    · next s hs => exact ⟨s, hs, (Except.ok.inj h).symm⟩
    · cases h
  obtain ⟨hfault, hrun⟩ := convertLines_eq_ok_iff.1 hs
  have hstart : Session.start.Accounts p ctx book [] [] .start := .start
  obtain ⟨s₀, exs, tail, hrun₀, hitems, haccounts⟩ := hstart.flow hkind hrun
  rw [List.nil_append] at haccounts
  have hs₀ : convertLines ⟨p, none⟩ ctx .document (Line.ofText input) .start = .ok s₀ :=
    convertLines_eq_ok_iff.2 ⟨hfault, hrun₀⟩
  have hplain : convert ⟨p, none⟩ input = .ok (.ofSession ⟨p, none⟩ ctx s₀) := by
    unfold convert
    simp only
    rw [show convertLines ⟨p, none⟩ _ .document (Line.ofText input) .start = .ok s₀ from hs₀]
  have hprofile : (⟨p, none⟩ : Setting).profile = (⟨p, some book⟩ : Setting).profile := rfl
  obtain ⟨usesInclusion, rest, hxml, hxml₀⟩ := Conversion.ofSession_beside hprofile ctx haccounts.bare
  have hwarnings := Conversion.warnings_ofSession hkind book ctx s
  rw [haccounts.count, haccounts.warnings] at hwarnings
  refine ⟨_, exs, hplain, ?_⟩
  exact {
    items := hitems
    numbers := haccounts.numbers
    proper := haccounts.proper
    documents := by
      rw [haccounts.events, List.append_assoc] at hxml
      rw [haccounts.plain, List.append_assoc] at hxml₀
      rw [← show p.kind = .exercises from hkind]
      exact ⟨usesInclusion, tail ++ rest, hxml₀, hxml⟩
    warnings := ⟨s.line, hwarnings⟩
    ascending := SolutionBook.ascending_parse key
    attached := by
      intro n hn hpos
      by_cases hle : n ≤ exs.length
      · have hnumber : n ∈ exs.map (·.number) := haccounts.numbers ▸ List.mem_range'_1.2 ⟨hpos, by omega⟩
        obtain ⟨e, he, rfl⟩ := List.mem_map.1 hnumber
        exact .inl ⟨e, he, rfl⟩
      · refine .inr ⟨s.line, List.mem_of_mem_filter (p := Warning.isMissingSolution) (hwarnings ▸ ?_)⟩
        refine List.mem_append_right _ (List.mem_map_of_mem (List.mem_filter.2 ⟨hn, ?_⟩))
        exact decide_eq_true (by omega) }

/-- The first exercise has a solution, the second one should have, and the fourth never comes. -/
theorem convert_solutions_first : ∃ c,
    convert ⟨.ofKind .exercises, some (.parse "1. One\n\\addtocounter{enumi}{2}\n1. Four".toList)⟩
      "1. a\n2. b".toList = .ok c ∧
    ∃ plain exs, convert ⟨.ofKind .exercises, none⟩ "1. a\n2. b".toList = .ok plain ∧
      Conversion.Accounts (.ofKind .exercises)
        (.parse "1. One\n\\addtocounter{enumi}{2}\n1. Four".toList) "1. a\n2. b".toList exs plain c := by
  have hbook : SolutionBook.parse "1. One\n\\addtocounter{enumi}{2}\n1. Four".toList =
      ⟨[(1, "One".toList), (4, "Four".toList)]⟩ := by decide +kernel
  have hlist : Block.read ⟨1, "1. a".toList⟩ [⟨2, "2. b".toList⟩] = .ok (.list ⟨1, .ordered,
      [⟨1, "1.".toList, [⟨1, "a".toList⟩]⟩, ⟨2, "2.".toList, [⟨2, "b".toList⟩]⟩], none⟩, []) := by decide +kernel
  have hrun (ctx : Inline.Context) : ∃ s, Runs
      ⟨.ofKind .exercises, some ⟨[(1, "One".toList), (4, "Four".toList)]⟩⟩ ctx
      (.lines .document [⟨1, "1. a".toList⟩, ⟨2, "2. b".toList⟩]) .start s :=
    ⟨_, .lines hlist
      (.pieces (.write rfl rfl) (.pieces (.element (.pieces (.element (.pieces (.blocks
          (.lines rfl (.pieces (.write rfl rfl) .noPieces) .noLines)) .noPieces))
          (.pieces (.element (.pieces (.write rfl rfl) .noPieces)) .noPieces)))
        (.pieces (.write rfl rfl) (.pieces (.element (.pieces (.element (.pieces (.blocks
          (.lines rfl (.pieces (.write rfl rfl) .noPieces) .noLines)) .noPieces))
          (.pieces (.write rfl rfl) .noPieces))) .noPieces))))
      .noLines⟩
  have hconvert : ∃ c, convert ⟨.ofKind .exercises, some ⟨[(1, "One".toList), (4, "Four".toList)]⟩⟩
      "1. a\n2. b".toList = .ok c := by
    obtain ⟨s, hs⟩ := hrun _
    exact convert_eq_ok_iff.2 ⟨s, hs.run_eq⟩
  rw [← hbook] at hconvert
  obtain ⟨c, hc⟩ := hconvert
  exact ⟨c, hc, convert_solutions rfl hc⟩

end QuartoPretext
