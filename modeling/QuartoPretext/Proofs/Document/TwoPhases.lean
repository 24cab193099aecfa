/-
# The two phases of a div

A worked example and an exercise have a statement and a solution. The lines of
such a div stand for one of the two, or are dropped as what sets them apart: the
heading with the title, a line between the phases, a heading that announces the
solution, the closing fence of a callout. Every line has one of these places, and
they are in the order of the lines; what is handed over to be converted is the
statement and the solution, in lines that are balanced if those of the body are.

Key definitions: `Div.Phases`, `Div.Phases.Separated`, `Piece.handed`, `Plan.Hands`.
Key theorems: `Runs.handed`, `Div.splitTop?_isClose`, `Plan.ofDiv_two_phases`.
-/
import QuartoPretext.Proofs.Document.LeadingHeadings
import QuartoPretext.Proofs.Document.Order

namespace QuartoPretext

open Text

namespace DivFence

theorem balanced_append_iff {ss ts : List Text} (h : Balanced ss) : Balanced (ss ++ ts) ↔ Balanced ts := by
  rw [Extent.balanced_iff, Extent.balanced_iff, Extent.openAfter_append, Extent.openAfter_balanced h, Option.bind_some]

/-- The line after balanced lines closes no div, if all lines are balanced. -/
theorem Balanced.not_closes {ss ts : List Text} {s : Text} (h : Balanced (ss ++ s :: ts)) (hss : Balanced ss) :
    ¬Closes s := by
  intro hs
  have hopen := Extent.balanced_iff.1 ((balanced_append_iff hss).1 h)
  rw [Extent.openAfter_closing hs, if_pos rfl] at hopen
  cases hopen

end DivFence

open DivFence

namespace Div

/-! ### The places of the lines -/

/-- The lines of a body in two phases, in order. -/
structure Phases where
  /-- lines up to a heading that gives the title -/
  title : List Line
  statement : List Line
  /-- the line after which the solution starts -/
  separator : List Line
  /-- lines up to a heading that announces the solution -/
  heading : List Line
  solution : List Line
  /-- the closing fence of a callout that holds the solution -/
  close : List Line
  /-- more of the solution, after the callout -/
  rest : List Line

/-- All lines but those up to the title. -/
def Phases.untitled (d : Phases) : List Line :=
  d.statement ++ d.separator ++ d.heading ++ d.solution ++ d.close ++ d.rest

/-- What is kept of the lines. -/
def Phases.chunks (d : Phases) : List (List Line) := [d.statement, d.solution, d.rest]

/-- Nothing, or blank lines and a heading with an accepted title after them. -/
def IsLead (accepts : Text → Bool) (ls : List Line) : Prop :=
  ls = [] ∨ ∃ gap l level raw, ls = gap ++ [l] ∧ (∀ k ∈ gap, k.isBlank) ∧
    BlockStart.heading? (trim l.text) = some (level, raw) ∧ accepts (leadTitle raw)

/-- The titles that a div takes from a heading. -/
def takesTitle : DivKind → Text → Bool
  | .exercise, title => !isSolutionTitle title
  | _, _ => true

/-- How the solution is set apart from the statement: in a worked example by the
first rule outside of divs and code; in an exercise by the first callout there,
which holds the solution, or without one by the first heading there that only
announces a solution. -/
inductive Phases.Separated : DivKind → Phases → Prop
  | rule {title statement heading solution : List Line} {l : Line} : FirstTop Plan.isSeparator statement l →
      Separated .workedExample ⟨title, statement, [l], heading, solution, [], []⟩
  | noRule {title statement : List Line} : NoneTop Plan.isSeparator statement →
      Separated .workedExample ⟨title, statement, [], [], [], [], []⟩
  | callout {title statement heading solution rest : List Line} {l c : Line} : FirstTop Plan.isCallout statement l →
      Balanced ((heading ++ solution).map (·.text)) → Closes c.text →
      Separated .exercise ⟨title, statement, [l], heading, solution, [c], rest⟩
  | heading {title statement solution : List Line} {l : Line} : NoneTop Plan.isCallout (statement ++ l :: solution) →
      FirstTop Plan.isSolutionHeading statement l →
      Separated .exercise ⟨title, statement, [l], [], solution, [], []⟩
  | whole {title statement : List Line} : NoneTop Plan.isCallout statement →
      NoneTop Plan.isSolutionHeading statement → Separated .exercise ⟨title, statement, [], [], [], [], []⟩

/-- Each line of the body of a div of some kind has its place. -/
structure Phases.Divides (kind : DivKind) (body : List Line) (d : Phases) : Prop where
  lines : body = d.title ++ d.untitled
  title : IsLead (takesTitle kind) d.title
  heading : IsLead isSolutionTitle d.heading
  separated : d.Separated kind

variable {accepts : Text → Bool} {ls before after rest : List Line} {l : Line}

theorem IsLead.balanced (h : IsLead accepts ls) : Balanced (ls.map (·.text)) := by
  obtain rfl | ⟨gap, l, level, raw, rfl, hgap, hheading, -⟩ := h
  · exact .nil
  · refine balanced_of_plain (List.forall_mem_map.2 (List.forall_mem_append.2 ⟨fun k hk => ?_, ?_⟩))
    · exact plain_of_isBlank (hgap k hk)
    · exact List.forall_mem_singleton.2 (plain_of_heading hheading)

theorem isLead_of_leadingHeading? {title : Text} (h : leadingHeading? ls = some (title, rest)) (ht : accepts title) :
    ∃ lead, ls = lead ++ rest ∧ IsLead accepts lead := by
  obtain ⟨gap, l, level, raw, rfl, hgap, hheading, rfl⟩ := leadingHeading?_eq_some_iff.1 h
  exact ⟨gap ++ [l], by simp, .inr ⟨gap, l, level, raw, rfl, hgap, hheading, ht⟩⟩

theorem exists_withoutSolutionHeading (ls : List Line) : ∃ lead, ls = lead ++ withoutSolutionHeading ls ∧
    IsLead isSolutionTitle lead := by
  unfold withoutSolutionHeading
  split
  · next title rest hlead =>
    split
    · next ht => exact isLead_of_leadingHeading? hlead ht
    · exact ⟨[], rfl, .inl rfl⟩
  · exact ⟨[], rfl, .inl rfl⟩

theorem balanced_withoutSolutionHeading (h : Balanced (ls.map (·.text))) :
    Balanced ((withoutSolutionHeading ls).map (·.text)) := by
  obtain ⟨lead, heq, hlead⟩ := exists_withoutSolutionHeading ls
  rwa [heq, List.map_append, balanced_append_iff hlead.balanced] at h

/-- What stands after a first line that is no fence of a div is balanced. -/
theorem FirstTop.balanced_after {accepts : Line → Option DivFence → Bool} (h : FirstTop accepts before l)
    (hdiv : parse? l.text = none) (hall : Balanced ((before ++ l :: after).map (·.text))) :
    Balanced (after.map (·.text)) := by
  rw [List.map_append, balanced_append_iff h.balanced, List.map_cons, Extent.balanced_iff,
    Extent.openAfter_line (Extent.isCode_none_iff.1 h.no_code) hdiv] at hall
  exact Extent.balanced_iff.2 hall

/-- After a first line that opens a div its content is balanced, up to its closing fence. -/
theorem FirstTop.exists_close {accepts : Line → Option DivFence → Bool} (h : FirstTop accepts before l)
    (hopens : Opens l.text) (hall : Balanced ((before ++ l :: after).map (·.text))) :
    ∃ inside c rest, after = inside ++ c :: rest ∧ Balanced (inside.map (·.text)) ∧ Closes c.text ∧
      Balanced (rest.map (·.text)) := by
  rw [List.map_append, balanced_append_iff h.balanced, List.map_cons, Extent.balanced_iff,
    Extent.openAfter_opening hopens] at hall
  obtain ⟨ss, t, ts, hafter, hss, ht, hts⟩ := Extent.exists_body 0 0 hall
  obtain ⟨inside, more, rfl, rfl, hmore⟩ := List.map_eq_append_iff.1 hafter
  obtain ⟨c, rest, rfl, rfl, rfl⟩ := List.map_eq_cons_iff.1 hmore
  exact ⟨inside, c, rest, rfl, Extent.balanced_iff.2 hss, ht, Extent.balanced_iff.2 hts⟩

/-- The closing fence of a div is found after its content. -/
theorem splitTop?_isClose {inside rest : List Line} {c : Line} (hinside : Balanced (inside.map (·.text)))
    (hc : Closes c.text) : splitTop? Plan.isClose 0 none (inside ++ c :: rest) = some (inside, c, rest) := by
  obtain ⟨n, hdiv⟩ := hc
  have hnone : splitTop? Plan.isClose 0 none inside = none := by
    refine (splitTop?_eq_none_iff (by simp [Extent.balanced_iff.1 hinside])).2 ?_
    rintro before l after rfl hbefore -
    rw [List.map_append, List.map_cons] at hinside
    have hl := hinside.not_closes hbefore
    cases hl' : parse? l.text with
    | none => rfl
    | some d =>
      cases d with
      | opening n label attrs => rfl
      | closing n => exact absurd ⟨n, hl'⟩ hl
  rw [splitTop?_after hinside (Extent.isCode_none_iff.2 (next_of_parse? hdiv)) (by rw [hdiv]; rfl), hnone]

end Div

/-! ### What is handed over -/

namespace Piece

/-- The lines that a piece hands over, and where they stand. -/
def body? : Piece → Option (Context × List Line)
  | blocks context ls => some (context, ls)
  | _ => none

/-- The lines that some pieces hand over to be converted, body by body. -/
def handed (ps : List Piece) : List (Context × List Line) := (leavesOf ps).filterMap body?

variable {ps qs : List Piece} {context : Context} {ls : List Line}

theorem handed_append (ps qs : List Piece) : handed (ps ++ qs) = handed ps ++ handed qs := by
  rw [handed, leavesOf_append, List.filterMap_append, handed, handed]

theorem handed_element (tag : Markup.Tag) (content : List Piece) : handed [.element tag content] = handed content := by
  rw [handed, leavesOf_singleton, leaves, handed]

theorem mem_handed_iff : (context, ls) ∈ handed ps ↔ .blocks context ls ∈ leavesOf ps := by
  rw [handed, List.mem_filterMap]
  constructor
  · rintro ⟨p, hp, hbody⟩
    cases p with
    | blocks context ls =>
      cases hbody
      exact hp
    | _ => cases hbody
  · exact fun h => ⟨_, h, rfl⟩

end Piece

/-- A run converts what it is handed. -/
theorem Runs.handed {set : Setting} {ctx : Inline.Context} {t : Task} {s s' : Session} {context : Context}
    {ls : List Line} (h : Runs set ctx t s s') (hls : .blocks context ls ∈ t.leaves) :
    ∃ s₁ s₂, Reached set ctx t s (.lines context ls) s₁ ∧ Runs set ctx (.lines context ls) s₁ s₂ := by
  induction h with
  | element _ ih =>
    obtain ⟨s₁, s₂, hreached, hruns⟩ := ih hls
    exact ⟨s₁, s₂, .trans (.content .start) hreached, hruns⟩
  | blocks hruns _ =>
    cases List.mem_singleton.1 hls
    exact ⟨_, _, .body .start, hruns⟩
  | @write p s s' hp _ =>
    cases p with
    | element tag content => cases hp
    | blocks context ls => cases hp
    | _ => cases List.mem_singleton.1 hls
  | noPieces | noLines | lines _ _ _ _ _ => cases hls
  | pieces hfirst _ ih₁ ih₂ =>
    rcases List.mem_append.1 hls with hls | hls
    · obtain ⟨s₁, s₂, hreached, hruns⟩ := ih₁ hls
      exact ⟨s₁, s₂, .trans (.first .start) hreached, hruns⟩
    · obtain ⟨s₁, s₂, hreached, hruns⟩ := ih₂ hls
      exact ⟨s₁, s₂, .trans (.next .start hfirst) hreached, hruns⟩

namespace Plan

def hasText (ls : List Line) : Bool := !ls.all Line.isBlank

/-- Some pieces hand over some chunks of balanced lines, but maybe not those that are blank. -/
def Hands (ps : List Piece) (chunks : List (List Line)) : Prop :=
  ∃ handed : List (List Line), Piece.handed ps = handed.map (Context.container, ·) ∧
    handed.filter hasText = chunks.filter hasText ∧ ∀ c ∈ handed, Balanced (c.map (·.text))

variable {ps qs : List Piece} {chunks chunks' : List (List Line)} {body ls : List Line}

theorem Hands.append (h : Hands ps chunks) (h' : Hands qs chunks') : Hands (ps ++ qs) (chunks ++ chunks') := by
  obtain ⟨handed, hps, hchunks, hbalanced⟩ := h
  obtain ⟨handed', hqs, hchunks', hbalanced'⟩ := h'
  refine ⟨handed ++ handed', ?_, ?_, List.forall_mem_append.2 ⟨hbalanced, hbalanced'⟩⟩
  · rw [Piece.handed_append, hps, hqs, List.map_append]
  · rw [List.filter_append, hchunks, hchunks', List.filter_append]

/-- Empty chunks need not be handed over. -/
theorem Hands.congr (h : Hands ps chunks) (heq : chunks.filter hasText = chunks'.filter hasText) : Hands ps chunks' := by
  obtain ⟨handed, hps, hchunks, hbalanced⟩ := h
  exact ⟨handed, hps, hchunks.trans heq, hbalanced⟩

theorem Hands.element (h : Hands ps chunks) (tag : Markup.Tag) : Hands [.element tag ps] chunks := by
  rwa [Hands, Piece.handed_element]

theorem hands_nil : Hands [] [] := ⟨[], rfl, rfl, nofun⟩

theorem hands_titleLeaf (text : Text) : Hands [titleLeaf text] [] := ⟨[], rfl, rfl, nofun⟩

theorem hands_blocks (h : Balanced (ls.map (·.text))) : Hands [.blocks .container ls] [ls] :=
  ⟨[ls], rfl, rfl, List.forall_mem_singleton.2 h⟩

theorem handed_map_blocks : ∀ chunks : List (List Line),
    Piece.handed (chunks.map (.blocks .container)) = chunks.map (Context.container, ·)
  | [] => rfl
  | c :: chunks => by
    rw [List.map_cons, ← List.singleton_append, Piece.handed_append, handed_map_blocks chunks]
    rfl

theorem hands_part (e : Markup.Element) (h : ∀ c ∈ chunks, Balanced (c.map (·.text))) : Hands (part e chunks) chunks := by
  unfold part
  split
  · next hblank =>
    refine ⟨[], rfl, ?_, nofun⟩
    rw [List.filter_nil, eq_comm, List.filter_eq_nil_iff]
    exact fun c hc => by simpa [hasText] using List.all_eq_true.1 hblank c hc
  · exact ⟨chunks, by rw [plainElement, Piece.handed_element, handed_map_blocks], rfl, h⟩

/-! ### The two kinds of divs -/

/-- A worked example, after the lines with its title. -/
theorem workedExample_phases {lead : List Line} (hlead : Div.IsLead (Div.takesTitle .workedExample) lead)
    (h : Balanced (ls.map (·.text))) : ∃ d : Div.Phases, d.Divides .workedExample (lead ++ ls) ∧ d.untitled = ls ∧
      Hands (match Div.splitTop? isSeparator 0 none ls with
        | some (before, _, after) => part .statement [before] ++ part .solution [Div.withoutSolutionHeading after]
        | none => [.blocks .container ls]) d.chunks := by
  have hopen : Extent.openAfter 0 none (ls.map (·.text)) ≠ none := by simp [Extent.balanced_iff.1 h]
  cases hsplit : Div.splitTop? isSeparator 0 none ls with
  | none =>
    have huntitled : Div.Phases.untitled ⟨lead, ls, [], [], [], [], []⟩ = ls := by simp [Div.Phases.untitled]
    refine ⟨_, ⟨by rw [huntitled], hlead, .inl rfl, .noRule ?_⟩, huntitled, ?_⟩
    · exact (Div.splitTop?_eq_none_iff hopen).1 hsplit
    · exact (hands_blocks h).congr (by simp [Div.Phases.chunks, hasText, List.filter_cons])
  | some found =>
    obtain ⟨before, l, after⟩ := found
    obtain ⟨rfl, hfirst⟩ := (Div.splitTop?_eq_some_iff hopen).1 hsplit
    have hdiv : parse? l.text = none := by
      have haccepted := hfirst.accepted
      simp only [isSeparator, Bool.and_eq_true, Option.isNone_iff_eq_none] at haccepted
      exact haccepted.1
    have hsolution := Div.balanced_withoutSolutionHeading (hfirst.balanced_after hdiv h)
    obtain ⟨gap, heq, hgap⟩ := Div.exists_withoutSolutionHeading after
    have huntitled : Div.Phases.untitled ⟨lead, before, [l], gap, Div.withoutSolutionHeading after, [], []⟩ =
        before ++ l :: after := by
      simp only [Div.Phases.untitled, List.append_nil, List.append_assoc, List.cons_append, List.nil_append]
      rw [← heq]
    refine ⟨_, ⟨by rw [huntitled], hlead, hgap, .rule hfirst⟩, huntitled, ?_⟩
    have hparts := (hands_part .statement (List.forall_mem_singleton.2 hfirst.balanced)).append
      (hands_part .solution (List.forall_mem_singleton.2 hsolution))
    exact hparts.congr (by simp [Div.Phases.chunks, hasText, List.filter_cons])

/-- After the first callout of balanced lines comes its closing fence, and it is found. -/
theorem exists_callout {before after : List Line} {l : Line} (h : Balanced (ls.map (·.text)))
    (hcallout : Div.splitTop? isCallout 0 none ls = some (before, l, after)) : ∃ inside c rest,
      Div.FirstTop isCallout before l ∧ after = inside ++ c :: rest ∧ Balanced (inside.map (·.text)) ∧
        Closes c.text ∧ Balanced (rest.map (·.text)) ∧
        Div.splitTop? isClose 0 none after = some (inside, c, rest) := by
  have hopen : Extent.openAfter 0 none (ls.map (·.text)) ≠ none := by simp [Extent.balanced_iff.1 h]
  obtain ⟨rfl, hfirst⟩ := (Div.splitTop?_eq_some_iff hopen).1 hcallout
  have hopens : Opens l.text := by
    have haccepted := hfirst.accepted
    unfold isCallout at haccepted
    split at haccepted
    · next n label attrs hdiv => exact ⟨n, label, attrs, hdiv⟩
    · cases haccepted
  obtain ⟨inside, c, rest, rfl, hinside, hc, hrest⟩ := hfirst.exists_close hopens h
  exact ⟨inside, c, rest, hfirst, rfl, hinside, hc, hrest, Div.splitTop?_isClose hinside hc⟩

/-- An exercise, after the lines with its title. -/
theorem exerciseParts_phases {lead : List Line} (hlead : Div.IsLead (Div.takesTitle .exercise) lead)
    (h : Balanced (ls.map (·.text))) : ∃ d : Div.Phases, d.Divides .exercise (lead ++ ls) ∧ d.untitled = ls ∧
      Hands (exerciseParts ls) d.chunks := by
  have hopen : Extent.openAfter 0 none (ls.map (·.text)) ≠ none := by simp [Extent.balanced_iff.1 h]
  unfold exerciseParts
  cases hcallout : Div.splitTop? isCallout 0 none ls with
  | some found =>
    obtain ⟨before, l, after⟩ := found
    obtain ⟨inside, c, rest, hfirst, rfl, hinside, hc, hrest, hclose⟩ := exists_callout h hcallout
    obtain rfl := Div.splitTop?_eq hcallout
    have hsolution := Div.balanced_withoutSolutionHeading hinside
    obtain ⟨gap, heq, hgap⟩ := Div.exists_withoutSolutionHeading inside
    have huntitled : Div.Phases.untitled ⟨lead, before, [l], gap, Div.withoutSolutionHeading inside, [c], rest⟩ =
        before ++ l :: (inside ++ c :: rest) := by
      simp only [Div.Phases.untitled, List.append_assoc, List.cons_append, List.nil_append]
      rw [← List.append_assoc gap, ← heq]
    refine ⟨_, ⟨by rw [huntitled], hlead, hgap, .callout hfirst (heq ▸ hinside) hc⟩, huntitled, ?_⟩
    simp only [hclose]
    exact (hands_part .statement (List.forall_mem_singleton.2 hfirst.balanced)).append
      (hands_part .solution (List.forall_mem_cons.2 ⟨hsolution, List.forall_mem_singleton.2 hrest⟩))
  | none =>
    have hnone := (Div.splitTop?_eq_none_iff hopen).1 hcallout
    cases hheading : Div.splitTop? isSolutionHeading 0 none ls with
    | none =>
      have huntitled : Div.Phases.untitled ⟨lead, ls, [], [], [], [], []⟩ = ls := by simp [Div.Phases.untitled]
      refine ⟨_, ⟨by rw [huntitled], hlead, .inl rfl, .whole hnone ?_⟩, huntitled, ?_⟩
      · exact (Div.splitTop?_eq_none_iff hopen).1 hheading
      · exact (hands_part .statement (List.forall_mem_singleton.2 h)).congr
          (by simp [Div.Phases.chunks, hasText, List.filter_cons])
    | some found =>
      obtain ⟨before, l, after⟩ := found
      obtain ⟨rfl, hfirst⟩ := (Div.splitTop?_eq_some_iff hopen).1 hheading
      have hdiv : parse? l.text = none := by
        have haccepted := hfirst.accepted
        simp only [isSolutionHeading, Bool.and_eq_true, Option.isNone_iff_eq_none] at haccepted
        exact haccepted.1
      have hafter := hfirst.balanced_after hdiv h
      have huntitled : Div.Phases.untitled ⟨lead, before, [l], [], after, [], []⟩ = before ++ l :: after := by
        simp [Div.Phases.untitled]
      refine ⟨_, ⟨by rw [huntitled], hlead, .inl rfl, .heading hnone hfirst⟩, huntitled, ?_⟩
      have hparts := (hands_part .statement (List.forall_mem_singleton.2 hfirst.balanced)).append
        (hands_part .solution (List.forall_mem_singleton.2 hafter))
      exact hparts.congr (by simp [Div.Phases.chunks, hasText, List.filter_cons])

theorem workedExample_divides (attrs : Attributes) (h : Balanced (body.map (·.text))) : ∃ d : Div.Phases,
    d.Divides .workedExample body ∧ Balanced (d.untitled.map (·.text)) ∧
      Hands [workedExample attrs body] d.chunks := by
  unfold workedExample titled
  cases hfound : Div.leadingHeading? body with
  | none =>
    obtain ⟨d, hd, rfl, hhands⟩ := workedExample_phases (.inl rfl) h
    exact ⟨d, hd, h, (hands_nil.append hhands).element _⟩
  | some found =>
    obtain ⟨title, rest⟩ := found
    obtain ⟨lead, rfl, hlead⟩ :=
      Div.isLead_of_leadingHeading? hfound (show Div.takesTitle .workedExample title from rfl)
    rw [List.map_append, balanced_append_iff hlead.balanced] at h
    obtain ⟨d, hd, rfl, hhands⟩ := workedExample_phases hlead h
    exact ⟨d, hd, h, ((hands_titleLeaf title).append hhands).element _⟩

theorem exercise_divides (attrs : Attributes) (h : Balanced (body.map (·.text))) : ∃ d : Div.Phases,
    d.Divides .exercise body ∧ Balanced (d.untitled.map (·.text)) ∧ Hands [exercise attrs body] d.chunks := by
  have untitled : ∃ d : Div.Phases, d.Divides .exercise body ∧ Balanced (d.untitled.map (·.text)) ∧
      Hands [.element (.withId .exercise attrs.id) ([] ++ exerciseParts body)] d.chunks := by
    obtain ⟨d, hd, rfl, hhands⟩ := exerciseParts_phases (.inl rfl) h
    exact ⟨d, hd, h, (hands_nil.append hhands).element _⟩
  unfold exercise
  cases hfound : Div.leadingHeading? body with
  | none => exact untitled
  | some found =>
    obtain ⟨title, rest⟩ := found
    by_cases ht : Div.isSolutionTitle title
    · simpa only [if_pos ht] using untitled
    · obtain ⟨lead, rfl, hlead⟩ := Div.isLead_of_leadingHeading? hfound
        (show Div.takesTitle .exercise title by simpa [Div.takesTitle] using ht)
      rw [List.map_append, balanced_append_iff hlead.balanced] at h
      obtain ⟨d, hd, rfl, hhands⟩ := exerciseParts_phases hlead h
      refine ⟨d, hd, h, ?_⟩
      simp only [if_neg ht]
      exact ((hands_titleLeaf title).append hhands).element _

/-- The lines of a worked example or an exercise are those that are handed over to
be converted, the statement before the solution, and those that are dropped: each
line has one place, in the order of the lines. What is handed over is balanced,
the end of a callout with the solution is always found, and a run that succeeds
has converted all that it is handed. -/
theorem ofDiv_two_phases {p : Profile} {attrs : Attributes} {kind : DivKind} (hkind : Div.kind p attrs = kind)
    (htwo : kind = .workedExample ∨ kind = .exercise) (hbody : Balanced (body.map (·.text))) (context : Context)
    (line : Nat) (label : Text) : ∃ d : Div.Phases, d.Divides kind body ∧
      Hands (ofDiv p context line label attrs body) d.chunks ∧
      (∀ before l after, Div.splitTop? isCallout 0 none d.untitled = some (before, l, after) →
        Div.splitTop? isClose 0 none after ≠ none) ∧
      ∀ set ctx s s', Runs set ctx (.pieces (ofDiv p context line label attrs body)) s s' →
        ∀ c ∈ Piece.handed (ofDiv p context line label attrs body), ∃ s₁ s₂,
          Reached set ctx (.pieces (ofDiv p context line label attrs body)) s (.lines c.1 c.2) s₁ ∧
            Runs set ctx (.lines c.1 c.2) s₁ s₂ := by
  have hphases : ∃ d : Div.Phases, d.Divides kind body ∧ Balanced (d.untitled.map (·.text)) ∧
      Hands (ofDiv p context line label attrs body) d.chunks := by
    unfold ofDiv
    rw [hkind]
    rcases htwo with rfl | rfl
    · exact workedExample_divides attrs hbody
    · exact exercise_divides attrs hbody
  obtain ⟨d, hd, huntitled, hhands⟩ := hphases
  refine ⟨d, hd, hhands, fun before l after hcallout => ?_,
    fun set ctx s s' hruns c hc => hruns.handed (Piece.mem_handed_iff.1 hc)⟩
  obtain ⟨inside, c, rest, -, -, -, -, -, hclose⟩ := exists_callout huntitled hcallout
  rw [hclose]
  exact Option.some_ne_none _

/-- An exercise with a title, a callout with its solution under a heading, and a line after that. -/
theorem ofDiv_two_phases_callout : ∃ attrs body,
    Block.read ⟨1, "::: exercise".toList⟩ (Line.numberFrom 2
      (["## Task", "Add.", "::: callout-tip", "", "### Answer", "Two.", ":::", "More.", ":::"].map String.toList)) =
        .ok (.div 1 "exercise".toList attrs body, []) ∧
    Piece.handed (ofDiv (.ofKind .chapter) .document 1 "exercise".toList attrs body) =
      [(.container, [⟨3, "Add.".toList⟩]), (.container, [⟨7, "Two.".toList⟩]), (.container, [⟨9, "More.".toList⟩])] ∧
    ∃ d : Div.Phases, d.Divides .exercise body ∧
      Hands (ofDiv (.ofKind .chapter) .document 1 "exercise".toList attrs body) d.chunks := by
  refine ⟨{ Attributes.none with classes := ["exercise".toList] }, Line.numberFrom 2
    (["## Task", "Add.", "::: callout-tip", "", "### Answer", "Two.", ":::", "More."].map String.toList),
    by decide +kernel, by decide +kernel, ?_⟩
  obtain ⟨d, hd, hhands, -⟩ := ofDiv_two_phases
    (show Div.kind (.ofKind .chapter) { Attributes.none with classes := ["exercise".toList] } = .exercise by
      decide +kernel) (.inr rfl)
    (Extent.balanced_iff.2 (show Extent.openAfter 0 none ((Line.numberFrom 2
      (["## Task", "Add.", "::: callout-tip", "", "### Answer", "Two.", ":::", "More."].map String.toList)).map (·.text)) =
        some (0, none) by decide +kernel)) .document 1 "exercise".toList
  exact ⟨d, hd, hhands⟩

end Plan
end QuartoPretext
