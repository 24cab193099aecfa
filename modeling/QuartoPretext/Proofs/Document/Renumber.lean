/-
# A conversion under other line numbers

What a block becomes hangs on its texts; the numbers of its lines only go into
warnings, faults and the lines that are still to be read. So lines under other
numbers are converted alike: the sessions differ in nothing but the lines that
their warnings are about, and a fault is the same one under another number.

Key definitions: `Piece.renumber`, `Session.Alike`, `Session.ResultAlike`,
`Task.Renumbered`.
Key theorems: `Plan.ofBlock_renumber`, `Session.Alike.write`,
`Task.run_renumbered`, `convertLines_renumber`.
-/
import QuartoPretext.Proofs.Block.Renumber
import QuartoPretext.Proofs.Document.Run

namespace QuartoPretext

open Text Markup

namespace Piece

mutual

/-- The piece with other numbers of lines in it. -/
def renumber (f : Nat → Nat) : Piece → Piece
  | element tag content => element tag (renumberAll f content)
  | warn n cause => warn (f n) cause
  | blocks context ls => blocks context (ls.map (Line.renumber f))
  | heading n level title id => heading (f n) level title id
  | frontMatter n yaml => frontMatter (f n) yaml
  | p => p

def renumberAll (f : Nat → Nat) : List Piece → List Piece
  | [] => []
  | p :: ps => renumber f p :: renumberAll f ps

end

variable (f : Nat → Nat)

theorem renumberAll_append : ∀ ps qs : List Piece,
    renumberAll f (ps ++ qs) = renumberAll f ps ++ renumberAll f qs
  | [], _ => rfl
  | p :: ps, qs => by rw [List.cons_append, renumberAll, renumberAll, renumberAll_append ps, List.cons_append]

theorem renumberAll_map {α : Type} {g h : α → Piece} : ∀ {as : List α}, (∀ a ∈ as, renumber f (g a) = h a) →
    renumberAll f (as.map g) = as.map h
  | [], _ => rfl
  | a :: as, hgh => by
    obtain ⟨ha, has⟩ := List.forall_mem_cons.1 hgh
    rw [List.map_cons, renumberAll, ha, renumberAll_map has, List.map_cons]

theorem renumberAll_fixed : ∀ {ps : List Piece}, (∀ p ∈ ps, renumber f p = p) → renumberAll f ps = ps
  | [], _ => rfl
  | p :: ps, h => by
    obtain ⟨hp, hps⟩ := List.forall_mem_cons.1 h
    rw [renumberAll, hp, renumberAll_fixed hps]

end Piece

/-! ### Divs -/

namespace Div

variable (f : Nat → Nat)

theorem dropWhile_renumber (ls : List Line) :
    (ls.map (Line.renumber f)).dropWhile Line.isBlank = (ls.dropWhile Line.isBlank).map (Line.renumber f) :=
  List.dropWhile_map ..

theorem leadingHeading?_renumber (ls : List Line) : leadingHeading? (ls.map (Line.renumber f)) =
    (leadingHeading? ls).map fun p => (p.1, p.2.map (Line.renumber f)) := by
  rw [leadingHeading?, leadingHeading?, dropWhile_renumber]
  cases ls.dropWhile Line.isBlank with
  | nil => rfl
  | cons l rest =>
    simp only [List.map_cons, Line.text_renumber, Option.map_map]
    rfl

theorem withoutSolutionHeading_renumber (ls : List Line) :
    withoutSolutionHeading (ls.map (Line.renumber f)) = (withoutSolutionHeading ls).map (Line.renumber f) := by
  rw [withoutSolutionHeading, withoutSolutionHeading, leadingHeading?_renumber]
  cases leadingHeading? ls with
  | none => rfl
  | some found =>
    simp only [Option.map_some]
    split <;> rfl

theorem promoteTitle?_renumber : ∀ ls : List Line, promoteTitle? (ls.map (Line.renumber f)) =
    (promoteTitle? ls).map fun p => (p.1, p.2.map (Line.renumber f))
  | [] => rfl
  | l :: ls => by
    rw [List.map_cons, promoteTitle?, promoteTitle?, Line.isBlank_renumber, Line.text_renumber]
    split
    · rw [promoteTitle?_renumber ls, Option.map_map, Option.map_map]
      rfl
    · rw [Option.map_map]
      rfl

/-- The parts of a split under other numbers. -/
def renumberSplit (p : List Line × Line × List Line) : List Line × Line × List Line :=
  (p.1.map (Line.renumber f), p.2.1.renumber f, p.2.2.map (Line.renumber f))

theorem splitTop?_renumber {accepts : Line → Option DivFence → Bool}
    (haccepts : ∀ l div, accepts (l.renumber f) div = accepts l div) :
    ∀ (ls : List Line) (depth : Nat) (fence : Option FenceMark),
      splitTop? accepts depth fence (ls.map (Line.renumber f)) =
        (splitTop? accepts depth fence ls).map (renumberSplit f)
  | [], _, _ => rfl
  | l :: ls, depth, fence => by
    have keep (found : Option (List Line × Line × List Line)) :
        (found.map (renumberSplit f)).map (fun p => (l.renumber f :: p.1, p.2.1, p.2.2)) =
          (found.map fun p => (l :: p.1, p.2.1, p.2.2)).map (renumberSplit f) := by
      rw [Option.map_map, Option.map_map]
      rfl
    rw [List.map_cons, splitTop?, splitTop?, Line.text_renumber]
    simp only [splitTop?_renumber haccepts ls, haccepts, keep]
    split
    · rfl
    · split
      · rfl
      · split <;> rfl

end Div

/-! ### Plans -/

namespace Plan

open Piece

variable (f : Nat → Nat)

theorem renumber_figure (id : Option Text) (caption source width : Text) (alt : Option Text) :
    renumber f (figure id caption source width alt) = figure id caption source width alt := by
  cases alt <;> rfl

theorem code_renumber (code : List Line) : Metadata.code (code.map (Line.renumber f)) =
    (Metadata.code code).map (Line.renumber f) := List.filter_map ..

theorem ofBody_renumber (body : List Line) : Metadata.ofBody (body.map (Line.renumber f)) = Metadata.ofBody body := by
  rw [Metadata.ofBody, List.foldl_map]
  rfl

theorem program_renumber (language : Option Text) (code : List Line) :
    program language (code.map (Line.renumber f)) = program language code := by
  rw [program, Line.map_text_renumber]
  rfl

theorem ofFence_renumber (p : Profile) (g : CodeFence) (body : List Line) :
    ofFence p g (body.map (Line.renumber f)) = renumberAll f (ofFence p g body) := by
  have hchunk : chunkMetadata g (body.map (Line.renumber f)) = chunkMetadata g body := by
    rw [chunkMetadata, ofBody_renumber]
    rfl
  rw [ofFence, ofFence, program_renumber, hchunk]
  split
  · rfl
  · simp only
    split
    · rw [ofChunk, ofChunk, code_renumber, program_renumber]
      split
      · rw [renumberAll, chunkFigure, renumber_figure]
        rfl
      · split <;> rfl
    · rfl

theorem part_renumber (e : Element) (chunks : List (List Line)) :
    part e (chunks.map (List.map (Line.renumber f))) = renumberAll f (part e chunks) := by
  have hblank : (chunks.map (List.map (Line.renumber f))).all (fun c => c.all Line.isBlank) =
      chunks.all fun c => c.all Line.isBlank := by
    rw [List.all_map]
    refine congrArg chunks.all (funext fun c => ?_)
    rw [Function.comp, List.all_map]
    rfl
  rw [part, part, hblank]
  split
  · rfl
  · rw [renumberAll, plainElement, plainElement, renumber, List.map_map, renumberAll,
      renumberAll_map f (h := fun c : List Line => .blocks .container (c.map (Line.renumber f))) fun _ _ => rfl]
    rfl

theorem titled_renumber (body : List Line) : titled (body.map (Line.renumber f)) =
    ((titled body).1, (titled body).2.map (Line.renumber f)) := by
  rw [titled, titled, Div.leadingHeading?_renumber]
  cases Div.leadingHeading? body <;> rfl

theorem renumberAll_titled (body : List Line) : renumberAll f (titled body).1 = (titled body).1 := by
  rw [titled]
  split <;> rfl

theorem callout_renumber (attrs : Attributes) (body : List Line) :
    callout attrs (body.map (Line.renumber f)) = renumber f (callout attrs body) := by
  rw [callout, callout]
  cases attrs.get? "title".toList with
  | some text => rfl
  | none =>
    simp only [titled_renumber, renumber, renumberAll_append, renumberAll_titled]
    rfl

theorem important_renumber (attrs : Attributes) (body : List Line) :
    important attrs (body.map (Line.renumber f)) = renumber f (important attrs body) := by
  rw [important, important, Div.promoteTitle?_renumber]
  cases Div.promoteTitle? body <;> rfl

/-- Front matter never starts where no lines follow, so the number of a rule does not count. -/
theorem isSeparator_renumber (l : Line) (div : Option DivFence) :
    isSeparator (l.renumber f) div = isSeparator l div := by
  have hmatter (k : Line) : BlockStart.isFrontMatter k [] = false := Bool.and_false _
  rw [isSeparator, isSeparator, classify, classify, BlockStart.of, BlockStart.of, hmatter, hmatter]
  rfl

theorem workedExample_renumber (attrs : Attributes) (body : List Line) :
    workedExample attrs (body.map (Line.renumber f)) = renumber f (workedExample attrs body) := by
  rw [workedExample, workedExample, titled_renumber]
  simp only [Div.splitTop?_renumber f (isSeparator_renumber f)]
  cases Div.splitTop? isSeparator 0 none (titled body).2 with
  | none =>
    simp only [Option.map_none, renumber, renumberAll_append, renumberAll_titled]
    rfl
  | some split =>
    simp only [Option.map_some, Div.renumberSplit, renumber, renumberAll_append, renumberAll_titled,
      Div.withoutSolutionHeading_renumber, ← part_renumber, List.map_cons, List.map_nil]

theorem exerciseParts_renumber (body : List Line) :
    exerciseParts (body.map (Line.renumber f)) = renumberAll f (exerciseParts body) := by
  have isCallout_renumber (l : Line) div : isCallout (l.renumber f) div = isCallout l div := rfl
  have isClose_renumber (l : Line) div : isClose (l.renumber f) div = isClose l div := rfl
  have isSolutionHeading_renumber (l : Line) div : isSolutionHeading (l.renumber f) div = isSolutionHeading l div := rfl
  rw [exerciseParts, exerciseParts, Div.splitTop?_renumber f isCallout_renumber,
    Div.splitTop?_renumber f isSolutionHeading_renumber]
  cases Div.splitTop? isCallout 0 none body with
  | some split =>
    obtain ⟨before, l, rest⟩ := split
    simp only [Option.map_some, Div.renumberSplit, Div.splitTop?_renumber f isClose_renumber]
    cases Div.splitTop? isClose 0 none rest with
    | none =>
      simp only [Option.map_none, renumberAll_append, ← part_renumber, List.map_cons, List.map_nil,
        Div.withoutSolutionHeading_renumber]
    | some split =>
      simp only [Option.map_some, Div.renumberSplit, renumberAll_append, ← part_renumber, List.map_cons, List.map_nil,
        Div.withoutSolutionHeading_renumber]
  | none =>
    cases Div.splitTop? isSolutionHeading 0 none body with
    | none => exact part_renumber f .statement [body]
    | some split =>
      simp only [Option.map_some, Option.map_none, Div.renumberSplit, renumberAll_append, ← part_renumber,
        List.map_cons, List.map_nil]

theorem exercise_renumber (attrs : Attributes) (body : List Line) :
    exercise attrs (body.map (Line.renumber f)) = renumber f (exercise attrs body) := by
  rw [exercise, exercise, Div.leadingHeading?_renumber]
  cases Div.leadingHeading? body with
  | none =>
    simp only [Option.map_none, exerciseParts_renumber, renumber, renumberAll_append]
    rfl
  | some found =>
    simp only [Option.map_some]
    split
    · simp only [exerciseParts_renumber, renumber, renumberAll_append]
      rfl
    · simp only [exerciseParts_renumber, renumber, renumberAll_append]
      rfl

theorem ofDiv_renumber (p : Profile) (context : Context) (n : Nat) (label : Text) (attrs : Attributes)
    (body : List Line) : ofDiv p context (f n) label attrs (body.map (Line.renumber f)) =
      renumberAll f (ofDiv p context n label attrs body) := by
  rw [ofDiv, ofDiv, callout_renumber, important_renumber, workedExample_renumber, exercise_renumber]
  cases Div.kind p attrs <;> rfl

theorem renumberAll_ofMath (rows : List Text) (id : Option Text) :
    renumberAll f (ofMath rows id) = ofMath rows id := by
  rw [ofMath]
  split
  · rfl
  · rfl
  · next rs _ =>
    have hrows := @renumberAll_fixed f (rs.map fun r => .leaf (.plain .mrow) (.markup (escapeContent r)))
      (List.forall_mem_map.2 fun _ _ => rfl)
    simp only [plainElement, renumberAll, renumber, hrows]

theorem interruption_renumber (l : ListBlock) : interruption (l.renumber f) = renumberAll f (interruption l) := by
  rw [interruption, interruption, ListBlock.renumber]
  cases l.interruptedAt <;> rfl

theorem ofList_renumber (l : ListBlock) : ofList (l.renumber f) = renumberAll f (ofList l) := by
  have hitems : (l.renumber f).items.map (fun i => plainElement .li [.blocks .container i.body]) =
      renumberAll f (l.items.map fun i => plainElement .li [.blocks .container i.body]) := by
    rw [ListBlock.renumber, List.map_map,
      renumberAll_map f (h := fun i : ListItem => plainElement .li [.blocks .container (i.body.map (Line.renumber f))])
        fun _ _ => rfl]
    rfl
  rw [ofList, ofList, renumberAll_append, interruption_renumber, hitems]
  rfl

theorem renumber_solution (text : Text) : renumber f (solution text) = solution text := by
  rw [solution]
  cases Solution.parts? text with
  | none => rfl
  | some parts =>
    have hparts := @renumberAll_fixed f (parts.map fun part => plainElement .li [inlineLeaf .p part])
      (List.forall_mem_map.2 fun _ _ => rfl)
    simp only [plainElement] at hparts
    simp only [plainElement, renumber, renumberAll, hparts]

theorem solutionOf_renumber (book : Option SolutionBook) (number n : Nat) :
    solutionOf book number (f n) = renumberAll f (solutionOf book number n) := by
  cases book with
  | none => rfl
  | some b =>
    simp only [solutionOf]
    cases b.get? number with
    | some text =>
      simp only [renumberAll, renumber_solution]
    | none =>
      simp only
      split <;> rfl

theorem promotedItem_renumber (i : ListItem) : promotedItem (i.renumber f) =
    ((promotedItem i).1, (promotedItem i).2.map (Line.renumber f)) := by
  rw [promotedItem, promotedItem, ListItem.renumber]
  cases i.body with
  | nil => rfl
  | cons first more =>
    have htitle : (if ['*', '*'].isPrefixOf (first.renumber f).text then Div.strongTitle? (first.renumber f).text
        else none) = if ['*', '*'].isPrefixOf first.text then Div.strongTitle? first.text else none := rfl
    simp only [List.map_cons, htitle]
    split <;> rfl

theorem renumberAll_promotedItem (i : ListItem) : renumberAll f (promotedItem i).1 = (promotedItem i).1 := by
  rw [promotedItem]
  split
  · rfl
  · split <;> rfl

theorem exerciseItem_renumber (book : Option SolutionBook) (number : Nat) (i : ListItem) :
    exerciseItem book number (i.renumber f) = renumberAll f (exerciseItem book number i) := by
  have hline : (i.renumber f).line = f i.line := rfl
  have hpart := part_renumber f .statement [(promotedItem i).2]
  rw [List.map_singleton] at hpart
  rw [exerciseItem, exerciseItem, promotedItem_renumber, hline, solutionOf_renumber]
  simp only [plainElement, renumberAll, renumber, renumberAll_append, renumberAll_promotedItem, hpart]

theorem exerciseItems_renumber (book : Option SolutionBook) : ∀ (count : Nat) (items : List ListItem),
    exerciseItems book count (items.map (ListItem.renumber f)) = renumberAll f (exerciseItems book count items)
  | _, [] => rfl
  | count, i :: items => by
    rw [List.map_cons, exerciseItems, exerciseItems, exerciseItem_renumber, exerciseItems_renumber book (count + 1),
      renumberAll_append]

/-- The pieces of a block under other numbers are its pieces under other numbers. -/
theorem ofBlock_renumber (set : Setting) (context : Context) (count : Nat) (b : Block) :
    ofBlock set context count (b.renumber f) = renumberAll f (ofBlock set context count b) := by
  cases b with
  | heading n level title attrs => cases context <;> rfl
  | fence n open' body => exact ofFence_renumber f set.profile open' body
  | div n label attrs body => exact ofDiv_renumber f set.profile context n label attrs body
  | displayMath n rows id trailing =>
    simp only [Block.renumber, ofBlock, renumberAll_append, renumberAll_ofMath]
    cases trailing <;> rfl
  | image n caption source attrs =>
    simp only [Block.renumber, ofBlock, renumberAll, renumber_figure]
  | list l =>
    simp only [Block.renumber, ofBlock, ofExercises]
    split
    · have hstyle : (l.renumber f).style = l.style := rfl
      rw [hstyle]
      split
      · rw [renumberAll_append, interruption_renumber, ListBlock.renumber, exerciseItems_renumber]
      · exact ofList_renumber f l
    · exact ofList_renumber f l
  | _ => rfl

/-- Pieces of a block that is read from lines left alone are left alone. -/
theorem renumberAll_of_read {l : Line} {following rest : List Line} {b : Block} (set : Setting) (context : Context)
    (count : Nat) (h : (l :: following).map (Line.renumber f) = l :: following)
    (hb : Block.read l following = .ok (b, rest)) :
    renumberAll f (ofBlock set context count b) = ofBlock set context count b := by
  rw [← ofBlock_renumber, Block.renumber_of_read hb h]

end Plan

/-! ### Sessions -/

/-- Sessions that differ in nothing but the lines that warnings are about. -/
structure Session.Alike (s s' : Session) : Prop where
  causes : s'.warnings.map (·.cause) = s.warnings.map (·.cause)
  same : s' = { s with line := s'.line, warnings := s'.warnings }

/-- Results that are alike; a fault is the same one under another number. -/
inductive Session.ResultAlike (f : Nat → Nat) : Except Fault Session → Except Fault Session → Prop
  | ok {s s' : Session} : s.Alike s' → ResultAlike f (.ok s) (.ok s')
  | error {e : Fault} : ResultAlike f (.error e) (.error (e.renumber f))

namespace Session

variable {ctx : Inline.Context} {kind : DocumentKind} {f : Nat → Nat} {s s' : Session}

theorem ResultAlike.of_ok {r : Except Fault Session} (h : ResultAlike f (.ok s) r) : ∃ s', r = .ok s' ∧ s.Alike s' := by
  cases h with
  | ok hs => exact ⟨_, rfl, hs⟩

theorem ResultAlike.map {r r' : Except Fault Session} {k : Session → Session} (h : ResultAlike f r r')
    (hk : ∀ {s s' : Session}, s.Alike s' → (k s).Alike (k s')) : ResultAlike f (r.map k) (r'.map k) := by
  cases h with
  | ok hs => exact .ok (hk hs)
  | error => exact .error

theorem ResultAlike.bind {r r' : Except Fault Session} {k k' : Session → Except Fault Session} (h : ResultAlike f r r')
    (hk : ∀ s s', r = .ok s → s.Alike s' → ResultAlike f (k s) (k' s')) : ResultAlike f (r.bind k) (r'.bind k') := by
  cases h with
  | ok hs => exact hk _ _ rfl hs
  | error => exact .error

theorem Alike.refl (s : Session) : s.Alike s := ⟨rfl, rfl⟩

theorem Alike.line (h : s.Alike s') (n n' : Option Nat) : Alike { s with line := n } { s' with line := n' } :=
  ⟨h.causes, by rw [h.same]⟩

theorem Alike.openTag (h : s.Alike s') (t : Tag) : (s.openTag t).Alike (s'.openTag t) :=
  ⟨h.causes, by rw [h.same]; rfl⟩

theorem Alike.close (h : s.Alike s') : s.close.Alike s'.close := ⟨h.causes, by rw [h.same]; rfl⟩

theorem Alike.add (h : s.Alike s') (e : Event) : (s.add e).Alike (s'.add e) := ⟨h.causes, by rw [h.same]; rfl⟩

theorem Alike.warn (h : s.Alike s') (n n' : Option Nat) (cause : Cause) : (s.warn n cause).Alike (s'.warn n' cause) := by
  refine ⟨?_, by rw [h.same]; rfl⟩
  rw [Session.warn, Session.warn, List.map_append, List.map_append, h.causes]
  rfl

theorem Alike.inline (h : s.Alike s') (ctx : Inline.Context) (text : Text) :
    (s'.inline ctx text).1 = (s.inline ctx text).1 ∧ (s.inline ctx text).2.Alike (s'.inline ctx text).2 := by
  refine ⟨rfl, ?_, by rw [h.same]; rfl⟩
  simp only [Session.inline, List.map_append, List.map_map, h.causes]
  rfl

theorem Alike.closeTo (h : s.Alike s') (level : Nat) : (s.closeTo level).Alike (s'.closeTo level) :=
  ⟨h.causes, by rw [h.same]; rfl⟩

theorem Alike.openSection (h : s.Alike s') (n level : Nat) (id : Option Text) (title : Text) (e : Element) :
    ResultAlike f (s.openSection n level id title e) (s'.openSection (f n) level id title e) := by
  have hc := h.closeTo level
  have hlevels : (s'.closeTo level).levels = (s.closeTo level).levels := by rw [hc.same]
  rw [Session.openSection, Session.openSection]
  simp only [hlevels]
  split
  · exact .error
  · have hopen := (hc.openTag (.withId e id)).add (.leaf (.plain .title) title)
    exact .ok ⟨hopen.causes, by rw [hopen.same]⟩

theorem Alike.documentHeading (h : s.Alike s') (n level : Nat) (title : Text) (id : Option Text) :
    ResultAlike f (s.documentHeading ctx kind n level title id) (s'.documentHeading ctx kind (f n) level title id) := by
  obtain ⟨hxml, hi⟩ := h.inline ctx title
  have hc := hi.closeTo 0
  have hheading : ((s'.inline ctx title).2.closeTo 0).heading = ((s.inline ctx title).2.closeTo 0).heading := by
    rw [hc.same]
  rw [Session.documentHeading, Session.documentHeading]
  simp only [hxml, hheading]
  split
  · split
    · exact .ok ⟨hc.causes, by rw [hc.same]⟩
    · exact (hc.warn _ _ _).openSection n 2 id _ _
  · split
    · exact hi.openSection n level id _ _
    · split
      · exact hi.openSection n level id _ _
      · exact .ok (hi.add _)

theorem Alike.leaf (h : s.Alike s') (t : Tag) (content : Content) : (s.leaf ctx t content).Alike (s'.leaf ctx t content) := by
  cases content with
  | markup xml => exact h.add _
  | inline text => exact (h.inline ctx text).2.add _
  | alert text => exact (h.inline ctx text).2.add _

theorem Alike.paragraph (h : s.Alike s') (text : Text) : (s.paragraph ctx text).Alike (s'.paragraph ctx text) := by
  obtain ⟨hxml, hi⟩ := h.inline ctx text
  rw [Session.paragraph, Session.paragraph]
  simp only [hxml]
  split
  · exact hi
  · exact hi.add _

/-- A piece under another number is written alike. -/
theorem Alike.write (h : s.Alike s') (p : Piece) :
    ResultAlike f (s.write ctx kind p) (s'.write ctx kind (p.renumber f)) := by
  cases p with
  | element tag content => exact .ok h
  | blocks context ls => exact .ok h
  | leaf t content => exact .ok (h.leaf t content)
  | empty t => exact .ok (h.add _)
  | code lines => exact .ok (h.add _)
  | paragraph text => exact .ok (h.paragraph text)
  | warn n cause => exact .ok (h.warn _ _ cause)
  | heading n level title id => exact h.documentHeading n level title id
  | frontMatter n yaml =>
    simp only [Piece.renumber, Session.write]
    split
    · exact .ok ⟨h.causes, by rw [h.same]⟩
    · exact .error
  | inclusion href =>
    have hadd := h.add (.empty ⟨.inclusion, [(.href, href)]⟩)
    exact .ok ⟨hadd.causes, by rw [hadd.same]⟩
  | countExercise => exact .ok ⟨h.causes, by rw [h.same]⟩

end Session

/-! ### Runs -/

variable {set : Setting} {ctx : Inline.Context} {f g : Nat → Nat}

/-- Blank lines at the start are passed over. -/
theorem convertLines_dropWhile (set : Setting) (ctx : Inline.Context) (context : Context) (ls : List Line)
    (s : Session) : ∃ n, convertLines set ctx context ls s =
      convertLines set ctx context (ls.dropWhile Line.isBlank) { s with line := n } := by
  match ls with
  | [] => exact ⟨s.line, rfl⟩
  | l :: ls =>
    by_cases hl : l.isBlank
    · have hread : Block.read l ls = .ok (.skipped l.number .blank, ls.dropWhile Line.isBlank) := by
        rw [Block.read, BlockStart.of, if_pos hl]
        rfl
      rw [List.dropWhile_cons_of_pos hl, convertLines_of_read hread, Plan.ofBlock, runPieces]
      exact ⟨_, rfl⟩
    · rw [List.dropWhile_cons_of_neg hl]
      exact ⟨s.line, rfl⟩

/-- A task under other numbers. The lines in it, and in its pieces, are such that `g` leaves them alone. -/
inductive Task.Renumbered (g f : Nat → Nat) : Task → Task → Prop
  | piece {p : Piece} : p.renumber g = p → Renumbered g f (.piece p) (.piece (p.renumber f))
  | pieces {ps : List Piece} : Piece.renumberAll g ps = ps →
      Renumbered g f (.pieces ps) (.pieces (Piece.renumberAll f ps))
  | lines {context : Context} {ls ls' : List Line} : ls.map (Line.renumber g) = ls → Line.Renumbered f ls ls' →
      Renumbered g f (.lines context ls) (.lines context ls')

/-- A task under other numbers does alike. -/
theorem Task.run_renumbered (hg : ∀ n, g n = n → (f n = 1 ↔ n = 1)) {t t' : Task} {s s' : Session}
    (h : t.Renumbered g f t') (hs : s.Alike s') : Session.ResultAlike f (t.run set ctx s) (t'.run set ctx s') := by
  induction t, s using Task.run_induct set ctx generalizing t' s' with
  | element tag content s ih =>
    cases h with
    | piece hp =>
      rw [Piece.renumber, run_element, run_element]
      exact (ih (.pieces (Piece.element.inj hp).2) (hs.openTag tag)).map .close
  | blocks context ls s ih =>
    cases h with
    | piece hp =>
      have hls : ls.map (Line.renumber g) = ls := (Piece.blocks.inj hp).2
      rw [Piece.renumber, run_blocks, run_blocks]
      exact ih (.lines hls (Line.renumbered_map fun l hl => hg _ (Line.map_renumber_eq_iff.1 hls l hl))) hs
  | write p s hp =>
    cases h with
    | piece _ =>
      have hp' : (p.renumber f).isSimple := by cases p <;> first | rfl | cases hp
      rw [run_simple hp, run_simple hp']
      exact hs.write p
  | noPieces s =>
    cases h with
    | pieces _ =>
      rw [Piece.renumberAll, run_noPieces, run_noPieces]
      exact .ok hs
  | pieces p ps s ih₁ ih₂ =>
    cases h with
    | pieces hps =>
      obtain ⟨hp, hmore⟩ := List.cons.inj hps
      rw [Piece.renumberAll, run_pieces, run_pieces]
      exact (ih₁ (.piece hp) hs).bind fun s₁ _ h₁ hs₁ => ih₂ s₁ h₁ (.pieces hmore) hs₁
  | noLines context s =>
    cases h with
    | @lines _ _ ls' _ hls =>
      cases hls with
      | blanks hblank =>
        obtain ⟨n, h'⟩ := convertLines_dropWhile set ctx context ls' s'
        rw [run_noLines, run, h', List.dropWhile_eq_nil_iff.2 hblank, convertLines]
        exact .ok (hs.line s.line n)
  | unread context l following s e hb =>
    cases h with
    | lines _ hls =>
      cases hls with
      | cons hl hmore =>
        have hread := (hb ▸ Block.read_renumbered hl hmore).of_error
        rw [run_unread hb, run_unread hread]
        exact .error
  | lines context l following rest b s hb ih₁ ih₂ =>
    cases h with
    | lines hfixed hls =>
      cases hls with
      | cons hl hmore =>
        obtain ⟨rest', hread, hrest⟩ := (hb ▸ Block.read_renumbered hl hmore).of_ok
        have hpieces := Plan.renumberAll_of_read g set context s.exerciseCount hfixed hb
        have hfirst := ih₁ (.pieces hpieces) (hs.line (some b.line) (some (b.renumber f).line))
        have hcount : s.exerciseCount = s'.exerciseCount := by rw [hs.same]
        have hplan : Piece.renumberAll f (Plan.ofBlock set context s.exerciseCount b) =
            Plan.ofBlock set context s'.exerciseCount (b.renumber f) := by rw [← Plan.ofBlock_renumber, hcount]
        have hrest_fixed : rest.map (Line.renumber g) = rest := Line.map_renumber_eq_iff.2 fun k hk =>
          Line.map_renumber_eq_iff.1 hfixed k (List.mem_cons_of_mem l ((Block.rest_suffix hb).subset hk))
        rw [hplan] at hfirst
        rw [run_lines hb, run_lines hread]
        exact hfirst.bind fun s₁ _ h₁ hs₁ => ih₂ s₁ h₁ (.lines hrest_fixed hrest) hs₁

/-- Lines under other numbers are converted alike. The numbers are those that `g`
leaves alone; among them the first line stays the first. -/
theorem convertLines_renumber (hg : ∀ n, g n = n → (f n = 1 ↔ n = 1)) {context : Context} {ls ls' : List Line}
    {s s' : Session} (hfixed : ∀ l ∈ ls, g l.number = l.number) (h : Line.Renumbered f ls ls') (hs : s.Alike s') :
    Session.ResultAlike f (convertLines set ctx context ls s) (convertLines set ctx context ls' s') :=
  Task.run_renumbered hg (.lines (Line.map_renumber_eq_iff.2 hfixed) h) hs

end QuartoPretext
