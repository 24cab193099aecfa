/-
# Code spans beside math

The rule for math reads a text before the rule for code does, and what it takes
is gone. The code spans of the text that it leaves are shown, in order. They are
the code spans of the whole text where these have no character in common with
math; but a dollar sign in one code span and another one in the next may be taken
for math around the text between them.

Key definitions: `Math.Reads`.
Key theorems: `Math.exists_reads`, `Code.marks_between`, `Code.marks_sublist`,
`Inline.code_inOrder`.
-/
import QuartoPretext.Proofs.Inline.CodeSpans
import QuartoPretext.Proofs.Inline.Division
import QuartoPretext.Proofs.Inline.Fragment
import QuartoPretext.Proofs.Inline.Protected

namespace QuartoPretext

open Text

/-! ### Math in a text -/

namespace Math

/-- The mark of a stretch of math, which is displayed where two dollar signs stand
at each end. -/
def markOf (m : Text) : Mark :=
  match between? ['$', '$'] ['$', '$'] m with
  | some tex => .displayMath (trim tex)
  | none => .math m.tail.dropLast

theorem markOf_inline {tex : Text} (h : (tex ++ ['$']).head? ≠ some '$') :
    markOf ('$' :: tex ++ ['$']) = .math tex := by
  have hnone : between? ['$', '$'] ['$', '$'] ('$' :: tex ++ ['$']) = none := by
    obtain ⟨c, t, ht⟩ := List.exists_cons_of_ne_nil (List.append_ne_nil_of_right_ne_nil tex (List.cons_ne_nil '$' []))
    rw [ht] at h
    have hc : ('$' == c) = false := beq_false_of_ne fun he => h (he ▸ rfl)
    rw [List.cons_append, ht]
    simp [between?, dropPrefix?, hc]
  rw [markOf, hnone]
  simp

theorem markOf_display (tex : Text) : markOf ('$' :: '$' :: tex ++ ['$', '$']) = .displayMath (trim tex) := by
  have hsome : between? ['$', '$'] ['$', '$'] ('$' :: '$' :: tex ++ ['$', '$']) = some tex := by
    simp [between?, dropSuffix?, dropPrefix?]
  rw [markOf, hsome]

/-- A dollar sign stands at each end. -/
def HasSigns (m : Text) : Prop := m.head? = some '$' ∧ m.getLast? = some '$'

theorem hasSigns_append (s : Text) {t : Text} (ht : t.getLast? = some '$') : HasSigns ('$' :: s ++ t) := by
  refine ⟨rfl, ?_⟩
  rw [List.getLast?_append, ht]
  rfl

/-- How the rule for math divides a text: the stretches that become math, and the
text between them that stays. -/
structure Reads (s : Text) (d : Division) : Prop where
  text : d.text = s
  cells : protect s = d.map Span.cellsOf fun m => [.mark (markOf m)]
  signs : ∀ m ∈ d.found, HasSigns m

/-- Every text is read in some way. -/
theorem exists_reads (s : Text) : ∃ d, Reads s d := by
  suffices h : ∃ d : Division, d.text = s ∧
      cellsOfPieces (pieces s) = d.map Span.cellsOf (fun m => [.mark (markOf m)]) ∧
      ∀ m ∈ d.found, HasSigns m by
    obtain ⟨d, htext, hcells, hsigns⟩ := h
    exact ⟨d, htext, hcells, hsigns⟩
  refine Text.scan_induction (D := fun s ps => ∃ d : Division, d.text = s ∧
      cellsOfPieces ps = d.map Span.cellsOf (fun m => [.mark (markOf m)]) ∧
      ∀ m ∈ d.found, HasSigns m) ?_ ?_ ?_ s
  · exact ⟨.last [], rfl, rfl, fun m hm => absurd hm List.not_mem_nil⟩
  · rintro c s out ⟨d, rfl, hcells, hsigns⟩
    refine ⟨d.prepend [c], d.text_prepend [c], ?_, by rwa [Division.found_prepend]⟩
    rw [Division.map_prepend Span.cellsOf_append, ← hcells]
    rfl
  · rintro s ps rest out h ⟨d, rfl, hcells, hsigns⟩
    have hout : cellsOfPieces (ps ++ out) = cellsOfPieces ps ++ cellsOfPieces out := List.flatMap_append
    have hnext {m : Text} (hm : HasSigns m) : ∀ m' ∈ (Division.next [] m d).found, HasSigns m' :=
      List.forall_mem_cons.2 ⟨hm, hsigns⟩
    rcases piece?_cases h with ⟨used, -, rfl, hps⟩ | ⟨tex, hhead, rfl, rfl⟩ | ⟨tex, rfl, rfl⟩
    · refine ⟨d.prepend used, d.text_prepend used, ?_, by rwa [Division.found_prepend]⟩
      rw [Division.map_prepend Span.cellsOf_append, hout, hps, hcells]
    · refine ⟨.next [] ('$' :: tex ++ ['$']) d, by simp, ?_, hnext (hasSigns_append tex rfl)⟩
      rw [hout, hcells, Division.map, markOf_inline hhead]
      rfl
    · refine ⟨.next [] ('$' :: '$' :: tex ++ ['$', '$']) d, by simp, ?_, hnext (hasSigns_append ('$' :: tex) rfl)⟩
      rw [hout, hcells, Division.map, markOf_display]
      rfl

end Math

/-! ### Code in what math leaves -/

theorem Code.marks_protect {t : Text} {e : Division} (h : Code.Divides t e) :
    Cell.marks (Code.protect t) = e.found.map Code.markOf := by
  rw [Code.protect_divides h, Span.marks_division]

/-- Reading the text between stretches finds the code spans of each. -/
theorem Code.marks_between (μ : Text → Mark) : ∀ {d : Division} {es : List Division},
    List.Forall₂ Code.Divides d.between es → ((es.flatMap Division.found).map Code.markOf).Sublist
      (Cell.marks (d.map Code.protect fun m => [.mark (μ m)]))
  | .last t, _, .cons h .nil => by
    rw [Division.map, Code.marks_protect h, List.flatMap_cons, List.flatMap_nil, List.append_nil]
  | .next t m more, _, .cons h hmore => by
    rw [Division.map, Cell.marks_append, Cell.marks_append, Code.marks_protect h, List.flatMap_cons,
      List.map_append, List.append_assoc]
    exact (List.Sublist.refl _).append ((Code.marks_between μ hmore).cons _)

/-- Where code spans and stretches between dollar signs have no character in
common, reading the text between those stretches finds every code span. -/
theorem Code.marks_sublist (μ : Text → Mark) {d e : Division} {n : Nat} (h : Code.Divides d.text e)
    (hsigns : ∀ m ∈ d.found, Math.HasSigns m)
    (hapart : ∀ p ∈ d.places n, ∀ q ∈ e.places n, p.2 ≤ q.1 ∨ q.2 ≤ p.1) :
    (e.found.map Code.markOf).Sublist (Cell.marks (d.map Code.protect fun m => [.mark (μ m)])) := by
  induction d generalizing e n with
  | last t =>
    rw [Division.map, Code.marks_protect (show Code.Divides t e from h)]
  | next t m more ih =>
    obtain ⟨hm, hsigns⟩ := List.forall_mem_cons.1 hsigns
    rw [Division.text_next, List.append_assoc] at h
    obtain ⟨e₁, e₂, he₁, he₂, hfound, hplaces⟩ := h.split hm.1 hm.2 (hapart _ List.mem_cons_self)
    have ih := ih he₂ hsigns fun p hp q hq => hapart p (List.mem_cons_of_mem _ hp) q (hplaces hq)
    rw [hfound, List.map_append, Division.map, Cell.marks_append, Cell.marks_append, Code.marks_protect he₁,
      List.append_assoc]
    exact (List.Sublist.refl _).append (ih.cons _)

theorem Fragment.protect_of_not_mem {s : Text} (h : '<' ∉ s) : Fragment.protect s = Span.cellsOf s := by
  refine Text.scan_eq_map fun t ht => ?_
  rw [Option.map_eq_none_iff, Fragment.find?_eq_none_iff]
  rintro f hf hpre
  have hmem : '<' ∈ f := List.mem_of_head? (Fragment.isFragment_head hf)
  exact h (ht.subset (hpre.subset hmem))

namespace Inline

/-- The code that is found in what math leaves is shown. -/
theorem inOrder_of_sublist (ctx : Context) {s : Text} {d : Division} {spans : List Text} (hlt : '<' ∉ s)
    (hmath : Math.Reads s d) (h : (spans.map Code.markOf).Sublist
      (Cell.marks (d.map Code.protect fun m => [.mark (Math.markOf m)]))) :
    InOrder (spans.map Code.shown) (transform ctx s).1 := by
  have hmarks : Span.marks (shielded ctx (noteBody ctx noteDepth) s).spans =
      Cell.marks (d.map Code.protect fun m => [.mark (Math.markOf m)]) := by
    have hcodeNil : Code.protect [] = [] := Text.scan_nil
    have hmathNil : Math.protect [] = [] := by
      rw [Math.protect, Math.pieces, Text.scan_nil]
      rfl
    have hfragmentNil : Fragment.protect [] = [] := Text.scan_nil
    rw [shielded_spans, Run.start, Span.mapText_cellsOf hfragmentNil, Fragment.protect_of_not_mem hlt,
      Span.mapText_cellsOf hmathNil, hmath.cells, Span.mapText_division hcodeNil, Span.marks_ofCells]
  have hxml := (hmarks ▸ h).map Mark.xml
  rw [List.map_map] at hxml
  rw [transform, transformWithin_eq]
  exact (render_run_inOrder ctx (noteBody ctx noteDepth) s).sublist hxml

/-- **Code beside math is shown.** The code spans of the text that math leaves are
shown, in order and as they stand there. If code spans and math have no character
in common, all code spans of the text are. -/
theorem code_inOrder (ctx : Context) {s : Text} {d : Division} (hlt : '<' ∉ s) (hmath : Math.Reads s d) :
    (∀ es, List.Forall₂ Code.Divides d.between es →
      InOrder ((es.flatMap Division.found).map Code.shown) (transform ctx s).1) ∧
    ∀ e, Code.Divides s e → d.Apart e → InOrder (e.found.map Code.shown) (transform ctx s).1 := by
  refine ⟨fun es hes => inOrder_of_sublist ctx hlt hmath (Code.marks_between Math.markOf hes), fun e he hapart => ?_⟩
  exact inOrder_of_sublist ctx hlt hmath
    (Code.marks_sublist Math.markOf (hmath.text ▸ he) hmath.signs hapart)

/-- A code span on each side of math, and a backtick that opens none. -/
theorem code_inOrder_aside :
    let d : Division := .next "`a` ".toList "$x$".toList (.last " ``b ` & c`` `d".toList)
    let e : Division := .next [] "`a`".toList (.next " $x$ ".toList "``b ` & c``".toList (.last " `d".toList))
    '<' ∉ d.text ∧ Math.Reads d.text d ∧ Code.Divides d.text e ∧ d.Apart e ∧
      InOrder ["<c>a</c>".toList, "<c>b ` &amp; c</c>".toList] (transform ⟨.xref, [], .empty⟩ d.text).1 := by
  intro d e
  have hlt : '<' ∉ d.text := by decide +kernel
  have hmath : Math.Reads d.text d := by
    refine ⟨rfl, by decide +kernel, ?_⟩
    unfold Math.HasSigns
    decide +kernel
  have hcode : Code.Divides d.text e := by
    have hopen : ¬Code.HasRun 1 ['d'] := by
      rw [Code.hasRun_iff (by decide)]
      decide +kernel
    have hend : Code.Divides (Code.ticks 1 ++ ['d']) _ :=
      .unclosed (by decide) (by decide) hopen (.char (by decide) .nil)
    have hlast : Code.Divides (Code.ticks 2 ++ "b ` & c".toList ++ Code.ticks 2 ++ (' ' :: _)) _ :=
      .span (by decide +kernel) (by decide) (.char (by decide) hend)
    have hfirst : Code.Divides (Code.ticks 1 ++ ['a'] ++ Code.ticks 1 ++ (" $x$ ".toList ++ _)) _ :=
      .span (by decide +kernel) (by decide +kernel) (hlast.chars (by decide +kernel))
    convert hfirst using 1
    · decide +kernel
    · decide +kernel
  have hapart : d.Apart e := by
    unfold Division.Apart
    decide +kernel
  have hshown := (code_inOrder ⟨.xref, [], .empty⟩ hlt hmath).2 e hcode hapart
  have hparts : e.found.map Code.shown = ["<c>a</c>".toList, "<c>b ` &amp; c</c>".toList] := by decide +kernel
  exact ⟨hlt, hmath, hcode, hapart, hparts ▸ hshown⟩

/-- Two dollar signs in two code spans are taken for math around the text between. -/
theorem transform_math_across_code :
    let s := "`a$b` and `c$d`".toList
    let e : Division := .next [] "`a$b`".toList (.next " and ".toList "`c$d`".toList (.last []))
    '<' ∉ s ∧ '\\' ∉ s ∧ Code.Divides s e ∧
      (transform ⟨.xref, [], .empty⟩ s).1 = "`a<m>b` and `c</m>d`".toList ∧
      ¬InOrder (e.found.map Code.shown) (transform ⟨.xref, [], .empty⟩ s).1 := by
  intro s e
  have hshown : (transform ⟨.xref, [], .empty⟩ s).1 = "`a<m>b` and `c</m>d`".toList := by decide +kernel
  have hcode : Code.Divides s e := by
    have hlast : Code.Divides (Code.ticks 1 ++ "c$d".toList ++ Code.ticks 1 ++ []) _ :=
      .span (by decide +kernel) (by decide) .nil
    have hfirst : Code.Divides (Code.ticks 1 ++ "a$b".toList ++ Code.ticks 1 ++ (" and ".toList ++ _)) _ :=
      .span (by decide +kernel) (by decide +kernel) (hlast.chars (by decide +kernel))
    convert hfirst using 1
    · decide +kernel
    · decide +kernel
  refine ⟨by decide +kernel, by decide +kernel, hcode, hshown, fun h => ?_⟩
  have hinfix := h.isInfix (List.mem_cons_self : "<c>a$b</c>".toList ∈ _)
  rw [hshown] at hinfix
  exact absurd hinfix (by decide +kernel)

end Inline
end QuartoPretext
