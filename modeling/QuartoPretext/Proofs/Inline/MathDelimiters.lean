/-
# The delimiters of math

A text can be read for math by looking back: at each dollar sign it is asked
whether what stands before it escapes the sign, and a sign that ends math is the
first one that stands as it has to. The rule for math, which takes a backslash
together with the next character, reads every text in this way. So each stretch
that it takes starts and ends at signs that are not escaped.

Key definitions: `Text.cutAt?`, `Text.IsFirst`, `Math.endsAt`, `Math.openedAt`,
`Math.piecesAt`, `Math.Stands`, `Text.Division.stretches`, `Math.Delimits`.
Key theorems: `Text.isFirst_of_cutAt?`, `Math.pieces_eq_piecesAt`,
`Math.exists_delimits`, `Math.protect_delimiters`.
-/
import QuartoPretext.Proofs.Inline.CodeAndMath
import QuartoPretext.Proofs.Text.Escaped

namespace QuartoPretext

/-! ### The first place of a mark -/

namespace Text

variable {mark before s content rest : Text} {asked : Text → Text → Bool} {c : Char}

/-- What precedes and what follows the first place of a mark where the texts before
and after it are as asked; `before` stands before the whole. -/
def cutAt? (mark : Text) (asked : Text → Text → Bool) (before : Text) : Text → Option (Text × Text)
  | [] => none
  | c :: s =>
    match (dropPrefix? mark (c :: s)).filter (asked before) with
    | some rest => some ([], rest)
    | none => (cutAt? mark asked (before ++ [c]) s).map fun (content, rest) => (c :: content, rest)

/-- A mark after `before` and some content, with `after` behind it, stands as asked,
and no mark that starts within the content does. -/
structure IsFirst (mark : Text) (asked : Text → Text → Bool) (before content after : Text) : Prop where
  here : asked (before ++ content) after = true
  earlier : ∀ a b, a ++ mark ++ b = content ++ mark ++ after → a.length < content.length → asked (before ++ a) b = false

theorem cutAt?_here (h : dropPrefix? mark (c :: s) = some rest) (hasked : asked before rest = true) :
    cutAt? mark asked before (c :: s) = some ([], rest) := by
  rw [cutAt?, h, Option.filter_some, if_pos hasked]

/-- Where a mark does not start as asked, the search goes on. -/
theorem cutAt?_cons (h : ∀ rest, dropPrefix? mark (c :: s) = some rest → asked before rest = false) :
    cutAt? mark asked before (c :: s) =
      (cutAt? mark asked (before ++ [c]) s).map fun (content, rest) => (c :: content, rest) := by
  have hnone : (dropPrefix? mark (c :: s)).filter (asked before) = none := by
    rw [Option.filter_eq_none_iff]
    intro rest hrest
    rw [h rest hrest]
    exact Bool.false_ne_true
  rw [cutAt?, hnone]

/-- What is found is the first place. -/
theorem isFirst_of_cutAt? : ∀ {s before content : Text}, cutAt? mark asked before s = some (content, rest) →
    s = content ++ mark ++ rest ∧ IsFirst mark asked before content rest
  | [], before, content, h => by cases h
  | c :: s, before, content, h => by
    unfold cutAt? at h
    split at h
    · next after hfound =>
      cases h
      obtain ⟨hdrop, hasked⟩ := Option.filter_eq_some_iff.1 hfound
      refine ⟨(append_eq_of_dropPrefix? hdrop).symm, ?_, fun a b _ ha => absurd ha (Nat.not_lt_zero _)⟩
      rwa [List.append_nil]
    · next hnone =>
      obtain ⟨⟨inner, after⟩, hcut, he⟩ := Option.map_eq_some_iff.1 h
      cases he
      obtain ⟨rfl, hhere, hearlier⟩ := isFirst_of_cutAt? hcut
      refine ⟨rfl, ?_, fun a b hab ha => ?_⟩
      · rwa [List.append_cons]
      · cases a with
        | nil =>
          rw [List.append_nil]
          have hdrop : dropPrefix? mark (c :: (inner ++ mark ++ rest)) = some b := by
            rw [show c :: (inner ++ mark ++ rest) = mark ++ b from hab.symm, dropPrefix?_append]
          rw [Option.filter_eq_none_iff] at hnone
          exact Bool.eq_false_iff.2 (hnone b hdrop)
        | cons d a =>
          obtain ⟨rfl, htail⟩ := List.cons.inj hab
          rw [List.append_cons]
          exact hearlier a b htail (Nat.lt_of_succ_lt_succ ha)

end Text

namespace Math

open Text

/-! ### Reading by looking back -/

section LookBack

variable (escapes : Text → Bool)

/-- Whether inline math may end at a dollar sign between these texts: the sign is not
escaped, no white space stands before it and no digit after it. With `anyNext` a
digit may follow it. -/
def endsAt (anyNext : Bool) (before after : Text) : Bool :=
  !escapes before && !before.getLast?.any isAsciiSpace && (anyNext || !after.head?.any Char.isDigit)

/-- Whether display math may end at a pair of dollar signs after this text. -/
def displayEndsAt (before _after : Text) : Bool := !escapes before

/-- What starts at a dollar sign between these texts, and the characters after the
sign that belong to it. -/
def openedAt (before : Text) : Text → List Piece × Text
  | [] => (chars ['$'], [])
  | '$' :: s =>
    match cutAt? ['$', '$'] (displayEndsAt escapes) (before ++ ['$', '$']) s with
    | some (tex, _) => ([.display (trim tex)], '$' :: tex ++ ['$', '$'])
    | none => (.unmatched ['$', '$'] :: chars ['$', '$'], ['$'])
  | c :: s =>
    if isAsciiSpace c then (chars ['$'], [])
    else
      match cutAt? ['$'] (endsAt escapes false) (before ++ ['$']) (c :: s) with
      | some (tex, _) => ([.inline tex], tex ++ ['$'])
      | none =>
        match cutAt? ['$'] (endsAt escapes true) (before ++ ['$']) (c :: s) with
        | some (skipped, _) => (.unmatched ['$'] :: chars ('$' :: skipped ++ ['$']), skipped ++ ['$'])
        | none => (.unmatched ['$'] :: chars ['$'], [])

/-- Reads a text for math, where a sign is asked for what stands before it whether it
is escaped, and nothing else is. -/
def piecesAt (before : Text) : Text → List Piece
  | [] => []
  | c :: s =>
    if c == '$' && !escapes before then
      let (found, used) := openedAt escapes before s
      found ++ piecesAt (before ++ '$' :: used) (s.drop used.length)
    else .char c :: piecesAt (before ++ [c]) s
termination_by s => s.length
decreasing_by
  all_goals
    simp only [List.length_drop, List.length_cons]
    omega

end LookBack

variable {before s tex rest : Text} {b : Char}

theorem dropPrefix?_sign_of_ne {c : Char} (h : c ≠ '$') (mark s : Text) : dropPrefix? ('$' :: mark) (c :: s) = none := by
  rw [dropPrefix?, if_neg fun he => h (beq_iff_eq.1 he).symm]

theorem cutAt?_of_ne {c : Char} (h : c ≠ '$') (mark : Text) (asked : Text → Text → Bool) (s : Text) :
    cutAt? ('$' :: mark) asked before (c :: s) =
      (cutAt? ('$' :: mark) asked (before ++ [c]) s).map fun (content, rest) => (c :: content, rest) :=
  cutAt?_cons fun rest hrest => by
    rw [dropPrefix?_sign_of_ne h] at hrest
    cases hrest

/-- A backslash and the character after it are passed. -/
theorem cutAt?_pair {mark : Text} {asked : Text → Text → Bool}
    (h : ∀ rest, asked (before ++ ['\\']) rest = false) (c : Char) (s : Text) :
    cutAt? ('$' :: mark) asked before ('\\' :: c :: s) =
      prepend ['\\', c] (cutAt? ('$' :: mark) asked (before ++ ['\\', c]) s) := by
  rw [cutAt?_of_ne (by decide), cutAt?_cons fun rest _ => h rest,
    List.append_assoc, List.singleton_append, prepend, Option.map_map]
  rfl

theorem endsAt_escaped {escapes : Text → Bool} (h : escapes before = true) (anyNext : Bool) (after : Text) :
    endsAt escapes anyNext before after = false := by simp [endsAt, h]

theorem displayEndsAt_escaped {escapes : Text → Bool} (h : escapes before = true) (after : Text) :
    displayEndsAt escapes before after = false := by simp [displayEndsAt, h]

/-- A character that starts no pair takes nothing, unless the text ends with it. -/
theorem isEscaped_after {c : Char} (h : ∀ d t, c = '\\' → s = d :: t → False) (hs : s ≠ []) (before : Text) :
    isEscaped (before ++ [c]) = false := by
  obtain ⟨d, t, rfl⟩ := List.exists_cons_of_ne_nil hs
  exact isEscaped_of_ne (fun hc => h d t hc rfl) before

/-- The end of inline math is found by looking back. -/
theorem closing?_eq_cutAt (anyNext : Bool) (h : isEscaped before = false) (hb : before.getLast? = some b) (s : Text) :
    closing? anyNext b s = cutAt? ['$'] (endsAt isEscaped anyNext) before s := by
  fun_induction closing? anyNext b s generalizing before with
  | case1 => rfl
  | case2 b c s ih =>
    rw [cutAt?_pair (endsAt_escaped (isEscaped_backslash h) anyNext), ih (isEscaped_pair h c) (by simp)]
  | case3 b s hends =>
    refine (cutAt?_here rfl ?_).symm
    simpa [endsAt, h, hb] using hends
  | case4 b s hends ih =>
    rw [cutAt?_cons, ← ih (isEscaped_of_ne (by decide) before) List.getLast?_concat]
    · rfl
    · intro rest hrest
      cases hrest
      simpa [endsAt, h, hb] using hends
  | case5 b c s hpair hsign ih =>
    rw [cutAt?_of_ne hsign]
    by_cases hs : s = []
    · subst hs
      rfl
    · rw [← ih (isEscaped_after hpair hs before) List.getLast?_concat]
      rfl

/-- So is the end of display math. -/
theorem displayClosing?_eq_cutAt (h : isEscaped before = false) (s : Text) :
    displayClosing? s = cutAt? ['$', '$'] (displayEndsAt isEscaped) before s := by
  fun_induction displayClosing? s generalizing before with
  | case1 => rfl
  | case2 c s ih =>
    rw [cutAt?_pair (displayEndsAt_escaped (isEscaped_backslash h)), ih (isEscaped_pair h c)]
  | case3 s => exact (cutAt?_here rfl (by simp [displayEndsAt, h])).symm
  | case4 c s hpair hsigns ih =>
    have hnone : dropPrefix? ['$', '$'] (c :: s) = none := by
      refine Option.eq_none_iff_forall_not_mem.2 fun rest hrest => ?_
      obtain ⟨rfl, rfl⟩ := List.cons.inj (append_eq_of_dropPrefix? hrest)
      exact hsigns rest rfl rfl
    rw [cutAt?_cons fun rest hrest => by rw [hnone] at hrest; cases hrest]
    by_cases hs : s = []
    · subst hs
      rfl
    · rw [← ih (isEscaped_after hpair hs before)]
      rfl

/-! ### What stands at a sign -/

/-- A stretch of a text that is read as math, with the text before it and after it.
Inline math starts at a sign that is not escaped, with neither white space nor a
dollar sign behind it, and ends at the first sign where it may. Display math starts
at a pair of signs that is not escaped and ends at the next such pair. -/
inductive Stands (escapes : Text → Bool) (before after : Text) : Text → Mark → Prop
  | inline {c : Char} {tex : Text} : escapes before = false → isAsciiSpace c = false → c ≠ '$' →
      IsFirst ['$'] (endsAt escapes false) (before ++ ['$']) (c :: tex) after →
      Stands escapes before after ('$' :: c :: tex ++ ['$']) (.math (c :: tex))
  | display {tex : Text} : escapes before = false →
      IsFirst ['$', '$'] (displayEndsAt escapes) (before ++ ['$', '$']) tex after →
      Stands escapes before after ('$' :: '$' :: tex ++ ['$', '$']) (.displayMath (trim tex))

variable {escapes : Text → Bool}

theorem Stands.markOf_eq {after m : Text} {mark : Mark} (h : Stands escapes before after m mark) : markOf m = mark := by
  cases h with
  | inline _ _ hc _ => exact markOf_inline fun he => hc (Option.some.inj he)
  | display _ _ => exact markOf_display _

/-- What a sign and the characters after it that belong to it are taken for: text,
or math. -/
structure Opened (escapes : Text → Bool) (before used rest : Text) (ps : List Piece) : Prop where
  last : used.getLast? = some '$'
  cells : cellsOfPieces ps = Span.cellsOf used ∨
    ∃ m, cellsOfPieces ps = [.mark m] ∧ Stands escapes before rest used m

theorem openedAt_opened (h : escapes before = false) (s : Text) : ∃ rest, s = (openedAt escapes before s).2 ++ rest ∧
    Opened escapes before ('$' :: (openedAt escapes before s).2) rest (openedAt escapes before s).1 := by
  have lone (ps : List Piece) (hps : cellsOfPieces ps = [.char '$']) : ∃ rest, s = [] ++ rest ∧
      Opened escapes before ['$'] rest ps := ⟨s, rfl, rfl, .inl hps⟩
  fun_cases openedAt escapes before s with
  | case1 => exact lone _ rfl
  | case2 s tex rest hcut =>
    obtain ⟨rfl, hfirst⟩ := isFirst_of_cutAt? hcut
    exact ⟨rest, rfl, (hasSigns_append ('$' :: tex) rfl).2, .inr ⟨_, rfl, .display h hfirst⟩⟩
  | case3 s hcut => exact ⟨s, rfl, rfl, .inl rfl⟩
  | case4 c s hc => exact lone _ rfl
  | case5 c s hsign hc tex rest hcut =>
    obtain ⟨hs, hfirst⟩ := isFirst_of_cutAt? hcut
    refine ⟨rest, hs, (hasSigns_append tex rfl).2, .inr ⟨_, rfl, ?_⟩⟩
    cases tex with
    | nil => exact absurd (List.cons.inj hs).1 hsign
    | cons d tex =>
      obtain ⟨rfl, -⟩ := List.cons.inj hs
      exact .inline h (Bool.eq_false_iff.2 hc) hsign hfirst
  | case6 c s hsign hc hcut skipped rest hcut' =>
    exact ⟨rest, (isFirst_of_cutAt? hcut').1, (hasSigns_append skipped rfl).2, .inl (cells_chars _)⟩
  | case7 c s hsign hc hcut hcut' => exact lone _ rfl

/-- The rule for math takes at a sign what looking back finds there. -/
theorem piece?_eq_openedAt (before s : Text) : piece? ('$' :: s) =
    some ((openedAt isEscaped before s).1, s.drop (openedAt isEscaped before s).2.length) := by
  have hsign : isEscaped (before ++ ['$']) = false := isEscaped_of_ne (by decide) before
  have hsigns : isEscaped (before ++ ['$', '$']) = false := by
    rw [List.append_cons]
    exact isEscaped_of_ne (by decide) _
  have hclosing (anyNext : Bool) (s : Text) : closing? anyNext '$' s = cutAt? ['$'] (endsAt isEscaped anyNext)
      (before ++ ['$']) s := closing?_eq_cutAt anyNext hsign List.getLast?_concat s
  have hinline {c : Char} {s : Text} (hc : c = '$' → False) : piece? ('$' :: c :: s) = some (inline (c :: s)) := by
    unfold piece?
    split
    · next he => cases he
    · next he => exact absurd (List.cons.inj (List.cons.inj he).2).1 hc
    · next he => rw [(List.cons.inj he).2]
    · next hno => exact absurd rfl (hno _)
  fun_cases openedAt isEscaped before s with
  | case1 => rfl
  | case2 s tex rest hcut =>
    obtain ⟨rfl, -⟩ := isFirst_of_cutAt? hcut
    have hdrop : ('$' :: (tex ++ ['$', '$'] ++ rest)).drop ('$' :: tex ++ ['$', '$']).length = rest :=
      @List.drop_left _ ('$' :: tex ++ ['$', '$']) rest
    simp only [piece?, displayClosing?_eq_cutAt hsigns, hcut, hdrop]
  | case3 s hcut =>
    simp only [piece?, displayClosing?_eq_cutAt hsigns, hcut]
    rfl
  | case4 c s hc hspace =>
    simp only [hinline hc, inline, hspace, if_true]
    rfl
  | case5 c s hc hspace tex rest hcut =>
    obtain ⟨hs, -⟩ := isFirst_of_cutAt? hcut
    have hdrop : (c :: s).drop (tex ++ ['$']).length = rest := hs ▸ List.drop_left
    simp only [hinline hc, inline, hspace, hclosing, hcut, hdrop]
    rfl
  | case6 c s hc hspace hcut skipped rest hcut' =>
    obtain ⟨hs, -⟩ := isFirst_of_cutAt? hcut'
    have hdrop : (c :: s).drop (skipped ++ ['$']).length = rest := hs ▸ List.drop_left
    simp only [hinline hc, inline, hspace, hclosing, hcut, hcut', hdrop]
    rfl
  | case7 c s hc hspace hcut hcut' =>
    simp only [hinline hc, inline, hspace, hclosing, hcut, hcut']
    rfl

theorem piece?_eq_none {c : Char} (hsign : c ≠ '$') (h : ∀ d t, c = '\\' → s = d :: t → False) :
    piece? (c :: s) = none := by
  unfold piece?
  split
  · next he =>
    obtain ⟨rfl, rfl⟩ := List.cons.inj he
    exact (h _ _ rfl rfl).elim
  · next he => exact absurd (List.cons.inj he).1 hsign
  · next he => exact absurd (List.cons.inj he).1 hsign
  · rfl

/-- A sign that is not escaped, with all that belongs to it. -/
theorem piecesAt_sign (h : escapes before = false) (s : Text) : piecesAt escapes before ('$' :: s) =
    (openedAt escapes before s).1 ++ piecesAt escapes (before ++ '$' :: (openedAt escapes before s).2)
      (s.drop (openedAt escapes before s).2.length) := by
  rw [piecesAt, if_pos (by simp [h])]

theorem piecesAt_cons {c : Char} (h : c ≠ '$' ∨ escapes before = true) (s : Text) :
    piecesAt escapes before (c :: s) = .char c :: piecesAt escapes (before ++ [c]) s := by
  rw [piecesAt, if_neg]
  rcases h with h | h <;> simp [h]

theorem isEscaped_used {used : Text} (h : ('$' :: used).getLast? = some '$') (before : Text) :
    isEscaped (before ++ '$' :: used) = false := by
  obtain ⟨u, hu⟩ := List.getLast?_eq_some_iff.1 h
  rw [hu, ← List.append_assoc]
  exact isEscaped_of_ne (by decide) _

/-- Every text is read for math as it is by looking back. -/
theorem pieces_eq_piecesAt : ∀ {before : Text}, isEscaped before = false → ∀ s : Text,
    pieces s = piecesAt isEscaped before s
  | before, h, [] => by rw [pieces, scan_nil, piecesAt]
  | before, h, c :: s => by
    by_cases hsign : c = '$'
    · subst hsign
      obtain ⟨rest, hs, hopened⟩ := openedAt_opened h s
      have hlength : (s.drop (openedAt isEscaped before s).2.length).length < ('$' :: s).length := by
        rw [List.length_drop, List.length_cons]
        omega
      rw [piecesAt_sign h, pieces, scan_found (piece?_eq_openedAt before s) hlength, ← pieces,
        pieces_eq_piecesAt (isEscaped_used hopened.last before)]
    · rw [piecesAt_cons (.inl hsign)]
      by_cases hpair : ∃ d t, c = '\\' ∧ s = d :: t
      · -- the character after the backslash is escaped, whatever it is
        obtain ⟨d, t, rfl, rfl⟩ := hpair
        have hfind : piece? ('\\' :: d :: t) = some (chars ['\\', d], t) := rfl
        rw [pieces, scan_found hfind (by simp only [List.length_cons]; omega), ← pieces,
          pieces_eq_piecesAt (isEscaped_pair h d) t, piecesAt_cons (.inr (isEscaped_backslash h)), List.append_assoc]
        rfl
      · have hnone : piece? (c :: s) = none := piece?_eq_none hsign fun d t hc hs => hpair ⟨d, t, hc, hs⟩
        rw [pieces, scan_none hnone, ← pieces]
        by_cases hs : s = []
        · subst hs
          rw [pieces, scan_nil, piecesAt]
        · rw [pieces_eq_piecesAt (isEscaped_after (fun d t hc hs => hpair ⟨d, t, hc, hs⟩) hs before) s]
termination_by _ _ s => s.length

end Math

/-! ### The stretches that are taken -/

namespace Text.Division

/-- A stretch found in a text, with what stands before it and after it. -/
structure Stretch where
  before : Text
  found : Text
  after : Text

/-- The stretches found, where `before` stands before the text. -/
def stretches (before : Text) : Division → List Stretch
  | last _ => []
  | next t m more => ⟨before ++ t, m, more.text⟩ :: stretches (before ++ t ++ m) more

theorem stretches_prepend (before u : Text) (d : Division) :
    (d.prepend u).stretches before = d.stretches (before ++ u) := by
  cases d with
  | last t => rfl
  | next t m more => simp only [prepend, stretches, List.append_assoc]

end Text.Division

namespace Math

open Text

variable {escapes : Text → Bool} {before : Text}

/-- Pieces that are read after `before` are the texts of a division, and the marks of
its stretches, which stand as they have to. -/
structure Delimits (escapes : Text → Bool) (before : Text) (ps : List Piece) (d : Division) : Prop where
  cells : cellsOfPieces ps = d.map Span.cellsOf fun m => [.mark (markOf m)]
  stands : ∀ x ∈ d.stretches before, Stands escapes x.before x.after x.found (markOf x.found)

/-- Text in front. -/
theorem Delimits.text {used : Text} {ps found : List Piece} {d : Division} (h : Delimits escapes (before ++ used) ps d)
    (hfound : cellsOfPieces found = Span.cellsOf used) : Delimits escapes before (found ++ ps) (d.prepend used) := by
  refine ⟨?_, by rw [Division.stretches_prepend]; exact h.stands⟩
  have hcells : cellsOfPieces (found ++ ps) = cellsOfPieces found ++ cellsOfPieces ps := List.flatMap_append
  rw [hcells, hfound, h.cells, Division.map_prepend Span.cellsOf_append]

/-- Math in front. -/
theorem Delimits.math {used : Text} {ps found : List Piece} {d : Division} {m : Mark}
    (h : Delimits escapes (before ++ used) ps d) (hfound : cellsOfPieces found = [.mark m])
    (hm : Stands escapes before d.text used m) : Delimits escapes before (found ++ ps) (.next [] used d) := by
  have hcells : cellsOfPieces (found ++ ps) = cellsOfPieces found ++ cellsOfPieces ps := List.flatMap_append
  refine ⟨?_, List.forall_mem_cons.2 ⟨?_, ?_⟩⟩
  · rw [hcells, hfound, h.cells, ← hm.markOf_eq]
    rfl
  · rw [List.append_nil, hm.markOf_eq]
    exact hm
  · rw [List.append_nil]
    exact h.stands

/-- What is read by looking back is delimited as it has to be. -/
theorem exists_delimits (escapes : Text → Bool) : ∀ before s : Text, ∃ d : Division, d.text = s ∧
    Delimits escapes before (piecesAt escapes before s) d
  | before, [] => ⟨.last [], rfl, by rw [piecesAt]; rfl, nofun⟩
  | before, c :: s => by
    by_cases hsign : c = '$' ∧ escapes before = false
    · obtain ⟨rfl, h⟩ := hsign
      obtain ⟨rest, hs, hopened⟩ := openedAt_opened h s
      have hrest : s.drop (openedAt escapes before s).2.length = rest :=
        (congrArg (List.drop _) hs).trans List.drop_left
      obtain ⟨d, htext, hd⟩ := exists_delimits escapes (before ++ '$' :: (openedAt escapes before s).2) rest
      rw [piecesAt_sign h, hrest]
      rcases hopened.cells with hcells | ⟨m, hcells, hstands⟩
      · refine ⟨d.prepend ('$' :: (openedAt escapes before s).2), ?_, hd.text hcells⟩
        rw [Division.text_prepend, htext, List.cons_append, ← hs]
      · refine ⟨.next [] ('$' :: (openedAt escapes before s).2) d, ?_, hd.math hcells (htext ▸ hstands)⟩
        rw [Division.text_next, htext, List.nil_append, List.cons_append, ← hs]
    · have hother : c ≠ '$' ∨ escapes before = true := by
        rwa [← Bool.not_eq_false, ← not_and_or]
      obtain ⟨d, htext, hd⟩ := exists_delimits escapes (before ++ [c]) s
      have hchar : cellsOfPieces [.char c] = Span.cellsOf [c] := rfl
      rw [piecesAt_cons hother]
      exact ⟨d.prepend [c], by rw [Division.text_prepend, htext]; rfl, hd.text hchar⟩
termination_by _ s => s.length
decreasing_by
  · rw [hs, List.length_cons, List.length_append]
    omega
  · exact Nat.lt_succ_self s.length

/-- **Math stands between signs that are not escaped.** The rule for math divides every
text into stretches that become marks and the text between. Inline math starts at a
sign that is not escaped and that neither white space nor another sign follows, and
ends at the first later one that is not escaped, with no white space before it and
no digit behind it. Display math starts at a pair of signs that is not escaped and
ends at the next such pair. -/
theorem protect_delimiters (s : Text) : ∃ d : Division, d.text = s ∧
    protect s = d.map Span.cellsOf (fun m => [.mark (markOf m)]) ∧
    ∀ x ∈ d.stretches [], Stands isEscaped x.before x.after x.found (markOf x.found) := by
  obtain ⟨d, htext, hd⟩ := exists_delimits isEscaped [] s
  refine ⟨d, htext, ?_, hd.stands⟩
  rw [← hd.cells, ← pieces_eq_piecesAt rfl]
  rfl

end Math
end QuartoPretext
