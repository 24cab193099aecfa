/-
# Footnote definitions in the flow

Definitions are looked for in the lines of the source, one pass over all of them.
Blocks are read from what is left of these lines in divs and lists, and from
there a definition is dropped. The two agree on a definition that starts at the
margin outside of code: its text is in the table, unless a later definition of
the identifier is. A definition that stands further in is dropped all the same,
but the table does not have it.

Key definitions: `Text.ink`, `Line.LeftOf`, `Footnotes.fenceAfter`,
`Footnotes.Finds`.
Key theorems: `Body.leftOf`, `Footnotes.definitions_append`,
`Footnotes.get?_collect`, `Body.finds_iff`.
-/
import QuartoPretext.Proofs.Document.Bodies
import Mathlib.Data.List.Basic
import Mathlib.Data.List.Induction
import Mathlib.Data.List.TakeWhile

namespace QuartoPretext

/-! ### Ink -/

namespace Text

/-- The characters that are not white space. -/
def ink (s : Text) : Text := s.filter (!isSpace ·)

variable {s t : Text}

@[simp] theorem ink_append (s t : Text) : ink (s ++ t) = ink s ++ ink t := List.filter_append _ _

theorem ink_of_isSpace (h : ∀ c ∈ s, isSpace c) : ink s = [] := by
  simpa [ink] using h

theorem ink_trimStart (s : Text) : ink (trimStart s) = ink s := by
  have h := congrArg ink (List.takeWhile_append_dropWhile (p := isSpace) (l := s))
  rwa [ink_append, ink_of_isSpace fun c hc => List.mem_takeWhile_imp hc] at h

theorem ink_reverse (s : Text) : ink s.reverse = (ink s).reverse := List.filter_reverse

theorem ink_trimEnd (s : Text) : ink (trimEnd s) = ink s := by
  rw [trimEnd, ink_reverse]
  exact (congrArg List.reverse (ink_trimStart s.reverse)).trans (by rw [ink_reverse, List.reverse_reverse])

theorem ink_trim (s : Text) : ink (trim s) = ink s := (ink_trimEnd _).trans (ink_trimStart s)

/-- An end of a text with all its ink is the text, if that starts with ink. -/
theorem eq_of_suffix_of_ink {c : Char} (hs : s <:+ c :: t) (hink : ink s = ink (c :: t)) (hc : isSpace c = false) :
    s = c :: t := by
  rcases List.suffix_cons_iff.1 hs with rfl | hs
  · rfl
  · have hlength := ((hs.sublist).filter (!isSpace ·)).length_le
    have hcons : ink (c :: t) = c :: ink t := List.filter_cons_of_pos (by simp [hc])
    have := congrArg List.length (hink.trans hcons)
    rw [List.length_cons] at this
    exact absurd (this ▸ hlength) (Nat.not_succ_le_self _)

end Text

/-- What is left of a line: some of its ink, and if all of it, the end of the text
with the number of the line. -/
structure Line.LeftOf (l l₀ : Line) : Prop where
  ink : (Text.ink l.text).Sublist (Text.ink l₀.text)
  endOf : Text.ink l.text = Text.ink l₀.text → l.EndOf l₀

open Text

theorem Line.LeftOf.of_endOf {l l' l₀ : Line} (h : l.LeftOf l₀) (hend : l'.EndOf l) : l'.LeftOf l₀ := by
  have hink : (Text.ink l'.text).Sublist (Text.ink l.text) := hend.2.sublist.filter _
  refine ⟨hink.trans h.ink, fun heq => ?_⟩
  have hl := h.endOf (h.ink.antisymm (heq ▸ hink))
  exact ⟨hend.1.trans hl.1, hend.2.trans hl.2⟩

/-! ### Titles -/

namespace Div

theorem strongRest?_suffix {s inner rest : Text} (h : strongRest? s = some (inner, rest)) : rest <:+ s := by
  have after {m : Text} (hd : s.dropWhile (· != '*') = m ++ rest) : rest <:+ s :=
    (List.suffix_append m rest).trans (hd ▸ List.dropWhile_suffix _)
  unfold strongRest? at h
  simp only at h
  split at h
  · next hd =>
    split at h
    · cases h
    · cases h
      exact after (m := ['*', '*', '.']) hd
  · next hd =>
    split at h
    · cases h
    · cases h
      exact after (m := ['*', '*', ':']) hd
  · next hd =>
    split at h
    · cases h
    · cases h
      exact after (m := ['*', '*']) hd
  · cases h

theorem strong?_eq : ∀ {s before inner after : Text}, strong? s = some (before, inner, after) →
    ∃ title, s = before ++ '*' :: title ++ after
  | [], _, _, _, h => by cases h
  | c :: s, before, inner, after, h => by
    unfold strong? at h
    split at h
    · next inner' rest hf =>
      cases h
      obtain ⟨r, hr, hrest⟩ := Option.bind_eq_some_iff.1 hf
      obtain ⟨title, rfl⟩ := strongRest?_suffix hrest
      exact ⟨'*' :: title, (append_eq_of_dropPrefix? hr).symm⟩
    · obtain ⟨⟨before', found⟩, hf, he⟩ := Option.map_eq_some_iff.1 h
      cases he
      obtain ⟨title, rfl⟩ := strong?_eq hf
      exact ⟨title, rfl⟩

theorem ink_joinAround (before after : Text) : ink (joinAround before after) = ink before ++ ink after := by
  unfold joinAround
  split
  · exact ink_append before after
  · rw [ink_append]
    rfl

/-- A title takes ink from its line. -/
theorem strongTitle?_ink {s title rest : Text} (h : strongTitle? s = some (title, rest)) :
    (ink rest).Sublist (ink s) ∧ ink rest ≠ ink s := by
  unfold strongTitle? at h
  split at h
  · cases h
  · next before inner after hs =>
    simp only at h
    split at h
    · cases h
    · cases h
      obtain ⟨mid, rfl⟩ := strong?_eq hs
      have hmid : ink ('*' :: mid) = '*' :: ink mid := rfl
      rw [ink_joinAround, ink_trim, ink_trim, List.append_assoc, ink_append, ink_append, hmid]
      refine ⟨(List.Sublist.refl _).append (List.sublist_append_right _ _), fun heq => ?_⟩
      have := congrArg List.length heq
      simp only [List.length_append, List.length_cons] at this
      omega

end Div

/-- Blocks are read from what is left of the lines of the document. -/
theorem Body.leftOf {text : Text} {ls : List Line} (h : Body text ls) :
    ∀ l ∈ ls, ∃ l₀ ∈ Line.ofText text, l.LeftOf l₀ := by
  refine h.all (fun l hl => ⟨l, hl, .refl _, fun _ => .refl l⟩) ?_ ?_
  · rintro l l' hend ⟨l₀, hl₀, hl⟩
    exact ⟨l₀, hl₀, hl.of_endOf hend⟩
  · rintro l n title rest ht ⟨l₀, hl₀, hl⟩
    obtain ⟨hsub, hne⟩ := Div.strongTitle?_ink ht
    refine ⟨l₀, hl₀, hsub.trans hl.ink, fun heq => ?_⟩
    exact absurd (hsub.antisymm (heq ▸ hl.ink)) hne

/-! ### Definitions -/

/-- The last entry of a key wins. -/
theorem Assoc.get?_ofList_append {κ α : Type} [BEq κ] [LawfulBEq κ] {k : κ} (earlier : List (κ × α)) (v : α)
    {later : List (κ × α)} (h : ∀ e ∈ later, e.1 ≠ k) :
    (Assoc.ofList (earlier ++ (k, v) :: later)).get? k = some v := by
  have hinsert (es : List (κ × α)) (e : κ × α) : Assoc.ofList (es ++ [e]) = (Assoc.ofList es).insert e.1 e.2 :=
    List.foldl_concat ..
  induction later using List.reverseRecOn with
  | nil => rw [hinsert, Assoc.get?_insert, if_pos (beq_self_eq_true k)]
  | append_singleton later e ih =>
    obtain ⟨hlater, he⟩ := List.forall_mem_append.1 h
    have hne : ¬(k == e.1) = true := fun hk => he e List.mem_cons_self (eq_of_beq hk).symm
    rw [← List.cons_append, ← List.append_assoc, hinsert, Assoc.get?_insert, if_neg hne, ih hlater]

/-- Where a key has an entry, one of its entries is the last. -/
theorem Assoc.exists_last {κ α : Type} {k : κ} {v : α} : ∀ {es : List (κ × α)}, (k, v) ∈ es →
    ∃ earlier v later, es = earlier ++ (k, v) :: later ∧ ∀ e ∈ later, e.1 ≠ k
  | e :: es, h => by
    by_cases hmore : ∃ w, (k, w) ∈ es
    · obtain ⟨w, hw⟩ := hmore
      obtain ⟨earlier, v, later, rfl, hlater⟩ := exists_last hw
      exact ⟨e :: earlier, v, later, rfl, hlater⟩
    · rcases List.mem_cons.1 h with rfl | hmem
      · exact ⟨[], v, es, rfl, fun e he hk => hmore ⟨e.2, hk ▸ he⟩⟩
      · exact absurd ⟨v, hmem⟩ hmore

namespace Footnotes

variable {l : Line} {before after : List Line} {id first : Text}

/-- A definition is its identifier in brackets, a colon, and its text after space. -/
theorem definition?_eq {s : Text} (h : definition? s = some (id, first)) :
    ∃ gap, s = '[' :: ('^' :: id ++ [']', ':'] ++ gap ++ first) ∧ ink gap = [] := by
  unfold definition? at h
  split at h
  · cases h
  · next rest hr =>
    simp only at h
    split at h
    · next c cs text hid htext =>
      cases h
      have hrest := List.takeWhile_append_dropWhile (p := isIdChar) (l := rest)
      have htext := append_eq_of_dropPrefix? htext
      refine ⟨text.takeWhile isSpace, ?_, ink_of_isSpace fun c hc => List.mem_takeWhile_imp hc⟩
      rw [← htext] at hrest
      rw [← append_eq_of_dropPrefix? hr]
      conv_lhs => rw [← hrest]
      simp [trimStart]
    · cases h

/-- The fence that is open for the scan for definitions after some lines. -/
def fenceAfter (fence : Option FenceMark) : List Line → Option FenceMark
  | [] => fence
  | l :: rest =>
    if FenceMark.isCode fence l.text then fenceAfter (FenceMark.next fence l.text) rest
    else
      match definition? l.text with
      | none => fenceAfter none rest
      | some _ => fenceAfter none (continuation rest).2
termination_by ls => ls.length
decreasing_by
  all_goals
    have := (List.dropWhile_sublist continues (l := rest)).length_le
    simp only [continuation, List.length_cons]
    omega

/-- Whether the scan that comes to a line after some others finds a definition there. -/
def Finds (before : List Line) (l : Line) (d : Text × Text) : Prop :=
  FenceMark.isCode (fenceAfter none before) l.text = false ∧ definition? l.text = some d

theorem continuation_append (hl : continues l = false) (before after : List Line) :
    continuation (before ++ l :: after) = ((continuation before).1, (continuation before).2 ++ l :: after) := by
  induction before with
  | nil => simp [continuation, hl]
  | cons k before ih =>
    by_cases hk : continues k
    · simpa [continuation, hk] using ih
    · simp [continuation, hk]

/-- The definitions before and after a line that continues none. -/
theorem definitions_append (hl : continues l = false) (fence : Option FenceMark) (before after : List Line) :
    definitions fence (before ++ l :: after) =
      definitions fence before ++ definitions (fenceAfter fence before) (l :: after) := by
  fun_induction fenceAfter fence before with
  | case1 fence =>
    rw [List.nil_append, definitions, List.nil_append]
  | case2 fence k rest hcode ih =>
    rw [List.cons_append, definitions, definitions, if_pos hcode, if_pos hcode, ih]
  | case3 fence k rest hcode hnone ih =>
    rw [List.cons_append, definitions, definitions, if_neg hcode, if_neg hcode, hnone]
    exact ih
  | case4 fence k rest hcode d hsome ih =>
    rw [List.cons_append, definitions, definitions, if_neg hcode, if_neg hcode, hsome]
    simp only [continuation_append hl, ih, List.cons_append]

theorem not_continues (h : definition? l.text = some (id, first)) : continues l = false := by
  obtain ⟨gap, hs, _⟩ := definition?_eq h
  have hindent : l.indent = 0 := by
    rw [Line.indent, hs]
    rfl
  simp [continues, hindent]

theorem Finds.definitions (h : Finds before l (id, first)) : definitions none (before ++ l :: after) =
    definitions none before ++
      (id, bodyText first (continuation after).1) :: definitions none (continuation after).2 := by
  rw [definitions_append (not_continues h.2), Footnotes.definitions, if_neg (by simp [h.1]), h.2]

/-- The table has the last definition of an identifier from one that is found on. -/
theorem Finds.get?_collect (h : Finds before l (id, first)) : ∃ earlier body later,
    (id, bodyText first (continuation after).1) :: Footnotes.definitions none (continuation after).2 =
      earlier ++ (id, body) :: later ∧
    (∀ d ∈ later, d.1 ≠ id) ∧ (collect (before ++ l :: after)).get? id = some body := by
  have hmem : (id, bodyText first (continuation after).1) ∈ (id, bodyText first (continuation after).1) ::
      Footnotes.definitions none (continuation after).2 := List.mem_cons_self
  obtain ⟨earlier, body, later, hdefs, hlater⟩ := Assoc.exists_last hmem
  refine ⟨earlier, body, later, hdefs, hlater, ?_⟩
  rw [collect, h.definitions, hdefs, ← List.append_assoc]
  exact Assoc.get?_ofList_append _ body hlater

theorem isCode_bracket (fence : Option FenceMark) (s : Text) : FenceMark.isCode fence ('[' :: s) = fence.isSome := by
  cases fence with
  | none => rfl
  | some mark => rfl

/-- What is left of a line reads as the same definition only if it is the whole line. -/
theorem eq_trim_of_leftOf {l₀ : Line} (hleft : l.LeftOf l₀) (hbare : l.Bare)
    (h : definition? (trim l.text) = some (id, first)) (h₀ : definition? l₀.text = some (id, first)) :
    l₀.text = trim l.text := by
  obtain ⟨gap, hs, hgap⟩ := definition?_eq h
  obtain ⟨gap₀, hs₀, hgap₀⟩ := definition?_eq h₀
  have hink : ink (trim l.text) = ink l₀.text := by
    rw [hs, hs₀]
    show '[' :: ink _ = '[' :: ink _
    simp only [ink_append, hgap, hgap₀]
  have htrim : trim l.text = trimStart l.text := (endsBare_iff _).1 (hbare.suffix (List.dropWhile_suffix _))
  have hsuffix : trim l.text <:+ l₀.text :=
    htrim ▸ (List.dropWhile_suffix _).trans (hleft.endOf (ink_trim l.text ▸ hink)).2
  rw [hs₀] at hsuffix hink ⊢
  exact (eq_of_suffix_of_ink hsuffix hink (by decide)).symm

end Footnotes

/-! ### The flow -/

/-- A block that is dropped as a definition reads as one. -/
theorem Block.definition?_of_read {l : Line} {following rest : List Line} {n : Nat}
    (h : Block.read l following = .ok (.skipped n .footnoteDefinition, rest)) :
    (Footnotes.definition? (trim l.text)).isSome := by
  have hstart : BlockStart.of l following = .footnoteDefinition := by
    unfold Block.read at h
    simp only at h
    split at h
    case h_4 | h_5 =>
      split at h <;> cases h
    case h_7 =>
      unfold Block.readMath at h
      repeat' split at h
      all_goals cases h
    case h_12 hof => exact hof
    case h_1 hof | h_10 hof | h_11 hof =>
      rw [hof] at h
      cases h
    all_goals cases h
  have hline := Block.ofLine_of hstart nofun nofun nofun
  unfold BlockStart.ofLine at hline
  repeat' split at hline
  all_goals
    first
      | assumption
      | cases hline

/-- **Which definitions are in the table.** A block that is dropped as a definition
comes from a line of the source. The scan for definitions finds it exactly if it
stands there alone at the margin, where no code fence is open for the scan. Then
its text is in the table, or that of the last definition of the identifier which
is found after it. -/
theorem Body.finds_iff {text : Text} {l : Line} {following rest : List Line} {n : Nat}
    (h : Body text (l :: following)) (hr : Block.read l following = .ok (.skipped n .footnoteDefinition, rest)) :
    ∃ before l₀ after id first, Line.ofText text = before ++ l₀ :: after ∧ l.LeftOf l₀ ∧
      Footnotes.definition? (trim l.text) = some (id, first) ∧
      (Footnotes.Finds before l₀ (id, first) ↔
        l₀.text = trim l.text ∧ Footnotes.fenceAfter none before = none) ∧
      (Footnotes.Finds before l₀ (id, first) → ∃ earlier body later,
        (id, Footnotes.bodyText first (Footnotes.continuation after).1) ::
          Footnotes.definitions none (Footnotes.continuation after).2 = earlier ++ (id, body) :: later ∧
        (∀ d ∈ later, d.1 ≠ id) ∧ (Footnotes.collect (Line.ofText text)).get? id = some body) := by
  obtain ⟨⟨id, first⟩, hd⟩ := Option.isSome_iff_exists.1 (Block.definition?_of_read hr)
  obtain ⟨l₀, hl₀, hleft⟩ := h.leftOf l List.mem_cons_self
  obtain ⟨before, after, hlines⟩ := List.append_of_mem hl₀
  refine ⟨before, l₀, after, id, first, hlines, hleft, hd, ?_, fun hfinds => hlines ▸ hfinds.get?_collect⟩
  constructor
  · rintro ⟨hcode, hd₀⟩
    refine ⟨Footnotes.eq_trim_of_leftOf hleft (h.bare l List.mem_cons_self) hd hd₀, ?_⟩
    obtain ⟨gap, hs, _⟩ := Footnotes.definition?_eq hd₀
    rwa [hs, Footnotes.isCode_bracket, Option.isSome_eq_false_iff, Option.isNone_iff_eq_none] at hcode
  · rintro ⟨htext, hfence⟩
    obtain ⟨gap, hs, _⟩ := Footnotes.definition?_eq hd
    refine ⟨?_, htext ▸ hd⟩
    rw [hfence, htext, hs]
    exact Footnotes.isCode_bracket none _

/-- A definition at the margin of a div, with a line that continues it. -/
theorem Body.finds_iff_div :
    let text := "::: x\n[^a]: B\n  c\n:::".toList
    let l : Line := ⟨2, "[^a]: B".toList⟩
    Body text [l, ⟨3, "  c".toList⟩] ∧
      Block.read l [⟨3, "  c".toList⟩] = .ok (.skipped 2 .footnoteDefinition, []) ∧
      (Footnotes.collect (Line.ofText text)).get? ['a'] = some "B c".toList ∧
      ∃ before l₀ after, Line.ofText text = before ++ l₀ :: after ∧ l.LeftOf l₀ ∧
        (Footnotes.Finds before l₀ (['a'], ['B']) ↔ l₀.text = l.text ∧ Footnotes.fenceAfter none before = none) := by
  intro text l
  have hdiv : Block.read ⟨1, "::: x".toList⟩ [l, ⟨3, "  c".toList⟩, ⟨4, ":::".toList⟩] =
      .ok (.div 1 ['x'] ⟨none, [['x']], .ofList []⟩ [l, ⟨3, "  c".toList⟩], []) := rfl
  have hbody : Body text [l, ⟨3, "  c".toList⟩] := .inner .document hdiv List.mem_cons_self
  have hread : Block.read l [⟨3, "  c".toList⟩] = .ok (.skipped 2 .footnoteDefinition, []) := rfl
  obtain ⟨before, l₀, after, id, first, hlines, hleft, hd, hiff, -⟩ := hbody.finds_iff hread
  obtain ⟨rfl, rfl⟩ : ['a'] = id ∧ ['B'] = first := Prod.mk.inj (Option.some.inj hd)
  exact ⟨hbody, hread, by decide +kernel, before, l₀, after, hlines, hleft, hiff⟩

/-- A definition that stands one column in is dropped, and the table is empty. -/
theorem Body.footnote_lost :
    let text := "A[^a].\n\n [^a]: B".toList
    let l : Line := ⟨3, " [^a]: B".toList⟩
    Body text [l] ∧ Block.read l [] = .ok (.skipped 3 .footnoteDefinition, []) ∧
      Footnotes.definition? (trim l.text) = some (['a'], ['B']) ∧
      (Footnotes.collect (Line.ofText text)).get? ['a'] = none := by
  intro text l
  have hparagraph : Block.read ⟨1, "A[^a].".toList⟩ [⟨2, []⟩, l] =
      .ok (.paragraph 1 "A[^a].".toList, [⟨2, []⟩, l]) := rfl
  have hblank : Block.read ⟨2, []⟩ [l] = .ok (.skipped 2 .blank, [l]) := rfl
  exact ⟨.rest (.rest .document hparagraph) hblank, rfl, rfl, by decide +kernel⟩

end QuartoPretext
