/-
# Stretches of source that become marks

Markup, math and code are turned into marks before any other rule is applied.
Each mark is made of a stretch of the source, and no other character is lost:
what the markup of math and code says is what stands between the delimiters.

Key definitions: `Code.Shows`, `Shields`.
Key theorems: `Fragment.protect_rewrites`, `Math.protect_rewrites`, `Code.protect_rewrites`.
-/
import QuartoPretext.Block.Size
import QuartoPretext.Inline.Transform
import QuartoPretext.Proofs.Inline.Rewrite
import QuartoPretext.Proofs.Markup.TextEscape
import Mathlib.Data.List.TakeWhile

namespace QuartoPretext

namespace Text

theorem append_eq_of_cut? {mark : Text} : ∀ {s before after : Text}, cut? mark s = some (before, after) →
    before ++ mark ++ after = s
  | [], before, after, h => by
    unfold cut? at h
    split at h
    · next hm =>
      cases h
      simpa using hm
    · cases h
  | c :: s, before, after, h => by
    unfold cut? at h
    split at h
    · next rest hd =>
      cases h
      exact append_eq_of_dropPrefix? hd
    · obtain ⟨⟨b, a⟩, hc, he⟩ := Option.map_eq_some_iff.1 h
      cases he
      rw [List.cons_append, List.cons_append, append_eq_of_cut? hc]

end Text

/-- Code is shown as it stands in the source, less one space on each side if both
are there and there is anything else. -/
inductive Code.Shows : Text → Text → Prop
  | padded {inner : Text} : Text.isBlank (' ' :: inner ++ [' ']) = false →
      Shows (' ' :: inner ++ [' ']) inner
  | whole {source : Text} : (∀ inner, source = ' ' :: inner ++ [' '] → Text.isBlank source) →
      Shows source source

/-- What a mark is made of, where its element is not yet looked into: markup that
stood in the source, math between dollar signs and code between backticks. -/
inductive Shields : Text → Mark → Prop
  | fragment (inside : Text) : Shields ('<' :: inside) (.fragment (Fragment.escape ('<' :: inside)))
  | math {tex content : Text} : (Mark.math tex).xml = Mark.element "m".toList content →
      Markup.unescapeContent content = tex → Shields ('$' :: tex ++ ['$']) (.math tex)
  | displayMath {tex shown content : Text} :
      (Mark.displayMath shown).xml = Mark.element "me".toList content →
      Markup.unescapeContent content = Text.trim tex →
      Shields ('$' :: '$' :: tex ++ ['$', '$']) (.displayMath shown)
  | code {n : Nat} {source shown content : Text} : 0 < n →
      (Mark.code shown).xml = Mark.element "c".toList content →
      Code.Shows source (Markup.unescapeContent content) →
      Shields (List.replicate n '\x60' ++ source ++ List.replicate n '\x60') (.code shown)

/-! ### Markup -/

namespace Fragment

open Text

theorem tagRest?_eq {s attrs rest : Text} (h : tagRest? s = some (attrs, rest)) : s = attrs ++ '>' :: rest := by
  unfold tagRest? at h
  split at h
  · cases h
  · cases h
    rfl
  · cases h
    rfl
  · split at h
    · split at h
      · next hd =>
        cases h
        rw [← hd, List.takeWhile_append_dropWhile]
      · cases h
    · cases h

theorem tag?_eq {s name attrs rest : Text} (h : tag? s = some (name, attrs, rest)) :
    s = name ++ attrs ++ '>' :: rest := by
  unfold tag? at h
  split at h
  · cases h
  · next name' afterName hn =>
    obtain ⟨⟨a, r⟩, hr, he⟩ := Option.map_eq_some_iff.1 h
    cases he
    unfold name? at hn
    simp only at hn
    split at hn
    · cases hn
      rw [List.append_assoc, ← tagRest?_eq hr, List.takeWhile_append_dropWhile]
    · cases hn

theorem find?_eq {s xml rest : Text} (h : find? s = some (xml, rest)) : s = xml ++ rest := by
  unfold find? at h
  split at h
  · next inside =>
    split at h
    · cases h
    · next name attrs rest' ht =>
      have hs := tag?_eq ht
      simp only at h
      split at h
      · cases h
        simp [hs]
      · obtain ⟨⟨content, after⟩, hc, he⟩ := Option.map_eq_some_iff.1 h
        cases he
        obtain ⟨hcut, _⟩ := Option.filter_eq_some_iff.1 hc
        rw [hs, ← append_eq_of_cut? hcut]
        simp
  · cases h

theorem find?_angle {s xml rest : Text} (h : find? s = some (xml, rest)) : ∃ inside, xml = '<' :: inside := by
  unfold find? at h
  split at h
  · split at h
    · cases h
    · simp only at h
      split at h
      · cases h
        exact ⟨_, rfl⟩
      · obtain ⟨_, _, he⟩ := Option.map_eq_some_iff.1 h
        cases he
        exact ⟨_, rfl⟩
  · cases h

theorem protect_rewrites (s : Text) : Rewrites Shields dropsNothing (Span.cellsOf s) (protect s) := by
  refine Rewrites.scan ?_ s
  intro s xs rest h
  obtain ⟨⟨xml, rest'⟩, hf, he⟩ := Option.map_eq_some_iff.1 h
  cases he
  obtain ⟨inside, rfl⟩ := find?_angle hf
  exact ⟨'<' :: inside, find?_eq hf, .single (.fragment inside)⟩

end Fragment
/-! ### Math -/

namespace Math

open Text

theorem prepend_eq {s content rest : Text} {found : Option (Text × Text)}
    (h : prepend s found = some (content, rest)) : ∃ inner, content = s ++ inner ∧ found = some (inner, rest) := by
  obtain ⟨⟨inner, r⟩, hf, he⟩ := Option.map_eq_some_iff.1 h
  cases he
  exact ⟨inner, rfl, hf⟩

theorem closing?_eq (anyNext : Bool) : ∀ {s content rest : Text} {before : Char},
    closing? anyNext before s = some (content, rest) → s = content ++ '$' :: rest := by
  intro s content rest before h
  fun_induction closing? anyNext before s generalizing content with
  | case1 => cases h
  | case2 _ c s ih =>
    obtain ⟨inner, rfl, hf⟩ := prepend_eq h
    rw [ih hf]
    rfl
  | case3 =>
    cases h
    rfl
  | case4 _ _ _ ih =>
    obtain ⟨inner, rfl, hf⟩ := prepend_eq h
    rw [ih hf]
    rfl
  | case5 _ _ _ _ _ ih =>
    obtain ⟨inner, rfl, hf⟩ := prepend_eq h
    rw [ih hf]
    rfl

theorem displayClosing?_eq : ∀ {s content rest : Text}, displayClosing? s = some (content, rest) →
    s = content ++ '$' :: '$' :: rest := by
  intro s content rest h
  fun_induction displayClosing? s generalizing content with
  | case1 => cases h
  | case2 _ _ ih =>
    obtain ⟨inner, rfl, hf⟩ := prepend_eq h
    rw [ih hf]
    rfl
  | case3 =>
    cases h
    rfl
  | case4 _ _ _ _ ih =>
    obtain ⟨inner, rfl, hf⟩ := prepend_eq h
    rw [ih hf]
    rfl

/-- The cells that pieces become. -/
def cellsOfPieces (ps : List Piece) : List Cell := ps.flatMap Piece.cells

theorem cells_chars : ∀ s : Text, cellsOfPieces (chars s) = Span.cellsOf s
  | [] => rfl
  | c :: s => congrArg (Cell.char c :: ·) (cells_chars s)

theorem shields_math (tex : Text) : Shields ('$' :: tex ++ ['$']) (.math tex) :=
  .math rfl (Markup.unescape_escape tex)

theorem shields_display (tex : Text) : Shields ('$' :: '$' :: tex ++ ['$', '$']) (.displayMath (trim tex)) :=
  .displayMath rfl (Markup.unescape_escape _)

/-- What is read at a dollar sign or backslash: text, inline math or display math. -/
theorem piece?_cases {s rest : Text} {ps : List Piece} (h : piece? s = some (ps, rest)) :
    (∃ used, used ≠ [] ∧ s = used ++ rest ∧ cellsOfPieces ps = Span.cellsOf used) ∨
    (∃ tex, (tex ++ ['$']).head? ≠ some '$' ∧ s = '$' :: tex ++ '$' :: rest ∧ ps = [.inline tex]) ∨
    ∃ tex, s = '$' :: '$' :: tex ++ '$' :: '$' :: rest ∧ ps = [.display (trim tex)] := by
  unfold piece? at h
  split at h
  · next c rest' =>
    cases h
    exact .inl ⟨['\\', c], List.cons_ne_nil _ _, rfl, cells_chars _⟩
  · next rest' =>
    split at h
    · next tex after hd =>
      cases h
      exact .inr (.inr ⟨tex, by simp [displayClosing?_eq hd], rfl⟩)
    · cases h
      exact .inl ⟨['$', '$'], List.cons_ne_nil _ _, rfl, cells_chars _⟩
  · next rest' hsingle =>
    unfold inline at h
    simp only [Option.some.injEq] at h
    split at h
    · cases h
      exact .inl ⟨['$'], List.cons_ne_nil _ _, rfl, cells_chars _⟩
    · next c s =>
      split at h
      · cases h
        exact .inl ⟨['$'], List.cons_ne_nil _ _, rfl, cells_chars _⟩
      · split at h
        · next tex after hc =>
          cases h
          have hs := closing?_eq _ hc
          refine .inr (.inl ⟨tex, fun hhead => ?_, by simp [hs], rfl⟩)
          cases tex with
          | nil => exact hsingle _ (by rw [hs]; rfl)
          | cons d tex =>
            obtain rfl := Option.some.inj hhead
            exact hsingle _ hs
        · split at h
          · next skipped after hc =>
            cases h
            exact .inl ⟨'$' :: skipped ++ ['$'], List.cons_ne_nil _ _, by simp [closing?_eq _ hc], cells_chars _⟩
          · cases h
            exact .inl ⟨['$'], List.cons_ne_nil _ _, rfl, cells_chars _⟩
  · cases h

theorem piece?_rewrites {s rest : Text} {ps : List Piece} (h : piece? s = some (ps, rest)) :
    ∃ used, s = used ++ rest ∧ Rewrites Shields dropsNothing (Span.cellsOf used) (cellsOfPieces ps) := by
  rcases piece?_cases h with ⟨used, _, hs, hps⟩ | ⟨tex, _, hs, rfl⟩ | ⟨tex, hs, rfl⟩
  · exact ⟨used, hs, hps ▸ .refl _⟩
  · exact ⟨'$' :: tex ++ ['$'], by simp [hs], .single (shields_math tex)⟩
  · exact ⟨'$' :: '$' :: tex ++ ['$', '$'], by simp [hs], .single (shields_display tex)⟩

theorem protect_rewrites (s : Text) : Rewrites Shields dropsNothing (Span.cellsOf s) (protect s) := by
  show Rewrites Shields dropsNothing (Span.cellsOf s) (cellsOfPieces (scan Piece.char piece? s))
  refine Text.scan_induction
    (D := fun s ps => Rewrites Shields dropsNothing (Span.cellsOf s) (cellsOfPieces ps)) .nil ?_ ?_ s
  · exact fun c s out h => .keep h
  · intro s ps rest out h ih
    obtain ⟨used, rfl, hu⟩ := piece?_rewrites h
    rw [Span.cellsOf, List.map_append, cellsOfPieces, List.flatMap_append]
    exact hu.append ih

end Math
/-! ### Code -/

namespace Code

open Text

theorem eq_replicate {s : Text} (h : ∀ c ∈ s, isTick c) : s = List.replicate s.length '\x60' :=
  List.eq_replicate_iff.2 ⟨rfl, fun c hc => by simpa [isTick] using h c hc⟩

theorem closing?_eq (n : Nat) : ∀ {s content rest : Text}, closing? n s = some (content, rest) →
    s = content ++ List.replicate n '\x60' ++ rest
  | [], _, _, h => by simp [closing?] at h
  | c :: s, content, rest, h => by
    have hsplit := List.takeWhile_append_dropWhile (p := isTick) (l := s)
    unfold closing? at h
    simp only at h
    split at h
    · next htick =>
      split at h
      · next hrun =>
        cases h
        have hall : ∀ d ∈ c :: s.takeWhile isTick, isTick d := by
          intro d hd
          rcases List.mem_cons.1 hd with rfl | hd
          · exact htick
          · exact List.mem_takeWhile_imp hd
        rw [List.nil_append, ← hrun, ← eq_replicate hall, List.cons_append, hsplit]
      · obtain ⟨⟨inner, r⟩, hf, he⟩ := Option.map_eq_some_iff.1 h
        cases he
        have ih := closing?_eq n hf
        rw [List.append_assoc, List.append_assoc, ← List.append_assoc inner, ← ih, List.cons_append, hsplit]
    · obtain ⟨⟨inner, r⟩, hf, he⟩ := Option.map_eq_some_iff.1 h
      cases he
      have ih := closing?_eq n hf
      rw [List.cons_append, List.cons_append, ← ih]
termination_by s => s.length
decreasing_by
  all_goals
    have := (List.dropWhile_sublist isTick (l := s)).length_le
    simp only [List.length_cons]
    omega

theorem between?_spaces (inner : Text) : between? [' '] [' '] (' ' :: inner ++ [' ']) = some inner := by
  simp [between?, dropSuffix?, dropPrefix?]

theorem eq_of_between? {s inner : Text} (h : between? [' '] [' '] s = some inner) :
    s = ' ' :: inner ++ [' '] := by
  obtain ⟨r, hr, hsuffix⟩ := Option.bind_eq_some_iff.1 h
  obtain ⟨t, ht, rfl⟩ := Option.map_eq_some_iff.1 hsuffix
  have hrev := congrArg List.reverse (append_eq_of_dropPrefix? ht)
  rw [List.reverse_append, List.reverse_reverse, List.reverse_reverse] at hrev
  rw [← append_eq_of_dropPrefix? hr, ← hrev]
  rfl

theorem shows_unpad (s : Text) : Shows s (unpad s) := by
  unfold unpad
  split
  · next inner h =>
    have hs := eq_of_between? h
    split
    · next hblank => exact .whole fun _ _ => hblank
    · next hblank =>
      subst hs
      exact .padded (by simpa using hblank)
  · next h =>
    refine .whole fun inner hs => ?_
    rw [hs, between?_spaces] at h
    cases h

theorem find?_rewrites {s rest : Text} {xs : List Cell} (h : find? s = some (xs, rest)) :
    ∃ used, s = used ++ rest ∧ Rewrites Shields dropsNothing (Span.cellsOf used) xs := by
  have hrun := eq_replicate (s := s.takeWhile isTick) fun c hc => List.mem_takeWhile_imp hc
  have hs := List.takeWhile_append_dropWhile (p := isTick) (l := s)
  unfold find? at h
  simp only at h
  split at h
  · cases h
  · next hne =>
    split at h
    · next content after hc =>
      cases h
      rw [closing?_eq _ hc, hrun, List.length_replicate, ← List.append_assoc, ← List.append_assoc] at hs
      refine ⟨_, hs.symm, .single (.code ?_ rfl ?_)⟩
      · exact List.length_pos_iff.2 (by simpa using hne)
      · rw [Markup.unescape_escape]
        exact shows_unpad content
    · cases h
      exact ⟨s.takeWhile isTick, hs.symm, .refl _⟩

theorem protect_rewrites (s : Text) : Rewrites Shields dropsNothing (Span.cellsOf s) (protect s) :=
  Rewrites.scan (fun _ _ _ h => find?_rewrites h) s

end Code
end QuartoPretext
