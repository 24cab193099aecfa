/-
# Open sections and open elements

In the body of a document the open elements are the divisions of the open
sections, whose levels are 2, 3 and so on without a gap. A container leaves
open elements and sections as it found them. So what a heading closes is a
division, and what the end of a container closes is its own element.

Key definitions: `IsDivision`, `Session.Agrees`, `Session.SameOpen`,
`Task.Inside`, `Task.Proper`.
Key theorems: `Session.closeTo_eq`, `Runs.sameOpen`, `Runs.keeps_agrees`,
`open_sections_agree`.
-/
import QuartoPretext.Proofs.Document.Headings
import QuartoPretext.Proofs.Document.Run
import QuartoPretext.Proofs.Document.Shape
import Mathlib.Data.List.Forall2
import Mathlib.Data.List.TakeWhile

namespace QuartoPretext

open Markup

/-- The elements that a section of a level can be. -/
def IsDivision (kind : DocumentKind) (level : Nat) (e : Element) : Prop :=
  e = division level ∨ (kind = .exercises ∧ level = 2 ∧ e = .subexercises)

/-- The open elements are the divisions of the open sections, and the levels of
these are the numbers from 2 to 4 at most. -/
structure Session.Agrees (kind : DocumentKind) (s : Session) : Prop where
  levels : ∃ n ≤ 3, s.levels.reverse = List.range' 2 n
  stack : List.Forall₂ (IsDivision kind) s.levels s.writer.stack

/-- The same elements and sections are open. -/
structure Session.SameOpen (s s' : Session) : Prop where
  stack : s'.writer.stack = s.writer.stack
  levels : s'.levels = s.levels

variable {kind : DocumentKind} {s s' s'' : Session}

theorem Session.agrees_start (kind : DocumentKind) : Session.start.Agrees kind :=
  ⟨⟨0, by omega, rfl⟩, .nil⟩

theorem Session.SameOpen.refl (s : Session) : s.SameOpen s := ⟨rfl, rfl⟩

theorem Session.SameOpen.trans (h : s.SameOpen s') (h' : s'.SameOpen s'') : s.SameOpen s'' :=
  ⟨h'.stack.trans h.stack, h'.levels.trans h.levels⟩

theorem Session.SameOpen.agrees (h : s.SameOpen s') (ha : s.Agrees kind) : s'.Agrees kind :=
  ⟨by rw [h.levels]; exact ha.levels, by rw [h.levels, h.stack]; exact ha.stack⟩

/-! ### Closing and opening sections -/

theorem drop_takeWhile {α : Type} (p : α → Bool) : ∀ as : List α,
    as.drop (as.takeWhile p).length = as.dropWhile p
  | [] => rfl
  | a :: as => by
    by_cases h : p a
    · simp [h, drop_takeWhile p as]
    · simp [h]

theorem dropWhile_levels (level : Nat) : ∀ n, (List.range' 2 n).reverse.dropWhile (level ≤ ·) =
    (List.range' 2 (min n (level - 2))).reverse
  | 0 => by simp
  | n + 1 => by
    rw [List.range'_concat, List.reverse_append, Nat.one_mul]
    simp only [List.reverse_cons, List.reverse_nil, List.nil_append, List.singleton_append]
    by_cases h : level ≤ 2 + n
    · rw [List.dropWhile_cons_of_pos (by simpa using h), dropWhile_levels level n]
      have h₁ : min n (level - 2) = level - 2 := by omega
      have h₂ : min (n + 1) (level - 2) = level - 2 := by omega
      rw [h₁, h₂]
    · rw [List.dropWhile_cons_of_neg (by simpa using h)]
      have h₁ : min (n + 1) (level - 2) = n + 1 := by omega
      rw [h₁, List.range'_concat]
      simp

theorem foldl_close {α : Type} : ∀ (as : List α) (w : Writer), as.length ≤ w.stack.length →
    as.foldl (fun w _ => w.close) w =
      ⟨w.events ++ (w.stack.take as.length).map .endTag, w.stack.drop as.length⟩
  | [], w, _ => by simp
  | _ :: as, ⟨events, []⟩, h => by simp at h
  | _ :: as, ⟨events, e :: stack⟩, h => by
    rw [List.foldl_cons, Writer.close, foldl_close as _ (by simpa using h)]
    simp

theorem exists_of_forall₂ {α β : Type} {R : α → β → Prop} : ∀ {as : List α} {bs : List β},
    List.Forall₂ R as bs → ∀ b ∈ bs, ∃ a ∈ as, R a b
  | _, _, .nil, b, hb => absurd hb List.not_mem_nil
  | a :: as, b' :: bs, .cons h hs, b, hb => by
    rcases List.mem_cons.1 hb with rfl | hb
    · exact ⟨a, List.mem_cons_self, h⟩
    · obtain ⟨a', ha', hr⟩ := exists_of_forall₂ hs b hb
      exact ⟨a', List.mem_cons_of_mem a ha', hr⟩

/-- Closing sections ends the latest open elements, one for each section. -/
theorem Session.closeTo_eq (h : s.Agrees kind) (level : Nat) :
    s.closeTo level = { s with
      writer := ⟨s.writer.events ++
          (s.writer.stack.take (s.levels.takeWhile (level ≤ ·)).length).map .endTag,
        s.writer.stack.drop (s.levels.takeWhile (level ≤ ·)).length⟩
      levels := s.levels.drop (s.levels.takeWhile (level ≤ ·)).length } := by
  have hlen : (s.levels.takeWhile (level ≤ ·)).length ≤ s.writer.stack.length := by
    rw [← h.stack.length_eq]
    exact (List.takeWhile_sublist _).length_le
  simp only [closeTo, foldl_close _ _ hlen, drop_takeWhile]

theorem Session.Agrees.closeTo (h : s.Agrees kind) (level : Nat) : (s.closeTo level).Agrees kind := by
  obtain ⟨n, hn, hl⟩ := h.levels
  have hl' : (s.closeTo level).levels = s.levels.dropWhile (level ≤ ·) := rfl
  refine ⟨⟨min n (level - 2), by omega, ?_⟩, ?_⟩
  · rw [hl', ← List.reverse_reverse s.levels, hl, dropWhile_levels, List.reverse_reverse]
  · rw [closeTo_eq h]
    exact List.forall₂_drop _ h.stack

/-- The elements that are closed are divisions. -/
theorem Session.Agrees.closed (h : s.Agrees kind) (level : Nat) : ∃ closed,
    s.writer.stack = closed ++ (s.closeTo level).writer.stack ∧
      (s.closeTo level).writer.events = s.writer.events ++ closed.map .endTag ∧
      ∀ e ∈ closed, ∃ k, level ≤ k ∧ IsDivision kind k e := by
  refine ⟨s.writer.stack.take (s.levels.takeWhile (level ≤ ·)).length, ?_, ?_, ?_⟩
  · rw [closeTo_eq h]
    exact (List.take_append_drop _ _).symm
  · rw [closeTo_eq h]
  · have htake : s.levels.take (s.levels.takeWhile (level ≤ ·)).length = s.levels.takeWhile (level ≤ ·) :=
      List.prefix_iff_eq_take.1 (List.takeWhile_prefix _) |>.symm
    have hdiv := List.forall₂_take (s.levels.takeWhile (level ≤ ·)).length h.stack
    rw [htake] at hdiv
    intro e he
    obtain ⟨k, hk, hke⟩ := exists_of_forall₂ hdiv e he
    exact ⟨k, by simpa using List.mem_takeWhile_imp hk, hke⟩

theorem Session.Agrees.openSection {line level : Nat} {id : Option Text} {title : Text} {e : Element}
    (h : s.Agrees kind) (hlevel : 2 ≤ level ∧ level ≤ 4) (he : IsDivision kind level e)
    (ho : s.openSection line level id title e = .ok s') : s'.Agrees kind := by
  have hc := h.closeTo level
  obtain ⟨n, hn, hl⟩ := h.levels
  have hlevels : (s.closeTo level).levels.reverse = List.range' 2 (min n (level - 2)) := by
    have hd : (s.closeTo level).levels = s.levels.dropWhile (level ≤ ·) := rfl
    rw [hd, ← List.reverse_reverse s.levels, hl, dropWhile_levels, List.reverse_reverse]
  obtain ⟨hskip, rfl⟩ := Session.openSection_eq_ok_iff.1 ho
  -- the innermost section that is left is of the level above the new one
  have hn' : level = 2 + min n (level - 2) := by
    by_cases h2 : level = 2
    · omega
    · have hhead : (s.closeTo level).levels.head? = some (level - 1) := hskip (by omega)
      rw [← List.getLast?_reverse, hlevels, List.getLast?_range'] at hhead
      split at hhead <;> simp at hhead
      omega
  refine ⟨⟨min n (level - 2) + 1, by omega, ?_⟩, .cons he hc.stack⟩
  show (level :: (s.closeTo level).levels).reverse = _
  rw [List.reverse_cons, hlevels, List.range'_concat, Nat.one_mul, ← hn']

/-! ### Steps -/

theorem Session.inline_sameOpen (ctx : Inline.Context) (s : Session) (text : Text) :
    s.SameOpen (s.inline ctx text).2 := ⟨rfl, rfl⟩

theorem Session.Agrees.documentHeading {ctx : Inline.Context} {line level : Nat} {title : Text}
    {id : Option Text} (h : s.Agrees kind) (hlevel : 1 ≤ level ∧ level ≤ 4)
    (ho : s.documentHeading ctx kind line level title id = .ok s') : s'.Agrees kind := by
  have hi := (s.inline_sameOpen ctx title).agrees h
  have hc := hi.closeTo 0
  cases Session.headed_of_documentHeading ho with
  | root _ _ => exact ⟨hc.levels, hc.stack⟩
  | second _ _ ho =>
    have hw : (((s.inline ctx title).2.closeTo 0).warn (some line) (.secondTitle title)).Agrees kind :=
      ⟨hc.levels, hc.stack⟩
    exact hw.openSection (by omega) (.inl rfl) ho
  | inner hone he ho => exact hi.openSection (by omega) (he.imp_left (·.2)) ho
  | alert _ _ _ => exact ⟨hi.levels, hi.stack⟩

theorem Session.leaf_sameOpen (ctx : Inline.Context) (s : Session) (tag : Tag) (content : Content) :
    s.SameOpen (s.leaf ctx tag content) := by
  cases content with
  | markup xml => exact ⟨rfl, rfl⟩
  | inline text => exact (s.inline_sameOpen ctx text).trans ⟨rfl, rfl⟩
  | alert text => exact (s.inline_sameOpen ctx text).trans ⟨rfl, rfl⟩

theorem Session.paragraph_sameOpen (ctx : Inline.Context) (s : Session) (text : Text) :
    s.SameOpen (s.paragraph ctx text) := by
  unfold Session.paragraph
  simp only
  split
  · exact s.inline_sameOpen ctx text
  · exact (s.inline_sameOpen ctx text).trans ⟨rfl, rfl⟩

/-- Pieces other than headings open and close nothing when they are written. -/
theorem Session.write_sameOpen {ctx : Inline.Context} {p : Piece}
    (hp : ∀ line level title id, p ≠ .heading line level title id)
    (h : s.write ctx kind p = .ok s') : s.SameOpen s' := by
  cases p with
  | heading line level title id => exact absurd rfl (hp line level title id)
  | leaf tag content =>
    simp only [Session.write, Except.ok.injEq] at h
    exact h ▸ s.leaf_sameOpen ctx tag content
  | paragraph text =>
    simp only [Session.write, Except.ok.injEq] at h
    exact h ▸ s.paragraph_sameOpen ctx text
  | frontMatter line yaml =>
    simp only [Session.write] at h
    split at h
    · simp only [Except.ok.injEq] at h
      exact h ▸ ⟨rfl, rfl⟩
    · cases h
  | _ =>
    simp only [Session.write, Except.ok.injEq] at h
    exact h ▸ ⟨rfl, rfl⟩

/-! ### Tasks -/

/-- Pieces that are carried out in the body of the document: a heading, the lines
of a transparent div, or what could as well stand in a container. -/
def Piece.Proper : Piece → Prop
  | .heading _ level _ _ => 1 ≤ level ∧ level ≤ 4
  | .blocks _ _ => True
  | p => p.All (Piece.Tame fun _ => True)

/-- Tasks that a container carries out, and exercises of a set if `E` holds. -/
def Task.Inside (E : Prop) : Task → Prop
  | .piece p => p.All (Piece.Within (fun _ => True) E)
  | .pieces ps => Piece.AllIn (Piece.Within (fun _ => True) E) ps
  | .lines context _ => context = .container

/-- Tasks that open no section. -/
abbrev Task.Contained : Task → Prop := Task.Inside True

/-- Tasks that the body of the document carries out. -/
def Task.Proper : Task → Prop
  | .piece p => p.Proper
  | .pieces ps => ∀ p ∈ ps, p.Proper
  | .lines _ _ => True

theorem Plan.inside_ofBlock {E : Prop} (set : Setting) (count : Nat) (b : Block) :
    (Task.pieces (ofBlock set .container count b)).Inside E :=
  (Piece.allIn_iff _).2 (within_ofBlock fun _ _ _ _ => trivial)

theorem BlockStart.heading?_level {s title : Text} {level : Nat} (h : heading? s = some (level, title)) :
    1 ≤ level ∧ level ≤ 4 := by
  unfold heading? at h
  simp only at h
  split at h
  · split at h
    · next hc =>
      simp only [Option.some.injEq, Prod.mk.injEq] at h
      simp only [Bool.and_eq_true, decide_eq_true_eq] at hc
      omega
    · cases h
  · cases h

theorem BlockStart.of_level {l : Line} {following : List Line} {level : Nat} {title : Text}
    (h : BlockStart.of l following = .heading level title) : 1 ≤ level ∧ level ≤ 4 := by
  unfold BlockStart.of at h
  split at h
  · cases h
  · split at h
    · next hh =>
      cases h
      exact heading?_level hh
    · split at h
      · cases h
      · unfold ofLine at h
        repeat' split at h
        all_goals cases h

theorem Block.read_level {l : Line} {following rest : List Line} {line level : Nat} {title : Text}
    {attrs : Attributes} (h : Block.read l following = .ok (.heading line level title attrs, rest)) :
    1 ≤ level ∧ level ≤ 4 := by
  unfold Block.read at h
  simp only at h
  split at h
  case h_2 level' raw hof =>
    simp only [Except.ok.injEq, Prod.mk.injEq, Block.heading.injEq] at h
    exact h.1.2.1 ▸ BlockStart.of_level hof
  case h_7 =>
    unfold Block.readMath at h
    repeat' split at h
    all_goals cases h
  all_goals
    try split at h
    all_goals cases h

variable {set : Setting} {ctx : Inline.Context} {t t₀ : Task}

theorem Plan.proper_ofBlock {l : Line} {following rest : List Line} {b : Block} (context : Context)
    (count : Nat) (hb : Block.read l following = .ok (b, rest)) :
    (Task.pieces (ofBlock set context count b)).Proper := by
  intro p hp
  cases shape_ofBlock (L := fun _ => True) (fun _ _ _ => trivial) (fun _ _ _ _ => trivial) p hp with
  | heading hd _ => exact Block.read_level (hd ▸ hb)
  | body _ _ => trivial
  | tame ht =>
    cases p with
    | heading line level title id => exact ht.elim
    | blocks context ls => trivial
    | _ => exact ht

theorem Runs.sameOpen (h : Runs set ctx t s s') (ht : t.Contained) : s.SameOpen s' := by
  induction h with
  | element _ ih =>
    have hin := ih ht.2
    exact ⟨by simp [Session.close, Writer.close, hin.stack, Session.openTag, Writer.openTag], hin.levels⟩
  | blocks _ ih => exact ih ht.1
  | @write p s s' _ hw =>
    refine Session.write_sameOpen ?_ hw
    rintro line level title id rfl
    exact ht
  | noPieces => exact .refl _
  | pieces _ _ ih₁ ih₂ => exact (ih₁ ht.1).trans (ih₂ ht.2)
  | noLines => exact .refl _
  | @lines _ _ _ _ b s s₁ _ _ _ _ ih₁ ih₂ =>
    cases ht
    have hb : s.SameOpen s₁ :=
      have hc := ih₁ (Plan.inside_ofBlock ..)
      ⟨hc.stack, hc.levels⟩
    exact hb.trans (ih₂ rfl)

/-- A container comes to nothing but tasks of a container. -/
theorem Reached.inside {E : Prop} {s₀ : Session} (h : Reached set ctx t₀ s₀ t s) (ht : t₀.Inside E) : t.Inside E := by
  induction h with
  | start => exact ht
  | content _ ih => exact ih.2
  | body _ ih => exact ih.1
  | first _ ih => exact ih.1
  | next _ _ ih => exact ih.2
  | block _ _ ih =>
    cases ih
    exact Plan.inside_ofBlock ..
  | nextBlock _ _ _ ih => exact ih

theorem Runs.keeps_agrees (h : Runs set ctx t s s') (ht : t.Proper) (hs : s.Agrees set.profile.kind) :
    s'.Agrees set.profile.kind := by
  induction h with
  | element hc _ => exact (Runs.sameOpen (.element hc) ht).agrees hs
  | blocks _ ih => exact ih trivial hs
  | @write p s s' _ hw =>
    by_cases hp : ∃ line level title id, p = .heading line level title id
    · obtain ⟨line, level, title, id, rfl⟩ := hp
      exact hs.documentHeading ht hw
    · refine (Session.write_sameOpen ?_ hw).agrees hs
      rintro line level title id rfl
      exact hp ⟨line, level, title, id, rfl⟩
  | noPieces => exact hs
  | pieces _ _ ih₁ ih₂ =>
    exact ih₂ (fun p hp => ht p (List.mem_cons_of_mem _ hp)) (ih₁ (ht _ List.mem_cons_self) hs)
  | noLines => exact hs
  | lines hb _ _ ih₁ ih₂ =>
    exact ih₂ trivial (ih₁ (Plan.proper_ofBlock _ _ hb) ⟨hs.levels, hs.stack⟩)

/-- A task that is reached stands in the body of the document, where sections
and elements agree, or in a container. -/
theorem Reached.agrees_or_contained {ls : List Line}
    (h : Reached set ctx (.lines .document ls) .start t s) :
    (t.Proper ∧ s.Agrees set.profile.kind) ∨ t.Contained := by
  induction h with
  | start => exact .inl ⟨trivial, Session.agrees_start _⟩
  | content _ ih =>
    rcases ih with ⟨hp, _⟩ | hc
    · exact .inr hp.2
    · exact .inr hc.2
  | @body context ls s _ ih =>
    rcases ih with ⟨_, hs⟩ | hc
    · exact .inl ⟨trivial, hs⟩
    · exact .inr hc.1
  | first _ ih =>
    rcases ih with ⟨hp, hs⟩ | hc
    · exact .inl ⟨hp _ List.mem_cons_self, hs⟩
    · exact .inr hc.1
  | next _ hr ih =>
    rcases ih with ⟨hp, hs⟩ | hc
    · exact .inl ⟨fun q hq => hp q (List.mem_cons_of_mem _ hq), hr.keeps_agrees (hp _ List.mem_cons_self) hs⟩
    · exact .inr hc.2
  | block _ hb ih =>
    rcases ih with ⟨_, hs⟩ | hc
    · exact .inl ⟨Plan.proper_ofBlock _ _ hb, hs.levels, hs.stack⟩
    · cases hc
      exact .inr (Plan.inside_ofBlock ..)
  | nextBlock _ hb hr ih =>
    rcases ih with ⟨_, hs⟩ | hc
    · exact .inl ⟨trivial, hr.keeps_agrees (Plan.proper_ofBlock _ _ hb) ⟨hs.levels, hs.stack⟩⟩
    · exact .inr hc

/-- Between the blocks of the body of a document, and at its headings, open
elements and open sections agree; at its end they do so too. Closing sections
then ends divisions only. A block in a container leaves open what was open, and
what the end of an element closes is the element itself. -/
theorem open_sections_agree (set : Setting) (ctx : Inline.Context) (ls : List Line) :
    (∀ rest s, Reached set ctx (.lines .document ls) .start (.lines .document rest) s →
      s.Agrees set.profile.kind) ∧
    (∀ line level title id s,
      Reached set ctx (.lines .document ls) .start (.piece (.heading line level title id)) s →
        s.Agrees set.profile.kind) ∧
    (∀ s, convertLines set ctx .document ls .start = .ok s → s.Agrees set.profile.kind) ∧
    (∀ (s : Session) level, s.Agrees set.profile.kind → (s.closeTo level).Agrees set.profile.kind ∧
      ∃ closed, s.writer.stack = closed ++ (s.closeTo level).writer.stack ∧
        (s.closeTo level).writer.events = s.writer.events ++ closed.map .endTag ∧
        ∀ e ∈ closed, ∃ k, level ≤ k ∧ IsDivision set.profile.kind k e) ∧
    (∀ b count s s', runPieces set ctx (Plan.ofBlock set .container count b) s = .ok s' →
      s.SameOpen s') ∧
    (∀ tag content s s',
      Reached set ctx (.lines .document ls) .start (.piece (.element tag content)) s →
        runPieces set ctx content (s.openTag tag) = .ok s' →
          s'.writer.stack = tag.element :: s.writer.stack ∧ s'.levels = s.levels) := by
  refine ⟨?_, ?_, ?_, ?_, ?_, ?_⟩
  · intro rest s h
    rcases h.agrees_or_contained with ⟨_, hs⟩ | hc
    · exact hs
    · cases hc
  · intro line level title id s h
    rcases h.agrees_or_contained with ⟨_, hs⟩ | hc
    · exact hs
    · exact hc.elim
  · intro s h
    have hr : Runs set ctx (.lines .document ls) .start s := runs_iff.2 h
    exact hr.keeps_agrees trivial (Session.agrees_start _)
  · exact fun s level h => ⟨h.closeTo level, h.closed level⟩
  · intro b count s s' h
    have hr : Runs set ctx (.pieces (Plan.ofBlock set .container count b)) s s' := runs_iff.2 h
    exact hr.sameOpen (Plan.inside_ofBlock ..)
  · intro tag content s s' h hrun
    have hr : Runs set ctx (.pieces content) (s.openTag tag) s' := runs_iff.2 hrun
    have hc : (Task.pieces content).Contained := by
      rcases h.agrees_or_contained with ⟨hp, _⟩ | hc
      · exact hp.2
      · exact hc.2
    exact ⟨(hr.sameOpen hc).stack, (hr.sameOpen hc).levels⟩

end QuartoPretext
