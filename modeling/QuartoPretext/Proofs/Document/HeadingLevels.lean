/-
# Which headings are out of level

The headings of the body of a document have levels in effect: their own, but 2
for a heading of level 1 that is not the first. A heading deeper than level 2
needs, as the nearest heading before it whose level in effect is lower, one of
the level above its own. The conversion does not look back: it knows the open
sections only. But of the headings so far, those are the levels in effect that
no later one is at or below, so that the innermost open section above a level
is the nearest heading before.

Key definitions: `Heading.effective`, `Heading.Skips`, `Heading.firstSkip?`,
`Session.Follows`.
Key theorems: `Session.Follows.documentHeading`, `Flow.run_chapter`,
`convert_levelSkip_iff`.
-/
import QuartoPretext.Proofs.Document.Flow

namespace QuartoPretext

/-- A heading in the body of a document. -/
structure Heading where
  line : Nat
  level : Nat
  deriving Repr, DecidableEq

namespace Heading

/-- The level in effect of a heading after earlier ones: a later heading of level 1 opens a section. -/
def effective (earlier : List Heading) (h : Heading) : Nat :=
  if h.level = 1 ∧ ∃ k ∈ earlier, k.level = 1 then 2 else h.level

/-- The levels in effect of headings, latest first. -/
def levels : List Heading → List Nat
  | [] => []
  | h :: earlier => h.effective earlier :: levels earlier

/-- A heading deeper than level 2 is out of level if the nearest earlier heading of
a lower level in effect is not of the level above, or there is none. Earlier
headings are given latest first. -/
def Skips (earlier : List Heading) (h : Heading) : Prop :=
  3 ≤ h.effective earlier ∧ (levels earlier).find? (· < h.effective earlier) ≠ some (h.effective earlier - 1)

instance (earlier : List Heading) (h : Heading) : Decidable (h.Skips earlier) :=
  inferInstanceAs (Decidable (_ ∧ _))

/-- The first heading that is out of level, after some headings that are not. -/
def firstSkip? : List Heading → List Heading → Option Heading
  | _, [] => none
  | earlier, h :: hs => if h.Skips earlier then some h else firstSkip? (h :: earlier) hs

theorem firstSkip?_of_skips {h : Heading} {earlier hs : List Heading} (hh : h.Skips earlier) :
    firstSkip? earlier (h :: hs) = some h := by
  rw [firstSkip?, if_pos hh]

theorem firstSkip?_of_not_skips {h : Heading} {earlier hs : List Heading} (hh : ¬ h.Skips earlier) :
    firstSkip? earlier (h :: hs) = firstSkip? (h :: earlier) hs := by
  rw [firstSkip?, if_neg hh]

/-- The headings before the first one that is out of level are not. -/
theorem firstSkip?_eq_some {h : Heading} : ∀ {hs earlier : List Heading}, firstSkip? earlier hs = some h →
    ∃ before after, hs = before ++ h :: after ∧ h.Skips (before.reverse ++ earlier) ∧
      ∀ before' k after', before = before' ++ k :: after' → ¬ k.Skips (before'.reverse ++ earlier)
  | [], _, hh => by cases hh
  | k :: hs, earlier, hh => by
    by_cases hk : k.Skips earlier
    · rw [firstSkip?_of_skips hk] at hh
      cases hh
      refine ⟨[], hs, rfl, hk, fun before' k after' he => ?_⟩
      exact absurd he.symm (by simp)
    · rw [firstSkip?_of_not_skips hk] at hh
      obtain ⟨before, after, rfl, hskip, hfirst⟩ := firstSkip?_eq_some hh
      refine ⟨k :: before, after, rfl, by simpa using hskip, fun before' k' after' he => ?_⟩
      cases before' with
      | nil =>
        cases he
        exact hk
      | cons b before' =>
        cases he
        simpa using hfirst before' k' after' rfl

/-- If a heading is out of level, there is a first one. -/
theorem firstSkip?_isSome {h : Heading} {after : List Heading} : ∀ {before earlier : List Heading},
    h.Skips (before.reverse ++ earlier) → (firstSkip? earlier (before ++ h :: after)).isSome
  | [], earlier, hh => by
    rw [List.nil_append, firstSkip?_of_skips (show h.Skips earlier from hh)]
    rfl
  | k :: before, earlier, hh => by
    by_cases hk : k.Skips earlier
    · rw [List.cons_append, firstSkip?_of_skips hk]
      rfl
    · rw [List.cons_append, firstSkip?_of_not_skips hk]
      exact firstSkip?_isSome (by simpa using hh)

end Heading

/-- The heading that a block is. -/
def Block.heading? : Block → Option Heading
  | .heading n level _ _ => some ⟨n, level⟩
  | _ => none

/-- The headings of a flow in order. -/
def Flow.headings (f : Flow) : List Heading := f.blocks.filterMap Block.heading?

/-- The first level-1 heading was among the headings so far if there was one, and
below any level the innermost open section is the nearest heading, if that opens
sections at all. -/
structure Session.Follows (earlier : List Heading) (s : Session) : Prop where
  title : s.heading.isSome ↔ ∃ k ∈ earlier, k.level = 1
  levels : ∀ l, s.levels.find? (· < l) = ((Heading.levels earlier).find? (· < l)).filter (2 ≤ ·)

variable {set : Setting} {ctx : Inline.Context} {s s' : Session} {earlier : List Heading}

theorem Session.follows_start : Session.start.Follows [] := ⟨by simp [Session.start], fun _ => rfl⟩

/-! ### A heading -/

theorem find?_dropWhile (l m : Nat) (h : m ≤ l) : ∀ as : List Nat,
    (as.dropWhile (l ≤ ·)).find? (· < m) = as.find? (· < m)
  | [] => rfl
  | a :: as => by
    by_cases ha : l ≤ a
    · have hm : ¬ a < m := by omega
      rw [List.dropWhile_cons_of_pos (by simpa using ha), find?_dropWhile l m h as, List.find?_cons_of_neg (by simpa using hm)]
    · rw [List.dropWhile_cons_of_neg (by simpa using ha)]

theorem Session.Follows.congr (h : s.Follows earlier) (hlevels : s'.levels = s.levels) (hheading : s'.heading = s.heading) :
    s'.Follows earlier :=
  ⟨by rw [hheading]; exact h.title, by rw [hlevels]; exact h.levels⟩

/-- The innermost section that stays open is the nearest heading of a lower level in effect. -/
theorem Session.Follows.head?_closeTo (h : s.Follows earlier) (level : Nat) :
    (s.closeTo level).levels.head? = ((Heading.levels earlier).find? (· < level)).filter (2 ≤ ·) := by
  have hlower : (fun k : Nat => decide (level ≤ k)) = fun k => !decide (k < level) := by
    funext k
    rw [← decide_not, decide_eq_decide, Nat.not_lt]
  rw [← h.levels, Session.closeTo, List.find?_eq_head?_dropWhile_not, hlower]

/-- Nothing below level 2 opens a section. -/
theorem filter_find?_eq_none {m : Nat} (hm : m ≤ 2) (levels : List Nat) :
    (levels.find? (· < m)).filter (2 ≤ ·) = none := by
  cases hfind : levels.find? (· < m) with
  | none => rfl
  | some k =>
    have hk : k < m := by simpa using List.find?_some hfind
    rw [Option.filter_some, if_neg (by simp; omega)]

/-- All open sections are of level 2 or deeper. -/
theorem Session.Follows.closeTo_two (h : s.Follows earlier) : (s.closeTo 2).levels = [] := by
  rw [← List.head?_eq_none_iff, h.head?_closeTo 2, filter_find?_eq_none (Nat.le_refl 2)]

/-- A heading that opens a section after the deeper ones are closed. -/
theorem Session.Follows.cons {h : Heading} (hs : s.Follows earlier) (htwo : 2 ≤ h.effective earlier)
    (hlevels : s'.levels = h.effective earlier :: (s.closeTo (h.effective earlier)).levels)
    (hheading : s'.heading.isSome ↔ ∃ k ∈ h :: earlier, k.level = 1) : s'.Follows (h :: earlier) := by
  refine ⟨hheading, fun m => ?_⟩
  rw [hlevels, Heading.levels]
  by_cases hm : h.effective earlier < m
  · rw [List.find?_cons_of_pos (by simpa using hm), List.find?_cons_of_pos (by simpa using hm), Option.filter_some,
      if_pos (by simpa using htwo)]
  · rw [List.find?_cons_of_neg (by simpa using hm), List.find?_cons_of_neg (by simpa using hm), ← hs.levels]
    exact find?_dropWhile _ m (by omega) s.levels

/-- After the title no section is open. -/
theorem Session.Follows.cons_title {h : Heading} (hone : h.effective earlier = 1)
    (hlevels : s'.levels = []) (hheading : s'.heading.isSome ↔ ∃ k ∈ h :: earlier, k.level = 1) :
    s'.Follows (h :: earlier) := by
  refine ⟨hheading, fun m => ?_⟩
  rw [hlevels, Heading.levels, hone]
  by_cases hm : 1 < m
  · rw [List.find?_cons_of_pos (by simpa using hm)]
    rfl
  · rw [List.find?_cons_of_neg (by simpa using hm), filter_find?_eq_none (by omega)]
    rfl

namespace Session

variable {level : Nat}

theorem openSection_of_ne (hlevel : 2 < level) (h : (s.closeTo level).levels.head? ≠ some (level - 1)) (n : Nat)
    (id : Option Text) (title : Text) (e : Markup.Element) :
    s.openSection n level id title e = .error (.levelSkip n level) :=
  openSection_eq_error_iff.2 ⟨⟨hlevel, h⟩, rfl⟩

theorem openSection_of_eq (s : Session) (level : Nat) (h : 2 < level → (s.closeTo level).levels.head? = some (level - 1))
    (n : Nat) (id : Option Text) (title : Text) (e : Markup.Element) :
    ∃ s', s.openSection n level id title e = .ok s' ∧ s'.levels = level :: (s.closeTo level).levels ∧
      s'.heading = s.heading :=
  ⟨_, openSection_eq_ok_iff.2 ⟨h, rfl⟩, rfl, rfl⟩

/-- A heading of level 1 in the body of a document is its title, or opens a section of level 2. -/
theorem Follows.documentHeading_one {h : Heading} (hs : s.Follows earlier) (hone : h.level = 1) (ctx : Inline.Context)
    (kind : DocumentKind) (title : Text) (id : Option Text) :
    ∃ s', s.documentHeading ctx kind h.line h.level title id = .ok s' ∧ s'.Follows (h :: earlier) := by
  have hi : (s.inline ctx title).2.Follows earlier := hs.congr rfl rfl
  have hcons : ∃ k ∈ h :: earlier, k.level = 1 := ⟨h, List.mem_cons_self, hone⟩
  simp only [documentHeading, if_pos hone]
  by_cases hfirst : ∃ k ∈ earlier, k.level = 1
  · have heffective : h.effective earlier = 2 := if_pos ⟨hone, hfirst⟩
    have hsome : s.heading.isSome := hs.title.2 hfirst
    have hclosed : (s.closeTo 0).levels = [] := List.dropWhile_eq_nil_iff.2 fun _ _ => by simp
    obtain ⟨s', hopen, hlevels, hheading⟩ :=
      openSection_of_eq (((s.inline ctx title).2.closeTo 0).warn (some h.line) (.secondTitle title)) 2 (by simp) h.line id
        (s.inline ctx title).1 (division 2)
    have hnone : ¬ ((s.inline ctx title).2.closeTo 0).heading.isNone := by
      rw [← Option.not_isSome, Bool.not_eq_true', Bool.not_eq_false]
      exact hsome
    rw [if_neg hnone]
    refine ⟨s', hopen, hs.cons (by omega) ?_ (iff_of_true (hheading ▸ hsome) hcons)⟩
    rw [hlevels, heffective, hs.closeTo_two]
    show 2 :: (s.closeTo 0).levels.dropWhile (2 ≤ ·) = [2]
    rw [hclosed]
    rfl
  · have hnone : ((s.inline ctx title).2.closeTo 0).heading.isNone := by
      rw [Option.isNone_iff_eq_none, ← Option.not_isSome_iff_eq_none]
      exact fun hsome => hfirst (hs.title.1 hsome)
    have heffective : h.effective earlier = 1 := (if_neg fun h1 => hfirst h1.2).trans hone
    rw [if_pos hnone]
    exact ⟨_, rfl, .cons_title heffective (List.dropWhile_eq_nil_iff.2 fun _ _ => by simp) (iff_of_true rfl hcons)⟩

/-- A deeper heading in the body of a chapter fails if it is out of level, or else it opens a section. -/
theorem Follows.documentHeading_deeper {h : Heading} (hs : s.Follows earlier) (htwo : 2 ≤ h.level) (ctx : Inline.Context)
    (title : Text) (id : Option Text) :
    (h.Skips earlier ∧ s.documentHeading ctx .chapter h.line h.level title id = .error (.levelSkip h.line h.level)) ∨
    (¬ h.Skips earlier ∧ ∃ s', s.documentHeading ctx .chapter h.line h.level title id = .ok s' ∧
      s'.Follows (h :: earlier)) := by
  have hi : (s.inline ctx title).2.Follows earlier := hs.congr rfl rfl
  have hone : ¬ h.level = 1 := by omega
  have heffective : h.effective earlier = h.level := if_neg fun h1 => hone h1.1
  have hheading : (∃ k ∈ h :: earlier, k.level = 1) ↔ ∃ k ∈ earlier, k.level = 1 := by simp [hone]
  simp only [documentHeading, if_neg hone]
  -- the section that the heading needs is of level 2 or deeper, so that its heading opened it
  have hhead : 2 < h.level → (((s.inline ctx title).2.closeTo h.level).levels.head? = some (h.level - 1) ↔
      (Heading.levels earlier).find? (· < h.level) = some (h.level - 1)) := by
    intro hdeep
    rw [hi.head?_closeTo, Option.filter_eq_some_iff]
    exact and_iff_left (by simp; omega)
  by_cases hskip : h.Skips earlier
  · have hdeep : 2 < h.level := heffective ▸ hskip.1
    have hfind : (Heading.levels earlier).find? (· < h.level) ≠ some (h.level - 1) := heffective ▸ hskip.2
    exact .inl ⟨hskip, openSection_of_ne hdeep (fun he => hfind ((hhead hdeep).1 he)) ..⟩
  · refine .inr ⟨hskip, ?_⟩
    have hfind : 2 < h.level → ((s.inline ctx title).2.closeTo h.level).levels.head? = some (h.level - 1) := by
      intro hdeep
      rw [hhead hdeep]
      by_contra hne
      exact hskip ⟨by omega, by rw [heffective]; exact hne⟩
    obtain ⟨s', hopen, hlevels, hsame⟩ := openSection_of_eq (s.inline ctx title).2 h.level hfind
      h.line id (s.inline ctx title).1 (division h.level)
    exact ⟨s', hopen, hi.cons (by omega) (by rw [hlevels, heffective]) (by rw [hsame, hi.title, hheading])⟩

/-- A heading in the body of a chapter fails if it is out of level, and else it joins the headings so far. -/
theorem Follows.documentHeading {h : Heading} (hs : s.Follows earlier) (hlevel : 1 ≤ h.level) (ctx : Inline.Context)
    (title : Text) (id : Option Text) :
    (h.Skips earlier ∧ s.documentHeading ctx .chapter h.line h.level title id = .error (.levelSkip h.line h.level)) ∨
    (¬ h.Skips earlier ∧ ∃ s', s.documentHeading ctx .chapter h.line h.level title id = .ok s' ∧
      s'.Follows (h :: earlier)) := by
  by_cases hone : h.level = 1
  · have heffective : h.effective earlier ≤ 2 := by
      unfold Heading.effective
      split <;> omega
    exact .inr ⟨fun hskip => absurd hskip.1 (by omega), hs.documentHeading_one hone ctx .chapter title id⟩
  · exact hs.documentHeading_deeper (by omega) ctx title id

/-- Headings of an exercise set are never out of level. -/
theorem documentHeading_exercises (s : Session) (ctx : Inline.Context) (n level : Nat) (title : Text) (id : Option Text) :
    ∃ s', s.documentHeading ctx .exercises n level title id = .ok s' := by
  have hopen (s : Session) (xml : Text) (e : Markup.Element) : ∃ s', s.openSection n 2 id xml e = .ok s' := by
    obtain ⟨s', h, _⟩ := openSection_of_eq s 2 (by simp) n id xml e
    exact ⟨s', h⟩
  simp only [documentHeading]
  split
  · split
    · exact ⟨_, rfl⟩
    · exact hopen ..
  · split
    · next htwo => exact htwo ▸ hopen ..
    · exact ⟨_, rfl⟩

/-- A piece that is no heading leaves the title as it is. -/
theorem write_heading {kind : DocumentKind} {p : Piece} (hp : ∀ n level title id, p ≠ .heading n level title id)
    (h : s.write ctx kind p = .ok s') : s'.heading = s.heading := by
  cases p with
  | heading n level title id => exact absurd rfl (hp n level title id)
  | leaf tag content =>
    cases h
    cases content <;> rfl
  | paragraph text =>
    simp only [Session.write, Session.paragraph, Except.ok.injEq] at h
    split at h <;> exact h ▸ rfl
  | frontMatter n yaml =>
    simp only [Session.write] at h
    split at h <;> cases h
    rfl
  | _ =>
    cases h
    rfl

end Session

/-! ### Tasks without headings -/

variable {t : Task}

theorem Block.read_ne_levelSkip {l : Line} {following : List Line} {f : Fault} (h : Block.read l following = .error f)
    (n level : Nat) : f ≠ .levelSkip n level := by
  rintro rfl
  unfold Block.read at h
  simp only at h
  split at h
  case h_7 =>
    unfold Block.readMath at h
    repeat' split at h
    all_goals cases h
  all_goals
    try split at h
    all_goals cases h

/-- Nothing in a container is out of level. -/
theorem Task.Contained.run_ne_levelSkip (ht : t.Contained) (n level : Nat) : t.run set ctx s ≠ .error (.levelSkip n level) := by
  intro h
  obtain ⟨t', s', hr, hbreak⟩ := exists_reached_of_error h
  have ht' := hr.inside ht
  cases hbreak with
  | read hread => exact Block.read_ne_levelSkip hread n level rfl
  | @write p _ hp hw =>
    cases p with
    | heading n' level' title id => exact ht'
    | frontMatter n' yaml =>
      simp only [Session.write] at hw
      split at hw <;> cases hw
    | _ => cases hw

theorem Runs.heading_eq (h : Runs set ctx t s s') (ht : t.Contained) : s'.heading = s.heading := by
  refine h.keeps (J := fun s' => s'.heading = s.heading) (.start) (fun _ _ => id) ?_ (fun _ _ => id) ?_ rfl
  · intro s₁ h₁
    rw [← h₁, Session.close]
  · intro p s₁ s₂ _ hr hw h₁
    refine (Session.write_heading ?_ hw).trans h₁
    rintro n level title id rfl
    exact hr.inside ht

/-- A task of a container leaves the headings so far as they are. -/
theorem Session.Follows.runs (hs : s.Follows earlier) (h : Runs set ctx t s s') (ht : t.Contained) : s'.Follows earlier :=
  hs.congr (h.sameOpen ht).levels (h.heading_eq ht)

/-! ### The flow -/

theorem runPieces_own_heading {b : Block} {h : Heading} (hb : b.heading? = some h) : ∃ title id, ∀ count s,
    runPieces set ctx (Plan.own set count b) s = s.documentHeading ctx set.profile.kind h.line h.level title id := by
  cases b with
  | heading n level title attrs =>
    cases hb
    refine ⟨title, attrs.id, fun count s => ?_⟩
    show runPieces set ctx [.heading n level title attrs.id] s = _
    rw [runPieces_singleton, runPiece_of_isSimple rfl]
    rfl
  | _ => cases hb

theorem contained_own {b : Block} (hb : b.heading? = none) (count : Nat) : (Task.pieces (Plan.own set count b)).Contained := by
  refine Plan.within_own ?_ fun _ _ => trivial
  rintro n level title attrs rfl
  cases hb

namespace Flow

variable {bs : List Block}

/-- A flow of a chapter is carried out if no heading is out of level, and fails
at the first one that is, unless it fails otherwise. -/
theorem run_chapter (hkind : set.profile.kind = .chapter) (hs : s.Follows earlier)
    (hlevels : ∀ b ∈ bs, ∀ h, b.heading? = some h → 1 ≤ h.level) :
    (∀ s', run set ctx bs s = .ok s' → Heading.firstSkip? earlier (bs.filterMap Block.heading?) = none) ∧
    ∀ n level, run set ctx bs s = .error (.levelSkip n level) →
      Heading.firstSkip? earlier (bs.filterMap Block.heading?) = some ⟨n, level⟩ := by
  induction bs generalizing s earlier with
  | nil => exact ⟨fun _ _ => rfl, fun n level h => by cases h⟩
  | cons b bs ih =>
    obtain ⟨hb, hbs⟩ := List.forall_mem_cons.1 hlevels
    have hline : ({ s with line := some b.line } : Session).Follows earlier := hs.congr rfl rfl
    rw [run]
    cases hheading : b.heading? with
    | some h =>
      obtain ⟨title, id, hrun⟩ := @runPieces_own_heading set ctx b h hheading
      rw [List.filterMap_cons_some hheading, hrun, hkind]
      rcases hline.documentHeading (hb h hheading) ctx title id with ⟨hskip, herror⟩ | ⟨hskip, s₁, hok, hs₁⟩
      · rw [herror, Heading.firstSkip?_of_skips hskip]
        refine ⟨fun s' h' => (by cases h'), fun n level h' => ?_⟩
        cases h'
        rfl
      · rw [hok, Heading.firstSkip?_of_not_skips hskip]
        exact ih hs₁ hbs
    | none =>
      rw [List.filterMap_cons_none hheading]
      have hcontained := @contained_own set b hheading s.exerciseCount
      cases hrun : runPieces set ctx (Plan.own set s.exerciseCount b) { s with line := some b.line } with
      | ok s₁ =>
        have hruns : Runs set ctx (.pieces (Plan.own set s.exerciseCount b)) _ s₁ := runs_iff.2 hrun
        exact ih (hline.runs hruns hcontained) hbs
      | error f =>
        refine ⟨fun s' h' => (by cases h'), fun n level h' => ?_⟩
        cases h'
        exact absurd hrun (hcontained.run_ne_levelSkip n level)

/-- In an exercise set no heading is out of level. -/
theorem run_exercises (hkind : set.profile.kind = .exercises) (n level : Nat) :
    run set ctx bs s ≠ .error (.levelSkip n level) := by
  induction bs generalizing s with
  | nil => exact fun h => by cases h
  | cons b bs ih =>
    rw [run]
    cases hrun : runPieces set ctx (Plan.own set s.exerciseCount b) { s with line := some b.line } with
    | ok s₁ => exact ih
    | error f =>
      intro h
      cases h
      cases hheading : b.heading? with
      | some h =>
        obtain ⟨title, id, hdocument⟩ := @runPieces_own_heading set ctx b h hheading
        obtain ⟨s', hok⟩ := Session.documentHeading_exercises { s with line := some b.line } ctx h.line h.level title id
        rw [hdocument, hkind, hok] at hrun
        cases hrun
      | none => exact (contained_own hheading _).run_ne_levelSkip n level hrun

/-- The headings of a flow are of level 1 or deeper. -/
theorem one_le_level {p : Profile} {ls : List Line} {b : Block} (hb : b ∈ (ofLines p ls).blocks) {h : Heading}
    (hheading : b.heading? = some h) : 1 ≤ h.level := by
  obtain ⟨l, following, rest, hread⟩ := read_of_mem hb
  cases b with
  | heading n level title attrs =>
    cases hheading
    exact (Block.read_level hread).1
  | _ => cases hheading

theorem finish_ne_levelSkip {p : Profile} {ls : List Line} (n level : Nat) (s : Session) :
    finish (ofLines p ls).fault s ≠ .error (.levelSkip n level) := by
  cases hfault : (ofLines p ls).fault with
  | none => exact fun h => by cases h
  | some f =>
    intro h
    cases h
    obtain ⟨l, following, hread⟩ := read_of_fault hfault
    exact Block.read_ne_levelSkip hread n level rfl

/-- Lines fail for a level only if the blocks of their flow do. -/
theorem run_of_convertLines {ls : List Line} {n level : Nat}
    (h : convertLines set ctx .document ls s = .error (.levelSkip n level)) :
    run set ctx (ofLines set.profile ls).blocks s = .error (.levelSkip n level) := by
  rw [convertLines_flow] at h
  cases hrun : run set ctx (ofLines set.profile ls).blocks s with
  | ok s₁ =>
    rw [hrun] at h
    exact absurd h (finish_ne_levelSkip n level s₁)
  | error f =>
    rw [hrun] at h
    exact h

end Flow

/-- The headings of the body of a document, in order. -/
def headingsOf (p : Profile) (input : Text) : List Heading := (Flow.ofLines p (Line.ofText input)).headings

/-- A chapter without any other fault fails for the level of a heading exactly if
one of its headings is out of level, and then for the first of these. An
exercise set never does. -/
theorem convert_levelSkip_iff (set : Setting) (input : Text) :
    (set.profile.kind = .chapter →
      (∀ f, convert set input = .error f → ∃ n level, f = .levelSkip n level) →
      ((∃ n level, convert set input = .error (.levelSkip n level)) ↔
        ∃ before h after, headingsOf set.profile input = before ++ h :: after ∧ h.Skips before.reverse) ∧
      ∀ n level, convert set input = .error (.levelSkip n level) →
        ∃ before after, headingsOf set.profile input = before ++ ⟨n, level⟩ :: after ∧
          Heading.Skips before.reverse ⟨n, level⟩ ∧
          ∀ before' h after', before = before' ++ h :: after' → ¬ h.Skips before'.reverse) ∧
    (set.profile.kind = .exercises → ∀ n level, convert set input ≠ .error (.levelSkip n level)) := by
  refine ⟨fun hkind hother => ?_, fun hkind n level h => ?_⟩
  · have hlevels : ∀ b ∈ (Flow.ofLines set.profile (Line.ofText input)).blocks, ∀ h, b.heading? = some h → 1 ≤ h.level :=
      fun _ hb _ => Flow.one_le_level hb
    obtain ⟨hok, herror⟩ := @Flow.run_chapter set (.of set.profile (Footnotes.collect (Line.ofText input)))
      .start [] _ hkind Session.follows_start hlevels
    have hfirst : ∀ n level, convert set input = .error (.levelSkip n level) →
        Heading.firstSkip? [] (headingsOf set.profile input) = some ⟨n, level⟩ := fun n level h =>
      herror n level (Flow.run_of_convertLines (convert_eq_error_iff.1 h))
    refine ⟨⟨?_, ?_⟩, ?_⟩
    · rintro ⟨n, level, h⟩
      obtain ⟨before, after, hheadings, hskip, _⟩ := Heading.firstSkip?_eq_some (hfirst n level h)
      exact ⟨before, _, after, hheadings, by simpa using hskip⟩
    · rintro ⟨before, h, after, hheadings, hskip⟩
      have hsome : (Heading.firstSkip? [] (headingsOf set.profile input)).isSome :=
        hheadings ▸ Heading.firstSkip?_isSome (by simpa using hskip)
      cases hconvert : convert set input with
      | ok c =>
        obtain ⟨s, hs⟩ := convert_eq_ok_iff.1 ⟨c, hconvert⟩
        have hnone : Heading.firstSkip? [] (headingsOf set.profile input) = none := hok s (convertLines_eq_ok_iff.1 hs).2
        rw [hnone] at hsome
        cases hsome
      | error f =>
        obtain ⟨n, level, rfl⟩ := hother f hconvert
        exact ⟨n, level, rfl⟩
    · intro n level h
      obtain ⟨before, after, hheadings, hskip, hbefore⟩ := Heading.firstSkip?_eq_some (hfirst n level h)
      exact ⟨before, after, hheadings, by simpa using hskip, by simpa using hbefore⟩
  · exact Flow.run_exercises hkind n level (Flow.run_of_convertLines (convert_eq_error_iff.1 h))

/-- Two levels down at once. -/
theorem convert_levelSkip_iff_paragraphs :
    (∀ f, convert ⟨.ofKind .chapter, none⟩ "## A\n#### B".toList = .error f → ∃ n level, f = .levelSkip n level) ∧
    ∃ before h after, headingsOf (.ofKind .chapter) "## A\n#### B".toList = before ++ h :: after ∧
      h.Skips before.reverse := by
  have hsection : Block.read ⟨1, "## A".toList⟩ [⟨2, "#### B".toList⟩] =
      .ok (.heading 1 2 "A".toList .none, [⟨2, "#### B".toList⟩]) := rfl
  have hparagraphs : Block.read ⟨2, "#### B".toList⟩ [] = .ok (.heading 2 4 "B".toList .none, []) := rfl
  have hrun (ctx : Inline.Context) : convertLines ⟨.ofKind .chapter, none⟩ ctx .document
      [⟨1, "## A".toList⟩, ⟨2, "#### B".toList⟩] .start = .error (.levelSkip 2 4) := by
    have hstart : ({ Session.start with line := some 1 } : Session).Follows [] := Session.follows_start.congr rfl rfl
    have hheading (count n level : Nat) (title : Text) (s : Session) :
        runPieces ⟨.ofKind .chapter, none⟩ ctx (Plan.ofBlock ⟨.ofKind .chapter, none⟩ .document count
          (.heading n level title .none)) s = s.documentHeading ctx .chapter n level title none :=
      (runPieces_singleton _ s).trans (runPiece_of_isSimple rfl)
    rw [convertLines_of_read hsection, hheading]
    rcases hstart.documentHeading (h := ⟨1, 2⟩) (by decide) ctx "A".toList none with
      ⟨hskip, _⟩ | ⟨_, s₁, hok, hs₁⟩
    · exact absurd hskip (by decide)
    · have hsecond : ({ s₁ with line := some 2 } : Session).Follows [⟨1, 2⟩] := hs₁.congr rfl rfl
      rcases hsecond.documentHeading (h := ⟨2, 4⟩) (by decide) ctx "B".toList none with
        ⟨_, herror⟩ | ⟨hskip, _⟩
      · simp only [Block.line, hok, convertLines_of_read hparagraphs, hheading, herror]
      · exact absurd (by decide) hskip
  have hconvert : convert ⟨.ofKind .chapter, none⟩ "## A\n#### B".toList = .error (.levelSkip 2 4) :=
    convert_eq_error_iff.2 (hrun _)
  have hother : ∀ f, convert ⟨.ofKind .chapter, none⟩ "## A\n#### B".toList = .error f →
      ∃ n level, f = .levelSkip n level := by
    intro f hf
    rw [hconvert] at hf
    cases hf
    exact ⟨2, 4, rfl⟩
  exact ⟨hother, ((convert_levelSkip_iff _ _).1 rfl hother).1.1 ⟨2, 4, hconvert⟩⟩

end QuartoPretext
