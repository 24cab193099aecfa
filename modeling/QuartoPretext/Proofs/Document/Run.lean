/-
# Runs of a conversion

A conversion carries out tasks: one piece, pieces in order, the blocks of some
lines. `Runs` is what the functions compute, as a relation between the session
before a task and the session after it. `Reached` are the tasks that a run
comes to, each with the session that it finds; a run that fails later has
reached what came before the fault.

Key definitions: `Task`, `Runs`, `Reached`, `Task.Breaks`.
Key theorems: `Task.run_induct`, `runs_iff`, `Runs.keeps`, `exists_reached_of_error`.
-/
import QuartoPretext.Document.Convert

namespace QuartoPretext

/-- Something a conversion carries out. -/
inductive Task
  | piece (p : Piece)
  | pieces (ps : List Piece)
  | lines (context : Context) (ls : List Line)

/-- Carries out a task. -/
def Task.run (set : Setting) (ctx : Inline.Context) : Task → Session → Except Fault Session
  | piece p, s => runPiece set ctx p s
  | pieces ps, s => runPieces set ctx ps s
  | lines context ls, s => convertLines set ctx context ls s

/-- Whether a piece is written in one step. -/
def Piece.isSimple : Piece → Bool
  | element .. | blocks .. => false
  | _ => true

/-- A task turns the first session into the second one. -/
inductive Runs (set : Setting) (ctx : Inline.Context) : Task → Session → Session → Prop
  | element {tag : Markup.Tag} {content : List Piece} {s s' : Session} :
      Runs set ctx (.pieces content) (s.openTag tag) s' →
      Runs set ctx (.piece (.element tag content)) s s'.close
  | blocks {context : Context} {ls : List Line} {s s' : Session} :
      Runs set ctx (.lines context ls) s s' → Runs set ctx (.piece (.blocks context ls)) s s'
  | write {p : Piece} {s s' : Session} : p.isSimple → s.write ctx set.profile.kind p = .ok s' →
      Runs set ctx (.piece p) s s'
  | noPieces {s : Session} : Runs set ctx (.pieces []) s s
  | pieces {p : Piece} {ps : List Piece} {s s₁ s' : Session} :
      Runs set ctx (.piece p) s s₁ → Runs set ctx (.pieces ps) s₁ s' →
      Runs set ctx (.pieces (p :: ps)) s s'
  | noLines {context : Context} {s : Session} : Runs set ctx (.lines context []) s s
  | lines {context : Context} {l : Line} {following rest : List Line} {b : Block} {s s₁ s' : Session} :
      Block.read l following = .ok (b, rest) →
      Runs set ctx (.pieces (Plan.ofBlock set context s.exerciseCount b)) { s with line := some b.line } s₁ →
      Runs set ctx (.lines context rest) s₁ s' → Runs set ctx (.lines context (l :: following)) s s'

/-- A run of the task `t₀` from the session `s₀` comes to a task in a session. -/
inductive Reached (set : Setting) (ctx : Inline.Context) (t₀ : Task) (s₀ : Session) :
    Task → Session → Prop
  | start : Reached set ctx t₀ s₀ t₀ s₀
  | content {tag : Markup.Tag} {content : List Piece} {s : Session} :
      Reached set ctx t₀ s₀ (.piece (.element tag content)) s →
      Reached set ctx t₀ s₀ (.pieces content) (s.openTag tag)
  | body {context : Context} {ls : List Line} {s : Session} :
      Reached set ctx t₀ s₀ (.piece (.blocks context ls)) s → Reached set ctx t₀ s₀ (.lines context ls) s
  | first {p : Piece} {ps : List Piece} {s : Session} :
      Reached set ctx t₀ s₀ (.pieces (p :: ps)) s → Reached set ctx t₀ s₀ (.piece p) s
  | next {p : Piece} {ps : List Piece} {s s' : Session} :
      Reached set ctx t₀ s₀ (.pieces (p :: ps)) s → Runs set ctx (.piece p) s s' →
      Reached set ctx t₀ s₀ (.pieces ps) s'
  | block {context : Context} {l : Line} {following rest : List Line} {b : Block} {s : Session} :
      Reached set ctx t₀ s₀ (.lines context (l :: following)) s →
      Block.read l following = .ok (b, rest) →
      Reached set ctx t₀ s₀ (.pieces (Plan.ofBlock set context s.exerciseCount b))
        { s with line := some b.line }
  | nextBlock {context : Context} {l : Line} {following rest : List Line} {b : Block} {s s' : Session} :
      Reached set ctx t₀ s₀ (.lines context (l :: following)) s →
      Block.read l following = .ok (b, rest) →
      Runs set ctx (.pieces (Plan.ofBlock set context s.exerciseCount b)) { s with line := some b.line } s' →
      Reached set ctx t₀ s₀ (.lines context rest) s'

variable {set : Setting} {ctx : Inline.Context} {t t' t₀ : Task} {s s' s₀ : Session}

/-! ### The relation and the functions -/

theorem runPiece_of_isSimple {p : Piece} (h : p.isSimple) : runPiece set ctx p s = s.write ctx set.profile.kind p := by
  cases p <;> simp_all [runPiece, Piece.isSimple]

theorem runPieces_singleton (p : Piece) (s : Session) : runPieces set ctx [p] s = runPiece set ctx p s := by
  rw [runPieces]
  split
  · next hp => rw [runPieces, hp]
  · next hp => rw [hp]

theorem convertLines_of_read_error {context : Context} {l : Line} {following : List Line} {f : Fault}
    (h : Block.read l following = .error f) : convertLines set ctx context (l :: following) s = .error f := by
  rw [convertLines]
  split
  · next hf =>
    rw [h] at hf
    cases hf
    rfl
  · next hok =>
    rw [h] at hok
    cases hok

theorem convertLines_of_read {context : Context} {l : Line} {following rest : List Line} {b : Block}
    (h : Block.read l following = .ok (b, rest)) : convertLines set ctx context (l :: following) s =
      match runPieces set ctx (Plan.ofBlock set context s.exerciseCount b) { s with line := some b.line } with
      | .ok s => convertLines set ctx context rest s
      | .error f => .error f := by
  rw [convertLines]
  split
  · next hf =>
    rw [h] at hf
    cases hf
  · next hok =>
    rw [h] at hok
    cases hok
    rfl

namespace Conversion

theorem foldl_warn_unusedSolution : ∀ (ns : List Nat) (s : Session),
    ns.foldl (fun s n => s.warn s.line (.unusedSolution n)) s =
      { s with warnings := s.warnings ++ ns.map fun n => ⟨s.line, .unusedSolution n⟩ }
  | [], s => by simp
  | n :: ns, s => by
    rw [List.foldl_cons, foldl_warn_unusedSolution ns]
    simp [Session.warn]

/-- Missing exercises change nothing but the warnings. -/
theorem unusedSolutions_eq (set : Setting) (s : Session) : ∃ warnings,
    unusedSolutions set s = { s with warnings := warnings } := by
  unfold unusedSolutions
  split
  · exact ⟨_, foldl_warn_unusedSolution _ s⟩
  · exact ⟨s.warnings, rfl⟩

end Conversion

theorem convert_eq_ok_iff {input : Text} : (∃ c, convert set input = .ok c) ↔
    ∃ s, convertLines set (.of set.profile (Footnotes.collect (Line.ofText input))) .document
      (Line.ofText input) .start = .ok s := by
  simp only [convert]
  cases convertLines set (.of set.profile (Footnotes.collect (Line.ofText input))) .document (Line.ofText input) .start with
  | ok s => exact ⟨fun _ => ⟨s, rfl⟩, fun _ => ⟨_, rfl⟩⟩
  | error e => simp

theorem convert_eq_error_iff {input : Text} {f : Fault} : convert set input = .error f ↔
    convertLines set (.of set.profile (Footnotes.collect (Line.ofText input))) .document
      (Line.ofText input) .start = .error f := by
  simp only [convert]
  cases convertLines set (.of set.profile (Footnotes.collect (Line.ofText input))) .document (Line.ofText input) .start with
  | ok s => simp
  | error e => simp

/-! ### What a task computes -/

namespace Task

theorem run_element (tag : Markup.Tag) (content : List Piece) (s : Session) :
    (piece (.element tag content)).run set ctx s =
      ((pieces content).run set ctx (s.openTag tag)).map Session.close := by
  simp only [run]
  rw [runPiece]
  cases runPieces set ctx content (s.openTag tag) <;> rfl

theorem run_blocks (context : Context) (ls : List Line) (s : Session) :
    (piece (.blocks context ls)).run set ctx s = (lines context ls).run set ctx s := by
  simp only [run]
  rw [runPiece]

theorem run_simple {p : Piece} (hp : p.isSimple) (s : Session) :
    (piece p).run set ctx s = s.write ctx set.profile.kind p := runPiece_of_isSimple hp

theorem run_noPieces (s : Session) : (pieces []).run set ctx s = .ok s := by
  simp only [run]
  rw [runPieces]

theorem run_pieces (p : Piece) (ps : List Piece) (s : Session) :
    (pieces (p :: ps)).run set ctx s = ((piece p).run set ctx s).bind ((pieces ps).run set ctx) := by
  simp only [run]
  rw [runPieces]
  cases runPiece set ctx p s <;> rfl

theorem run_noLines (context : Context) (s : Session) : (lines context []).run set ctx s = .ok s := by
  simp only [run]
  rw [convertLines]

theorem run_unread {context : Context} {l : Line} {following : List Line} {f : Fault}
    (h : Block.read l following = .error f) (s : Session) :
    (lines context (l :: following)).run set ctx s = .error f := convertLines_of_read_error h

theorem run_lines {context : Context} {l : Line} {following rest : List Line} {b : Block}
    (h : Block.read l following = .ok (b, rest)) (s : Session) : (lines context (l :: following)).run set ctx s =
      ((pieces (Plan.ofBlock set context s.exerciseCount b)).run set ctx { s with line := some b.line }).bind
        ((lines context rest).run set ctx) := by
  simp only [run]
  rw [convertLines_of_read h]
  cases runPieces set ctx (Plan.ofBlock set context s.exerciseCount b) { s with line := some b.line } <;> rfl

/-- Induction over the tasks that a task comes to, each with the session that it finds. -/
theorem run_induct (set : Setting) (ctx : Inline.Context) {motive : Task → Session → Prop}
    (element : ∀ tag content s, motive (pieces content) (s.openTag tag) → motive (piece (.element tag content)) s)
    (blocks : ∀ context ls s, motive (lines context ls) s → motive (piece (.blocks context ls)) s)
    (write : ∀ p s, p.isSimple → motive (piece p) s)
    (noPieces : ∀ s, motive (pieces []) s)
    (pieces : ∀ p ps s, motive (piece p) s →
      (∀ s₁, (piece p).run set ctx s = .ok s₁ → motive (pieces ps) s₁) → motive (pieces (p :: ps)) s)
    (noLines : ∀ context s, motive (lines context []) s)
    (unread : ∀ context l following s f, Block.read l following = .error f → motive (lines context (l :: following)) s)
    (lines : ∀ context l following rest b s, Block.read l following = .ok (b, rest) →
      motive (.pieces (Plan.ofBlock set context s.exerciseCount b)) { s with line := some b.line } →
      (∀ s₁, (Task.pieces (Plan.ofBlock set context s.exerciseCount b)).run set ctx { s with line := some b.line } = .ok s₁ →
        motive (.lines context rest) s₁) →
      motive (.lines context (l :: following)) s)
    (t : Task) (s : Session) : motive t s := by
  have hall : (∀ p s, motive (piece p) s) ∧ (∀ context ls s, motive (.lines context ls) s) ∧
      ∀ ps s, motive (.pieces ps) s := by
    apply runPiece.mutual_induct set ctx
    case case1 => exact fun tag content s _ _ ih => element tag content s ih
    case case2 => exact fun tag content s _ _ ih => element tag content s ih
    case case3 => exact fun context ls s ih => blocks context ls s ih
    case case4 =>
      intro p s he hb
      refine write p s ?_
      cases p with
      | element tag content => exact (he tag content rfl).elim
      | blocks context ls => exact (hb context ls rfl).elim
      | _ => rfl
    case case5 => exact fun context s => noLines context s
    case case6 => exact fun context l following s f hb => unread context l following s f hb
    case case7 =>
      intro context l following s b rest hb s₁ h₁ ih₁ ih₂
      refine lines context l following rest b s hb ih₁ fun s₂ h₂ => ?_
      cases h₁.symm.trans h₂
      exact ih₂
    case case8 =>
      intro context l following s b rest hb f h₁ ih
      refine lines context l following rest b s hb ih fun s₂ h₂ => ?_
      cases h₁.symm.trans h₂
    case case9 => exact noPieces
    case case10 =>
      intro p ps s s₁ h₁ ih₁ ih₂
      refine pieces p ps s ih₁ fun s₂ h₂ => ?_
      cases h₁.symm.trans h₂
      exact ih₂
    case case11 =>
      intro p ps s f h₁ ih
      refine pieces p ps s ih fun s₂ h₂ => ?_
      cases h₁.symm.trans h₂
  cases t with
  | piece p => exact hall.1 p s
  | pieces ps => exact hall.2.2 ps s
  | lines context ls => exact hall.2.1 context ls s

end Task

theorem Runs.run_eq (h : Runs set ctx t s s') : t.run set ctx s = .ok s' := by
  induction h with
  | element _ ih =>
    rw [Task.run_element, ih]
    rfl
  | blocks _ ih => rw [Task.run_blocks, ih]
  | write hp hw => rw [Task.run_simple hp, hw]
  | noPieces => exact Task.run_noPieces _
  | pieces _ _ ih₁ ih₂ =>
    rw [Task.run_pieces, ih₁]
    exact ih₂
  | noLines => exact Task.run_noLines ..
  | lines hb _ _ ih₁ ih₂ =>
    rw [Task.run_lines hb, ih₁]
    exact ih₂

theorem Runs.of_run_eq (h : t.run set ctx s = .ok s') : Runs set ctx t s s' := by
  induction t, s using Task.run_induct set ctx generalizing s' with
  | element tag content s ih =>
    rw [Task.run_element] at h
    cases hcontent : (Task.pieces content).run set ctx (s.openTag tag) with
    | error f =>
      rw [hcontent] at h
      cases h
    | ok s₁ =>
      rw [hcontent] at h
      cases h
      exact .element (ih hcontent)
  | blocks context ls s ih =>
    rw [Task.run_blocks] at h
    exact .blocks (ih h)
  | write p s hp =>
    rw [Task.run_simple hp] at h
    exact .write hp h
  | noPieces s =>
    rw [Task.run_noPieces] at h
    cases h
    exact .noPieces
  | pieces p ps s ih₁ ih₂ =>
    rw [Task.run_pieces] at h
    cases hfirst : (Task.piece p).run set ctx s with
    | error f =>
      rw [hfirst] at h
      cases h
    | ok s₁ =>
      rw [hfirst] at h
      exact .pieces (ih₁ hfirst) (ih₂ s₁ hfirst h)
  | noLines context s =>
    rw [Task.run_noLines] at h
    cases h
    exact .noLines
  | unread context l following s f hb =>
    rw [Task.run_unread hb] at h
    cases h
  | lines context l following rest b s hb ih₁ ih₂ =>
    rw [Task.run_lines hb] at h
    cases hfirst : (Task.pieces (Plan.ofBlock set context s.exerciseCount b)).run set ctx { s with line := some b.line } with
    | error f =>
      rw [hfirst] at h
      cases h
    | ok s₁ =>
      rw [hfirst] at h
      exact .lines hb (ih₁ hfirst) (ih₂ s₁ hfirst h)

/-- The relation is what the functions compute. -/
theorem runs_iff : Runs set ctx t s s' ↔ t.run set ctx s = .ok s' := ⟨Runs.run_eq, Runs.of_run_eq⟩

/-! ### What a task comes to -/

theorem runs_element {tag : Markup.Tag} {content : List Piece} : Runs set ctx (.piece (.element tag content)) s s' ↔
    ∃ s₁, Runs set ctx (.pieces content) (s.openTag tag) s₁ ∧ s' = s₁.close := by
  constructor
  · intro h
    cases h with
    | element hcontent => exact ⟨_, hcontent, rfl⟩
    | write hp _ => cases hp
  · rintro ⟨s₁, h, rfl⟩
    exact .element h

theorem runs_write {p : Piece} (hp : p.isSimple) : Runs set ctx (.piece p) s s' ↔
    s.write ctx set.profile.kind p = .ok s' := by
  rw [runs_iff, Task.run, runPiece_of_isSimple hp]

theorem runs_cons {p : Piece} {ps : List Piece} : Runs set ctx (.pieces (p :: ps)) s s' ↔
    ∃ s₁, Runs set ctx (.piece p) s s₁ ∧ Runs set ctx (.pieces ps) s₁ s' := by
  constructor
  · intro h
    cases h with
    | pieces hp hps => exact ⟨_, hp, hps⟩
  · rintro ⟨s₁, hp, hps⟩
    exact .pieces hp hps

theorem runs_nil : Runs set ctx (.pieces []) s s' ↔ s' = s := by
  constructor
  · intro h
    cases h
    rfl
  · rintro rfl
    exact .noPieces

theorem runs_singleton {p : Piece} : Runs set ctx (.pieces [p]) s s' ↔ Runs set ctx (.piece p) s s' := by
  rw [runs_iff, runs_iff, Task.run, Task.run, runPieces_singleton]

theorem runs_append {ps qs : List Piece} : Runs set ctx (.pieces (ps ++ qs)) s s' ↔
    ∃ s₁, Runs set ctx (.pieces ps) s s₁ ∧ Runs set ctx (.pieces qs) s₁ s' := by
  induction ps generalizing s with
  | nil => simp only [List.nil_append, runs_nil, exists_eq_left]
  | cons p ps ih =>
    simp only [List.cons_append, runs_cons, ih]
    constructor
    · rintro ⟨s₁, hp, s₂, hps, hqs⟩
      exact ⟨s₂, ⟨s₁, hp, hps⟩, hqs⟩
    · rintro ⟨s₂, ⟨s₁, hp, hps⟩, hqs⟩
      exact ⟨s₁, hp, s₂, hps, hqs⟩

/-! ### Where a fault comes from -/

/-- A task that fails in its first step: a block that cannot be read, or a piece
that cannot be written. -/
inductive Task.Breaks (set : Setting) (ctx : Inline.Context) (f : Fault) : Task → Session → Prop
  | read {context : Context} {l : Line} {following : List Line} {s : Session} :
      Block.read l following = .error f → Breaks set ctx f (.lines context (l :: following)) s
  | write {p : Piece} {s : Session} : p.isSimple → s.write ctx set.profile.kind p = .error f →
      Breaks set ctx f (.piece p) s

theorem Reached.trans {s₁ : Session} (h : Reached set ctx t₀ s₀ t s) (h' : Reached set ctx t s t' s₁) :
    Reached set ctx t₀ s₀ t' s₁ := by
  induction h' with
  | start => exact h
  | content _ ih => exact .content ih
  | body _ ih => exact .body ih
  | first _ ih => exact .first ih
  | next _ hr ih => exact .next ih hr
  | block _ hb ih => exact .block ih hb
  | nextBlock _ hb hr ih => exact .nextBlock ih hb hr

/-- A run that fails has come to a task that fails in its first step. -/
theorem exists_reached_of_error {f : Fault} (h : t.run set ctx s = .error f) :
    ∃ t' s', Reached set ctx t s t' s' ∧ t'.Breaks set ctx f s' := by
  induction t, s using Task.run_induct set ctx with
  | element tag content s ih =>
    rw [Task.run_element] at h
    cases hcontent : (Task.pieces content).run set ctx (s.openTag tag) with
    | ok s₁ =>
      rw [hcontent] at h
      cases h
    | error f' =>
      rw [hcontent] at h
      cases h
      obtain ⟨t', s', hr, hf⟩ := ih hcontent
      exact ⟨t', s', .trans (.content .start) hr, hf⟩
  | blocks context ls s ih =>
    rw [Task.run_blocks] at h
    obtain ⟨t', s', hr, hf⟩ := ih h
    exact ⟨t', s', .trans (.body .start) hr, hf⟩
  | write p s hp =>
    rw [Task.run_simple hp] at h
    exact ⟨_, s, .start, .write hp h⟩
  | noPieces s =>
    rw [Task.run_noPieces] at h
    cases h
  | pieces p ps s ih₁ ih₂ =>
    rw [Task.run_pieces] at h
    cases hfirst : (Task.piece p).run set ctx s with
    | ok s₁ =>
      rw [hfirst] at h
      obtain ⟨t', s', hr, hf⟩ := ih₂ s₁ hfirst h
      exact ⟨t', s', .trans (.next .start (runs_iff.2 hfirst)) hr, hf⟩
    | error f' =>
      rw [hfirst] at h
      cases h
      obtain ⟨t', s', hr, hf⟩ := ih₁ hfirst
      exact ⟨t', s', .trans (.first .start) hr, hf⟩
  | noLines context s =>
    rw [Task.run_noLines] at h
    cases h
  | unread context l following s f' hb =>
    rw [Task.run_unread hb] at h
    cases h
    exact ⟨_, s, .start, .read hb⟩
  | lines context l following rest b s hb ih₁ ih₂ =>
    rw [Task.run_lines hb] at h
    cases hfirst : (Task.pieces (Plan.ofBlock set context s.exerciseCount b)).run set ctx { s with line := some b.line } with
    | ok s₁ =>
      rw [hfirst] at h
      obtain ⟨t', s', hr, hf⟩ := ih₂ s₁ hfirst h
      exact ⟨t', s', .trans (.nextBlock .start hb (runs_iff.2 hfirst)) hr, hf⟩
    | error f' =>
      rw [hfirst] at h
      cases h
      obtain ⟨t', s', hr, hf⟩ := ih₁ hfirst
      exact ⟨t', s', .trans (.block .start hb) hr, hf⟩

/-! ### What a run keeps -/

/-- What the steps of a run keep, at the tasks that are reached, the run keeps. -/
theorem Runs.keeps {J : Session → Prop} (h : Runs set ctx t s s') (hr : Reached set ctx t₀ s₀ t s)
    (openTag : ∀ tag s, J s → J (s.openTag tag)) (close : ∀ s, J s → J s.close)
    (line : ∀ n s, J s → J { s with line := n })
    (write : ∀ p s s', p.isSimple → Reached set ctx t₀ s₀ (.piece p) s →
      s.write ctx set.profile.kind p = .ok s' → J s → J s')
    (hs : J s) : J s' := by
  induction h with
  | element _ ih => exact close _ (ih (.content hr) (openTag _ _ hs))
  | blocks _ ih => exact ih (.body hr) hs
  | write hp hw => exact write _ _ _ hp hr hw hs
  | noPieces => exact hs
  | pieces h₁ _ ih₁ ih₂ => exact ih₂ (.next hr h₁) (ih₁ (.first hr) hs)
  | noLines => exact hs
  | lines hb h₁ _ ih₁ ih₂ => exact ih₂ (.nextBlock hr hb h₁) (ih₁ (.block hr hb) (line _ _ hs))

end QuartoPretext
