/-
# The order of a run

Every leaf that a run comes to belongs to the block that it is read from, and
what a run does before the leaf are the leaves before it. A run reads lines in
the order of their numbers. So the line that warnings are about is that of the
block that was read last, and it only moves forwards.

Key definitions: `Meets`, `Carries`, `Task.AllLines`, `Belongs`, `Task.numbers`, `Task.Ordered`.
Key theorems: `Reached.lines_induct`, `Reached.carried`, `Reached.runs`, `Runs.line`, `Reached.ordered`,
`Reached.line_le`.
-/
import QuartoPretext.Proofs.Document.Leaves
import QuartoPretext.Proofs.Document.Wrapped

namespace QuartoPretext

variable {set : Setting} {ctx : Inline.Context} {t t₀ : Task} {s s' s₀ s₀' : Session}

/-- A run comes to a block, in a session that has not read it yet. -/
inductive Meets (set : Setting) (ctx : Inline.Context) (t₀ : Task) (s₀ : Session) (context : Context) :
    List Line → Block → Session → Prop
  | intro {l : Line} {more rest : List Line} {b : Block} {s : Session} :
      Reached set ctx t₀ s₀ (.lines context (l :: more ++ rest)) s → Block.read l (more ++ rest) = .ok (b, rest) →
      Meets set ctx t₀ s₀ context (l :: more) b s

/-- Carrying out a task comes to one of its leaves, which finds the second session. -/
inductive Carries (set : Setting) (ctx : Inline.Context) : Task → Session → Piece → Session → Prop
  | here {p : Piece} {s : Session} : p.isSimple → Carries set ctx (.piece p) s p s
  | content {tag : Markup.Tag} {content : List Piece} {p : Piece} {s s' : Session} :
      Carries set ctx (.pieces content) (s.openTag tag) p s' → Carries set ctx (.piece (.element tag content)) s p s'
  | first {p q : Piece} {qs : List Piece} {s s' : Session} :
      Carries set ctx (.piece q) s p s' → Carries set ctx (.pieces (q :: qs)) s p s'
  | next {p q : Piece} {qs : List Piece} {s s₁ s' : Session} :
      Runs set ctx (.piece q) s s₁ → Carries set ctx (.pieces qs) s₁ p s' → Carries set ctx (.pieces (q :: qs)) s p s'

/-! ### Blocks and their leaves -/

theorem Reached.meets {context : Context} {l : Line} {following rest : List Line} {b : Block}
    (h : Reached set ctx t₀ s₀ (.lines context (l :: following)) s) (hb : Block.read l following = .ok (b, rest)) :
    ∃ more, following = more ++ rest ∧ Meets set ctx t₀ s₀ context (l :: more) b s := by
  obtain ⟨more, rfl⟩ := Block.rest_suffix hb
  exact ⟨more, rfl, .intro h hb⟩

/-- A property of all lines that a task has still to read. -/
def Task.AllLines (P : Context → List Line → Prop) : Task → Prop
  | piece p => ∀ c ls, .blocks c ls ∈ p.leaves → P c ls
  | pieces ps => ∀ c ls, .blocks c ls ∈ Piece.leavesOf ps → P c ls
  | lines context ls => P context ls

/-- Induction over the lines that a run comes to: what is left after a block, and
the bodies among the leaves of a block. -/
theorem Reached.lines_induct {P : Context → List Line → Prop} {context₀ : Context} {ls₀ : List Line}
    (start : P context₀ ls₀)
    (rest : ∀ {context l following rest b}, P context (l :: following) → Block.read l following = .ok (b, rest) →
      P context rest)
    (inner : ∀ {context l following rest b count c ls}, P context (l :: following) →
      Block.read l following = .ok (b, rest) → .blocks c ls ∈ Piece.leavesOf (Plan.ofBlock set context count b) → P c ls)
    {context : Context} {ls : List Line} {s : Session}
    (h : Reached set ctx (.lines context₀ ls₀) s₀ (.lines context ls) s) : P context ls := by
  suffices hall : ∀ t s, Reached set ctx (.lines context₀ ls₀) s₀ t s → t.AllLines P from hall _ _ h
  intro t s h
  induction h with
  | start => exact start
  | content _ ih => exact ih
  | body _ ih => exact ih _ _ List.mem_cons_self
  | first _ ih => exact fun c ls hls => ih c ls (List.mem_append_left _ hls)
  | next _ _ ih => exact fun c ls hls => ih c ls (List.mem_append_right _ hls)
  | block _ hb ih => exact fun c ls hls => inner ih hb hls
  | nextBlock _ hb _ ih => exact rest ih hb

/-- A task belongs to a block that a run came to before: the leaves that the task
comes to, the pieces of the block come to. -/
def Belongs (set : Setting) (ctx : Inline.Context) (t₀ : Task) (s₀ : Session) (t : Task) (s : Session) : Prop :=
  ∃ context taken b s₁, Meets set ctx t₀ s₀ context taken b s₁ ∧ ∀ p s', Carries set ctx t s p s' →
    Carries set ctx (.pieces (Plan.ofBlock set context s₁.exerciseCount b)) { s₁ with line := some b.line } p s'

theorem Belongs.mono {t' : Task} (h : Belongs set ctx t₀ s₀ t s)
    (hstep : ∀ p s₁, Carries set ctx t' s' p s₁ → Carries set ctx t s p s₁) : Belongs set ctx t₀ s₀ t' s' := by
  obtain ⟨context, taken, b, s₁, hb, hcarries⟩ := h
  exact ⟨context, taken, b, s₁, hb, fun p s₂ h => hcarries p s₂ (hstep p s₂ h)⟩

theorem Reached.belongs {context₀ : Context} {ls₀ : List Line}
    (h : Reached set ctx (.lines context₀ ls₀) s₀ t s) :
    match t with
    | .lines .. => True
    | t => Belongs set ctx (.lines context₀ ls₀) s₀ t s := by
  induction h with
  | start | body _ _ | nextBlock _ _ _ _ => trivial
  | content _ ih => exact ih.mono fun _ _ => .content
  | first _ ih => exact ih.mono fun _ _ => .first
  | next _ hr ih => exact ih.mono fun _ _ => .next hr
  | block h hb _ =>
    obtain ⟨_, _, hmeets⟩ := h.meets hb
    exact ⟨_, _, _, _, hmeets, fun _ _ => id⟩

/-- A leaf that a run comes to is a leaf of a block that the run came to before. -/
theorem Reached.carried {context₀ : Context} {ls₀ : List Line} {p : Piece}
    (h : Reached set ctx (.lines context₀ ls₀) s₀ (.piece p) s) (hp : p.isSimple) : ∃ context taken b s₁,
      Meets set ctx (.lines context₀ ls₀) s₀ context taken b s₁ ∧
      Carries set ctx (.pieces (Plan.ofBlock set context s₁.exerciseCount b)) { s₁ with line := some b.line } p s := by
  obtain ⟨context, taken, b, s₁, hb, hcarries⟩ : Belongs .. := h.belongs
  exact ⟨context, taken, b, s₁, hb, hcarries _ _ (.here hp)⟩

theorem Carries.reached {p : Piece} (h : Carries set ctx t s p s') : Reached set ctx t s (.piece p) s' := by
  induction h with
  | here _ => exact .start
  | content _ ih => exact .trans (.content .start) ih
  | first _ ih => exact .trans (.first .start) ih
  | next hr _ ih => exact .trans (.next .start hr) ih

theorem Carries.isSimple {p : Piece} (h : Carries set ctx t s p s') : p.isSimple := by
  induction h with
  | here hp => exact hp
  | content _ ih | first _ ih | next _ _ ih => exact ih

theorem Meets.reached {context : Context} {taken : List Line} {b : Block} {p : Piece}
    (hb : Meets set ctx t₀ s₀ context taken b s)
    (h : Carries set ctx (.pieces (Plan.ofBlock set context s.exerciseCount b)) { s with line := some b.line } p s') :
    Reached set ctx t₀ s₀ (.piece p) s' := by
  cases hb with
  | intro hr hread => exact .trans (.block hr hread) h.reached

theorem Meets.line_mem {context : Context} {taken : List Line} {b : Block}
    (hb : Meets set ctx t₀ s₀ context taken b s) : b.line ∈ Line.numbers taken := by
  cases hb with
  | intro _ hread =>
    rw [Block.read_line hread]
    exact List.mem_cons_self

theorem Meets.placed {context : Context} {taken : List Line} {b : Block}
    (hb : Meets set ctx t₀ s₀ context taken b s) : b.Placed := by
  cases hb with
  | intro _ hread => exact Block.read_placed hread

theorem Carries.append {p : Piece} {ps qs : List Piece} (h : Carries set ctx (.pieces (ps ++ qs)) s p s') :
    Carries set ctx (.pieces ps) s p s' ∨ ∃ s₁, Runs set ctx (.pieces ps) s s₁ ∧ Carries set ctx (.pieces qs) s₁ p s' := by
  induction ps generalizing s with
  | nil => exact .inr ⟨s, .noPieces, h⟩
  | cons q ps ih =>
    cases h with
    | first h => exact .inl (.first h)
    | next hr h =>
      rcases ih h with h | ⟨s₁, hrs, h⟩
      · exact .inl (.next hr h)
      · exact .inr ⟨s₁, .pieces hr hrs, h⟩

theorem Carries.append_right {p : Piece} {ps qs : List Piece} {s₁ : Session} (hr : Runs set ctx (.pieces ps) s s₁)
    (h : Carries set ctx (.pieces qs) s₁ p s') : Carries set ctx (.pieces (ps ++ qs)) s p s' := by
  induction ps generalizing s with
  | nil =>
    cases hr
    exact h
  | cons q ps ih =>
    obtain ⟨s₂, hq, hrs⟩ := runs_cons.1 hr
    exact .next hq (ih hrs)

theorem Carries.append_left {p : Piece} {ps qs : List Piece} (h : Carries set ctx (.pieces ps) s p s') :
    Carries set ctx (.pieces (ps ++ qs)) s p s' := by
  induction ps generalizing s with
  | nil => cases h
  | cons q ps ih =>
    cases h with
    | first h => exact .first h
    | next hr h => exact .next hr (ih h)

/-! ### A run that succeeds -/

/-- In a run that succeeds each task that is reached succeeds, and what is true of
the last session and goes backwards is true there. -/
theorem Reached.runs {P : Session → Prop} (h : Reached set ctx t₀ s₀ t s) (hrun : Runs set ctx t₀ s₀ s₀') (hP : P s₀')
    (close : ∀ s, P s.close → P s)
    (back : ∀ t s s', Reached set ctx t₀ s₀ t s → Runs set ctx t s s' → P s' → P s) :
    ∃ s', Runs set ctx t s s' ∧ P s' := by
  induction h with
  | start => exact ⟨s₀', hrun, hP⟩
  | content _ ih =>
    obtain ⟨s', hr, hP'⟩ := ih
    obtain ⟨s₁, hcontent, rfl⟩ := runs_element.1 hr
    exact ⟨s₁, hcontent, close _ hP'⟩
  | body _ ih =>
    obtain ⟨s', hr, hP'⟩ := ih
    cases hr with
    | blocks hr => exact ⟨s', hr, hP'⟩
    | write hp _ => cases hp
  | first hreached ih =>
    obtain ⟨s', hr, hP'⟩ := ih
    obtain ⟨s₁, hp, hps⟩ := runs_cons.1 hr
    exact ⟨s₁, hp, back _ _ _ (.next hreached hp) hps hP'⟩
  | next _ hp ih =>
    obtain ⟨s', hr, hP'⟩ := ih
    obtain ⟨s₁, hp', hps⟩ := runs_cons.1 hr
    cases hp.run_eq.symm.trans hp'.run_eq
    exact ⟨s', hps, hP'⟩
  | block hreached hb ih =>
    obtain ⟨s', hr, hP'⟩ := ih
    cases hr with
    | lines hb' hplan hrest =>
      cases hb.symm.trans hb'
      exact ⟨_, hplan, back _ _ _ (.nextBlock hreached hb hplan) hrest hP'⟩
  | nextBlock _ hb hplan ih =>
    obtain ⟨s', hr, hP'⟩ := ih
    cases hr with
    | lines hb' hplan' hrest =>
      cases hb.symm.trans hb'
      cases hplan.run_eq.symm.trans hplan'.run_eq
      exact ⟨s', hrest, hP'⟩

/-! ### The line that warnings are about -/

/-- The leaves of the pieces of a task, in order. -/
def Task.leaves : Task → List Piece
  | piece p => p.leaves
  | pieces ps => Piece.leavesOf ps
  | lines .. => []

/-- The numbers of the lines that a task has still to read. -/
def Task.numbers : Task → List Nat
  | piece p => Piece.numbersIn p.leaves
  | pieces ps => Piece.numbersIn (Piece.leavesOf ps)
  | lines _ ls => Line.numbers ls

theorem Task.numbers_blocks (context : Context) (ls : List Line) :
    (piece (.blocks context ls)).numbers = (lines context ls).numbers := List.flatMap_singleton _ _

theorem Task.numbers_cons (p : Piece) (ps : List Piece) :
    (pieces (p :: ps)).numbers = (piece p).numbers ++ (pieces ps).numbers := Piece.numbersIn_append ..

/-- What a block has to read, and what is left after it, keep the order of the lines. -/
theorem Task.numbers_plan (set : Setting) (context : Context) (count : Nat) {l : Line} {following rest : List Line} {b : Block}
    (hb : Block.read l following = .ok (b, rest)) :
    ((pieces (Plan.ofBlock set context count b)).numbers ++ Line.numbers rest).Sublist (Line.numbers (l :: following)) :=
  ((Plan.numbersIn_ofBlock (Block.read_placed hb)).append_right _).trans (Block.read_numbers hb)

theorem Session.openSection_line {n level : Nat} {id : Option Text} {title : Text} {e : Markup.Element}
    (h : s.openSection n level id title e = .ok s') : s'.line = s.line ∧ s'.frontMatter = s.frontMatter := by
  obtain ⟨-, rfl⟩ := openSection_eq_ok_iff.1 h
  exact ⟨rfl, rfl⟩

theorem Session.documentHeading_line {kind : DocumentKind} {n level : Nat} {title : Text} {id : Option Text}
    (h : s.documentHeading ctx kind n level title id = .ok s') :
    s'.line = s.line ∧ s'.frontMatter = s.frontMatter := by
  cases headed_of_documentHeading h with
  | root _ _ | alert _ _ _ => exact ⟨rfl, rfl⟩
  | second _ _ ho | inner _ _ ho =>
    have hs := openSection_line ho
    exact hs

/-- Writing keeps the line that warnings are about, and only front matter says
something of front matter. -/
theorem Session.write_line {kind : DocumentKind} {p : Piece} (h : s.write ctx kind p = .ok s') : s'.line = s.line ∧
    (s'.frontMatter = s.frontMatter ∨
      ∃ n yaml, p = .frontMatter n yaml ∧ FrontMatter.parse? yaml = some s'.frontMatter) := by
  cases p with
  | heading n level title id => exact ⟨(documentHeading_line h).1, .inl (documentHeading_line h).2⟩
  | frontMatter n yaml =>
    simp only [write] at h
    split at h
    · next fm hfm =>
      cases h
      exact ⟨rfl, .inr ⟨n, yaml, rfl, hfm⟩⟩
    · cases h
  | leaf tag content =>
    simp only [write, Except.ok.injEq] at h
    rw [← h]
    cases content <;> exact ⟨rfl, .inl rfl⟩
  | paragraph text =>
    simp only [write, Except.ok.injEq, paragraph] at h
    rw [← h]
    split <;> exact ⟨rfl, .inl rfl⟩
  | _ =>
    simp only [write, Except.ok.injEq] at h
    rw [← h]
    exact ⟨rfl, .inl rfl⟩

/-- After a task warnings are about the same line, or about one that the task has read. -/
theorem Runs.line (h : Runs set ctx t s s') : s'.line = s.line ∨ ∃ n ∈ t.numbers, s'.line = some n := by
  induction h with
  | element _ ih => exact ih
  | blocks _ ih =>
    rw [Task.numbers_blocks]
    exact ih
  | write _ hw => exact .inl (Session.write_line hw).1
  | noPieces | noLines => exact .inl rfl
  | pieces _ _ ih₁ ih₂ =>
    rw [Task.numbers_cons]
    rcases ih₂ with h₂ | ⟨n, hn, h₂⟩
    · rw [h₂]
      exact ih₁.imp_right fun ⟨n, hn, h₁⟩ => ⟨n, List.mem_append_left _ hn, h₁⟩
    · exact .inr ⟨n, List.mem_append_right _ hn, h₂⟩
  | @lines context l following rest b s s₁ s' hb _ _ ih₁ ih₂ =>
    have hsub := (Task.numbers_plan set context s.exerciseCount hb).subset
    refine .inr ?_
    rcases ih₂ with h₂ | ⟨n, hn, h₂⟩
    · rcases ih₁ with h₁ | ⟨n, hn, h₁⟩
      · exact ⟨l.number, List.mem_cons_self, by rw [h₂, h₁, Block.read_line hb]⟩
      · exact ⟨n, hsub (List.mem_append_left _ hn), h₂.trans h₁⟩
    · exact ⟨n, hsub (List.mem_append_right _ hn), h₂⟩

/-- After a task warnings are about the same line, or about that of a block. -/
theorem Runs.line_meets (h : Runs set ctx t s s') (hr : Reached set ctx t₀ s₀ t s) : s'.line = s.line ∨
    ∃ context taken b s₁, Meets set ctx t₀ s₀ context taken b s₁ ∧ s'.line = some b.line := by
  induction h with
  | element _ ih => exact ih (.content hr)
  | blocks _ ih => exact ih (.body hr)
  | write _ hw => exact .inl (Session.write_line hw).1
  | noPieces | noLines => exact .inl rfl
  | pieces h₁ _ ih₁ ih₂ =>
    refine (ih₂ (.next hr h₁)).elim (fun h₂ => ?_) .inr
    rw [h₂]
    exact ih₁ (.first hr)
  | lines hb h₁ _ ih₁ ih₂ =>
    obtain ⟨_, _, hmeets⟩ := hr.meets hb
    refine .inr ((ih₂ (.nextBlock hr hb h₁)).elim (fun h₂ => ?_) id)
    rw [h₂]
    exact (ih₁ (.block hr hb)).elim (fun h₁ => ⟨_, _, _, _, hmeets, h₁⟩) id

/-- A leaf finds the line that its task started with, or one that a body before it
has read. -/
theorem Carries.line {p : Piece} (h : Carries set ctx t s p s') : ∃ before after, t.leaves = before ++ p :: after ∧
    (s'.line = s.line ∨ ∃ n ∈ Piece.numbersIn before, s'.line = some n) := by
  induction h with
  | @here p s hp =>
    refine ⟨[], [], ?_, .inl rfl⟩
    cases p <;> first | rfl | cases hp
  | content _ ih => exact ih
  | @first p q qs s s' _ ih =>
    obtain ⟨before, after, hleaves, hline⟩ := ih
    refine ⟨before, after ++ Piece.leavesOf qs, ?_, hline⟩
    show q.leaves ++ Piece.leavesOf qs = _
    rw [show q.leaves = before ++ p :: after from hleaves, List.append_assoc, List.cons_append]
  | @next p q qs s s₁ s' hr _ ih =>
    obtain ⟨before, after, hleaves, hline⟩ := ih
    refine ⟨q.leaves ++ before, after, ?_, ?_⟩
    · show q.leaves ++ Piece.leavesOf qs = _
      rw [show Piece.leavesOf qs = before ++ p :: after from hleaves, List.append_assoc]
    · rw [Piece.numbersIn_append]
      rcases hline with hline | ⟨n, hn, hline⟩
      · rw [hline]
        exact hr.line.imp_right fun ⟨n, hn, h⟩ => ⟨n, List.mem_append_left _ hn, h⟩
      · exact .inr ⟨n, List.mem_append_right _ hn, hline⟩

theorem Carries.mem_leaves {p : Piece} (h : Carries set ctx t s p s') : p ∈ t.leaves := by
  obtain ⟨before, after, hleaves, _⟩ := h.line
  exact hleaves ▸ List.mem_append_right _ List.mem_cons_self

/-! ### Lines are read in order -/

/-- The lines that a task has still to read are in order, and none of them comes
before the line that warnings are about. -/
structure Task.Ordered (t : Task) (s : Session) : Prop where
  ascending : t.numbers.Pairwise (· < ·)
  after : ∀ m ∈ s.line, ∀ n ∈ t.numbers, m ≤ n

theorem Task.Ordered.line_le (h : t.Ordered s) (hr : Runs set ctx t s s') {m : Nat} (hm : m ∈ s.line) :
    ∃ n ∈ s'.line, m ≤ n := by
  rcases hr.line with hline | ⟨n, hn, hline⟩
  · exact ⟨m, hline ▸ hm, Nat.le_refl m⟩
  · exact ⟨n, hline, h.after m hm n hn⟩

theorem Reached.ordered (h : Reached set ctx t₀ s₀ t s) (h₀ : t₀.Ordered s₀) : t.Ordered s := by
  induction h with
  | start => exact h₀
  | content _ ih => exact ⟨ih.ascending, ih.after⟩
  | body _ ih =>
    constructor
    · rw [← Task.numbers_blocks]
      exact ih.ascending
    · rw [← Task.numbers_blocks]
      exact ih.after
  | first _ ih =>
    obtain ⟨hascending, hafter⟩ := ih
    rw [Task.numbers_cons] at hascending hafter
    exact ⟨(List.pairwise_append.1 hascending).1, fun m hm n hn => hafter m hm n (List.mem_append_left _ hn)⟩
  | next _ hr ih =>
    obtain ⟨hascending, hafter⟩ := ih
    rw [Task.numbers_cons] at hascending hafter
    obtain ⟨_, hps, hlt⟩ := List.pairwise_append.1 hascending
    refine ⟨hps, fun m hm n hn => ?_⟩
    rcases hr.line with hline | ⟨k, hk, hline⟩
    · exact hafter m (hline ▸ hm) n (List.mem_append_right _ hn)
    · rw [hline] at hm
      cases hm
      exact Nat.le_of_lt (hlt _ hk n hn)
  | @block context l following rest b s _ hb ih =>
    have hsub := Task.numbers_plan set context s.exerciseCount hb
    have hplan := (List.sublist_append_left _ _).trans hsub
    refine ⟨ih.ascending.sublist hplan, fun m hm n hn => ?_⟩
    cases hm
    rw [Block.read_line hb]
    rcases List.mem_cons.1 (hplan.subset hn) with heq | hn
    · exact Nat.le_of_eq heq.symm
    · exact Nat.le_of_lt ((List.pairwise_cons.1 ih.ascending).1 n hn)
  | @nextBlock context l following rest b s s' _ hb hr ih =>
    have hsub := Task.numbers_plan set context s.exerciseCount hb
    obtain ⟨_, hrest, hlt⟩ := List.pairwise_append.1 (ih.ascending.sublist hsub)
    refine ⟨hrest, fun m hm n hn => ?_⟩
    rcases hr.line with hline | ⟨k, hk, hline⟩
    · rw [hline] at hm
      cases hm
      rw [Block.read_line hb]
      rcases List.mem_cons.1 (hsub.subset (List.mem_append_right _ hn)) with heq | hn
      · exact Nat.le_of_eq heq.symm
      · exact Nat.le_of_lt ((List.pairwise_cons.1 ih.ascending).1 n hn)
    · rw [hline] at hm
      cases hm
      exact Nat.le_of_lt (hlt _ hk n hn)

/-- The line that warnings are about only moves forwards. -/
theorem Reached.line_le (h : Reached set ctx t₀ s₀ t s) (h₀ : t₀.Ordered s₀) (hr : Runs set ctx t₀ s₀ s₀') {m : Nat}
    (hm : m ∈ s.line) : ∃ n ∈ s₀'.line, m ≤ n := by
  obtain ⟨s', ht, hle⟩ := h.runs (P := fun s => ∀ m ∈ s.line, ∃ n ∈ s₀'.line, m ≤ n) hr
    (fun m hm => ⟨m, hm, Nat.le_refl m⟩) (fun _ => id) fun t s s' hreached hrun hle m hm => by
      obtain ⟨n, hn, hmn⟩ := (hreached.ordered h₀).line_le hrun hm
      obtain ⟨k, hk, hnk⟩ := hle n hn
      exact ⟨k, hk, Nat.le_trans hmn hnk⟩
  obtain ⟨n, hn, hmn⟩ := (h.ordered h₀).line_le ht hm
  obtain ⟨k, hk, hnk⟩ := hle n hn
  exact ⟨k, hk, Nat.le_trans hmn hnk⟩

theorem Meets.line_le {context : Context} {taken : List Line} {b : Block} (hb : Meets set ctx t₀ s₀ context taken b s)
    (h₀ : t₀.Ordered s₀) (hr : Runs set ctx t₀ s₀ s₀') : ∃ n ∈ s₀'.line, b.line ≤ n := by
  cases hb with
  | intro hreached hread => exact (Reached.block hreached hread).line_le h₀ hr rfl

theorem Line.ascending_numberFrom : ∀ (n : Nat) (ss : List Text), (numbers (numberFrom n ss)).Pairwise (· < ·)
  | _, [] => List.Pairwise.nil
  | n, s :: ss => by
    refine List.pairwise_cons.2 ⟨fun m hm => ?_, ascending_numberFrom (n + 1) ss⟩
    obtain ⟨l, hl, rfl⟩ := List.mem_map.1 hm
    exact le_number_of_mem hl

/-- A document is read in order. -/
theorem Task.ordered_document (context : Context) (input : Text) :
    (lines context (Line.ofText input)).Ordered .start :=
  ⟨Line.ascending_numberFrom 1 _, fun m hm => absurd hm (Option.some_ne_none m).symm⟩

end QuartoPretext
