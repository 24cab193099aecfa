/-
# What emphasis makes of its cells

The rule accounts for all cells that it is given: a cell that takes no part is
written as it is, and of a run the delimiters that are left, between the end tags
and the start tags that took the others. Every run of the text is accounted for,
and the tags are nested.

Key definitions: `Place.left`, `Place.right`, `Place.canOpen`, `Place.canClose`,
`Place.isInside`, `Accounts`, `Place.Settled`.
Key theorems: `Laid.accounts`, `exists_laid`, `Laid.settled`, `exists_settled`,
`resolve_marks`, `mem_marks_resolve`.
-/
import QuartoPretext.Proofs.Emphasis.Pairs

namespace QuartoPretext.Emphasis

open DelimiterRun

namespace Place

variable (p : Place)

/-- The cell before a run. -/
def left : Option Cell := (sources p.before).getLast?

/-- The cell after a run. -/
def right : Option Cell := (sources p.after).head?

/-- Whether the neighbours of a run let it open elements. -/
def canOpen : Bool := Emphasis.canOpen p.run.char (.of p.left) (.of p.right)

/-- Whether the neighbours of a run let it close elements. -/
def canClose : Bool := Emphasis.canClose p.run.char (.of p.left) (.of p.right)

/-- The tags before the delimiters that are left of a run. -/
def tagsBefore : List Tag := tags false p.before ++ p.run.stops

/-- Whether the delimiters that are left of a run stand within an element: more
elements are started before them than are ended. -/
def isInside : Bool := p.tagsBefore.countP Tag.isStop < p.tagsBefore.countP Tag.isStart

end Place

/-- The nodes account for what the rule makes of some spans. -/
structure Accounts (spans : List Span) (ns : List Node) : Prop where
  /-- they stand for the cells of the spans -/
  source : sources ns = Span.toCells spans
  /-- what is written for them is the result -/
  written : ns.flatMap Node.written = Span.toCells (resolve spans).1
  /-- the runs among them are runs of the text -/
  isRun : ∀ p ∈ places [] ns, IsRun p.left p.run.char p.run.delimiters p.right
  /-- every run of the text is among them -/
  complete : ∀ {cs ds : List Cell} {c : Char} {n : Nat},
    Span.toCells spans = cs ++ List.replicate n (.char c) ++ ds → IsRun cs.getLast? c n ds.head? →
      ∃ p ∈ places [] ns, sources p.before = cs ∧ p.run.char = c ∧ p.run.delimiters = n ∧ sources p.after = ds
  /-- the tags are nested -/
  nested : Nested [] (tags false ns) []

/-- What a resolved run can do, and has done, is what its neighbours allow. It can
still open exactly if no element is open where it stands. -/
structure Place.Settled (p : Place) : Prop where
  canOpen : p.run.canOpen = (p.canOpen && !p.isInside)
  canClose : p.run.canClose = p.canClose
  opens : p.run.opened ≠ [] → p.canOpen = true
  closes : p.run.closed ≠ [] → p.canClose = true

/-! ### Nodes that are resolved -/

/-- A cell stays, and of a run there is what has become of it. -/
inductive Settles : Node → Node → Prop
  | cell (c : Cell) : Settles (.cell c) (.cell c)
  | run {o r : DelimiterRun} : Became o r → Settles (.run o) (.run r)

variable {ns ns' : List Node} {edges : Bool} {σ : List Enclosure}

theorem sources_settled (h : List.Forall₂ Settles ns ns') : sources ns' = sources ns := by
  induction h with
  | nil => rfl
  | cons hn _ ih =>
    cases hn with
    | cell c => rw [sources_cell, sources_cell, ih]
    | run hr => rw [sources_run, sources_run, ih, hr.delimiters, hr.char]

theorem place_settled (h : List.Forall₂ Settles ns ns') : place ns (runs ns') = ns'.flatMap Node.written := by
  induction h with
  | nil => rfl
  | @cons n n' ns ns' hn _ ih =>
    rw [List.flatMap_cons, ← ih]
    cases hn with
    | cell c => rfl
    | run _ =>
      rw [Node.written_run]
      rfl

theorem settles_append {as bs ns' : List Node} {o : DelimiterRun}
    (h : List.Forall₂ Settles (as ++ .run o :: bs) ns') : ∃ as' r bs', ns' = as' ++ .run r :: bs' ∧
      List.Forall₂ Settles as as' ∧ Became o r ∧ List.Forall₂ Settles bs bs' := by
  induction as generalizing ns' with
  | nil =>
    cases h with
    | cons hn hbs =>
      cases hn with
      | run hr => exact ⟨[], _, _, rfl, .nil, hr, hbs⟩
  | cons n as ih =>
    cases h with
    | cons hn h =>
      obtain ⟨as', r, bs', rfl, has, hr⟩ := ih h
      exact ⟨_ :: as', r, bs', rfl, .cons hn has, hr⟩

theorem Laid.settles (h : Laid edges ns ns' σ) : List.Forall₂ Settles ns ns' := by
  induction h with
  | nil => exact .nil
  | cell _ _ ih => exact .cons (.cell _) ih
  | run _ hr _ _ _ ih => exact .cons (.run hr) ih

theorem Laid.nested (h : Laid edges ns ns' σ) : Nested [] (tags edges ns'.reverse) σ := by
  induction h with
  | nil => exact .nil
  | cell _ htags ih =>
    rw [List.reverse_cons, tags_append, tags_cell, tags_nil, List.append_nil]
    exact ih.trans htags
  | run _ _ hstops _ hstarts ih =>
    rw [List.reverse_cons, tags_append, tags_run, tags_nil, List.append_nil]
    exact ih.trans (hstops.trans hstarts)

/-- A resolved run, with what it was and what is open where it stands. -/
theorem Laid.run_inv {as bs : List Node} {r : DelimiterRun} (h : Laid edges ns (bs ++ .run r :: as) σ) :
    ∃ bs₀ o as₀ τ, ns = bs₀ ++ .run o :: as₀ ∧ List.Forall₂ Settles bs₀ bs ∧ List.Forall₂ Settles as₀ as ∧
      Became o r ∧ Nested [] (tags edges as.reverse ++ r.stops) τ ∧
      (r.canOpen = true ↔ o.canOpen = true ∧ Stands edges o.scope τ) := by
  induction bs generalizing ns σ with
  | nil =>
    cases h with
    | @run o r ns ns' σ τ _ hlaid hr hstops hopen _ =>
      exact ⟨[], o, ns, τ, rfl, .nil, hlaid.settles, hr, hlaid.nested.trans hstops, hopen⟩
  | cons n bs ih =>
    cases h with
    | cell hlaid _ =>
      obtain ⟨bs₀, o, as₀, τ, rfl, hbs, has⟩ := ih hlaid
      exact ⟨.cell _ :: bs₀, o, as₀, τ, rfl, .cons (.cell _) hbs, has⟩
    | run hlaid hr _ _ _ =>
      obtain ⟨bs₀, o, as₀, τ, rfl, hbs, has⟩ := ih hlaid
      exact ⟨.run _ :: bs₀, o, as₀, τ, rfl, .cons (.run hr) hbs, has⟩

/-! ### The account of a text -/

theorem forall₂_reverse {R : Node → Node → Prop} (h : List.Forall₂ R ns ns') : List.Forall₂ R ns.reverse ns'.reverse :=
  List.rel_reverse h

variable {spans : List Span} {cs : List Cell}

/-- What a resolved run was, and where it stands. -/
theorem Laid.place_inv (h : Laid edges (nodes none [] cs).reverse ns' σ) {p : Place}
    (hp : p ∈ places [] ns'.reverse) : ∃ o τ, Became o p.run ∧ IsRun p.left o.char o.delimiters p.right ∧
      o.canOpen = p.canOpen ∧ o.canClose = p.canClose ∧ Nested [] (tags edges p.before ++ p.run.stops) τ ∧
      (p.run.canOpen = true ↔ o.canOpen = true ∧ Stands edges o.scope τ) := by
  have hns' : ns' = p.after.reverse ++ .run p.run :: p.before.reverse := by
    rw [← List.reverse_reverse ns', mem_places.1 hp]
    simp
  rw [hns'] at h
  obtain ⟨bs, o, as, τ, hns, hbs, has, hr, hτ, hopen⟩ := h.run_inv
  have hnodes : nodes none [] cs = as.reverse ++ .run o :: bs.reverse := by
    rw [← List.reverse_reverse (nodes none [] cs), hns]
    simp
  have hbefore : sources as.reverse = sources p.before := by
    rw [← sources_settled (forall₂_reverse has), List.reverse_reverse]
  have hafter : sources bs.reverse = sources p.after := by
    rw [← sources_settled (forall₂_reverse hbs), List.reverse_reverse]
  obtain ⟨hrun, scope, ho⟩ := nodes_isRun none [] cs (fun c _ hc => by cases hc) hnodes
  rw [hbefore, hafter, Option.or_none] at hrun ho
  have hlength : o.delimiters = o.length := by
    rw [ho]
    exact delimiters_makeRun _ _ _ _ _
  have hcan : o.canOpen = p.canOpen ∧ o.canClose = p.canClose := by
    rw [ho, Place.canOpen, Place.canClose, hr.char]
    exact ⟨rfl, rfl⟩
  rw [List.reverse_reverse] at hτ
  exact ⟨o, τ, hr, hlength ▸ hrun, hcan.1, hcan.2, hτ, hopen⟩

theorem Laid.accounts (h : Laid edges (nodes none [] (Span.toCells spans)).reverse ns' [])
    (hruns : runs ns'.reverse = resolveRuns [] (runs (nodes none [] (Span.toCells spans)))) :
    Accounts spans ns'.reverse where
  source := by
    have hs := sources_settled (forall₂_reverse h.settles)
    rwa [List.reverse_reverse, sources_nodes] at hs
  written := by
    have hs := place_settled (forall₂_reverse h.settles)
    rw [List.reverse_reverse, hruns] at hs
    rw [← hs]
    exact (Span.toCells_ofCells _).symm
  isRun p hp := by
    obtain ⟨o, _, hr, hrun, -⟩ := h.place_inv hp
    rwa [hr.char, hr.delimiters]
  complete := by
    intro cs ds c n hcs hrun
    obtain ⟨as, o, bs, hnodes, hbefore, hchar, hlength, hafter⟩ :=
      nodes_complete none [] (Span.toCells spans) hcs (by rwa [Option.or_none])
    have hs := forall₂_reverse h.settles
    rw [List.reverse_reverse, hnodes] at hs
    obtain ⟨as', r, bs', hns', has, hr, hbs⟩ := settles_append hs
    obtain ⟨-, scope, ho⟩ := nodes_isRun none [] (Span.toCells spans) (fun c _ hc => by cases hc) hnodes
    have hdelimiters : o.delimiters = o.length := by
      rw [ho]
      exact delimiters_makeRun _ _ _ _ _
    exact ⟨⟨as', r, bs'⟩, mem_places.2 hns', (sources_settled has).trans hbefore, hr.char.trans hchar,
      hr.delimiters.trans (hdelimiters.trans hlength), (sources_settled hbs).trans hafter⟩
  nested := by
    have hn := h.nested.elements
    rwa [filter_tags] at hn

/-- In every list of spans the tags are nested among each other, and with the edges
of scopes if these are nested, and no scope is entered twice. -/
theorem exists_laid (edges : Bool) (h : Nested [] ((Span.toCells spans).flatMap (cellTags edges)) [])
    (hnodup : (entered ((Span.toCells spans).flatMap (cellTags edges))).Nodup) :
    ∃ ns, Laid edges (nodes none [] (Span.toCells spans)).reverse ns [] ∧
      runs ns.reverse = resolveRuns [] (runs (nodes none [] (Span.toCells spans))) := by
  have hahead := nodes_ahead edges none [] (σ := []) nofun (by cases edges <;> rfl) h
  have hscopes : (scopesIn edges ((nodes none [] (Span.toCells spans)).reverse ++ [])).Nodup := by
    rw [List.append_nil, (scopesIn_reverse edges _).nodup_iff, scopesIn_eq, sources_nodes]
    exact hnodup
  obtain ⟨ns, hruns, hlaid⟩ := hahead.resolveRuns .nil hscopes
  rw [List.append_nil] at hlaid
  exact ⟨ns, hlaid, hruns⟩

/-! ### Elements around a place -/

theorem entered_tags (ns : List Node) : entered (tags false ns) = [] := by
  rw [← filter_tags false]
  exact entered_of_isElement fun t ht => (List.mem_filter.1 ht).2

theorem onlyScopes_iff : OnlyScopes σ ↔ σ.countP Enclosure.isElement = 0 := by
  rw [List.countP_eq_zero]
  refine forall₂_congr fun x _ => ?_
  cases x <;> simp [Enclosure.isElement]

/-- Where the edges of scopes do not count, a run stands at a place where no
element is open. -/
theorem stands_iff (ts : List Tag) {scope : Option Nat} (h : Nested [] ts σ) (hts : entered ts = []) :
    Stands false scope σ ↔ ¬ts.countP Tag.isStop < ts.countP Tag.isStart := by
  have hcount := h.countP
  have hscopes : openScopes σ = [] := by
    have hs := h.scopes
    rw [hts] at hs
    exact List.sublist_nil.1 hs
  have hiff : Stands false scope σ ↔ OnlyScopes σ :=
    ⟨Stands.onlyScopes, fun hσ => ⟨hσ, by rw [hscopes]; rfl⟩⟩
  rw [hiff, onlyScopes_iff]
  rw [List.countP_nil] at hcount
  omega

theorem Laid.settled (h : Laid false (nodes none [] cs).reverse ns' σ) : ∀ p ∈ places [] ns'.reverse, p.Settled := by
  intro p hp
  obtain ⟨o, τ, hr, -, hopen, hclose, hτ, hcan⟩ := h.place_inv hp
  have hentered : entered p.tagsBefore = [] := by
    rw [Place.tagsBefore, entered_append, entered_tags, entered_stops]
    rfl
  have hstands : Stands false o.scope τ ↔ p.isInside = false := by
    rw [stands_iff p.tagsBefore hτ hentered, Place.isInside, decide_eq_false_iff_not]
  exact {
    canOpen := by
      rw [Bool.eq_iff_iff, hcan, hstands, hopen]
      simp
    canClose := hr.canClose.trans hclose
    opens := fun h => hopen ▸ hr.opens h
    closes := fun h => hclose ▸ hr.closes h }

/-- Every list of spans has an account in which all runs are settled; the warnings
are those of its runs. -/
theorem exists_settled (spans : List Span) : ∃ ns, Accounts spans ns ∧ (resolve spans).2 = warnings (runs ns) ∧
    ∀ p ∈ places [] ns, p.Settled := by
  have hnone : (Span.toCells spans).flatMap (cellTags false) = [] := by simp [cellTags]
  have hnested : Nested [] ((Span.toCells spans).flatMap (cellTags false)) [] := by
    rw [hnone]
    exact .nil
  obtain ⟨ns, hlaid, hruns⟩ := exists_laid false hnested (by rw [hnone]; exact .nil)
  exact ⟨ns.reverse, hlaid.accounts hruns, by rw [hruns]; rfl, hlaid.settled⟩

/-! ### Marks -/

theorem marks_sources_sublist : ∀ ns : List Node,
    (Cell.marks (sources ns)).Sublist (Cell.marks (ns.flatMap Node.written))
  | [] => .slnil
  | .cell (.char _) :: ns => marks_sources_sublist ns
  | .cell (.mark m) :: ns => (marks_sources_sublist ns).cons_cons m
  | .run r :: ns => by
    rw [sources_run, Cell.marks_append, Cell.marks_replicate, List.flatMap_cons, Cell.marks_append]
    exact (marks_sources_sublist ns).trans (List.sublist_append_right _ _)

theorem mem_marks_runCells {r : DelimiterRun} {m : Mark} (h : m ∈ Cell.marks (runCells r)) :
    ∃ e, m = .emphasisOpen e ∨ m = .emphasisClose e := by
  obtain ⟨c, hc, hcm⟩ := List.mem_filterMap.1 h
  simp only [runCells, List.mem_append, List.mem_map] at hc
  rcases hc with (⟨e, _, rfl⟩ | hc) | ⟨e, _, rfl⟩
  · cases hcm
    exact ⟨e, .inr rfl⟩
  · rw [List.eq_of_mem_replicate hc] at hcm
    cases hcm
  · cases hcm
    exact ⟨e, .inl rfl⟩

theorem mem_marks_written {m : Mark} : ∀ {ns : List Node}, m ∈ Cell.marks (ns.flatMap Node.written) →
    m ∈ Cell.marks (sources ns) ∨ ∃ e, m = .emphasisOpen e ∨ m = .emphasisClose e
  | .cell (.char _) :: ns, h => by
    have ih : m ∈ Cell.marks (sources ns) ∨ ∃ e, m = .emphasisOpen e ∨ m = .emphasisClose e := mem_marks_written h
    exact ih
  | .cell (.mark m') :: ns, h => by
    rcases List.mem_cons.1 h with rfl | h
    · exact .inl List.mem_cons_self
    · exact (mem_marks_written h).imp_left (List.mem_cons_of_mem m')
  | .run r :: ns, h => by
    rw [List.flatMap_cons, Node.written_run, Cell.marks_append, List.mem_append] at h
    rw [sources_run, Cell.marks_append, Cell.marks_replicate, List.nil_append]
    rcases h with h | h
    · exact .inr (mem_marks_runCells h)
    · exact mem_marks_written h

/-- The marks that were there before stay, in order. -/
theorem resolve_marks (spans : List Span) : (Span.marks spans).Sublist (Span.marks (resolve spans).1) := by
  obtain ⟨ns, haccounts, -⟩ := exists_settled spans
  rw [← Span.marks_toCells, ← Span.marks_toCells, ← haccounts.source, ← haccounts.written]
  exact marks_sources_sublist ns

/-- A mark was there before, or belongs to emphasis. -/
theorem mem_marks_resolve {spans : List Span} {m : Mark} (h : m ∈ Span.marks (resolve spans).1) :
    m ∈ Span.marks spans ∨ ∃ e, m = .emphasisOpen e ∨ m = .emphasisClose e := by
  obtain ⟨ns, haccounts, -⟩ := exists_settled spans
  rw [← Span.marks_toCells, ← haccounts.written] at h
  rw [← Span.marks_toCells, ← haccounts.source]
  exact mem_marks_written h

end QuartoPretext.Emphasis
