/-
# Emphasis among links and notes

The tags of emphasis are nested with the edges of scopes, which name a scope by
its number. Where every scope is opened once, its number tells whether it is a
link or a note. So the walk over what is written closes what was opened last.

Key definitions: `Cell.openings`, `Names`.
Key theorems: `Cell.mem_openings_of_closing`, `nested_of_walk`, `walk_written`,
`resolve_walk`.
-/
import QuartoPretext.Proofs.Emphasis.Account
import QuartoPretext.Proofs.Inline.Nesting

namespace QuartoPretext

/-! ### What cells open -/

namespace Cell

/-- What some cells open. -/
def openings (cs : List Cell) : List Opening := (marks cs).filterMap Mark.opening?

theorem opens_eq (cs : List Cell) : opens cs = (openings cs).filterMap Opening.scope? := by
  rw [openings, List.filterMap_filterMap]
  rfl

theorem mem_openings {cs : List Cell} {m : Mark} {o : Opening} (hm : m ∈ marks cs) (h : m.opening? = some o) :
    o ∈ openings cs := List.mem_filterMap.2 ⟨m, hm, h⟩

/-- What is closed was open at first, or the cells have opened it. -/
theorem mem_openings_of_closing {m : Mark} {o : Opening} (hclose : m.closing? = some o) : ∀ {cs : List Cell}
    {σ τ : List Opening}, walk σ cs = some τ → m ∈ marks cs → o ∈ openings cs ∨ o ∈ σ
  | .char _ :: cs, σ, τ, h, hm => by
    have h' : walk σ cs = some τ := h
    have ih := mem_openings_of_closing hclose h' hm
    exact ih
  | .mark m' :: cs, σ, τ, h, hm => by
    have hsub : openings cs ⊆ openings (.mark m' :: cs) := List.filterMap_subset _ (List.subset_cons_self m' _)
    rcases List.mem_cons.1 hm with rfl | hm
    · obtain ⟨υ, hυ, -⟩ := Option.bind_eq_some_iff.1 h
      rw [Mark.after_closing hclose] at hυ
      exact .inr (hυ ▸ List.mem_cons_self)
    · obtain ⟨o', hopen, -, hrest⟩ | ⟨o', υ, -, -, rfl, hrest⟩ | ⟨-, -, hrest⟩ := walk_mark_cases h
      · rcases mem_openings_of_closing hclose hrest hm with ho | ho
        · exact .inl (hsub ho)
        · rcases List.mem_cons.1 ho with rfl | ho
          · exact .inl (mem_openings List.mem_cons_self hopen)
          · exact .inr ho
      · exact (mem_openings_of_closing hclose hrest hm).imp (hsub ·) (List.mem_cons_of_mem o')
      · exact (mem_openings_of_closing hclose hrest hm).imp_left (hsub ·)

/-- Where every scope is opened once, its number tells what was opened. -/
theorem eq_of_scope {os : List Opening} (h : (os.filterMap Opening.scope?).Nodup) {o o' : Opening} {n : Nat}
    (ho : o ∈ os) (ho' : o' ∈ os) (hn : o.scope? = some n) (hn' : o'.scope? = some n) : o = o' := by
  induction os with
  | nil => cases ho
  | cons p os ih =>
    have hrest : (os.filterMap Opening.scope?).Nodup := h.sublist ((List.sublist_cons_self p os).filterMap _)
    -- the scope of the first one is not opened again
    have hfirst {q : Opening} (hq : q ∈ os) (hqn : q.scope? = some n) : p.scope? ≠ some n := fun hp => by
      rw [List.filterMap_cons_some hp, List.nodup_cons] at h
      exact h.1 (List.mem_filterMap.2 ⟨q, hq, hqn⟩)
    rcases List.mem_cons.1 ho with rfl | hos
    · rcases List.mem_cons.1 ho' with rfl | hos'
      · rfl
      · exact absurd hn (hfirst hos' hn')
    · rcases List.mem_cons.1 ho' with rfl | hos'
      · exact absurd hn' (hfirst hos hn)
      · exact ih hrest hos hos'

end Cell

namespace Emphasis

open Cell

/-! ### Scopes and what they are -/

/-- An opening, one of `os` if it has a scope, by what it is to emphasis. -/
inductive Names (os : List Opening) : Enclosure → Opening → Prop
  | scope {n : Nat} {o : Opening} : o ∈ os → o.scope? = some n → Names os (.scope n) o
  | element (c : Char) (e : Emphasis) (left : Nat) : Names os (.element c e left) (.emphasis e)

/-- Nested cells have nested edges of scopes. -/
theorem nested_of_walk : ∀ {cs : List Cell} {σ τ : List Opening}, walk σ cs = some τ →
    Nested ((scopesOf σ).map .scope) (cs.flatMap scopeTags) ((scopesOf τ).map .scope)
  | [], σ, τ, h => by
    cases h
    exact .nil
  | .char _ :: cs, σ, τ, h => by
    have h' : walk σ cs = some τ := h
    have ih := nested_of_walk h'
    exact ih
  | .mark m :: cs, σ, τ, h => by
    rw [List.flatMap_cons, scopeTags, m.opens?_eq, m.closes?_eq]
    obtain ⟨o, hopen, hclose, hrest⟩ | ⟨o, υ, hopen, hclose, rfl, hrest⟩ | ⟨hopen, hclose, hrest⟩ := walk_mark_cases h
    · have ih := nested_of_walk hrest
      rw [hopen, hclose, Option.bind_some]
      cases hn : o.scope? with
      | some n =>
        rw [scopesOf_some hn] at ih
        exact .opening (.enter n) ih
      | none =>
        rw [scopesOf_none hn] at ih
        exact ih
    · have ih := nested_of_walk hrest
      rw [hopen, hclose, Option.bind_none, Option.bind_some]
      cases hn : o.scope? with
      | some n =>
        rw [scopesOf_some hn]
        exact .closing (.leave n) ih
      | none =>
        rw [scopesOf_none hn]
        exact ih
    · have ih := nested_of_walk hrest
      rw [hopen, hclose]
      exact ih

theorem entered_scopeTags (cs : List Cell) : entered (cs.flatMap scopeTags) = opens cs := by
  induction cs with
  | nil => rfl
  | cons c cs ih =>
    rw [List.flatMap_cons, entered_append, ih]
    cases c with
    | char c => rfl
    | mark m =>
      rw [opens_mark, scopeTags, m.opens?_eq]
      cases m.opening?.bind Opening.scope? with
      | some n => rfl
      | none => cases m.closes? <;> rfl

variable {os : List Opening} {σ τ : List Enclosure} {ts : List Tag}

/-- Tags of emphasis are written as marks that lead to what the tags lead to. -/
theorem walk_tags (h : Nested σ ts τ) (hts : ∀ t ∈ ts, t.isElement) : ∀ {σ' : List Opening},
    List.Forall₂ (Names os) σ σ' → ∃ τ', walk σ' (ts.flatMap Tag.written) = some τ' ∧ List.Forall₂ (Names os) τ τ' := by
  induction h with
  | nil => exact fun hσ => ⟨_, rfl, hσ⟩
  | @opening t _ _ _ _ ht _ ih =>
    intro σ' hσ
    obtain ⟨htag, hrest⟩ := List.forall_mem_cons.1 hts
    cases ht with
    | enter n => cases htag
    | start c e left => exact ih hrest (.cons (.element c e left) hσ)
  | @closing t _ _ _ ts ht _ ih =>
    intro σ' hσ
    obtain ⟨htag, hrest⟩ := List.forall_mem_cons.1 hts
    cases ht with
    | leave n => cases htag
    | @stop c e left left' _ =>
      cases hσ with
      | @cons _ _ _ υ' hx hσ =>
        cases hx
        obtain ⟨τ', hwalk, hτ⟩ := ih hrest hσ
        have hclose : walk (.emphasis e :: υ') [.mark (.emphasisClose e)] = some υ' := by
          rw [walk, (Mark.after_closing (o := .emphasis e) rfl).2 rfl]
          rfl
        exact ⟨τ', walk_append_some hclose hwalk, hτ⟩

/-- What is written for nested nodes leads to what their tags lead to, if each of
their marks opens or closes one of the scopes, or nothing. -/
theorem walk_written (hnodup : (os.filterMap Opening.scope?).Nodup) (hscopes : ∀ o ∈ os, ∃ n, o.scope? = some n) :
    ∀ {ns : List Node} {σ : List Enclosure} {σ' : List Opening}, Nested σ (tags true ns) τ →
      (∀ m ∈ marks (sources ns), ∀ o, m.opening? = some o ∨ m.closing? = some o → o ∈ os) →
      List.Forall₂ (Names os) σ σ' →
      ∃ τ', walk σ' (ns.flatMap Node.written) = some τ' ∧ List.Forall₂ (Names os) τ τ'
  | [], σ, σ', h, _, hσ => by
    cases h
    exact ⟨σ', rfl, hσ⟩
  | .cell (.char c) :: ns, σ, σ', h, hmarks, hσ => by
    have htags : Nested σ (tags true ns) τ := h
    obtain ⟨τ', hwalk, hτ⟩ := walk_written hnodup hscopes htags hmarks hσ
    exact ⟨τ', hwalk, hτ⟩
  | .cell (.mark m) :: ns, σ, σ', h, hmarks, hσ => by
    obtain ⟨hm, hmarks⟩ := List.forall_mem_cons.1 hmarks
    have htags : Nested σ (scopeTags (.mark m) ++ tags true ns) τ := h
    obtain ⟨υ, hυ, h⟩ := htags.of_append
    suffices hafter : ∃ υ', m.after σ' = some υ' ∧ List.Forall₂ (Names os) υ υ' by
      obtain ⟨υ', hafter, hυ'⟩ := hafter
      obtain ⟨τ', hwalk, hτ⟩ := walk_written hnodup hscopes h hmarks hυ'
      exact ⟨τ', by rw [List.flatMap_cons, Node.written, List.singleton_append, walk, hafter]; exact hwalk, hτ⟩
    rw [scopeTags, m.opens?_eq, m.closes?_eq] at hυ
    cases hopen : m.opening? with
    | some o =>
      have ho := hm o (.inl hopen)
      obtain ⟨n, hn⟩ := hscopes o ho
      rw [hopen, Option.bind_some, hn] at hυ
      cases hυ with
      | opening ht hυ =>
        cases ht
        cases hυ
        exact ⟨o :: σ', Mark.after_opening hopen σ', .cons (.scope ho hn) hσ⟩
      | closing ht _ => cases ht
    | none =>
      cases hclose : m.closing? with
      | some o =>
        have ho := hm o (.inr hclose)
        obtain ⟨n, hn⟩ := hscopes o ho
        rw [hopen, hclose, Option.bind_none, Option.bind_some, hn] at hυ
        cases hυ with
        | opening ht _ => cases ht
        | closing ht hυ =>
          cases ht
          cases hυ
          cases hσ with
          | @cons _ o' _ υ' hx hσ =>
            cases hx with
            | scope ho' hn' =>
              obtain rfl := eq_of_scope hnodup ho ho' hn hn'
              exact ⟨υ', (Mark.after_closing hclose).2 rfl, hσ⟩
      | none =>
        rw [hopen, hclose] at hυ
        cases hυ
        exact ⟨σ', Mark.IsInert.after ⟨hopen, hclose⟩ σ', hσ⟩
  | .run r :: ns, σ, σ', h, hmarks, hσ => by
    rw [tags_run, List.append_assoc] at h
    obtain ⟨υ, hstops, h⟩ := h.of_append
    obtain ⟨ρ, hstarts, h⟩ := h.of_append
    obtain ⟨υ', hwalk₁, hυ⟩ := walk_tags hstops (isElement_stops r) hσ
    obtain ⟨ρ', hwalk₂, hρ⟩ := walk_tags hstarts (isElement_starts r) hυ
    rw [sources_run, marks_append, marks_replicate, List.nil_append] at hmarks
    obtain ⟨τ', hwalk₃, hτ⟩ := walk_written hnodup hscopes h hmarks hρ
    have hleft : walk υ' (List.replicate r.unmatched (.char r.char)) = some υ' :=
      walk_inert (by simp [marks_replicate]) υ'
    refine ⟨τ', ?_, hτ⟩
    rw [List.flatMap_cons, Node.written]
    exact walk_append_some (walk_append_some (walk_append_some hwalk₁ hleft) hwalk₂) hwalk₃

/-- Emphasis in nested spans leaves them nested, if they hold no emphasis yet and
every scope is opened once. -/
theorem resolve_walk {spans : List Span} (h : Cell.walk [] (Span.toCells spans) = some [])
    (hopens : (opens (Span.toCells spans)).Nodup)
    (hcs : ∀ m ∈ Span.marks spans, ∀ e, m ≠ .emphasisOpen e) :
    Cell.walk [] (Span.toCells (resolve spans).1) = some [] := by
  rw [← Span.marks_toCells] at hcs
  have hscopes : ∀ o ∈ openings (Span.toCells spans), ∃ n, o.scope? = some n := by
    intro o ho
    obtain ⟨m, hm, hopen⟩ := List.mem_filterMap.1 ho
    cases m with
    | emphasisOpen e => exact absurd rfl (hcs _ hm e)
    | linkOpen href n | noteOpen n =>
      cases hopen
      exact ⟨n, rfl⟩
    | _ => cases hopen
  have hmarks : ∀ m ∈ marks (Span.toCells spans), ∀ o, m.opening? = some o ∨ m.closing? = some o →
      o ∈ openings (Span.toCells spans) := by
    rintro m hm o (hopen | hclose)
    · exact mem_openings hm hopen
    · exact (mem_openings_of_closing hclose h hm).resolve_right List.not_mem_nil
  obtain ⟨ns, hlaid, hruns⟩ := exists_laid true (nested_of_walk h) (by rwa [← entered_scopeTags] at hopens)
  have haccounts := hlaid.accounts hruns
  rw [opens_eq] at hopens
  obtain ⟨τ', hwalk, hτ⟩ :=
    walk_written hopens hscopes hlaid.nested (by rwa [haccounts.source]) .nil
  cases hτ
  rw [← haccounts.written]
  exact hwalk

end Emphasis
end QuartoPretext
