/-
# Pairs of runs

A closing run takes an opening run of its scope. The runs between the two can
open nothing any more, so a run that still can stands at a place where no element
is open. Between two such places of one scope the tags are nested, and a pair of
tags around them keeps the whole nested.

The same holds where the edges of scopes do not count: then the tags are nested
among each other, however the scopes are.

Key definitions: `Became`, `Stands`, `Laid`, `Ahead`.
Key theorems: `Laid.pair`, `Laid.close`, `Ahead.resolveRuns`, `nodes_ahead`.
-/
import QuartoPretext.Proofs.Emphasis.Runs

namespace QuartoPretext

namespace DelimiterRun

open Emphasis

/-- A run that opens an element. -/
def opening (r : DelimiterRun) (e : Emphasis) : DelimiterRun :=
  { r with unmatched := r.unmatched - width e, opened := e :: r.opened }

/-- A run that closes an element. -/
def closing (r : DelimiterRun) (e : Emphasis) : DelimiterRun :=
  { r with unmatched := r.unmatched - width e, closed := r.closed ++ [e] }

/-- A run within an element opens nothing any more. -/
def enclosed (r : DelimiterRun) : DelimiterRun := { r with canOpen := false }

variable {r : DelimiterRun} {e : Emphasis}

theorem stops_opening (h : width e ≤ r.unmatched) : (r.opening e).stops = r.stops := by
  rw [stops, stops, opening, widths_cons, ← Nat.add_assoc, Nat.sub_add_cancel h]

theorem starts_opening (h : width e ≤ r.unmatched) :
    (r.opening e).starts = .start r.char e r.unmatched :: r.starts := by
  rw [starts, opening, startTags, Nat.sub_add_cancel h]
  rfl

theorem stops_closing (h : width e ≤ r.unmatched) (ho : r.opened = []) :
    (r.closing e).stops = r.stops ++ [.stop r.char e r.unmatched] := by
  rw [stops, stops, closing, ho, widths_nil, stopTags_snoc, Nat.add_zero, Nat.add_sub_cancel' h]
  rfl

theorem stops_of_closed (h : r.closed = []) : r.stops = [] := by rw [stops, h, stopTags]

theorem starts_of_opened (h : r.opened = []) : r.starts = [] := by rw [starts, h, startTags]

end DelimiterRun

namespace Emphasis

open DelimiterRun

/-! ### Pairing -/

section

variable (r c : DelimiterRun)

theorem kindOf_width : (kindOf r c).2 = width (kindOf r c).1 := by
  unfold kindOf
  split
  · cases c.beforeIndex <;> rfl
  · rfl

theorem kindOf_strong : width (kindOf r c).1 = 2 ↔ 2 ≤ r.unmatched ∧ 2 ≤ c.unmatched := by
  unfold kindOf
  split
  · next h =>
    refine iff_of_true ?_ (by simpa using h)
    cases c.beforeIndex <;> rfl
  · next h => exact iff_of_false (by decide) (by simpa using h)

end

variable {r c c' : DelimiterRun} {rs rs' : List DelimiterRun}

theorem width_kindOf_le (hr : 0 < r.unmatched) (hc : 0 < c.unmatched) :
    width (kindOf r c).1 ≤ r.unmatched ∧ width (kindOf r c).1 ≤ c.unmatched := by
  have hle := width_le (kindOf r c).1
  by_cases h : width (kindOf r c).1 = 2
  · rw [h]
    exact (kindOf_strong r c).1 h
  · omega

theorem pair?_of_fits (h : fits r c = true) (rs : List DelimiterRun) :
    pair? c (r :: rs) = some (r.opening (kindOf r c).1 :: rs, c.closing (kindOf r c).1) := by
  rw [pair?, if_pos h, opening, closing, ← kindOf_width]

theorem pair?_of_not_fits (h : ¬fits r c = true) (rs : List DelimiterRun) :
    pair? c (r :: rs) = (pair? c rs).map fun (rs', c') => (r.enclosed :: rs', c') := by
  rw [pair?, if_neg h]
  rfl

/-! ### What becomes of a run -/

/-- `r` is what has become of the run `o`. -/
structure Became (o r : DelimiterRun) : Prop where
  char : r.char = o.char
  scope : r.scope = o.scope
  canClose : r.canClose = o.canClose
  delimiters : r.delimiters = o.delimiters
  closes : r.closed ≠ [] → o.canClose = true
  opens : r.opened ≠ [] → o.canOpen = true

namespace Became

variable {o : DelimiterRun} {e : Emphasis}

theorem opening (h : Became o r) (ho : o.canOpen = true) (hle : width e ≤ r.unmatched) :
    Became o (r.opening e) where
  char := h.char
  scope := h.scope
  canClose := h.canClose
  delimiters := by
    rw [← h.delimiters]
    simp only [DelimiterRun.delimiters, DelimiterRun.opening, widths_cons]
    omega
  closes := h.closes
  opens _ := ho

theorem closing (h : Became o r) (hc : r.canClose = true) (hle : width e ≤ r.unmatched) :
    Became o (r.closing e) where
  char := h.char
  scope := h.scope
  canClose := h.canClose
  delimiters := by
    rw [← h.delimiters]
    simp only [DelimiterRun.delimiters, DelimiterRun.closing, widths_append, widths_cons, widths_nil]
    omega
  closes _ := h.canClose ▸ hc
  opens := h.opens

theorem refl (hc : r.closed = []) (ho : r.opened = []) : Became r r :=
  ⟨rfl, rfl, rfl, rfl, fun h => absurd hc h, fun h => absurd ho h⟩

theorem enclosed (h : Became o r) : Became o r.enclosed :=
  ⟨h.char, h.scope, h.canClose, h.delimiters, h.closes, h.opens⟩

end Became

/-! ### Runs that have been read -/

variable {edges : Bool} {σ τ υ : List Enclosure} {ns ns' : List Node} {ts : List Tag}

/-- A run of a scope stands where only scopes are open, directly in this scope if
the edges of scopes count. -/
structure Stands (edges : Bool) (scope : Option Nat) (σ : List Enclosure) : Prop where
  onlyScopes : OnlyScopes σ
  innermost : (openScopes σ).head? = if edges then scope else none

/-- `Laid edges ns ns' σ`: the nodes `ns` have become `ns'`, both latest first,
and `σ` is open after them. A run can still open if it could and no element is
open where it stands. -/
inductive Laid (edges : Bool) : List Node → List Node → List Enclosure → Prop
  | nil : Laid edges [] [] []
  | cell {c : Cell} {ns ns' : List Node} {σ τ : List Enclosure} : Laid edges ns ns' σ →
      Nested σ (cellTags edges c) τ → Laid edges (.cell c :: ns) (.cell c :: ns') τ
  | run {o r : DelimiterRun} {ns ns' : List Node} {σ τ υ : List Enclosure} : Laid edges ns ns' σ →
      Became o r → Nested σ r.stops τ → (r.canOpen = true ↔ o.canOpen = true ∧ Stands edges o.scope τ) →
      Nested τ r.starts υ → Laid edges (.run o :: ns) (.run r :: ns') υ

/-- The scopes that some nodes enter. -/
def scopesIn (edges : Bool) : List Node → List Nat
  | [] => []
  | .cell c :: ns => entered (cellTags edges c) ++ scopesIn edges ns
  | .run _ :: ns => scopesIn edges ns

theorem scopesIn_sublist (edges : Bool) : ∀ ns ns' : List Node,
    (scopesIn edges ns').Sublist (scopesIn edges (ns ++ ns'))
  | [], _ => .refl _
  | .cell _ :: ns, ns' => (scopesIn_sublist edges ns ns').trans (List.sublist_append_right _ _)
  | .run _ :: ns, ns' => scopesIn_sublist edges ns ns'

theorem scopesIn_eq (edges : Bool) (ns : List Node) :
    scopesIn edges ns = entered ((sources ns).flatMap (cellTags edges)) := by
  induction ns with
  | nil => rfl
  | cons n ns ih =>
    cases n with
    | cell c => rw [scopesIn, ih, sources_cell, List.flatMap_cons, entered_append]
    | run r =>
      rw [scopesIn, ih, sources_run, List.flatMap_append, entered_append, List.flatMap_replicate]
      simp

theorem scopesIn_reverse (edges : Bool) (ns : List Node) : (scopesIn edges ns.reverse).Perm (scopesIn edges ns) := by
  rw [scopesIn_eq, scopesIn_eq]
  exact (((List.reverse_perm ns).flatMap_right _).flatMap_right _).filterMap _

theorem entered_cell_reverse (edges : Bool) (c : Cell) :
    (entered (cellTags edges c)).reverse = entered (cellTags edges c) := by
  cases edges with
  | false => rfl
  | true =>
    cases c with
    | char c => rfl
    | mark m =>
      simp only [cellTags, scopeTags]
      split <;> rfl

/-- What is open after some nodes was entered by them. -/
theorem Laid.scopes (h : Laid edges ns ns' σ) : (openScopes σ).Sublist (scopesIn edges ns) := by
  induction h with
  | nil => exact .slnil
  | cell _ htags ih =>
    have hs := htags.scopes
    rw [entered_cell_reverse] at hs
    exact hs.trans (ih.append_left _)
  | run _ _ hstops _ hstarts ih =>
    have h₁ := hstops.scopes
    have h₂ := hstarts.scopes
    rw [entered_stops, List.reverse_nil, List.nil_append] at h₁
    rw [entered_starts, List.reverse_nil, List.nil_append] at h₂
    exact h₂.trans (h₁.trans ih)

/-- A pair puts an element around the tags from the opening run on. -/
theorem Laid.pair (h : Laid edges ns ns' σ) (hts : Nested σ ts τ) (hc : Stands edges c.scope τ)
    (hnodup : (entered ts ++ scopesIn edges ns).Nodup) (hpos : 0 < c.unmatched)
    (hp : pair? c (runs ns') = some (rs', c')) : ∃ e left υ ns'', c' = c.closing e ∧ width e ≤ c.unmatched ∧
      (width e = 2 ↔ 2 ≤ left ∧ 2 ≤ c.unmatched) ∧ runs ns'' = rs' ∧ Nested υ ts [] ∧
      Laid edges ns ns'' (υ ++ .element c.char e left :: τ) := by
  induction h generalizing ts rs' with
  | nil => cases hp
  | @cell d ns ns' σ₀ σ _ htags ih =>
    have hnodup' : (entered (cellTags edges d ++ ts) ++ scopesIn edges ns).Nodup := by
      rw [entered_append]
      exact ((List.perm_append_comm.append_right _).trans (by rw [List.append_assoc]; exact .refl _)).nodup_iff.2
        hnodup
    obtain ⟨e, left, υ₀, ns'', hc', hle, hw, hruns, hυ, hlaid⟩ := ih (htags.trans hts) hnodup' hp
    obtain ⟨υ, hd, hυ⟩ := hυ.of_append
    exact ⟨e, left, υ, .cell d :: ns'', hc', hle, hw, hruns, hυ, .cell hlaid (hd.extend _)⟩
  | @run o r ns ns' σ₀ σ₁ σ hlaid hr hstops hopen hstarts ih =>
    by_cases hfits : fits r c = true
    · have hruns : runs (.run r :: ns') = r :: runs ns' := rfl
      rw [hruns, pair?_of_fits hfits] at hp
      cases hp
      simp only [fits, Bool.and_eq_true, beq_iff_eq, decide_eq_true_eq] at hfits
      obtain ⟨⟨⟨⟨hchar, hcan⟩, hscope⟩, hunmatched⟩, -⟩ := hfits
      obtain ⟨hcould, hstands⟩ := hopen.1 hcan
      obtain ⟨hler, hlec⟩ := width_kindOf_le hunmatched hpos
      -- from the opening run to the closing one the tags are nested on their own
      have hhead : (openScopes σ₁).head? = (openScopes τ).head? := by
        rw [hstands.innermost, hc.innermost, ← hr.scope, hscope]
      have hfresh : (entered (r.starts ++ ts) ++ openScopes σ₁).Nodup := by
        have hs := hstops.scopes
        rw [entered_stops, List.reverse_nil, List.nil_append] at hs
        rw [entered_append, entered_starts, List.nil_append]
        exact hnodup.sublist ((hs.trans hlaid.scopes).append_left _)
      obtain ⟨hinner, rfl⟩ := (hstarts.trans hts).inner_of_same_scope hstands.onlyScopes hc.onlyScopes hhead hfresh
      obtain ⟨υ, hυ, hυts⟩ := hinner.of_append
      refine ⟨(kindOf r c).1, r.unmatched, υ, .run (r.opening (kindOf r c).1) :: ns', rfl, hlec, kindOf_strong r c,
        rfl, hυts, .run hlaid (hr.opening hcould hler) ?_ hopen ?_⟩
      · rw [stops_opening hler]
        exact hstops
      · rw [starts_opening hler, hchar]
        exact .opening (.start c.char _ r.unmatched) (hυ.extend _)
    · -- an earlier run opens the element, which is open where this one stands
      have hruns : runs (.run r :: ns') = r :: runs ns' := rfl
      rw [hruns, pair?_of_not_fits hfits] at hp
      obtain ⟨⟨rs₀, c₀⟩, hp₀, he⟩ := Option.map_eq_some_iff.1 hp
      cases he
      have hnodup' : (entered (r.stops ++ (r.starts ++ ts)) ++ scopesIn edges ns).Nodup := by
        rw [entered_append, entered_append, entered_stops, entered_starts]
        exact hnodup
      obtain ⟨e, left, υ₀, ns'', hc', hle, hw, hruns', hυ₀, hlaid'⟩ :=
        ih (hstops.trans (hstarts.trans hts)) hnodup' hp₀
      obtain ⟨υ₁, hυ₁, hυ₀⟩ := hυ₀.of_append
      obtain ⟨υ, hυ, hυts⟩ := hυ₀.of_append
      refine ⟨e, left, υ, .run r.enclosed :: ns'', hc', hle, hw, by rw [← hruns']; rfl, hυts,
        .run hlaid' hr.enclosed (hυ₁.extend _) ?_ (hυ.extend _)⟩
      exact iff_of_false Bool.false_ne_true fun h => not_onlyScopes_element h.2.onlyScopes

/-- A run that closes what it can leaves the tags nested. -/
theorem Laid.close {o : DelimiterRun} : ∀ {n : Nat} {ns' : List Node} {σ : List Enclosure} {c c' : DelimiterRun}
    {rs' : List DelimiterRun}, Laid edges ns ns' σ → Nested σ c.stops τ → Stands edges o.scope τ →
      (scopesIn edges ns).Nodup → c.opened = [] → c.canClose = true → Became o c →
      Emphasis.close n (runs ns') c = (rs', c') → ∃ σ' ns'', runs ns'' = rs' ∧ Laid edges ns ns'' σ' ∧
        Nested σ' c'.stops τ ∧ Became o c' ∧ c'.opened = [] ∧ c'.canOpen = c.canOpen
  | 0, ns', σ, c, c', rs', h, hstops, _, _, ho, _, hb, he => by
    cases he
    exact ⟨σ, ns', rfl, h, hstops, hb, ho, rfl⟩
  | n + 1, ns', σ, c, c', rs', h, hstops, hstands, hnodup, ho, hclose, hb, he => by
    unfold Emphasis.close at he
    split at he
    · cases he
      exact ⟨σ, ns', rfl, h, hstops, hb, ho, rfl⟩
    · next hpos =>
      split at he
      · next rs₁ c₁ hp =>
        have hnodup' : (entered c.stops ++ scopesIn edges ns).Nodup := by rwa [entered_stops]
        obtain ⟨e, left, υ, ns₁, rfl, hle, hw, rfl, hυ, h₁⟩ :=
          h.pair hstops (hb.scope ▸ hstands) hnodup' (Nat.pos_of_ne_zero hpos) hp
        have hstops₁ : Nested (υ ++ .element c.char e left :: τ) (c.closing e).stops τ := by
          rw [stops_closing hle ho]
          exact (hυ.extend _).trans (.closing (.stop hw) .nil)
        exact Laid.close (c := c.closing e) h₁ hstops₁ hstands hnodup ho hclose (hb.closing hclose hle) he
      · cases he
        exact ⟨σ, ns', rfl, h, hstops, hb, ho, rfl⟩

/-! ### Runs that are still to be read -/

/-- The nodes that are still to be resolved: their runs are as they were found. -/
inductive Ahead (edges : Bool) : List Enclosure → List Node → List Enclosure → Prop
  | nil {σ : List Enclosure} : Ahead edges σ [] σ
  | cell {c : Cell} {ns : List Node} {σ τ υ : List Enclosure} : Nested σ (cellTags edges c) τ →
      Ahead edges τ ns υ → Ahead edges σ (.cell c :: ns) υ
  | run {r : DelimiterRun} {ns : List Node} {σ τ : List Enclosure} : r.closed = [] → r.opened = [] →
      Stands edges r.scope σ → Ahead edges σ ns τ → Ahead edges σ (.run r :: ns) τ

/-- Resolving all runs leaves the tags nested. -/
theorem Ahead.resolveRuns {rest : List Node} (ha : Ahead edges σ rest τ) : ∀ {ns ns' : List Node},
    Laid edges ns ns' σ → (scopesIn edges (rest.reverse ++ ns)).Nodup →
      ∃ ns'', runs ns''.reverse = Emphasis.resolveRuns (runs ns') (runs rest) ∧
        Laid edges (rest.reverse ++ ns) ns'' τ := by
  induction ha with
  | nil =>
    intro ns ns' h _
    refine ⟨ns', ?_, h⟩
    rw [runs, List.filterMap_reverse]
    rfl
  | @cell c rest σ υ τ htags _ ih =>
    intro ns ns' h hnodup
    rw [List.reverse_cons, List.append_assoc, List.singleton_append] at hnodup ⊢
    have hrest := ih (h.cell htags) hnodup
    exact hrest
  | @run r rest σ τ hcl hop hstands _ ih =>
    intro ns ns' h hnodup
    have hb := Became.refl hcl hop
    rw [List.reverse_cons, List.append_assoc, List.singleton_append] at hnodup ⊢
    have hstops : Nested σ r.stops σ := by
      rw [stops_of_closed hcl]
      exact .nil
    have hruns : runs (.run r :: rest) = r :: runs rest := rfl
    rw [hruns]
    unfold Emphasis.resolveRuns
    split
    · next hclose =>
      split
      next rs r' he =>
      have hnodup₀ : (scopesIn edges ns).Nodup := hnodup.sublist (scopesIn_sublist edges rest.reverse (.run r :: ns))
      obtain ⟨σ', ns₁, rfl, h', hstops', hb', ho', hcan⟩ := h.close hstops hstands hnodup₀ hop hclose hb he
      refine ih (.run h' hb' hstops' ?_ ?_) hnodup
      · rw [hcan]
        exact (and_iff_left hstands).symm
      · rw [starts_of_opened ho']
        exact .nil
    · refine ih (.run h hb hstops (and_iff_left hstands).symm ?_) hnodup
      rw [starts_of_opened hop]
      exact .nil

theorem OnlyScopes.after {m : Mark} {scopes : List Nat} (hσ : OnlyScopes σ)
    (hscopes : openScopes σ = if edges then scopes else []) (h : Nested σ (cellTags edges (.mark m)) τ) :
    OnlyScopes τ ∧ openScopes τ = if edges then scopesAfter m scopes else [] := by
  cases edges with
  | false =>
    cases h
    exact ⟨hσ, hscopes⟩
  | true =>
    simp only [cellTags, scopeTags] at h
    rw [if_pos rfl] at hscopes ⊢
    unfold scopesAfter
    cases hopens : m.opens? with
    | some n =>
      rw [hopens] at h
      cases h with
      | opening ht h =>
        cases ht
        cases h
        exact ⟨hσ.cons n, by rw [openScopes_scope, hscopes]⟩
      | closing ht _ => cases ht
    | none =>
      rw [hopens] at h
      cases hcloses : m.closes? with
      | some n =>
        rw [hcloses] at h
        cases h with
        | opening ht _ => cases ht
        | closing ht h =>
          cases ht
          cases h
          rw [openScopes_scope] at hscopes
          exact ⟨hσ.tail, by rw [← hscopes]; rfl⟩
      | none =>
        rw [hcloses] at h
        cases h
        exact ⟨hσ, hscopes⟩

theorem cellTags_dropWhile (edges : Bool) (c : Char) (cs : List Cell) :
    (cs.dropWhile (Cell.isChar c)).flatMap (cellTags edges) = cs.flatMap (cellTags edges) := by
  have htake : (cs.takeWhile (Cell.isChar c)).flatMap (cellTags edges) = [] := by
    rw [takeWhile_isChar, List.flatMap_replicate]
    simp
  calc (cs.dropWhile (Cell.isChar c)).flatMap (cellTags edges)
      = (cs.takeWhile (Cell.isChar c) ++ cs.dropWhile (Cell.isChar c)).flatMap (cellTags edges) := by
        rw [List.flatMap_append, htake, List.nil_append]
    _ = cs.flatMap (cellTags edges) := by rw [List.takeWhile_append_dropWhile]

theorem Ahead.chars {rest : List Node} (h : Ahead edges σ rest τ) (c : Char) : ∀ n : Nat,
    Ahead edges σ ((List.replicate n (Cell.char c)).map .cell ++ rest) τ
  | 0 => h
  | n + 1 => .cell (by rw [cellTags_char]; exact .nil) (h.chars c n)

/-- The runs that are found in some cells stand in the scopes that are open there. -/
theorem nodes_ahead (edges : Bool) (before : Option Cell) (scopes : List Nat) {cs : List Cell}
    (hσ : OnlyScopes σ) (hscopes : openScopes σ = if edges then scopes else [])
    (h : Nested σ (cs.flatMap (cellTags edges)) τ) : Ahead edges σ (nodes before scopes cs) τ := by
  have hchar (c : Char) (rest : List Cell) :
      (Cell.char c :: rest).flatMap (cellTags edges) = rest.flatMap (cellTags edges) := by
    rw [List.flatMap_cons, cellTags_char, List.nil_append]
  fun_induction nodes before scopes cs generalizing σ with
  | case1 =>
    cases h
    exact .nil
  | case2 before scopes m rest ih =>
    rw [List.flatMap_cons] at h
    obtain ⟨υ, hm, h'⟩ := h.of_append
    obtain ⟨hυ, hafter⟩ := hσ.after hscopes hm
    exact .cell hm (ih hυ hafter h')
  | case3 before scopes c rest _ same after _ =>
    rename_i ih
    rw [hchar, ← cellTags_dropWhile edges c] at h
    have hrest := ih hσ hscopes h
    have hcells := hrest.chars c (1 + same.length)
    rwa [← cons_takeWhile_isChar] at hcells
  | case4 before scopes c rest _ same after _ =>
    rename_i ih
    rw [hchar, ← cellTags_dropWhile edges c] at h
    have hrest := ih hσ hscopes h
    refine .run rfl rfl ⟨hσ, ?_⟩ hrest
    rw [hscopes]
    cases edges <;> rfl
  | case5 before scopes c rest hd ih =>
    rw [hchar] at h
    refine .cell ?_ (ih hσ hscopes h)
    rw [cellTags_char]
    exact .nil

end Emphasis
end QuartoPretext
