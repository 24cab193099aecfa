/-
# Runs of delimiters in a text

A list of nodes tells which cells it stands for, which cells are written for it
and which tags are among these. The nodes that are found in some cells stand for
these cells, and the runs among them are all the runs of the text: delimiters of
one character, as many as stand together, that do not follow a backslash.

Key definitions: `DelimiterRun.delimiters`, `DelimiterRun.stops`,
`DelimiterRun.starts`, `Node.source`, `Node.written`, `Node.tags`, `IsRun`,
`Place`, `places`.
Key theorems: `sources_nodes`, `nodes_isRun`, `nodes_complete`, `mem_places`.
-/
import QuartoPretext.Proofs.Emphasis.Tags
import QuartoPretext.Proofs.Inline.Rewrite
import Mathlib.Data.List.TakeWhile

namespace QuartoPretext

namespace Emphasis

/-- The end tags in a run of a character, with `rest` delimiters after them. -/
def stopTags (c : Char) (rest : Nat) : List Emphasis → List Tag
  | [] => []
  | e :: es => .stop c e (width e + widths es + rest) :: stopTags c rest es

/-- The start tags in a run of a character, with `rest` delimiters before them. -/
def startTags (c : Char) (rest : Nat) : List Emphasis → List Tag
  | [] => []
  | e :: es => .start c e (rest + width e) :: startTags c (rest + width e) es

theorem stopTags_snoc (c : Char) (rest : Nat) (e : Emphasis) : ∀ es : List Emphasis,
    stopTags c rest (es ++ [e]) = stopTags c (width e + rest) es ++ [.stop c e (width e + rest)]
  | [] => by simp [stopTags]
  | e' :: es => by
    simp only [List.cons_append, stopTags, stopTags_snoc c rest e es, widths_append, widths_cons, widths_nil]
    congr 2
    omega

theorem startTags_snoc (c : Char) (e : Emphasis) : ∀ (es : List Emphasis) (rest : Nat),
    startTags c rest (es ++ [e]) = startTags c rest es ++ [.start c e (rest + widths es + width e)]
  | [], rest => rfl
  | e' :: es, rest => by
    rw [List.cons_append, startTags, startTags, startTags_snoc c e es, widths_cons, List.cons_append,
      Nat.add_assoc rest]

end Emphasis

namespace DelimiterRun

open Emphasis

/-- The delimiters of a run: those that are left, and those that its tags took. -/
def delimiters (r : DelimiterRun) : Nat := widths r.closed + r.unmatched + widths r.opened

/-- The end tags of a run. -/
def stops (r : DelimiterRun) : List Tag := stopTags r.char (r.unmatched + widths r.opened) r.closed

/-- The start tags of a run. -/
def starts (r : DelimiterRun) : List Tag := startTags r.char r.unmatched r.opened

end DelimiterRun

namespace Emphasis

open DelimiterRun

/-- The mark that is written for a tag. -/
def Tag.written : Tag → List Cell
  | start _ e _ => [.mark (.emphasisOpen e)]
  | stop _ e _ => [.mark (.emphasisClose e)]
  | enter _ | leave _ => []

namespace Node

/-- The cells that a node stands for. -/
def source : Node → List Cell
  | cell c => [c]
  | run r => List.replicate r.delimiters (.char r.char)

/-- The cells that are written for a node: its tags, and the delimiters that are
left between its end tags and its start tags. -/
def written : Node → List Cell
  | cell c => [c]
  | run r => r.stops.flatMap Tag.written ++ List.replicate r.unmatched (.char r.char) ++ r.starts.flatMap Tag.written

theorem written_run (r : DelimiterRun) : (run r).written = runCells r := by
  have hstops (rest : Nat) (es : List Emphasis) :
      (stopTags r.char rest es).flatMap Tag.written = es.map fun e => .mark (.emphasisClose e) := by
    induction es with
    | nil => rfl
    | cons e es ih =>
      rw [stopTags, List.flatMap_cons, ih]
      rfl
  have hstarts (es : List Emphasis) : ∀ rest,
      (startTags r.char rest es).flatMap Tag.written = es.map fun e => .mark (.emphasisOpen e) := by
    induction es with
    | nil => exact fun _ => rfl
    | cons e es ih =>
      intro rest
      rw [startTags, List.flatMap_cons, ih]
      rfl
  rw [written, stops, starts, hstops, hstarts, runCells]

end Node

/-- The edge of a scope that a cell stands at. -/
def scopeTags : Cell → List Tag
  | .char _ => []
  | .mark m =>
    match m.opens?, m.closes? with
    | some n, _ => [.enter n]
    | none, some n => [.leave n]
    | none, none => []

/-- The edge of a scope that a cell stands at, where these edges count. -/
def cellTags : Bool → Cell → List Tag
  | true, c => scopeTags c
  | false, _ => []

@[simp] theorem cellTags_char (edges : Bool) (c : Char) : cellTags edges (.char c) = [] := by cases edges <;> rfl

/-- The tags that are written for a node, with the edges of scopes where they count. -/
def Node.tags (edges : Bool) : Node → List Tag
  | cell c => cellTags edges c
  | run r => r.stops ++ r.starts

/-- The tags that are written for some nodes. -/
def tags (edges : Bool) (ns : List Node) : List Tag := ns.flatMap (Node.tags edges)

@[simp] theorem tags_nil (edges : Bool) : tags edges [] = [] := rfl

@[simp] theorem tags_cell (edges : Bool) (c : Cell) (ns : List Node) :
    tags edges (.cell c :: ns) = cellTags edges c ++ tags edges ns := rfl

@[simp] theorem tags_run (edges : Bool) (r : DelimiterRun) (ns : List Node) :
    tags edges (.run r :: ns) = r.stops ++ r.starts ++ tags edges ns := rfl

@[simp] theorem tags_append (edges : Bool) (ns ns' : List Node) :
    tags edges (ns ++ ns') = tags edges ns ++ tags edges ns' := List.flatMap_append

theorem isElement_stops (r : DelimiterRun) : ∀ t ∈ r.stops, t.isElement := by
  have h (rest : Nat) (es : List Emphasis) : ∀ t ∈ stopTags r.char rest es, t.isElement := by
    induction es with
    | nil => nofun
    | cons e es ih => exact List.forall_mem_cons.2 ⟨rfl, ih⟩
  exact h _ _

theorem isElement_starts (r : DelimiterRun) : ∀ t ∈ r.starts, t.isElement := by
  have h (es : List Emphasis) : ∀ rest, ∀ t ∈ startTags r.char rest es, t.isElement := by
    induction es with
    | nil => exact fun _ => nofun
    | cons e es ih => exact fun rest => List.forall_mem_cons.2 ⟨rfl, ih _⟩
  exact h _ _

theorem entered_stops (r : DelimiterRun) : entered r.stops = [] := entered_of_isElement (isElement_stops r)

theorem entered_starts (r : DelimiterRun) : entered r.starts = [] := entered_of_isElement (isElement_starts r)

theorem filter_cellTags (edges : Bool) (c : Cell) : (cellTags edges c).filter Tag.isElement = [] := by
  cases edges with
  | false => rfl
  | true =>
    cases c with
    | char c => rfl
    | mark m =>
      simp only [cellTags, scopeTags]
      split <;> rfl

theorem filter_tags (edges : Bool) (ns : List Node) : (tags edges ns).filter Tag.isElement = tags false ns := by
  induction ns with
  | nil => rfl
  | cons n ns ih =>
    cases n with
    | cell c =>
      rw [tags_cell, List.filter_append, filter_cellTags, ih]
      rfl
    | run r =>
      rw [tags_run, List.filter_append, List.filter_append, List.filter_eq_self.2 (isElement_stops r),
        List.filter_eq_self.2 (isElement_starts r), ih]
      rfl

/-- The cells that some nodes stand for. -/
def sources (ns : List Node) : List Cell := ns.flatMap Node.source

@[simp] theorem sources_nil : sources [] = [] := rfl

@[simp] theorem sources_cell (c : Cell) (ns : List Node) : sources (.cell c :: ns) = c :: sources ns := rfl

@[simp] theorem sources_run (r : DelimiterRun) (ns : List Node) :
    sources (.run r :: ns) = List.replicate r.delimiters (.char r.char) ++ sources ns := rfl

@[simp] theorem sources_append (ns ns' : List Node) : sources (ns ++ ns') = sources ns ++ sources ns' :=
  List.flatMap_append

@[simp] theorem sources_cells (cs : List Cell) : sources (cs.map .cell) = cs := by
  induction cs with
  | nil => rfl
  | cons c cs ih => rw [List.map_cons, sources_cell, ih]

/-- `n` delimiters `c` between these neighbours are a run: there are no more of
them, and no backslash is before them. -/
structure IsRun (left : Option Cell) (c : Char) (n : Nat) (right : Option Cell) : Prop where
  delimiter : isDelimiter c = true
  pos : 0 < n
  left_ne : left ≠ some (.char c)
  unescaped : left ≠ some (.char '\\')
  right_ne : right ≠ some (.char c)

/-! ### Stretches of one character -/

theorem takeWhile_isChar (c : Char) (cs : List Cell) :
    cs.takeWhile (Cell.isChar c) = List.replicate (cs.takeWhile (Cell.isChar c)).length (.char c) :=
  List.eq_replicate_iff.2 ⟨rfl, fun _ hd => Cell.eq_of_isChar (List.mem_takeWhile_imp hd)⟩

theorem head?_dropWhile_isChar (c : Char) (cs : List Cell) :
    (cs.dropWhile (Cell.isChar c)).head? ≠ some (.char c) := fun h => by
  have := List.head?_dropWhile_not (Cell.isChar c) cs
  rw [h] at this
  simp [Cell.isChar] at this

theorem dropWhile_isChar_eq {c : Char} {cs : List Cell} (h : cs.head? ≠ some (.char c)) :
    cs.dropWhile (Cell.isChar c) = cs := by
  cases cs with
  | nil => rfl
  | cons d cs =>
    exact List.dropWhile_cons_of_neg fun hd => h (by rw [Cell.eq_of_isChar hd, List.head?_cons])

theorem dropWhile_replicate_append (c : Char) (n : Nat) {cs : List Cell} (h : cs.head? ≠ some (.char c)) :
    (List.replicate n (Cell.char c) ++ cs).dropWhile (Cell.isChar c) = cs := by
  rw [List.dropWhile_append_of_pos (by simp [Cell.isChar]), dropWhile_isChar_eq h]

/-- The neighbour to the left of what follows a cell and more cells. -/
theorem getLast?_cons_or (d : Cell) (cs : List Cell) (before : Option Cell) :
    (d :: cs).getLast?.or before = cs.getLast?.or (some d) := by
  rw [List.getLast?_cons]
  cases cs.getLast? <;> rfl

theorem getLast?_replicate_or (c : Char) (n : Nat) (cs : List Cell) (before : Option Cell) :
    (List.replicate (1 + n) (Cell.char c) ++ cs).getLast?.or before = cs.getLast?.or (some (.char c)) := by
  rw [List.getLast?_append, List.getLast?_replicate, if_neg (by omega)]
  cases cs.getLast? <;> rfl

theorem cons_takeWhile_isChar (c : Char) (cs : List Cell) : Cell.char c :: cs.takeWhile (Cell.isChar c) =
    List.replicate (1 + (cs.takeWhile (Cell.isChar c)).length) (.char c) := by
  rw [Nat.add_comm, List.replicate_succ, ← takeWhile_isChar]

/-- A run does not begin within a stretch of one character. -/
theorem dropWhile_before_run {c d : Char} {n : Nat} {cs ds : List Cell} {before : Option Cell}
    (h : IsRun ((Cell.char d :: cs).getLast?.or before) c n ds.head?) :
    (cs ++ List.replicate n (Cell.char c) ++ ds).dropWhile (Cell.isChar d) =
      cs.dropWhile (Cell.isChar d) ++ List.replicate n (Cell.char c) ++ ds := by
  rw [List.append_assoc, List.dropWhile_append]
  split
  · next hnil =>
    have hall : cs.dropWhile (Cell.isChar d) = [] := List.isEmpty_iff.1 hnil
    have hcs : cs.takeWhile (Cell.isChar d) = cs := by
      simpa [hall] using List.takeWhile_append_dropWhile (p := Cell.isChar d) (l := cs)
    have hlast : (Cell.char d :: cs).getLast?.or before = some (.char d) := by
      rw [← hcs, cons_takeWhile_isChar, ← List.append_nil (List.replicate _ _), getLast?_replicate_or]
      rfl
    have hne : (List.replicate n (Cell.char c) ++ ds).head? ≠ some (.char d) := by
      rw [List.head?_append, List.head?_replicate, if_neg (Nat.ne_of_gt h.pos)]
      rintro ⟨⟩
      exact h.left_ne hlast
    rw [hall, List.nil_append, dropWhile_isChar_eq hne]
  · rw [List.append_assoc]

/-- What is before a run, and after one character, is a stretch of this character
and more cells, and the run has the neighbour that these give it. -/
theorem stretch_before_run {c d : Char} {n : Nat} {cs ds : List Cell} {before : Option Cell}
    (h : IsRun ((Cell.char d :: cs).getLast?.or before) c n ds.head?) :
    cs = (cs ++ List.replicate n (Cell.char c) ++ ds).takeWhile (Cell.isChar d) ++ cs.dropWhile (Cell.isChar d) ∧
      IsRun ((cs.dropWhile (Cell.isChar d)).getLast?.or (some (.char d))) c n ds.head? := by
  have hsplit := List.takeWhile_append_dropWhile (p := Cell.isChar d) (l := cs ++ List.replicate n (Cell.char c) ++ ds)
  have hcs : (cs ++ List.replicate n (Cell.char c) ++ ds).takeWhile (Cell.isChar d) = cs.takeWhile (Cell.isChar d) := by
    have hown := List.takeWhile_append_dropWhile (p := Cell.isChar d) (l := cs)
    rw [dropWhile_before_run h, ← List.append_assoc, ← List.append_assoc, List.append_left_inj,
      List.append_left_inj] at hsplit
    exact List.append_cancel_right (hsplit.trans hown.symm)
  refine ⟨by rw [hcs, List.takeWhile_append_dropWhile], ?_⟩
  have hlast : (Cell.char d :: cs).getLast?.or before = (cs.dropWhile (Cell.isChar d)).getLast?.or (some (.char d)) := by
    rw [← List.takeWhile_append_dropWhile (p := Cell.isChar d) (l := cs), ← List.cons_append,
      cons_takeWhile_isChar, getLast?_replicate_or, List.takeWhile_append_dropWhile]
  exact hlast ▸ h

/-! ### The runs that are found -/

theorem delimiters_makeRun (c : Char) (n : Nat) (before after : Option Cell) (scope : Option Nat) :
    (makeRun c n before after scope).delimiters = n := by simp [delimiters, makeRun]

/-- The nodes that are found in some cells stand for these cells. -/
theorem sources_nodes (before : Option Cell) (scopes : List Nat) (cs : List Cell) :
    sources (nodes before scopes cs) = cs := by
  fun_induction nodes before scopes cs with
  | case1 => rfl
  | case2 before scopes m rest ih => rw [sources_cell, ih]
  | case3 before scopes c rest _ same after _ ih =>
    rw [List.cons_append, sources_cell, sources_append, sources_cells, ih, List.takeWhile_append_dropWhile]
  | case4 before scopes c rest _ same after _ ih =>
    have hchar : (makeRun c (1 + same.length) before after.head? scopes.head?).char = c := rfl
    rw [sources_run, delimiters_makeRun, ih, hchar, Nat.add_comm, List.replicate_succ, List.cons_append,
      ← takeWhile_isChar, List.takeWhile_append_dropWhile]
  | case5 before scopes c rest _ ih => rw [sources_cell, ih]

theorem cells_append_eq (cs : List Cell) {ns ns₁ ns₂ : List Node} {r : DelimiterRun}
    (h : cs.map .cell ++ ns = ns₁ ++ .run r :: ns₂) :
    ∃ ns₀, ns₁ = cs.map .cell ++ ns₀ ∧ ns = ns₀ ++ .run r :: ns₂ := by
  induction cs generalizing ns₁ with
  | nil => exact ⟨ns₁, rfl, h⟩
  | cons c cs ih =>
    cases ns₁ with
    | nil => cases h
    | cons n ns₁ =>
      obtain ⟨hn, h⟩ := List.cons_eq_cons.1 h
      obtain ⟨ns₀, rfl, hns⟩ := ih h
      exact ⟨ns₀, by rw [← hn]; rfl, hns⟩

/-- Every run that is found is one, and is as its neighbours make it. -/
theorem nodes_isRun (before : Option Cell) (scopes : List Nat) (cs : List Cell)
    (hb : ∀ c, isDelimiter c = true → before = some (.char c) → cs.head? ≠ some (.char c))
    {ns₁ ns₂ : List Node} {r : DelimiterRun} (h : nodes before scopes cs = ns₁ ++ .run r :: ns₂) :
    IsRun ((sources ns₁).getLast?.or before) r.char r.length (sources ns₂).head? ∧
      ∃ scope, r = makeRun r.char r.length ((sources ns₁).getLast?.or before) (sources ns₂).head? scope := by
  -- after a stretch of one character there are no more of them
  have hdrop (c : Char) (rest : List Cell) (d : Char) (hd : some (Cell.char c) = some (.char d)) :
      (rest.dropWhile (Cell.isChar c)).head? ≠ some (.char d) := by
    cases hd
    exact head?_dropWhile_isChar c rest
  fun_induction nodes before scopes cs generalizing ns₁ with
  | case1 => simp at h
  | case2 before scopes m rest ih =>
    obtain ⟨ns₀, rfl, h'⟩ := cells_append_eq [.mark m] h
    rw [sources_append, sources_cells, List.singleton_append, getLast?_cons_or]
    exact ih (fun c _ hc => by cases hc) h'
  | case3 before scopes c rest hd same after _ =>
    rename_i ih
    obtain ⟨ns₀, rfl, h'⟩ := cells_append_eq (.char c :: same) h
    rw [sources_append, sources_cells, cons_takeWhile_isChar, getLast?_replicate_or]
    exact ih (fun d _ => hdrop c rest d) h'
  | case4 before scopes c rest hd same after hesc =>
    rename_i ih
    cases ns₁ with
    | nil =>
      obtain ⟨hr, hns⟩ := List.cons_eq_cons.1 h
      cases hr
      rw [← hns, sources_nodes]
      exact ⟨⟨hd, Nat.le_add_right 1 _, fun hc => hb c hd hc rfl, fun hc => hesc (beq_iff_eq.2 hc),
        head?_dropWhile_isChar c rest⟩, scopes.head?, rfl⟩
    | cons n ns₁ =>
      obtain ⟨rfl, h'⟩ := List.cons_eq_cons.1 h
      have hchar : (makeRun c (1 + same.length) before after.head? scopes.head?).char = c := rfl
      rw [sources_run, delimiters_makeRun, hchar, getLast?_replicate_or]
      exact ih (fun d _ => hdrop c rest d) h'
  | case5 before scopes c rest hd ih =>
    obtain ⟨ns₀, rfl, h'⟩ := cells_append_eq [.char c] h
    rw [sources_append, sources_cells, List.singleton_append, getLast?_cons_or]
    exact ih (fun d hd' hc => by cases hc; exact absurd hd' hd) h'

/-- Every run of the text is found. -/
theorem nodes_complete (before : Option Cell) (scopes : List Nat) (cs : List Cell) {c : Char} {n : Nat}
    {ds ds' : List Cell} (hcs : cs = ds ++ List.replicate n (.char c) ++ ds')
    (h : IsRun (ds.getLast?.or before) c n ds'.head?) : ∃ ns₁ r ns₂, nodes before scopes cs = ns₁ ++ .run r :: ns₂ ∧
      sources ns₁ = ds ∧ r.char = c ∧ r.length = n ∧ sources ns₂ = ds' := by
  obtain ⟨k, rfl⟩ : ∃ k, n = k + 1 := ⟨n - 1, by have := h.pos; omega⟩
  fun_induction nodes before scopes cs generalizing ds with
  | case1 => simp at hcs
  | case2 before scopes m rest ih =>
    cases ds with
    | nil => cases hcs
    | cons d ds =>
      obtain ⟨rfl, hrest⟩ := List.cons_eq_cons.1 hcs
      rw [getLast?_cons_or] at h
      obtain ⟨ns₁, r, ns₂, hns, hds, hr⟩ := ih hrest h
      exact ⟨.cell (.mark m) :: ns₁, r, ns₂, by rw [hns]; rfl, by rw [sources_cell, hds], hr⟩
  | case3 before scopes d rest hd same after hesc =>
    rename_i ih
    cases ds with
    | nil => exact absurd (beq_iff_eq.1 hesc) h.unescaped
    | cons x ds =>
      -- the run comes after the whole of the escaped stretch
      obtain ⟨rfl, rfl⟩ := List.cons_eq_cons.1 hcs
      obtain ⟨hstretch, h'⟩ := stretch_before_run h
      obtain ⟨ns₁, r, ns₂, hns, hds, hr⟩ := ih (dropWhile_before_run h) h'
      refine ⟨(.char d :: same).map .cell ++ ns₁, r, ns₂, ?_, ?_, hr⟩
      · rw [hns, List.append_assoc]
        rfl
      · rw [sources_append, sources_cells, hds]
        exact congrArg (Cell.char d :: ·) hstretch.symm
  | case4 before scopes d rest hd same after hesc =>
    rename_i ih
    cases ds with
    | nil =>
      -- the run is the one that is found here
      obtain ⟨hc, rfl⟩ := List.cons_eq_cons.1 hcs
      cases hc
      have hafter : after = ds' := dropWhile_replicate_append c k h.right_ne
      have hsame : same.length = k := by
        have hsplit : (same ++ after).length = (List.replicate k (Cell.char c) ++ ds').length :=
          congrArg _ List.takeWhile_append_dropWhile
        rw [hafter, List.length_append, List.length_append, List.length_replicate] at hsplit
        exact Nat.add_right_cancel hsplit
      exact ⟨[], _, _, rfl, rfl, rfl, by rw [makeRun, hsame, Nat.add_comm], by rw [sources_nodes, hafter]⟩
    | cons x ds =>
      obtain ⟨rfl, rfl⟩ := List.cons_eq_cons.1 hcs
      obtain ⟨hstretch, h'⟩ := stretch_before_run h
      obtain ⟨ns₁, r, ns₂, hns, hds, hr⟩ := ih (dropWhile_before_run h) h'
      refine ⟨.run _ :: ns₁, r, ns₂, by rw [hns]; rfl, ?_, hr⟩
      have hchar : (makeRun d (1 + same.length) before after.head? scopes.head?).char = d := rfl
      rw [sources_run, delimiters_makeRun, hds, hchar, ← cons_takeWhile_isChar]
      exact congrArg (Cell.char d :: ·) hstretch.symm
  | case5 before scopes d rest hd ih =>
    cases ds with
    | nil =>
      obtain ⟨hc, -⟩ := List.cons_eq_cons.1 hcs
      cases hc
      exact absurd h.delimiter hd
    | cons x ds =>
      obtain ⟨rfl, hrest⟩ := List.cons_eq_cons.1 hcs
      rw [getLast?_cons_or] at h
      obtain ⟨ns₁, r, ns₂, hns, hds, hr⟩ := ih hrest h
      exact ⟨.cell (.char d) :: ns₁, r, ns₂, by rw [hns]; rfl, by rw [sources_cell, hds], hr⟩

/-! ### Places -/

/-- A run with the nodes before and after it. -/
structure Place where
  before : List Node
  run : DelimiterRun
  after : List Node

/-- The places of the runs among some nodes, which come after `before`. -/
def places (before : List Node) : List Node → List Place
  | [] => []
  | .cell c :: ns => places (before ++ [.cell c]) ns
  | .run r :: ns => ⟨before, r, ns⟩ :: places (before ++ [.run r]) ns

theorem mem_places_iff {p : Place} : ∀ {ns before : List Node}, p ∈ places before ns ↔
    ∃ more, p.before = before ++ more ∧ ns = more ++ .run p.run :: p.after
  | [], before => by simp [places]
  | .cell c :: ns, before => by
    rw [places, mem_places_iff]
    constructor
    · rintro ⟨more, hbefore, rfl⟩
      exact ⟨.cell c :: more, by rw [hbefore, List.append_assoc]; rfl, rfl⟩
    · rintro ⟨more, hbefore, hns⟩
      cases more with
      | nil => cases hns
      | cons n more =>
        obtain ⟨rfl, rfl⟩ := List.cons_eq_cons.1 hns
        exact ⟨more, by rw [hbefore, List.append_assoc]; rfl, rfl⟩
  | .run r :: ns, before => by
    rw [places, List.mem_cons, mem_places_iff]
    constructor
    · rintro (rfl | ⟨more, hbefore, rfl⟩)
      · exact ⟨[], (List.append_nil _).symm, rfl⟩
      · exact ⟨.run r :: more, by rw [hbefore, List.append_assoc]; rfl, rfl⟩
    · rintro ⟨more, hbefore, hns⟩
      cases more with
      | nil =>
        obtain ⟨hr, rfl⟩ := List.cons_eq_cons.1 hns
        cases hr
        rw [List.append_nil] at hbefore
        exact .inl (by rw [← hbefore])
      | cons n more =>
        obtain ⟨rfl, rfl⟩ := List.cons_eq_cons.1 hns
        exact .inr ⟨more, by rw [hbefore, List.append_assoc]; rfl, rfl⟩

theorem mem_places {p : Place} {ns : List Node} :
    p ∈ places [] ns ↔ ns = p.before ++ .run p.run :: p.after := by simp [mem_places_iff]

end Emphasis
end QuartoPretext
