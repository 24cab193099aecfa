/-
# Bodies in bodies are smaller and smaller

While a block is handled, lines are converted that stand in it: the body of a
div, parts of it, a body or an item from which a title has been taken. Their
number need not be smaller than that of the lines of the block, but their size
is. So one body stands in another one no deeper than the size of the document,
and every conversion comes to its end, or to a fault.

Key definitions: `Task.size`, `Nests`.
Key theorems: `Reached.size_le`, `Nests.totalSize_lt`, `convert_descends`.
-/
import QuartoPretext.Proofs.Document.Bodies
import QuartoPretext.Proofs.Document.WellFormed

namespace QuartoPretext

open Line

/-- The size of the largest lines that a task comes to at once. -/
def Task.size : Task → Nat
  | piece p => p.weight
  | pieces ps => Piece.weightOf ps
  | lines _ ls => totalSize ls

variable {set : Setting} {ctx : Inline.Context}

theorem Block.weightOf_plan_lt {l : Line} {more rest : List Line} {b : Block} {context : Context} {count : Nat}
    (h : Block.read l (more ++ rest) = .ok (b, rest)) :
    Piece.weightOf (Plan.ofBlock set context count b) < totalSize (l :: more) := by
  have hbody : ∀ body ∈ b.bodies, totalSize body ≤ totalSize (l :: more) - 1 := by
    intro body hmem
    have hsize := (Block.read_size h).2 body hmem
    rw [← List.cons_append, totalSize_append] at hsize
    omega
  have hplan : Piece.weightOf (Plan.ofBlock set context count b) ≤ _ := Plan.weightOf_ofBlock hbody
  have hpos : 0 < totalSize (l :: more) := by
    rw [totalSize_cons]
    omega
  omega

/-- What a task comes to is no larger than the task. -/
theorem Reached.size_le {t₀ t : Task} {s₀ s : Session} (h : Reached set ctx t₀ s₀ t s) : t.size ≤ t₀.size := by
  induction h with
  | start => exact Nat.le_refl _
  | content _ ih => simpa [Task.size, Piece.weight] using ih
  | body _ ih => simpa [Task.size, Piece.weight] using ih
  | first _ ih => exact Nat.le_trans (Nat.le_max_left ..) ih
  | next _ _ ih => exact Nat.le_trans (Nat.le_max_right ..) ih
  | block _ hb ih =>
    obtain ⟨more, rfl⟩ := Block.rest_suffix hb
    refine Nat.le_trans (Nat.le_of_lt (Block.weightOf_plan_lt hb)) (Nat.le_trans ?_ ih)
    simp only [Task.size, ← List.cons_append, totalSize_append]
    omega
  | nextBlock _ hb _ ih => exact Nat.le_trans (Nat.le_of_lt (Block.totalSize_rest hb)) ih

/-- The lines `inner` are converted while a block of the lines `outer` is handled. -/
def Nests (set : Setting) (ctx : Inline.Context) (outer inner : List Line) : Prop :=
  ∃ (taken : List Line) (b : Block) (context context' : Context) (s s' : Session),
    (taken, b) ∈ (Cursor.ofLines outer).readAll.blocks ∧
    Reached set ctx (.pieces (Plan.ofBlock set context s.exerciseCount b)) { s with line := some b.line }
      (.lines context' inner) s'

/-- Lines that are converted while a block is handled are smaller than the lines
that the block took. -/
theorem Block.totalSize_reached_lt {taken ls : List Line} {c : Cursor} {b : Block} {context context' : Context}
    {s s' : Session} (hb : (taken, b) ∈ c.readAll.blocks)
    (h : Reached set ctx (.pieces (Plan.ofBlock set context s.exerciseCount b)) { s with line := some b.line }
      (.lines context' ls) s') : totalSize ls < totalSize taken := by
  obtain ⟨l, more, rest, rfl, _, hread⟩ := Cursor.mem_readAll hb
  exact Nat.lt_of_le_of_lt h.size_le (Block.weightOf_plan_lt hread)

theorem Cursor.totalSize_taken_le {c : Cursor} {taken : List Line} {b : Block}
    (h : (taken, b) ∈ c.readAll.blocks) : totalSize taken ≤ totalSize c.rest := by
  obtain ⟨l, more, rest, rfl, hpasses, _⟩ := Cursor.mem_readAll h
  exact totalSize_le_of_sublist ((List.sublist_append_left _ _).trans hpasses.suffix.sublist)

theorem Nests.totalSize_lt {outer inner : List Line} (h : Nests set ctx outer inner) :
    totalSize inner < totalSize outer := by
  obtain ⟨taken, b, _, _, _, _, hb, hr⟩ := h
  exact Nat.lt_of_lt_of_le (Block.totalSize_reached_lt hb hr) (Cursor.totalSize_taken_le hb)

/-- Lines that stand one in the other are no more than the size of the outermost ones. -/
theorem Nests.length_le : ∀ {inner : List (List Line)} {outer : List Line},
    (outer :: inner).IsChain (Nests set ctx) → inner.length ≤ totalSize outer
  | [], _, _ => Nat.zero_le _
  | ls :: inner, outer, h => by
    obtain ⟨hfirst, hmore⟩ := List.isChain_cons_cons.1 h
    have hlt := hfirst.totalSize_lt
    have ih := length_le hmore
    rw [List.length_cons]
    omega

/-- A conversion comes to its end, or to a task that fails in its first step. -/
theorem convert_settles (set : Setting) (input : Text) :
    (∃ s, Runs set (Conversion.contextOf set input) (.lines .document (ofText input)) .start s ∧
      convert set input = .ok (.ofSession set (Conversion.contextOf set input) s)) ∨
    ∃ f t s, Reached set (Conversion.contextOf set input) (.lines .document (ofText input)) .start t s ∧
      t.Breaks set (Conversion.contextOf set input) f s ∧ convert set input = .error f := by
  cases h : convertLines set (Conversion.contextOf set input) .document (ofText input) .start with
  | ok s => exact .inl ⟨s, runs_iff.2 h, Conversion.convert_of_run h⟩
  | error f =>
    obtain ⟨t, s, hr, hf⟩ := exists_reached_of_error (t := .lines .document (ofText input)) h
    exact .inr ⟨f, t, s, hr, hf, convert_eq_error_iff.2 h⟩

/-- Conversion descends. Lines that are converted while a block is handled are
smaller than the lines that the block took, however they are rewritten; so
lines stand one in the other no deeper than the size of the outermost ones, and
every conversion ends with a session or at a fault. -/
theorem convert_descends (set : Setting) (ctx : Inline.Context) :
    (∀ (ls taken : List Line) (b : Block), (taken, b) ∈ (Cursor.ofLines ls).readAll.blocks →
      ∀ (context context' : Context) (ls' : List Line) (s s' : Session),
        Reached set ctx (.pieces (Plan.ofBlock set context s.exerciseCount b)) { s with line := some b.line }
          (.lines context' ls') s' → totalSize ls' < totalSize taken) ∧
    (∀ (outer : List Line) (inner : List (List Line)),
      (outer :: inner).IsChain (Nests set ctx) → inner.length ≤ totalSize outer) ∧
    ∀ input : Text,
      (∃ s, Runs set (Conversion.contextOf set input) (.lines .document (ofText input)) .start s ∧
        convert set input = .ok (.ofSession set (Conversion.contextOf set input) s)) ∨
      ∃ f t s, Reached set (Conversion.contextOf set input) (.lines .document (ofText input)) .start t s ∧
        t.Breaks set (Conversion.contextOf set input) f s ∧ convert set input = .error f :=
  ⟨fun _ _ _ hb _ _ _ _ _ hr => Block.totalSize_reached_lt hb hr, fun _ _ => Nests.length_le,
    convert_settles set⟩

/-- The text after a title is smaller than the div that the title was taken from. -/
theorem convert_descends_important :
    Nests ⟨.ofKind .chapter, none⟩ (.of (.ofKind .chapter) .empty)
      [⟨1, "::: important".toList⟩, ⟨2, "**T** x".toList⟩, ⟨3, ":::".toList⟩] [⟨2, ['x']⟩] ∧
    totalSize [⟨2, ['x']⟩] <
      totalSize [⟨1, "::: important".toList⟩, ⟨2, "**T** x".toList⟩, ⟨3, ":::".toList⟩] := by
  let set : Setting := ⟨.ofKind .chapter, none⟩
  let ctx : Inline.Context := .of set.profile .empty
  let ls : List Line := [⟨1, "::: important".toList⟩, ⟨2, "**T** x".toList⟩, ⟨3, ":::".toList⟩]
  let b : Block := .div 1 "important".toList ⟨none, ["important".toList], .ofList []⟩ [⟨2, "**T** x".toList⟩]
  have hread : (Cursor.ofLines ls).read = (.ok b, ⟨[], 3⟩) := by decide +kernel
  have hblocks : (ls, b) ∈ (Cursor.ofLines ls).readAll.blocks := by
    have hrest : (Cursor.ofLines ls).rest = ls ++ (Cursor.mk [] 3).rest := rfl
    rw [Cursor.readAll_ok hrest (List.cons_ne_nil _ _) hread]
    exact List.mem_cons_self
  have hreached : Reached set ctx (.pieces (Plan.ofBlock set .document 0 b)) { Session.start with line := some 1 }
      (.lines .container [⟨2, ['x']⟩]) _ :=
    .body (.first (.next (.content (.first .start)) (.write rfl rfl)))
  exact ⟨⟨ls, b, .document, .container, .start, _, hblocks, hreached⟩,
    (convert_descends set ctx).1 ls ls b hblocks .document .container _ .start _ hreached⟩

end QuartoPretext
