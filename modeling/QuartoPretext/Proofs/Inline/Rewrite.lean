/-
# Rewriting cells

A rule reads cells from left to right: it keeps cells, makes marks of stretches
of characters, and may drop such stretches. `Rewrites` says so of the cells
before and after a rule. Marks that are there already are kept in order.

Key definitions: `Cell.marks`, `Rewrites`.
Key theorems: `Text.scan_induction`, `Span.marks_mapText`, `Rewrites.marks`,
`Rewrites.mem_marks`, `Rewrites.apart`, `Rewrites.trans`, `Rewrites.mapText`.
-/
import QuartoPretext.Inline.Span
import QuartoPretext.Text.Scan

namespace QuartoPretext

/-- Induction over the places that a scan stops at. -/
theorem Text.scan_induction {α : Type} {literal : Char → α} {find : Text → Option (List α × Text)}
    {D : Text → List α → Prop} (nil : D [] [])
    (char : ∀ c s out, D s out → D (c :: s) (literal c :: out))
    (found : ∀ s xs rest out, find s = some (xs, rest) → D rest out → D s (xs ++ out)) :
    ∀ s, D s (scan literal find s)
  | [] => by
    rw [scan]
    exact nil
  | c :: s => by
    rw [scan]
    split
    · next xs rest hf =>
      split
      · exact found _ _ _ _ hf (scan_induction nil char found rest)
      · exact char _ _ _ (scan_induction nil char found s)
    · exact char _ _ _ (scan_induction nil char found s)
termination_by s => s.length
decreasing_by
  all_goals simp only [List.length_cons]
  all_goals omega

/-! ### Marks among cells -/

def Cell.mark? : Cell → Option Mark
  | char _ => none
  | mark m => some m

/-- The marks among some cells. -/
def Cell.marks (cs : List Cell) : List Mark := cs.filterMap Cell.mark?

@[simp] theorem Cell.marks_nil : marks [] = [] := rfl

@[simp] theorem Cell.marks_char (c : Char) (cs : List Cell) : marks (.char c :: cs) = marks cs := rfl

@[simp] theorem Cell.marks_mark (m : Mark) (cs : List Cell) : marks (.mark m :: cs) = m :: marks cs := rfl

@[simp] theorem Cell.marks_append (cs ds : List Cell) : marks (cs ++ ds) = marks cs ++ marks ds :=
  List.filterMap_append

theorem Cell.marks_replicate (n : Nat) (c : Char) : marks (List.replicate n (.char c)) = [] :=
  List.filterMap_eq_nil_iff.2 fun d hd => by
    rw [List.eq_of_mem_replicate hd]
    rfl

theorem Text.marks_scan {find : Text → Option (List Cell × Text)} {Q : Mark → Prop}
    (hf : ∀ t xs rest, find t = some (xs, rest) → ∀ m ∈ Cell.marks xs, Q m) (s : Text) :
    ∀ m ∈ Cell.marks (scan Cell.char find s), Q m := by
  refine scan_induction (D := fun _ cs => ∀ m ∈ Cell.marks cs, Q m) nofun ?_ ?_ s
  · exact fun c s out h => h
  · intro s xs rest out h ih m hm
    rw [Cell.marks_append, List.mem_append] at hm
    rcases hm with hm | hm
    · exact hf s xs rest h m hm
    · exact ih m hm

theorem Cell.eq_of_isChar {c : Char} : ∀ {cell : Cell}, cell.isChar c → cell = .char c
  | .char d, h => by rw [beq_iff_eq.1 h]
  | .mark _, h => by cases h

namespace Span

theorem cellsOf_append (s t : Text) : cellsOf (s ++ t) = cellsOf s ++ cellsOf t := List.map_append

@[simp] theorem marks_cellsOf (s : Text) : Cell.marks (cellsOf s) = [] := by
  simp [Cell.marks, cellsOf, List.filterMap_map, Function.comp_def, Cell.mark?]

@[simp] theorem toCells_text (s : Text) (spans : List Span) :
    toCells (.text s :: spans) = cellsOf s ++ toCells spans := rfl

@[simp] theorem toCells_mark (m : Mark) (spans : List Span) :
    toCells (.mark m :: spans) = .mark m :: toCells spans := rfl

@[simp] theorem toCells_ofCells : ∀ cs : List Cell, toCells (ofCells cs) = cs
  | [] => rfl
  | .mark m :: cs => by simp [ofCells, toCells_ofCells cs]
  | .char c :: cs => by
    have ih := toCells_ofCells cs
    unfold ofCells
    split
    · next s more h =>
      rw [h] at ih
      rw [← ih]
      rfl
    · next more =>
      rw [toCells_text, ih]
      rfl

theorem marks_toCells : ∀ spans : List Span, Cell.marks (toCells spans) = marks spans
  | [] => rfl
  | .text s :: spans => by
    rw [toCells_text, Cell.marks_append, marks_cellsOf, marks_toCells spans]
    rfl
  | .mark m :: spans => by
    rw [toCells_mark, Cell.marks_mark, marks_toCells spans]
    rfl

theorem marks_ofCells (cs : List Cell) : marks (ofCells cs) = Cell.marks cs := by
  rw [← marks_toCells, toCells_ofCells]

/-- The cells that spans become when every text is transformed on its own. -/
def mapCells (f : Text → List Cell) (spans : List Span) : List Cell :=
  spans.flatMap fun
    | text s => f s
    | mark m => [.mark m]

theorem toCells_mapText (f : Text → List Cell) (spans : List Span) :
    toCells (mapText f spans) = mapCells f spans := toCells_ofCells _

/-- Transforming texts keeps the marks in order. -/
theorem marks_mapText (f : Text → List Cell) (spans : List Span) :
    (marks spans).Sublist (marks (mapText f spans)) := by
  rw [← marks_toCells, ← marks_toCells, toCells_mapText]
  induction spans with
  | nil => exact .slnil
  | cons span spans ih =>
    cases span with
    | text s =>
      have hs : mapCells f (.text s :: spans) = f s ++ mapCells f spans := rfl
      rw [hs, toCells_text, Cell.marks_append, Cell.marks_append, marks_cellsOf, List.nil_append]
      exact ih.trans (List.sublist_append_right _ _)
    | mark m =>
      have hm : mapCells f (.mark m :: spans) = .mark m :: mapCells f spans := rfl
      rw [hm, toCells_mark, Cell.marks_mark, Cell.marks_mark]
      exact ih.cons_cons m

end Span

/-! ### Rewriting cells -/

/-- What a rule makes of cells, in order: it keeps a cell, makes a mark of a
stretch of characters, or drops a stretch. -/
inductive Rewrites (makes : Text → Mark → Prop) (drops : Text → Prop) : List Cell → List Cell → Prop
  | nil : Rewrites makes drops [] []
  | keep {c : Cell} {cs ds : List Cell} : Rewrites makes drops cs ds → Rewrites makes drops (c :: cs) (c :: ds)
  | mark {used : Text} {m : Mark} {cs ds : List Cell} : makes used m → Rewrites makes drops cs ds →
      Rewrites makes drops (Span.cellsOf used ++ cs) (.mark m :: ds)
  | drop {used : Text} {cs ds : List Cell} : drops used → Rewrites makes drops cs ds →
      Rewrites makes drops (Span.cellsOf used ++ cs) ds

/-- Of a rule that drops nothing. -/
def dropsNothing (_ : Text) : Prop := False

namespace Rewrites

variable {makes makes' : Text → Mark → Prop} {drops drops' : Text → Prop} {cs ds es : List Cell}

theorem append {cs' ds' : List Cell} (h : Rewrites makes drops cs ds) (h' : Rewrites makes drops cs' ds') :
    Rewrites makes drops (cs ++ cs') (ds ++ ds') := by
  induction h with
  | nil => exact h'
  | keep _ ih => exact .keep ih
  | mark hm _ ih =>
    rw [List.append_assoc]
    exact .mark hm ih
  | drop hd _ ih =>
    rw [List.append_assoc]
    exact .drop hd ih

theorem refl : ∀ cs : List Cell, Rewrites makes drops cs cs
  | [] => .nil
  | _ :: cs => .keep (refl cs)

theorem single {used : Text} {m : Mark} (h : makes used m) :
    Rewrites makes drops (Span.cellsOf used) [.mark m] :=
  List.append_nil (Span.cellsOf used) ▸ .mark h .nil

theorem dropped {used : Text} (h : drops used) : Rewrites makes drops (Span.cellsOf used) [] :=
  List.append_nil (Span.cellsOf used) ▸ .drop h .nil

theorem marks (h : Rewrites makes drops cs ds) : (Cell.marks cs).Sublist (Cell.marks ds) := by
  induction h with
  | nil => exact .slnil
  | @keep c cs ds _ ih =>
    cases c with
    | char c => exact ih
    | mark m => exact ih.cons_cons m
  | mark _ _ ih =>
    rw [Cell.marks_append, Span.marks_cellsOf, List.nil_append, Cell.marks_mark]
    exact ih.cons _
  | drop _ _ ih =>
    rw [Cell.marks_append, Span.marks_cellsOf, List.nil_append]
    exact ih

/-- A mark was there before, or was made of characters that were. -/
theorem mem_marks (h : Rewrites makes drops cs ds) : ∀ m ∈ Cell.marks ds,
    m ∈ Cell.marks cs ∨ ∃ used, makes used m ∧ ∀ c ∈ used, Cell.char c ∈ cs := by
  induction h with
  | nil => simp
  | @keep c cs ds _ ih =>
    intro m hm
    have ih' (hm : m ∈ Cell.marks ds) :
        m ∈ Cell.marks (c :: cs) ∨ ∃ used, makes used m ∧ ∀ c' ∈ used, Cell.char c' ∈ c :: cs := by
      rcases ih m hm with h | ⟨used, hu, hc⟩
      · exact .inl (((List.sublist_cons_self c cs).filterMap _).subset h)
      · exact .inr ⟨used, hu, fun c' hc' => List.mem_cons_of_mem c (hc c' hc')⟩
    cases c with
    | char c => exact ih' hm
    | mark m' =>
      rcases List.mem_cons.1 hm with rfl | hm
      · exact .inl List.mem_cons_self
      · exact ih' hm
  | @mark used m' cs ds hmake _ ih =>
    intro m hm
    rw [Cell.marks_append, Span.marks_cellsOf, List.nil_append]
    rcases List.mem_cons.1 hm with rfl | hm
    · exact .inr ⟨used, hmake, fun c hc => List.mem_append_left cs (List.mem_map_of_mem hc)⟩
    · rcases ih m hm with h | ⟨used', hu, hc⟩
      · exact .inl h
      · exact .inr ⟨used', hu, fun c hc' => List.mem_append_right _ (hc c hc')⟩
  | drop _ _ ih =>
    intro m hm
    rw [Cell.marks_append, Span.marks_cellsOf, List.nil_append]
    rcases ih m hm with h | ⟨used', hu, hc⟩
    · exact .inl h
    · exact .inr ⟨used', hu, fun c hc' => List.mem_append_right _ (hc c hc')⟩

/-- If what is dropped starts with a character, that character comes after no
other cell than before. -/
theorem apart {c d : Char} (hdrops : ∀ used, drops used → used.head? = some d)
    (h : Rewrites makes drops cs ds) (hcs : ¬[Cell.char c, .char d] <:+: cs) :
    ¬[Cell.char c, .char d] <:+: ds := by
  have hhead {cs ds : List Cell} (h : Rewrites makes drops cs ds) (hd : ds.head? = some (.char d)) :
      cs.head? = some (.char d) := by
    cases h with
    | nil => exact hd
    | keep _ => exact hd
    | mark _ _ => cases hd
    | @drop used _ _ hu _ =>
      obtain ⟨rest, rfl⟩ := List.head?_eq_some_iff.1 (hdrops used hu)
      rfl
  induction h with
  | nil => exact hcs
  | @keep c' cs ds h ih =>
    intro hin
    rcases List.infix_cons_iff.1 hin with hpre | hin
    · obtain ⟨rfl, hnext⟩ := List.cons_prefix_cons.1 hpre
      obtain ⟨after, rfl⟩ := hnext
      obtain ⟨rest, rfl⟩ := List.head?_eq_some_iff.1 (hhead h rfl)
      exact hcs ⟨[], rest, rfl⟩
    · exact ih (fun h' => hcs (h'.trans (List.suffix_cons c' cs).isInfix)) hin
  | @mark used m cs ds _ h ih =>
    intro hin
    rcases List.infix_cons_iff.1 hin with hpre | hin
    · cases (List.cons_prefix_cons.1 hpre).1
    · exact ih (fun h' => hcs (h'.trans (List.suffix_append _ _).isInfix)) hin
  | drop _ h ih => exact ih fun h' => hcs (h'.trans (List.suffix_append _ _).isInfix)

theorem split_chars : ∀ {used : Text} {cs ds : List Cell},
    Rewrites makes dropsNothing cs (Span.cellsOf used ++ ds) →
      ∃ cs', cs = Span.cellsOf used ++ cs' ∧ Rewrites makes dropsNothing cs' ds
  | [], cs, ds, h => ⟨cs, rfl, h⟩
  | c :: used, cs, ds, h => by
    have h' : Rewrites makes dropsNothing cs (.char c :: (Span.cellsOf used ++ ds)) := h
    cases h' with
    | keep h' =>
      obtain ⟨cs', rfl, hcs⟩ := split_chars h'
      exact ⟨cs', rfl, hcs⟩
    | drop hd _ => exact hd.elim

/-- One rule after the other, if nothing is dropped: a mark of the second one is
made of characters that were there before the first one. -/
theorem trans (h : Rewrites makes dropsNothing cs ds) (h' : Rewrites makes' dropsNothing ds es) :
    Rewrites (fun used m => makes used m ∨ makes' used m) dropsNothing cs es := by
  induction h' generalizing cs with
  | nil =>
    cases h with
    | nil => exact .nil
    | drop hd _ => exact hd.elim
  | keep _ ih =>
    cases h with
    | keep h => exact .keep (ih h)
    | mark hm h => exact .mark (.inl hm) (ih h)
    | drop hd _ => exact hd.elim
  | mark hm _ ih =>
    obtain ⟨cs', rfl, hcs⟩ := split_chars h
    exact .mark (.inr hm) (ih hcs)
  | drop hd _ _ => exact hd.elim

theorem mono (h : Rewrites makes drops cs ds) (hm : ∀ used m, makes used m → makes' used m) :
    Rewrites makes' drops cs ds := by
  induction h with
  | nil => exact .nil
  | keep _ ih => exact .keep ih
  | mark h _ ih => exact .mark (hm _ _ h) ih
  | drop h _ ih => exact .drop h ih

/-- A rule for texts rewrites the cells of spans. -/
theorem mapText {f : Text → List Cell} (spans : List Span)
    (hf : ∀ s, Span.text s ∈ spans → Rewrites makes drops (Span.cellsOf s) (f s)) :
    Rewrites makes drops (Span.toCells spans) (Span.toCells (Span.mapText f spans)) := by
  rw [Span.toCells_mapText]
  induction spans with
  | nil => exact .nil
  | cons span spans ih =>
    have ih := ih fun s hs => hf s (List.mem_cons_of_mem span hs)
    cases span with
    | text s => exact (hf s List.mem_cons_self).append ih
    | mark m => exact .keep ih

/-- A scan rewrites a text, if what the recogniser finds does so. -/
theorem scan {find : Text → Option (List Cell × Text)}
    (hf : ∀ s xs rest, find s = some (xs, rest) →
      ∃ used, s = used ++ rest ∧ Rewrites makes drops (Span.cellsOf used) xs) (s : Text) :
    Rewrites makes drops (Span.cellsOf s) (Text.scan Cell.char find s) := by
  refine Text.scan_induction (D := fun s cs => Rewrites makes drops (Span.cellsOf s) cs) .nil ?_ ?_ s
  · exact fun c s out h => .keep h
  · intro s xs rest out h ih
    obtain ⟨used, rfl, hu⟩ := hf s xs rest h
    rw [Span.cellsOf, List.map_append]
    exact hu.append ih

end Rewrites
end QuartoPretext
