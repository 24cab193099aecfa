/-
# Citations, markers and notes

A citation becomes a mark, and a marker becomes a mark or is dropped. Where no
caret stands before a bracket there is no inline note, and dropping markers
brings no caret before a bracket.

Key definitions: `Footnote.IsMarker`, `Footnote.definitionsOf`, `Note.Plain`.
Key theorems: `Citation.resolve_rewrites`, `Footnote.resolve_rewrites`,
`Note.toCells_resolve`.
-/
import QuartoPretext.Block.Size
import QuartoPretext.Inline.Citation
import QuartoPretext.Inline.Footnote
import QuartoPretext.Proofs.Inline.Bracket

namespace QuartoPretext

/-! ### Citations -/

namespace Citation

open Text

theorem item?_suffix {s rest : Text} {r : Reference} (h : item? s = some (r, rest)) : rest <:+ s := by
  unfold item? at h
  simp only at h
  split at h
  · next c after hstart =>
    split at h
    · cases h
      have hafter : after <:+ trimStart s := by
        split at hstart
        · exact (List.suffix_cons c after).trans
            ((List.suffix_cons '@' _).trans (hstart ▸ List.drop_suffix 1 _))
        · exact (List.suffix_cons c after).trans (hstart ▸ List.suffix_cons '@' _)
      exact (List.dropWhile_suffix _).trans (hafter.trans (List.dropWhile_suffix _))
    · cases h
  · cases h

theorem items?_found : ∀ {n : Nat} {s rest : Text} {refs : List Reference}, items? n s = some (refs, rest) →
    refs ≠ [] ∧ rest <:+ s
  | 0, _, _, _, h => by cases h
  | n + 1, s, rest, refs, h => by
    unfold items? at h
    split at h
    · next r rest' hi =>
      cases h
      exact ⟨nofun, (List.suffix_cons ']' rest).trans (item?_suffix hi)⟩
    · next r rest' hi =>
      obtain ⟨⟨rs, after⟩, hrs, he⟩ := Option.map_eq_some_iff.1 h
      cases he
      have ih := (items?_found hrs).2
      exact ⟨nofun, ih.trans ((List.suffix_cons ';' rest').trans (item?_suffix hi))⟩
    · cases h

theorem find?_found {s rest : Text} {refs : List Reference} (h : find? s = some (refs, rest)) :
    refs ≠ [] ∧ rest <:+ s := by
  obtain ⟨inside, hd, hi⟩ := Option.bind_eq_some_iff.1 h
  obtain ⟨hne, hsuf⟩ := items?_found hi
  refine ⟨hne, hsuf.trans ?_⟩
  rw [← append_eq_of_dropPrefix? hd]
  exact List.suffix_append _ _

theorem kept_xref (isTarget : Text → Bool) (refs : List Reference) : kept .xref isTarget refs = refs := by
  simp [kept]

/-- Under the policy that keeps all references, citations become marks. -/
theorem resolve_rewrites (isTarget : Text → Bool) (s : Text) :
    Rewrites (fun _ m => ∃ refs, m = .references refs) dropsNothing (Span.cellsOf s)
      (resolve .xref isTarget s) := by
  refine Rewrites.scan ?_ s
  intro t xs rest h
  split at h
  · cases h
  · next refs after hf =>
    obtain ⟨hne, hsuf⟩ := find?_found hf
    simp only [kept_xref] at h
    split at h
    · next hempty => exact absurd (List.isEmpty_iff.1 hempty) hne
    · split at h
      · cases h
        obtain ⟨used, hused⟩ := hsuf.trans (List.dropWhile_suffix isSpace)
        exact ⟨used, hused.symm, .single ⟨refs, rfl⟩⟩
      · cases h

end Citation

/-! ### Markers -/

namespace Footnote

open Text

/-- A marker with its brackets. -/
def IsMarker (s : Text) : Prop := ∃ id, s = '[' :: '^' :: id ++ [']']

theorem marker?_eq {s id rest : Text} (h : marker? s = some (id, rest)) :
    s = '[' :: '^' :: id ++ [']'] ++ rest := by
  unfold marker? at h
  split at h
  · cases h
  · next inside hd =>
    have hs := append_eq_of_dropPrefix? hd
    split at h
    · next c id' after htake hdrop =>
      cases h
      have hinside := List.takeWhile_append_dropWhile (p := Footnotes.isIdChar) (l := inside)
      rw [htake, hdrop] at hinside
      rw [← hs, ← hinside]
      simp
    · cases h

/-- The definitions of the markers among some pieces. -/
def definitionsOf (table : Footnotes) (ps : List Piece) : List Text :=
  ps.filterMap fun
    | .char _ => none
    | .marker id => table.get? id

theorem resolveMarker_rewrites {Q : Text → Prop} {table : Footnotes} {body : Text → Option Text × List Cause}
    (id : Text) (h : ∀ note, table.get? id = some note → ∀ xml, (body note).1 = some xml → Q xml) :
    Rewrites (fun _ m => ∃ xml, Q xml ∧ m = .footnote xml) IsMarker
      (Span.cellsOf ('[' :: '^' :: id ++ [']'])) (resolveMarker table body id).1 := by
  unfold resolveMarker
  split
  · exact .dropped ⟨id, rfl⟩
  · next note hnote =>
    cases hxml : (body note).1 with
    | none => simpa [hxml] using Rewrites.dropped ⟨id, rfl⟩
    | some xml => simpa [hxml] using Rewrites.single ⟨xml, h note hnote xml hxml, rfl⟩

/-- Markers become notes with the markup of their definitions, or are dropped. -/
theorem resolve_rewrites {Q : Text → Prop} {table : Footnotes} {body : Text → Option Text × List Cause}
    (s : Text) (h : ∀ note ∈ definitionsOf table (pieces s), ∀ xml, (body note).1 = some xml → Q xml) :
    Rewrites (fun _ m => ∃ xml, Q xml ∧ m = .footnote xml) IsMarker (Span.cellsOf s)
      (resolve table body s) := by
  revert h
  unfold resolve pieces
  refine Text.scan_induction
    (D := fun s ps => (∀ note ∈ definitionsOf table ps, ∀ xml, (body note).1 = some xml → Q xml) →
      Rewrites (fun _ m => ∃ xml, Q xml ∧ m = .footnote xml) IsMarker (Span.cellsOf s)
        (ps.flatMap fun p => (p.resolve table body).1)) ?_ ?_ ?_ s
  · exact fun _ => .nil
  · exact fun c s ps ih h => .keep (ih h)
  · intro s xs rest ps hf ih h
    obtain ⟨⟨id, rest'⟩, hm, he⟩ := Option.map_eq_some_iff.1 hf
    cases he
    rw [marker?_eq hm, Span.cellsOf, List.map_append]
    refine (resolveMarker_rewrites id fun note hnote => h note ?_).append (ih fun note hnote => h note ?_)
    · exact List.mem_filterMap.2 ⟨.marker id, List.mem_cons_self, hnote⟩
    · obtain ⟨p, hp, hpn⟩ := List.mem_filterMap.1 hnote
      exact List.mem_filterMap.2 ⟨p, List.mem_cons_of_mem _ hp, hpn⟩

end Footnote

/-! ### Inline notes -/

namespace Note

/-- No open bracket opens a note. -/
def Plain (b : Bracketing) : Prop := ∀ br ∈ b.pending, br.isNote = false

variable {b : Bracketing}

theorem Plain.close (h : Plain b) : close b = b.shut := by
  unfold Note.close
  split
  · next br more hp =>
    rw [h br (hp ▸ List.mem_cons_self)]
    rfl
  · rfl

theorem Plain.shut (h : Plain b) : Plain b.shut := by
  unfold Bracketing.shut
  split
  · exact h
  · next br more hp => exact fun br' hbr => h br' (hp ▸ List.mem_cons_of_mem br hbr)

theorem Plain.openBracket (h : Plain b) : Plain (b.openBracket false) := by
  intro br hbr
  rcases List.mem_cons.1 hbr with rfl | hbr
  · rfl
  · exact h br hbr

/-- Cells in which no caret comes before a bracket stay as they are. -/
theorem cells_read : ∀ {cs : List Cell} {caret escaped : Bool} {b : Bracketing}, Plain b →
    (caret = true → cs.head? ≠ some (.char '[')) → ¬[Cell.char '^', .char '['] <:+: cs →
      (read caret escaped b cs).cells = b.cells ++ cs
  | [], _, _, b, _, _, _ => by simp [read]
  | c :: cs, caret, escaped, b, h, hcaret, hcs => by
    have hcs' : ¬[Cell.char '^', .char '['] <:+: cs := fun hin => hcs (hin.trans (List.suffix_cons c cs).isInfix)
    have hcaret' : c.isChar '^' = true → cs.head? ≠ some (.char '[') := by
      intro hc hd
      obtain ⟨rest, rfl⟩ := List.head?_eq_some_iff.1 hd
      rw [Cell.eq_of_isChar hc] at hcs
      exact hcs ⟨[], rest, rfl⟩
    have hsnoc : b.cells ++ c :: cs = b.cells ++ [c] ++ cs := by simp
    rw [hsnoc]
    unfold read
    split
    · next hc =>
      have hopen := Cell.eq_of_isChar (Bool.and_eq_true_iff.1 hc).1
      subst hopen
      have hfalse : caret = false := by
        cases caret with
        | true => exact absurd rfl (hcaret rfl)
        | false => rfl
      rw [hfalse, ← Bracketing.cells_openBracket]
      exact cells_read h.openBracket hcaret' hcs'
    · split
      · next hc =>
        have hclose := Cell.eq_of_isChar (Bool.and_eq_true_iff.1 hc).1
        subst hclose
        rw [h.close, ← Bracketing.cells_shut]
        exact cells_read h.shut hcaret' hcs'
      · rw [← Bracketing.cells_push]
        exact cells_read (b := b.push c) h hcaret' hcs'

theorem toCells_resolve (nextScope : Nat) {spans : List Span}
    (h : ¬[Cell.char '^', .char '['] <:+: Span.toCells spans) :
    Span.toCells (resolve nextScope spans).1 = Span.toCells spans := by
  have hr : (read false false (.start nextScope) (Span.toCells spans)).cells = Span.toCells spans :=
    cells_read (b := .start nextScope) nofun nofun h
  rw [resolve, Span.toCells_ofCells, hr]

end Note
end QuartoPretext
