/-
# Blocks are smaller than their lines

Reading a block uses up lines: what is left is an end of the lines that
followed, and every body in the block is smaller than the lines that were
used up.

Key definitions: `Block.bodies`.
Key theorems: `Block.rest_suffix`, `Block.totalSize_body`.
-/
import QuartoPretext.Block.Reader

namespace QuartoPretext

open Text

theorem Text.append_eq_of_dropPrefix? : ∀ {p s r : Text}, dropPrefix? p s = some r → p ++ r = s
  | [], s, r, h => by simpa [dropPrefix?] using h.symm
  | _ :: _, [], _, h => by simp [dropPrefix?] at h
  | c :: p, d :: s, r, h => by
    simp only [dropPrefix?] at h
    split at h
    · next hc =>
      have := append_eq_of_dropPrefix? (p := p) (s := s) h
      simp [eq_of_beq hc, this]
    · simp at h

namespace Line

theorem totalSize_nil : totalSize [] = 0 := rfl

theorem totalSize_cons (l : Line) (ls : List Line) :
    totalSize (l :: ls) = l.text.length + 1 + totalSize ls := rfl

theorem totalSize_append : ∀ as bs : List Line, totalSize (as ++ bs) = totalSize as + totalSize bs
  | [], bs => (Nat.zero_add _).symm
  | a :: as, bs => by
    rw [List.cons_append, totalSize_cons, totalSize_cons, totalSize_append as bs]
    omega

theorem totalSize_le_of_sublist {as bs : List Line} (h : as.Sublist bs) :
    totalSize as ≤ totalSize bs := by
  induction h with
  | slnil => exact Nat.le_refl _
  | cons _ _ ih => rw [totalSize_cons]; omega
  | cons_cons _ _ ih => rw [totalSize_cons, totalSize_cons]; omega

theorem length_dropColumns : ∀ (w : Nat) (s : Text), (dropColumns w s).length ≤ s.length
  | 0, s => by simp [dropColumns]
  | w + 1, [] => by simp [dropColumns]
  | w + 1, c :: s => by
    unfold dropColumns
    split
    · next h =>
      have := length_dropColumns w s
      simp_all
      omega
    · next h =>
      have := length_dropColumns (w - 3) s
      simp_all
      omega
    · exact Nat.le_refl _

end Line

open Line

namespace Extent

theorem fenceBody?_eq {mark : FenceMark} : ∀ {ls body rest : List Line},
    fenceBody? mark ls = some (body, rest) → ∃ l, ls = body ++ l :: rest
  | [], _, _, h => by simp [fenceBody?] at h
  | l :: ls, body, rest, h => by
    unfold fenceBody? at h
    split at h
    · simp only [Option.some.injEq, Prod.mk.injEq] at h
      exact ⟨l, by simp [← h.1, ← h.2]⟩
    · obtain ⟨⟨b, r⟩, h', e⟩ := Option.map_eq_some_iff.1 h
      obtain ⟨c, hc⟩ := fenceBody?_eq h'
      simp only [Prod.mk.injEq] at e
      exact ⟨c, by simp [← e.1, ← e.2, hc]⟩

theorem divBody?_eq : ∀ {ls body rest : List Line} {inner : Nat} {fence : Option FenceMark},
    divBody? inner fence ls = some (body, rest) → ∃ l, ls = body ++ l :: rest
  | [], _, _, _, _, h => by simp [divBody?] at h
  | l :: ls, body, rest, inner, fence, h => by
    have keep {found : Option (List Line × List Line)}
        (ih : ∀ {b r}, found = some (b, r) → ∃ c, ls = b ++ c :: r)
        (h : (found.map fun p => (l :: p.1, p.2)) = some (body, rest)) :
        ∃ c, l :: ls = body ++ c :: rest := by
      obtain ⟨⟨b, r⟩, h', e⟩ := Option.map_eq_some_iff.1 h
      obtain ⟨c, hc⟩ := ih h'
      simp only [Prod.mk.injEq] at e
      exact ⟨c, by simp [← e.1, ← e.2, hc]⟩
    unfold divBody? at h
    simp only at h
    split at h
    · exact keep divBody?_eq h
    · split at h
      · exact keep divBody?_eq h
      · split at h
        · simp only [Option.some.injEq, Prod.mk.injEq] at h
          exact ⟨l, by simp [← h.1, ← h.2]⟩
        · exact keep divBody?_eq h
      · exact keep divBody?_eq h

theorem paragraph_eq : ∀ ls : List Line, (paragraph ls).1 ++ (paragraph ls).2 = ls
  | [] => rfl
  | l :: ls => by
    unfold paragraph
    split
    · simp [paragraph_eq ls]
    · rfl

theorem mathRows?_suffix : ∀ {ls rest : List Line} {rows : List Text} {tail : Text},
    mathRows? ls = some (rows, tail, rest) → rest <:+ ls
  | [], _, _, _, h => by simp [mathRows?] at h
  | l :: ls, rest, rows, tail, h => by
    unfold mathRows? at h
    split at h
    · simp only [Option.some.injEq, Prod.mk.injEq] at h
      rw [← h.2.2]
      exact List.suffix_cons l ls
    · obtain ⟨⟨r, t, a⟩, h', e⟩ := Option.map_eq_some_iff.1 h
      simp only [Prod.mk.injEq] at e
      have := mathRows?_suffix h'
      rw [← e.2.2]
      exact this.trans (List.suffix_cons l ls)

theorem frontMatter_suffix (ls : List Line) : (frontMatter ls).2 <:+ ls :=
  (List.drop_suffix _ _).trans (List.dropWhile_suffix _)

end Extent

namespace ListReader

theorem length_rawMarker? {s marker rest : Text} (h : BlockStart.rawMarker? s = some (marker, rest)) :
    rest.length < s.length := by
  unfold BlockStart.rawMarker? at h
  split at h
  · simp at h
  · next c s =>
    split at h
    · simp only [Option.some.injEq, Prod.mk.injEq] at h
      simp [← h.2]
    · simp only at h
      generalize (if ((c :: s).takeWhile isDigit).isEmpty && decide ('a' ≤ c) && decide (c ≤ 'z') then [c]
        else (c :: s).takeWhile isDigit) = label at h
      split at h
      · next d after hd =>
        have hl := congrArg List.length hd
        rw [List.length_drop, List.length_cons, List.length_cons] at hl
        split at h
        · simp only [Option.some.injEq, Prod.mk.injEq] at h
          rw [← h.2, List.length_cons]
          omega
        · simp at h
      · simp at h

theorem length_listMarker? {s marker rest : Text} (h : BlockStart.listMarker? s = some (marker, rest)) :
    rest.length < s.length := by
  unfold BlockStart.listMarker? at h
  split at h
  · next m hm =>
    have := length_rawMarker? hm
    simp only [Option.some.injEq, Prod.mk.injEq] at h
    rw [← h.2]
    exact this
  · next m c r hm =>
    have := length_rawMarker? hm
    split at h
    · simp only [Option.some.injEq, Prod.mk.injEq] at h
      have h' := Attribute.length_dropWhile_le isTabOrSpace r
      rw [← h.2]
      simp only [List.length_cons] at this
      omega
    · simp at h
  · simp at h

theorem length_marker? {l : Line} {marker first : Text} {column : Nat}
    (h : marker? l = some (marker, first, column)) : first.length < l.text.length := by
  obtain ⟨⟨m, r⟩, h', e⟩ := Option.map_eq_some_iff.1 h
  have h1 := length_listMarker? h'
  have h2 := Attribute.length_dropWhile_le isSpace l.text
  simp only [Prod.mk.injEq] at e
  simp only [Line.trimmed, trimStart] at h1
  rw [← e.2.1]
  omega

theorem totalSize_close (i : Item) : totalSize i.close.body ≤ totalSize i.item.body := by
  apply totalSize_le_of_sublist
  unfold Item.close
  rw [← List.reverse_sublist, List.reverse_reverse]
  exact List.dropWhile_sublist _

/-- Every item, together with what is left, is no larger than the open one and
the lines that are read; what is left is an end of them. -/
theorem scan_size (f : Frame) (i : Item) (gap : Bool) (ls : List Line) :
    (scan f i gap ls).rest <:+ ls ∧ ∀ j ∈ (scan f i gap ls).items,
      totalSize j.body + totalSize (scan f i gap ls).rest ≤ totalSize i.item.body + totalSize ls := by
  have only (ls : List Line) : ∀ j ∈ [i.close],
      totalSize j.body + totalSize ls ≤ totalSize i.item.body + totalSize ls := by
    intro j hj
    rw [List.mem_singleton.1 hj]
    exact Nat.add_le_add_right (totalSize_close i) _
  have blank (l : Line) (rest : List Line) : totalSize (rest.dropWhile Line.isBlank) + 1 ≤
      totalSize (l :: rest) := by
    have := totalSize_le_of_sublist (List.dropWhile_sublist Line.isBlank (l := rest))
    rw [totalSize_cons]
    omega
  unfold scan
  match ls with
  | [] => exact ⟨List.suffix_refl _, only _⟩
  | l :: rest =>
    simp only
    have suffix : rest.dropWhile Line.isBlank <:+ l :: rest :=
      (List.dropWhile_suffix _).trans (List.suffix_cons l rest)
    split
    · split
      · exact ⟨List.suffix_refl _, only _⟩
      · split
        · have ih := scan_size f i true (rest.dropWhile Line.isBlank)
          refine ⟨ih.1.trans suffix, fun j hj => ?_⟩
          have h1 := ih.2 j hj
          have h2 := blank l rest
          omega
        · split
          · have ih := scan_size f (i.add ⟨l.number, []⟩) true (rest.dropWhile Line.isBlank)
            refine ⟨ih.1.trans suffix, fun j hj => ?_⟩
            have h1 := ih.2 j hj
            have h2 := blank l rest
            simp only [Item.add, totalSize_append, totalSize_cons, totalSize_nil, List.length_nil] at h1
            simp only [Item.add]
            omega
          · exact ⟨List.suffix_refl _, only _⟩
    · split
      · next marker first column hm =>
        obtain ⟨hm, _⟩ := Option.filter_eq_some_iff.1 hm
        have hl := length_marker? hm
        split
        · have ih := scan_size f (Item.start l.number marker first column) false rest
          refine ⟨ih.1.trans (List.suffix_cons l rest), fun j hj => ?_⟩
          have hrest := totalSize_le_of_sublist ih.1.sublist
          simp only [Outcome.cons, List.mem_cons] at hj ⊢
          rcases hj with rfl | hj
          · have := totalSize_close i
            rw [totalSize_cons]
            omega
          · have h1 := ih.2 j hj
            simp only [Item.start, totalSize_cons, totalSize_nil] at h1 ⊢
            omega
        · exact ⟨List.suffix_refl _, only _⟩
      · split
        · have ih := scan_size f (i.add (l.dedent (min i.column l.indent))) gap rest
          refine ⟨ih.1.trans (List.suffix_cons l rest), fun j hj => ?_⟩
          have h1 := ih.2 j hj
          have h2 := length_dropColumns (min i.column l.indent) l.text
          simp only [Item.add, totalSize_append, totalSize_cons, totalSize_nil, Line.dedent] at h1 ⊢
          omega
        · exact ⟨List.suffix_refl _, only _⟩
termination_by ls.length
decreasing_by
  all_goals
    have := (List.dropWhile_sublist Line.isBlank (l := rest)).length_le
    simp only [List.length_cons]
    omega

theorem read_suffix (l : Line) (following : List Line) : (read l following).2 <:+ following := by
  unfold read
  split
  · exact List.suffix_refl _
  · exact (scan_size _ _ _ _).1

theorem read_size (l : Line) (following : List Line) : ∀ j ∈ (read l following).1.items,
    totalSize j.body + totalSize (read l following).2 < totalSize (l :: following) := by
  unfold read
  split
  · simp
  · next marker first column hm =>
    intro j hj
    have h1 := (scan_size _ _ _ _).2 j hj
    have h2 := length_marker? hm
    simp only [Item.start, totalSize_cons, totalSize_nil] at h1 ⊢
    omega

end ListReader

namespace Block

/-- The bodies in a block. -/
def bodies : Block → List (List Line)
  | fence _ _ body | div _ _ _ body => [body]
  | list l => l.items.map (·.body)
  | _ => []

theorem read_size {l : Line} {following rest : List Line} {b : Block}
    (h : read l following = .ok (b, rest)) :
    rest <:+ following ∧
      ∀ body ∈ b.bodies, totalSize body + totalSize rest < totalSize (l :: following) := by
  have inside {body rest : List Line} (h : ∃ c, following = body ++ c :: rest) :
      rest <:+ following ∧ totalSize body + totalSize rest < totalSize (l :: following) := by
    obtain ⟨c, hc⟩ := h
    refine ⟨⟨body ++ [c], by simp [hc]⟩, ?_⟩
    rw [totalSize_cons, hc, totalSize_append, totalSize_cons]
    omega
  unfold read at h
  simp only at h
  split at h
  · cases h
    exact ⟨List.dropWhile_suffix _, by simp [bodies]⟩
  · cases h
    exact ⟨List.suffix_refl _, by simp [bodies]⟩
  · cases h
    exact ⟨Extent.frontMatter_suffix _, by simp [bodies]⟩
  · split at h
    · next hb =>
      cases h
      have := inside (Extent.fenceBody?_eq hb)
      exact ⟨this.1, by simpa [bodies] using this.2⟩
    · cases h
  · split at h
    · next hb =>
      cases h
      have := inside (Extent.divBody?_eq hb)
      exact ⟨this.1, by simpa [bodies] using this.2⟩
    · cases h
  · cases h
  · unfold readMath at h
    split at h
    · cases h
      exact ⟨List.suffix_refl _, by simp [bodies]⟩
    · split at h
      · cases h
      · next hm =>
        cases h
        exact ⟨Extent.mathRows?_suffix hm, by simp [bodies]⟩
  · cases h
    exact ⟨List.suffix_refl _, by simp [bodies]⟩
  · cases h
    exact ⟨List.suffix_refl _, by simp [bodies]⟩
  · cases h
    exact ⟨List.suffix_refl _, by simp [bodies]⟩
  · cases h
    exact ⟨List.suffix_refl _, by simp [bodies]⟩
  · cases h
    exact ⟨List.dropWhile_suffix _, by simp [bodies]⟩
  · cases h
    refine ⟨ListReader.read_suffix _ _, fun body hb => ?_⟩
    obtain ⟨j, hj, rfl⟩ := List.mem_map.1 hb
    exact ListReader.read_size l following j hj
  · cases h
    exact ⟨⟨_, Extent.paragraph_eq following⟩, by simp [bodies]⟩

/-- What is left after a block is an end of the lines that followed its first one. -/
theorem rest_suffix {l : Line} {following rest : List Line} {b : Block}
    (h : read l following = .ok (b, rest)) : rest <:+ following := (read_size h).1

/-- A body is smaller than the lines it was read from. -/
theorem totalSize_body {l : Line} {following rest body : List Line} {b : Block}
    (h : read l following = .ok (b, rest)) (hb : body ∈ b.bodies) :
    totalSize body < totalSize (l :: following) := by
  have := (read_size h).2 body hb
  omega

/-- What is left after a block is smaller than what was there. -/
theorem totalSize_rest {l : Line} {following rest : List Line} {b : Block}
    (h : read l following = .ok (b, rest)) : totalSize rest < totalSize (l :: following) := by
  have := totalSize_le_of_sublist (rest_suffix h).sublist
  rw [totalSize_cons]
  omega

end Block
end QuartoPretext
