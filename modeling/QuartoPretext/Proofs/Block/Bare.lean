/-
# Lines without white space at their ends

The lines of a document end in no white space, and neither does any line of a
body: it is the end of a line that was read. The first line of a list is
classified without the white space around it, while its marker is read without
the white space before it. For bare lines the two agree, so a list has an item.

Key definitions: `Text.EndsBare`, `Line.Bare`, `Line.EndOf`.
Key theorems: `Line.bare_ofText`, `Block.read_body_endOf`, `Block.read_list_items`.
-/
import QuartoPretext.Block.Size

namespace QuartoPretext

namespace Text

/-- The first character that is kept is not of the class that is dropped. -/
theorem of_mem_head_dropWhile {p : Char → Bool} {s : Text} {c : Char} (h : c ∈ (s.dropWhile p).head?) : p c = false := by
  have hhead := List.head?_dropWhile_not p s
  rw [Option.mem_def.1 h] at hhead
  simpa using hhead

/-- The text does not end in white space. -/
def EndsBare (s : Text) : Prop := ∀ c, s.getLast? = some c → isSpace c = false

theorem endsBare_iff (s : Text) : EndsBare s ↔ trimEnd s = s := by
  unfold EndsBare trimEnd
  rw [List.reverse_eq_iff, List.getLast?_eq_head?_reverse]
  cases s.reverse with
  | nil => simp
  | cons c s' =>
    by_cases hc : isSpace c
    · rw [List.dropWhile_cons_of_pos hc]
      have hlt := (List.dropWhile_sublist isSpace (l := s')).length_le
      constructor
      · intro h
        rw [h c rfl] at hc
        cases hc
      · intro h
        have hlen := congrArg List.length h
        rw [List.length_cons] at hlen
        omega
    · rw [List.dropWhile_cons_of_neg hc]
      simpa using hc

theorem endsBare_trimEnd (s : Text) : EndsBare (trimEnd s) := by
  intro c h
  rw [trimEnd, List.getLast?_reverse] at h
  exact of_mem_head_dropWhile h

theorem EndsBare.suffix {s t : Text} (h : EndsBare s) (ht : t <:+ s) : EndsBare t := by
  intro c hc
  obtain ⟨r, rfl⟩ := ht
  exact h c (by rw [List.getLast?_append, hc]; rfl)

theorem EndsBare.append {s t : Text} (hs : EndsBare s) (ht : EndsBare t) : EndsBare (s ++ t) := by
  intro c hc
  rw [List.getLast?_append] at hc
  cases hlast : t.getLast? with
  | none =>
    rw [hlast] at hc
    exact hs c hc
  | some d =>
    rw [hlast] at hc
    exact ht c (hlast.trans hc)

theorem trim_cons {s t : Text} {c : Char} (h : trim s = c :: t) : isSpace c = false := by
  have hprefix : trim s <+: trimStart s := by
    have := List.dropWhile_suffix isSpace (l := (trimStart s).reverse)
    simpa [trim, trimEnd] using List.reverse_prefix.2 this
  obtain ⟨more, hmore⟩ := h ▸ hprefix
  have hhead : c ∈ (trimStart s).head? := by
    rw [← hmore]
    rfl
  exact of_mem_head_dropWhile hhead

theorem trim_trim (s : Text) : trim (trim s) = trim s := by
  have hend : trimEnd (trim s) = trim s := (endsBare_iff _).1 (endsBare_trimEnd _)
  cases h : trim s with
  | nil => rfl
  | cons c t =>
    have hstart : trimStart (c :: t) = c :: t := List.dropWhile_cons_of_neg (by simp [trim_cons h])
    rw [trim, hstart, ← h, hend]

end Text

namespace Line

def Bare (l : Line) : Prop := Text.EndsBare l.text

/-- A line of the same number that keeps the end of the text. -/
def EndOf (l' l : Line) : Prop := l'.number = l.number ∧ l'.text <:+ l.text

theorem EndOf.refl (l : Line) : l.EndOf l := ⟨rfl, List.suffix_refl _⟩

theorem EndOf.bare {l l' : Line} (h : l'.EndOf l) (hl : l.Bare) : l'.Bare := hl.suffix h.2

/-- The white space around a bare line stands before it. -/
theorem Bare.trim_text {l : Line} (hl : l.Bare) : Text.trim l.text = l.trimmed :=
  (Text.endsBare_iff _).1 (hl.suffix (List.dropWhile_suffix _))

theorem mem_numberFrom : ∀ {ss : List Text} {n : Nat} {l : Line}, l ∈ numberFrom n ss → l.text ∈ ss
  | [], _, _, h => by simp [numberFrom] at h
  | s :: ss, n, l, h => by
    rcases List.mem_cons.1 h with rfl | h
    · exact List.mem_cons_self
    · exact List.mem_cons_of_mem s (mem_numberFrom h)

/-- The lines of a document are bare. -/
theorem bare_ofText {text : Text} {l : Line} (h : l ∈ ofText text) : l.Bare := by
  obtain ⟨s, _, hs⟩ := List.mem_map.1 (mem_numberFrom h)
  unfold Bare
  rw [← hs]
  exact Text.endsBare_trimEnd s

theorem dropColumns_suffix : ∀ (width : Nat) (s : Text), dropColumns width s <:+ s
  | 0, s => by simp [dropColumns]
  | w + 1, [] => by simp [dropColumns]
  | w + 1, c :: s => by
    unfold dropColumns
    split
    · next h =>
      simp only [List.cons.injEq] at h
      obtain ⟨rfl, rfl⟩ := h
      exact (dropColumns_suffix _ _).trans (List.suffix_cons _ _)
    · next h =>
      simp only [List.cons.injEq] at h
      obtain ⟨rfl, rfl⟩ := h
      exact (dropColumns_suffix _ _).trans (List.suffix_cons _ _)
    · exact List.suffix_refl _

theorem dedent_endOf (width : Nat) (l : Line) : (l.dedent width).EndOf l :=
  ⟨rfl, dropColumns_suffix width l.text⟩

end Line

namespace ListReader

open Text

theorem rawMarker?_suffix {s marker rest : Text} (h : BlockStart.rawMarker? s = some (marker, rest)) :
    rest <:+ s := by
  unfold BlockStart.rawMarker? at h
  split at h
  · cases h
  · next c s =>
    split at h
    · cases h
      exact List.suffix_cons _ _
    · simp only at h
      generalize (if ((c :: s).takeWhile isDigit).isEmpty && decide ('a' ≤ c) && decide (c ≤ 'z') then [c]
        else (c :: s).takeWhile isDigit) = label at h
      split at h
      · next d after hd =>
        split at h
        · cases h
          exact (List.suffix_cons d _).trans (hd ▸ List.drop_suffix _ _)
        · cases h
      · cases h

theorem listMarker?_suffix {s marker rest : Text} (h : BlockStart.listMarker? s = some (marker, rest)) :
    rest <:+ s := by
  unfold BlockStart.listMarker? at h
  split at h
  · next m hm =>
    cases h
    exact rawMarker?_suffix hm
  · next m c r hm =>
    split at h
    · cases h
      exact ((List.dropWhile_suffix _).trans (List.suffix_cons c r)).trans (rawMarker?_suffix hm)
    · cases h
  · cases h

theorem marker?_endOf {l : Line} {marker first : Text} {column : Nat}
    (h : marker? l = some (marker, first, column)) : Line.EndOf ⟨l.number, first⟩ l := by
  obtain ⟨⟨m, r⟩, hm, he⟩ := Option.map_eq_some_iff.1 h
  simp only [Prod.mk.injEq] at he
  rw [← he.2.1]
  exact ⟨rfl, (listMarker?_suffix hm).trans (List.dropWhile_suffix _)⟩

theorem close_body_subset {i : Item} {l : Line} (h : l ∈ i.close.body) : l ∈ i.item.body := by
  simp only [Item.close, List.mem_reverse] at h
  exact List.mem_reverse.1 ((List.dropWhile_sublist _).subset h)

/-- What is true of the lines of the latest item and of the lines that follow,
and of all ends of such lines, is true of the lines of every item. -/
theorem scan_lines {P : Line → Prop} (hend : ∀ l l' : Line, l'.EndOf l → P l → P l') (f : Frame)
    (i : Item) (gap : Bool) (ls : List Line) (hi : ∀ l ∈ i.item.body, P l) (hls : ∀ l ∈ ls, P l) :
    ∀ j ∈ (scan f i gap ls).items, ∀ l ∈ j.body, P l := by
  have only : ∀ j ∈ [i.close], ∀ l ∈ j.body, P l := by
    intro j hj l hl
    rw [List.mem_singleton.1 hj] at hl
    exact hi l (close_body_subset hl)
  unfold scan
  match ls with
  | [] => exact only
  | l :: rest =>
    have hl : P l := hls l List.mem_cons_self
    have hrest : ∀ l' ∈ rest, P l' := fun l' h => hls l' (List.mem_cons_of_mem l h)
    have hnext : ∀ l' ∈ rest.dropWhile Line.isBlank, P l' := fun l' h =>
      hrest l' ((List.dropWhile_sublist _).subset h)
    have add {l' : Line} (h : l'.EndOf l) : ∀ k ∈ (i.add l').item.body, P k := by
      intro k hk
      rcases List.mem_append.1 hk with hk | hk
      · exact hi k hk
      · rw [List.mem_singleton.1 hk]
        exact hend l l' h hl
    simp only
    split
    · split
      · exact only
      · split
        · exact scan_lines hend f i true _ hi hnext
        · split
          · exact scan_lines hend f _ true _ (add ⟨rfl, List.nil_suffix⟩) hnext
          · exact only
    · split
      · next marker first column hm =>
        obtain ⟨hm, _⟩ := Option.filter_eq_some_iff.1 hm
        have hfirst : ∀ k ∈ (Item.start l.number marker first column).item.body, P k := by
          intro k hk
          rw [List.mem_singleton.1 hk]
          exact hend l _ (marker?_endOf hm) hl
        split
        · intro j hj
          rcases List.mem_cons.1 hj with rfl | hj
          · exact only _ (List.mem_singleton.2 rfl)
          · exact scan_lines hend f _ false rest hfirst hrest j hj
        · exact only
      · split
        · exact scan_lines hend f _ gap rest (add (l.dedent_endOf _)) hrest
        · exact only
termination_by ls.length
decreasing_by
  all_goals
    have := (List.dropWhile_sublist Line.isBlank (l := rest)).length_le
    simp only [List.length_cons]
    omega

/-- The item that is open comes first. -/
theorem scan_head (f : Frame) (i : Item) (gap : Bool) (ls : List Line) :
    (scan f i gap ls).items.head?.map (·.line) = some i.item.line := by
  unfold scan
  match ls with
  | [] => rfl
  | l :: rest =>
    simp only
    split
    · split
      · rfl
      · split
        · exact scan_head f i true _
        · split
          · exact scan_head f (i.add ⟨l.number, []⟩) true _
          · rfl
    · split
      · split <;> rfl
      · split
        · exact scan_head f (i.add (l.dedent _)) gap rest
        · rfl
termination_by ls.length
decreasing_by
  all_goals
    have := (List.dropWhile_sublist Line.isBlank (l := rest)).length_le
    simp only [List.length_cons]
    omega

end ListReader

namespace Block

open Text

/-- Every line of a body is the end of a line that the block was read from. -/
theorem read_body_endOf {l : Line} {following rest body : List Line} {b : Block}
    (h : read l following = .ok (b, rest)) (hb : body ∈ b.bodies) :
    ∀ l' ∈ body, ∃ l₀ ∈ l :: following, l'.EndOf l₀ := by
  have inside {body rest : List Line} (h : ∃ c, following = body ++ c :: rest) :
      ∀ l' ∈ body, ∃ l₀ ∈ l :: following, l'.EndOf l₀ := by
    obtain ⟨c, hc⟩ := h
    exact fun l' hl => ⟨l', by simp [hc, hl], .refl l'⟩
  unfold read at h
  simp only at h
  split at h
  case h_4 =>
    split at h
    · next hf =>
      cases h
      rw [List.mem_singleton.1 hb]
      exact inside (Extent.fenceBody?_eq hf)
    · cases h
  case h_5 =>
    split at h
    · next hd =>
      cases h
      rw [List.mem_singleton.1 hb]
      exact inside (Extent.divBody?_eq hd)
    · cases h
  case h_13 =>
    cases h
    obtain ⟨j, hj, rfl⟩ := List.mem_map.1 hb
    unfold ListReader.read at hj
    split at hj
    · cases hj
    · next marker first column hm =>
      refine ListReader.scan_lines (P := fun l' => ∃ l₀ ∈ l :: following, l'.EndOf l₀) ?_ _ _ _ _ ?_ ?_ j hj
      · rintro l₁ l₂ h₂ ⟨l₀, hl₀, h₁⟩
        exact ⟨l₀, hl₀, h₂.1.trans h₁.1, h₂.2.trans h₁.2⟩
      · intro l₁ h₁
        rw [List.mem_singleton.1 h₁]
        exact ⟨l, List.mem_cons_self, ListReader.marker?_endOf hm⟩
      · exact fun l₁ h₁ => ⟨l₁, List.mem_cons_of_mem l h₁, .refl l₁⟩
  case h_7 =>
    unfold readMath at h
    repeat' split at h
    all_goals
      cases h
      try cases hb
  all_goals
    cases h
    try cases hb

theorem read_line {l : Line} {following rest : List Line} {b : Block}
    (h : read l following = .ok (b, rest)) : b.line = l.number := by
  unfold read at h
  simp only at h
  split at h
  case h_4 | h_5 =>
    split at h
    · cases h
      rfl
    · cases h
  case h_7 =>
    unfold readMath at h
    repeat' split at h
    all_goals
      cases h
      try rfl
  case h_13 =>
    cases h
    show (ListReader.read l following).1.line = l.number
    unfold ListReader.read
    split <;> rfl
  all_goals
    cases h
    try rfl

/-- Apart from blank lines, headings and front matter, one line alone decides. -/
theorem ofLine_of {l : Line} {following : List Line} {start : BlockStart} (h : BlockStart.of l following = start)
    (hblank : start ≠ .blank) (hheading : ∀ level title, start ≠ .heading level title)
    (hfront : start ≠ .frontMatter) : BlockStart.ofLine (trim l.text) = start := by
  unfold BlockStart.of at h
  split at h
  · exact absurd h.symm hblank
  · split at h
    · exact absurd h.symm (hheading _ _)
    · split at h
      · exact absurd h.symm hfront
      · exact h

theorem marker?_isSome {l : Line} (hl : l.Bare) {following : List Line}
    (h : BlockStart.of l following = .listItem) : (ListReader.marker? l).isSome := by
  have hm : (BlockStart.listMarker? (trim l.text)).isSome := by
    have hline := ofLine_of h nofun nofun nofun
    unfold BlockStart.ofLine at hline
    repeat' split at hline
    all_goals
      first
        | assumption
        | cases hline
  rw [ListReader.marker?, Option.isSome_map, ← hl.trim_text]
  exact hm

theorem read_list {l : Line} {following rest : List Line} {lb : ListBlock}
    (h : read l following = .ok (.list lb, rest)) :
    BlockStart.of l following = .listItem ∧ ListReader.read l following = (lb, rest) := by
  unfold read at h
  simp only at h
  split at h
  case h_13 hof =>
    cases h
    exact ⟨hof, rfl⟩
  case h_7 =>
    unfold readMath at h
    repeat' split at h
    all_goals cases h
  all_goals
    try split at h
    all_goals cases h

/-- A list that starts at a bare line has an item, which starts at the line too. -/
theorem read_list_items {l : Line} (hl : l.Bare) {following rest : List Line} {lb : ListBlock}
    (h : read l following = .ok (.list lb, rest)) : lb.items.head?.map (·.line) = some l.number := by
  obtain ⟨hof, hlist⟩ := read_list h
  have hm := marker?_isSome hl hof
  have hlb : lb = (ListReader.read l following).1 := congrArg Prod.fst hlist.symm
  rw [hlb]
  unfold ListReader.read
  split
  · next hnone =>
    rw [hnone] at hm
    cases hm
  · exact ListReader.scan_head _ _ _ _

end Block
end QuartoPretext
