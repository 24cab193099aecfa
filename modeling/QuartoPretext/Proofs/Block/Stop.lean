/-
# Lines at which blocks stop

At some lines every block ends that is still being read: at a line that is not
blank and not indented and starts neither a paragraph nor an item, such as the
fence of a div. If a block is read up to such a line, or up to a line before
it, then it is read alike from the lines before it alone, as if they were all.
So the blocks up to such a line can be converted first, and then the others.

Key definitions: `Line.Stops`.
Key theorems: `ListReader.scan_stop`, `Block.read_stop`, `convertLines_stop`.
-/
import QuartoPretext.Proofs.Document.Bodies
import QuartoPretext.Proofs.Document.Contained

namespace QuartoPretext

open Text

/-- No block goes on at the line. -/
structure Line.Stops (d : Line) (after : List Line) : Prop where
  not_blank : d.isBlank = false
  not_paragraph : classify d after ≠ .paragraph
  no_marker : ListReader.marker? d = none
  not_indented : d.indent = 0
  not_yaml : BlockStart.closesYaml d = false

/-- After the first line of a document the lines that follow do not count. -/
theorem BlockStart.of_congr {l : Line} (hl : l.number ≠ 1) (following following' : List Line) :
    BlockStart.of l following = BlockStart.of l following' := by
  simp [BlockStart.of, isFrontMatter, hl]

theorem classify_congr {l : Line} (hl : l.number ≠ 1) (following following' : List Line) :
    classify l following = classify l following' := by
  rw [classify, classify, BlockStart.of_congr hl]

variable {d : Line} {after : List Line}

theorem Line.dropWhile_stop {p : Line → Bool} (hd : p d = false) (ls : List Line) :
    (ls ++ d :: after).dropWhile p = ls.dropWhile p ++ d :: after := by
  rw [List.dropWhile_append]
  split
  · next h => rw [List.isEmpty_iff.1 h, List.dropWhile_cons_of_neg (by simp [hd]), List.nil_append]
  · rfl

/-! ### The extents of blocks -/

namespace Extent

theorem paragraph_stop (hd : d.Stops after) : ∀ {ls : List Line}, (∀ l ∈ ls, l.number ≠ 1) →
    paragraph (ls ++ d :: after) = ((paragraph ls).1, (paragraph ls).2 ++ d :: after)
  | [], _ => by
    show paragraph (d :: after) = ([], d :: after)
    rw [paragraph, if_neg hd.not_paragraph]
  | l :: ls, h => by
    obtain ⟨hl, hls⟩ := List.forall_mem_cons.1 h
    rw [List.cons_append, paragraph, paragraph, classify_congr hl _ ls, paragraph_stop hd hls]
    split <;> rfl

theorem fenceBody?_of_closedBy {mark : FenceMark} {c : Line} (hc : mark.closedBy c.text) (rest : List Line) :
    ∀ {body : List Line}, (∀ l ∈ body, mark.closedBy l.text = false) →
      fenceBody? mark (body ++ c :: rest) = some (body, rest)
  | [], _ => by rw [List.nil_append, fenceBody?, if_pos hc]
  | l :: body, h => by
    obtain ⟨hl, hbody⟩ := List.forall_mem_cons.1 h
    rw [List.cons_append, fenceBody?, if_neg (by simp [hl]), fenceBody?_of_closedBy hc rest hbody]
    rfl

theorem fenceBody?_stop {mark : FenceMark} {ls body rest : List Line}
    (h : fenceBody? mark (ls ++ d :: after) = some (body, rest ++ d :: after)) :
    fenceBody? mark ls = some (body, rest) := by
  obtain ⟨c, hls, hbody, hc⟩ := fenceBody?_eq_some h
  have : ls = body ++ c :: rest := List.append_cancel_right (hls.trans (by simp))
  rw [this, fenceBody?_of_closedBy hc rest hbody]

theorem divBody?_stop {ls body rest : List Line}
    (h : divBody? 0 none (ls ++ d :: after) = some (body, rest ++ d :: after)) :
    divBody? 0 none ls = some (body, rest) := by
  obtain ⟨c, hc, hls, hbody⟩ := divBody?_eq_some_iff.1 h
  have : ls = body ++ c :: rest := List.append_cancel_right (hls.trans (by simp))
  exact divBody?_eq_some_iff.2 ⟨c, hc, this, hbody⟩

theorem mathRows?_stop {rows : List Text} {tail : Text} {rest : List Line} : ∀ {ls : List Line},
    mathRows? (ls ++ d :: after) = some (rows, tail, rest ++ d :: after) → mathRows? ls = some (rows, tail, rest)
  | [], h => by
    -- the rows of the stop line would leave fewer lines than there are
    have hshort : (rest ++ d :: after).length ≤ after.length := by
      rw [List.nil_append, mathRows?] at h
      split at h
      · simp only [Option.some.injEq, Prod.mk.injEq] at h
        rw [← h.2.2]
      · obtain ⟨⟨r, t, a⟩, h', e⟩ := Option.map_eq_some_iff.1 h
        have := (mathRows?_suffix h').length_le
        simp only [Prod.mk.injEq] at e
        rwa [← e.2.2]
    simp only [List.length_append, List.length_cons] at hshort
    omega
  | l :: ls, h => by
    rw [List.cons_append, mathRows?] at h
    rw [mathRows?]
    split at h
    · next hcut =>
      simp only [Option.some.injEq, Prod.mk.injEq] at h
      rw [← h.1, ← h.2.1, List.append_cancel_right h.2.2]
    · next hcut =>
      obtain ⟨⟨r, t, a⟩, h', e⟩ := Option.map_eq_some_iff.1 h
      simp only [Prod.mk.injEq] at e
      obtain ⟨rfl, rfl, rfl⟩ := e
      rw [mathRows?_stop h']
      rfl

/-- Front matter reaches to the first line that closes it. -/
theorem frontMatter_eq {ls : List Line} (h : ls.any BlockStart.closesYaml) : ∃ c,
    ls = (frontMatter ls).1 ++ c :: (frontMatter ls).2 ∧ BlockStart.closesYaml c ∧
      ∀ k ∈ (frontMatter ls).1, BlockStart.closesYaml k = false := by
  have hsplit := List.takeWhile_append_dropWhile (p := (!BlockStart.closesYaml ·)) (l := ls)
  have hbody : ∀ k ∈ (frontMatter ls).1, BlockStart.closesYaml k = false := fun k hk => by
    simpa using List.mem_takeWhile_imp hk
  rw [frontMatter] at hbody
  cases hdrop : ls.dropWhile (!BlockStart.closesYaml ·) with
  | nil =>
    obtain ⟨k, hk, hclose⟩ := List.any_eq_true.1 h
    simpa [hclose] using List.dropWhile_eq_nil_iff.1 hdrop k hk
  | cons c more =>
    have hc : BlockStart.closesYaml c := by
      have := List.head?_dropWhile_not (!BlockStart.closesYaml ·) ls
      simpa [hdrop] using this
    rw [hdrop] at hsplit hbody
    rw [frontMatter, hdrop]
    exact ⟨c, hsplit.symm, hc, hbody⟩

theorem frontMatter_of_closesYaml {c : Line} (hc : BlockStart.closesYaml c) (rest : List Line) {body : List Line}
    (h : ∀ k ∈ body, BlockStart.closesYaml k = false) : frontMatter (body ++ c :: rest) = (body, rest) := by
  have hbody : ∀ k ∈ body, (!BlockStart.closesYaml k) = true := by simpa using h
  rw [frontMatter, List.takeWhile_append_of_pos hbody, List.dropWhile_append_of_pos hbody,
    List.takeWhile_cons_of_neg (by simp [hc]), List.dropWhile_cons_of_neg (by simp [hc]), List.append_nil]
  rfl

/-- Front matter that leaves the stop line is closed before it. -/
theorem frontMatter_stop (hd : d.Stops after) {ls rest : List Line}
    (h : (frontMatter (ls ++ d :: after)).2 = rest ++ d :: after) :
    ls.any BlockStart.closesYaml ∧ frontMatter ls = ((frontMatter (ls ++ d :: after)).1, rest) := by
  by_cases hany : ls.any BlockStart.closesYaml
  · obtain ⟨c, hls, hc, hbody⟩ := frontMatter_eq hany
    have hfull : frontMatter (ls ++ d :: after) = ((frontMatter ls).1, (frontMatter ls).2 ++ d :: after) := by
      conv_lhs => rw [hls]
      rw [List.append_assoc, List.cons_append, frontMatter_of_closesYaml hc _ hbody]
    rw [hfull] at h ⊢
    exact ⟨hany, Prod.ext rfl (List.append_cancel_right h)⟩
  · -- else it would take the stop line too
    have hall : ∀ k ∈ ls, (!BlockStart.closesYaml k) = true := by simpa using hany
    have hshort : (rest ++ d :: after).length ≤ after.length := by
      rw [← h, frontMatter, List.dropWhile_append_of_pos hall, List.dropWhile_cons_of_pos (by simp [hd.not_yaml])]
      exact ((List.drop_sublist _ _).trans (List.dropWhile_sublist _)).length_le
    simp only [List.length_append, List.length_cons] at hshort
    omega

end Extent

namespace ListReader

/-- A list ends at the stop line, if not before it. -/
theorem scan_stop (hd : d.Stops after) (f : Frame) (i : Item) (gap : Bool) (ls : List Line)
    (h : ∀ l ∈ ls, l.number ≠ 1) : scan f i gap (ls ++ d :: after) =
      { scan f i gap ls with rest := (scan f i gap ls).rest ++ d :: after } := by
  have hmargin : f.atMargin d = true := by simp [Frame.atMargin, hd.not_indented]
  match ls with
  | [] =>
    have hstop : scan f i gap (d :: after) = ⟨[i.close], none, d :: after⟩ := by
      rw [scan, if_neg (by simp [hd.not_blank]), hd.no_marker]
      simp [hmargin, hd.not_paragraph]
    rw [List.nil_append, hstop, scan]
    rfl
  | l :: rest =>
    obtain ⟨hl, hrest⟩ := List.forall_mem_cons.1 h
    have hdrop : (rest ++ d :: after).dropWhile Line.isBlank = rest.dropWhile Line.isBlank ++ d :: after :=
      Line.dropWhile_stop hd.not_blank rest
    have hnext : ∀ k ∈ rest.dropWhile Line.isBlank, k.number ≠ 1 := fun k hk =>
      hrest k ((List.dropWhile_sublist _).subset hk)
    have ihnext := fun i => scan_stop hd f i true _ hnext
    rw [List.cons_append, scan, scan, hdrop, classify_congr hl _ rest]
    split
    · cases hk : rest.dropWhile Line.isBlank with
      | nil => simp [Frame.isSibling, hd.no_marker, hd.not_indented]
      | cons next more =>
        rw [hk] at ihnext
        simp only [List.cons_append] at ihnext ⊢
        split
        · exact ihnext i
        · split
          · exact ihnext _
          · rfl
    · split
      · split
        · rw [scan_stop hd f _ false rest hrest]
          rfl
        · rfl
      · split
        · exact scan_stop hd f _ gap rest hrest
        · rfl
termination_by ls.length
decreasing_by
  all_goals
    have := (List.dropWhile_sublist Line.isBlank (l := rest)).length_le
    simp only [List.length_cons]
    omega

theorem read_stop (hd : d.Stops after) (l : Line) {ls : List Line} (h : ∀ l ∈ ls, l.number ≠ 1) :
    read l (ls ++ d :: after) = ((read l ls).1, (read l ls).2 ++ d :: after) := by
  rw [read, read]
  split
  · rfl
  · simp only [scan_stop hd _ _ _ ls h]

end ListReader

/-! ### Blocks -/

/-- A block that leaves the stop line starts alike without the line and what follows it. -/
theorem BlockStart.of_stop (hd : d.Stops after) {l : Line} {ls rest : List Line} {b : Block}
    (h : Block.read l (ls ++ d :: after) = .ok (b, rest ++ d :: after)) :
    BlockStart.of l (ls ++ d :: after) = BlockStart.of l ls := by
  have hmatter : isFrontMatter l (ls ++ d :: after) = isFrontMatter l ls := by
    by_cases hfull : isFrontMatter l (ls ++ d :: after)
    · have hrest : (Extent.frontMatter (ls ++ d :: after)).2 = rest ++ d :: after := by
        simp only [Block.read, of_eq_frontMatter_iff.2 hfull, Except.ok.injEq, Prod.mk.injEq] at h
        exact h.2
      have hany := (Extent.frontMatter_stop hd hrest).1
      simp only [isFrontMatter, List.any_append, hany, Bool.true_or]
    · have hls : ¬isFrontMatter l ls := by
        simp only [isFrontMatter, List.any_append, Bool.and_eq_true, Bool.or_eq_true] at hfull ⊢
        exact fun h => hfull ⟨h.1, .inl h.2⟩
      rw [Bool.eq_false_iff.2 hfull, Bool.eq_false_iff.2 hls]
  rw [BlockStart.of, BlockStart.of, hmatter]

/-- A block that leaves the stop line is read alike without the line and what follows it. -/
theorem Block.read_stop (hd : d.Stops after) {l : Line} {ls rest : List Line} {b : Block}
    (hls : ∀ k ∈ ls, k.number ≠ 1) (h : Block.read l (ls ++ d :: after) = .ok (b, rest ++ d :: after)) :
    Block.read l ls = .ok (b, rest) := by
  have hstart := BlockStart.of_stop hd h
  have cut {c : Block} {r : List Line} (h : Except.ok (ε := Fault) (c, r ++ d :: after) = .ok (b, rest ++ d :: after)) :
      Except.ok (ε := Fault) (c, r) = .ok (b, rest) := by
    simp only [Except.ok.injEq, Prod.mk.injEq] at h
    rw [h.1, List.append_cancel_right h.2]
  unfold Block.read at h ⊢
  rw [hstart] at h
  simp only at h ⊢
  split at h
  case h_1 =>
    rw [Line.dropWhile_stop hd.not_blank] at h
    exact cut h
  case h_3 =>
    simp only [Except.ok.injEq, Prod.mk.injEq] at h
    rw [(Extent.frontMatter_stop hd h.2).2, ← h.1]
  case h_4 =>
    split at h
    · next hbody =>
      cases h
      rw [Extent.fenceBody?_stop hbody]
    · cases h
  case h_5 =>
    split at h
    · next hbody =>
      cases h
      rw [Extent.divBody?_stop hbody]
    · cases h
  case h_6 => cases h
  case h_7 =>
    unfold readMath at h ⊢
    split at h
    · exact cut h
    · split at h
      · cases h
      · next hrows =>
        simp only [Except.ok.injEq, Prod.mk.injEq] at h
        rw [h.2] at hrows
        rw [Extent.mathRows?_stop hrows, ← h.1]
  case h_12 =>
    have hcontinues : Footnotes.continues d = false := by simp [Footnotes.continues, hd.not_indented]
    rw [Footnotes.continuation_append hcontinues] at h
    exact cut h
  case h_13 =>
    rw [ListReader.read_stop hd l hls] at h
    exact cut h
  case h_14 =>
    rw [Extent.paragraph_stop hd hls] at h
    exact cut h
  all_goals exact cut h

/-! ### Conversion -/

/-- The lines before a stop line that reading comes to are converted first. -/
theorem convertLines_stop {set : Setting} {ctx : Inline.Context} {context : Context} (hd : d.Stops after)
    {ls : List Line} (hls : ∀ k ∈ ls.tail, k.number ≠ 1) (h : Block.Passes (ls ++ d :: after) (d :: after))
    (s : Session) : convertLines set ctx context (ls ++ d :: after) s =
      (convertLines set ctx context ls s).bind (convertLines set ctx context (d :: after)) := by
  generalize hall : ls ++ d :: after = all at h
  generalize hend : d :: after = tail at h
  induction h generalizing ls s with
  | @here all =>
    have : ls = [] := List.append_left_eq_self.1 (hall.trans hend.symm)
    rw [this, convertLines]
    rfl
  | @next l following rest tail b hr hpasses ih =>
    subst hend
    obtain ⟨more', rfl⟩ := hpasses.suffix
    cases ls with
    | nil =>
      -- the stop line would have been passed
      have hlen := (Block.rest_suffix hr).length_le
      simp only [List.nil_append, List.cons.injEq] at hall
      simp only [← hall.2, List.length_append, List.length_cons] at hlen
      omega
    | cons k more =>
      simp only [List.cons_append, List.cons.injEq] at hall
      obtain ⟨rfl, rfl⟩ := hall
      have hread : Block.read k more = .ok (b, more') := Block.read_stop hd hls hr
      have hmore : ∀ k ∈ more'.tail, k.number ≠ 1 := fun k hk =>
        hls k ((Block.rest_suffix hread).subset (List.mem_of_mem_tail hk))
      rw [convertLines_of_read hr, convertLines_of_read hread]
      split
      · exact ih hmore _ rfl rfl
      · rfl

end QuartoPretext
