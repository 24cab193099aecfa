/-
# Where rows of display math keep groups together

The rows of display math are cut at every row break, in whatever group it stands. If
the groups of the source are nested, so are those of the text without the wrappers, as
long as the text after each wrapper is read the same without it. Then the groups of the
rows are nested exactly if every row break stands outside all groups: a row break of an
inner environment divides it between two rows.

Key definitions: `Text.Division.befores`, `DisplayMath.Apart`, `DisplayMath.contents`.
Key theorems: `DisplayMath.read_between`, `DisplayMath.nested_between`,
`DisplayMath.nested_stretches_iff`, `DisplayMath.contents_ofBlock`,
`DisplayMath.contents_nested_iff`.
-/
import QuartoPretext.Proofs.DisplayMath.Breaks
import QuartoPretext.Proofs.DisplayMath.Groups
import QuartoPretext.Proofs.Document.Leaves
import QuartoPretext.Proofs.Markup.TextEscape

namespace QuartoPretext

open Text TeX

/-- The texts before the stretches found, each from the start. -/
def Text.Division.befores : Division → List Text
  | .last _ => []
  | .next t m more => t :: more.befores.map (t ++ m ++ ·)

namespace DisplayMath

variable {kinds : Group → Bool} {m : Mode} {s t w rest mark : Text} {d e : Division}

/-- Each wrapper is read as one, and without it the text after it is read the same. -/
def Apart : Division → Prop
  | .last _ => True
  | .next t _ more => (read .text t).2.Restarts more.between.flatten ∧ Apart more

/-- Whether a group is an environment that only aligns. -/
def isAligning : Group → Bool
  | .brace => false
  | .environment name => alignNames.contains name

/-! ### Wrappers -/

theorem isWrapper_iff : IsWrapper w ↔ ∃ side : Side, ∃ a ∈ alignNames, w = '\\' :: (side.keyword ++ a ++ ['\x7d']) := by
  have hkeywords : keywords = [Side.opening.keyword, Side.closing.keyword] := rfl
  simp only [IsWrapper, hkeywords, List.mem_cons, List.not_mem_nil, or_false, List.append_assoc]
  constructor
  · rintro ⟨k, rfl | rfl, h⟩
    · exact ⟨.opening, h⟩
    · exact ⟨.closing, h⟩
  · rintro ⟨side, h⟩
    cases side with
    | opening => exact ⟨_, .inl rfl, h⟩
    | closing => exact ⟨_, .inr rfl, h⟩

/-- A wrapper is read as the start or end of its environment, after which all starts
again. -/
theorem read_wrapper (hw : IsWrapper w) (hname : m.isName = false) (hescapes : m.escapes = false) :
    ∃ side, ∃ a ∈ alignNames, read m w = ([⟨side, .environment a⟩], .text) := by
  obtain ⟨side, a, ha, rfl⟩ := isWrapper_iff.1 hw
  refine ⟨side, a, ha, ?_⟩
  have hrest : ∀ side : Side, ∀ a ∈ alignNames,
      read (.command []) (side.keyword ++ a ++ ['\x7d']) = ([⟨side, .environment a⟩], .text) := by
    intro side
    cases side <;> decide
  rw [read_cons, next_backslash hname hescapes, hrest side a ha]
  rfl

/-- No environment that only aligns starts or ends where there is no wrapper. -/
theorem not_aligning_of_unmatched (h : Unmatched IsWrapper t rest) : ∀ x ∈ (read .text t).1, isAligning x.group = false := by
  rintro ⟨side, group⟩ hx
  cases group with
  | brace => rfl
  | environment a =>
    refine Bool.eq_false_iff.2 fun ha => ?_
    have hmem : a ∈ alignNames := List.contains_iff_mem.1 ha
    have hspace : ∀ b ∈ alignNames, ' ' ∉ b := by decide
    have hinfix := read_behind t (m := .text) (s := []) trivial _ hx a rfl (hspace a hmem)
    exact h.not_stands (isWrapper_iff.2 ⟨side, a, hmem, rfl⟩) (List.cons_ne_nil _ _) hinfix

/-- Without the wrappers a text has the delimiters of the other groups. -/
theorem read_between (hd : d.Leftmost IsWrapper) (hapart : Apart d) :
    (read .text d.between.flatten).1 = (read .text d.text).1.filter (fun x => !isAligning x.group) ∧
      (read .text d.between.flatten).2.isName = (read .text d.text).2.isName := by
  have hkeep {t rest : Text} (ht : Unmatched IsWrapper t rest) :
      (read .text t).1.filter (fun x => !isAligning x.group) = (read .text t).1 :=
    List.filter_eq_self.2 fun x hx => by rw [not_aligning_of_unmatched ht x hx]; rfl
  induction d with
  | last t =>
    rw [Division.between, List.flatten_singleton, Division.text_last, hkeep hd]
    exact ⟨rfl, rfl⟩
  | next t w more ih =>
    obtain ⟨ht, hw, hmore⟩ := hd
    obtain ⟨hrestarts, hapart⟩ := hapart
    obtain ⟨hread, hname⟩ := ih hmore hapart
    obtain ⟨side, a, ha, hwrapper⟩ := read_wrapper hw hrestarts.unnamed hrestarts.unescaped
    obtain ⟨hjoin, hjoinName⟩ := hrestarts.read_eq
    have haligning : isAligning (.environment a) = true := List.contains_iff_mem.2 ha
    have hbetween : (Division.next t w more).between.flatten = t ++ more.between.flatten := rfl
    have htext : read .text (Division.next t w more).text =
        ((read .text t).1 ++ ⟨side, .environment a⟩ :: (read .text more.text).1, (read .text more.text).2) := by
      rw [Division.text_next, List.append_assoc, read_append, read_append, hwrapper]
      rfl
    rw [hbetween, read_append, htext, List.filter_append, hkeep ht, List.filter_cons_of_neg (by simp [haligning]), ← hread,
      ← hname, hjoin, hjoinName]
    exact ⟨rfl, rfl⟩

/-- Without the wrappers, nested groups are still nested. -/
theorem nested_between (hd : d.Leftmost IsWrapper) (hapart : Apart d) (h : Nested kinds d.text) :
    Nested kinds d.between.flatten := by
  obtain ⟨hread, hname⟩ := read_between hd hapart
  refine ⟨hname.trans h.whole, ?_⟩
  rw [hread, List.filter_comm]
  exact remaining_filter (fun g => !isAligning g) _ h.closed

/-! ### Row breaks -/

theorem rowBreak_cases (plain : Text) : rowBreak plain = rowMark ∨ rowBreak plain = ['\n'] := by
  unfold rowBreak
  split
  · exact .inl rfl
  · exact .inr rfl

theorem getLast?_of_escapes (h : (read .text t).2.escapes) : t.getLast? = some '\\' := by
  rcases List.eq_nil_or_concat' t with rfl | ⟨t, c, rfl⟩
  · cases h
  · have hlast : (read .text (t ++ [c])).2 = ((read .text t).2.next c).2 := by
      rw [read_append, read_cons, read_nil]
    rw [hlast, next_escapes, Bool.and_eq_true, beq_iff_eq] at h
    rw [List.getLast?_concat, h.1]

/-- Outside of names, a row break is no delimiter, and all starts again after it. -/
theorem read_break (hmark : mark = rowMark ∨ mark = ['\n']) (ht : Unmatched (· = mark) t (mark ++ rest))
    (hname : (read .text t).2.isName = false) : read .text (t ++ mark) = ((read .text t).1, .text) := by
  suffices h : read (read .text t).2 mark = ([], .text) by rw [read_append, h, List.append_nil]
  rcases hmark with rfl | rfl
  · have hescapes : (read .text t).2.escapes = false := by
      refine Bool.eq_false_iff.2 fun h => ?_
      obtain ⟨before, rfl⟩ := List.getLast?_eq_some_iff.1 (getLast?_of_escapes h)
      exact ht.not_prefix rfl ⟨['\\'] ++ rest, rfl⟩
    rw [rowMark, read_cons, next_backslash hname hescapes]
    rfl
  · rw [read_cons, next_of_isSpace (by decide)]
    cases hm : (read .text t).2 with
    | text | command _ => rfl
    | name side letters =>
      rw [hm] at hname
      cases hname

/-- A row break after nested groups does not change how the rest is read. -/
theorem nested_break_iff (hmark : mark = rowMark ∨ mark = ['\n']) (ht : Unmatched (· = mark) t (mark ++ rest))
    (h : Nested kinds t) : Nested kinds (t ++ mark ++ s) ↔ Nested kinds s := by
  have hread := read_break hmark ht h.whole
  have hnested : Nested kinds (t ++ mark) := by
    constructor
    · rw [hread]
      rfl
    · rw [hread]
      exact h.closed
  exact nested_append_iff hnested (congrArg Prod.snd hread)

/-- **Stretches between row breaks are nested exactly if the breaks stand outside all
groups**, which is to say that the text before each of them is nested. -/
theorem nested_stretches_iff (hmark : mark = rowMark ∨ mark = ['\n']) (he : e.Leftmost (· = mark))
    (h : Nested kinds e.text) : (∀ t ∈ e.between, Nested kinds t) ↔ ∀ b ∈ e.befores, Nested kinds b := by
  induction e with
  | last t => exact ⟨fun _ => List.forall_mem_nil _, fun _ => List.forall_mem_singleton.2 h⟩
  | next t m more ih =>
    obtain ⟨ht, rfl, hmore⟩ := he
    rw [Division.between, Division.befores, List.forall_mem_cons, List.forall_mem_cons, List.forall_mem_map]
    refine and_congr_right fun hfirst => ?_
    have hrest : Nested kinds more.text := (nested_break_iff hmark ht hfirst).1 h
    rw [ih hmore hrest]
    exact forall₂_congr fun b _ => (nested_break_iff hmark ht hfirst).symm

/-- The groups of the rows of a text are nested exactly if every row break stands
outside all groups. -/
theorem nested_rowsOf_iff (htext : e.text = dropEnvironments s) (he : e.Leftmost (· = rowBreak e.text))
    (h : Nested kinds e.text) : (∀ r ∈ rowsOf s, Nested kinds r) ↔ ∀ b ∈ e.befores, Nested kinds b := by
  obtain ⟨parts, hrows, hwords, -⟩ := exists_parts htext he
  rw [← nested_stretches_iff (rowBreak_cases e.text) he h, hrows, List.forall_mem_map]
  simp only [nested_alignmentPoints]
  have hmem {ws : List Text} : ws ∈ parts.map words ↔ ws ∈ e.between.map words ∧ ws ≠ [] := by
    rw [hwords, List.mem_filter]
    cases ws <;> simp
  constructor
  · intro hparts t ht
    by_cases hblank : words t = []
    · exact (nested_of_words (t := []) hblank).2 nested_nil
    · obtain ⟨p, hp, hpt⟩ := List.mem_map.1 (hmem.2 ⟨List.mem_map_of_mem ht, hblank⟩)
      exact (nested_of_words hpt).1 (hparts p hp)
  · intro hbetween p hp
    obtain ⟨t, ht, htp⟩ := List.mem_map.1 (hmem.1 (List.mem_map_of_mem hp)).1
    exact (nested_of_words htp).1 (hbetween t ht)

/-! ### What is written -/

/-- The TeX in an element of display math. -/
def content? : Piece → Option Text
  | .leaf tag (.markup xml) =>
    if tag.element = .me ∨ tag.element = .mrow then some (Markup.unescapeContent xml) else none
  | _ => none

/-- The TeX in the elements of display math among some pieces. -/
def contents (ps : List Piece) : List Text := (Piece.leavesOf ps).filterMap content?

/-- What is written of display math. -/
def expressions : Option DisplayMath → List Text
  | none => []
  | some (.single tex) => [tex]
  | some (.rows rs) => rs

theorem contents_append (ps qs : List Piece) : contents (ps ++ qs) = contents ps ++ contents qs := by
  rw [contents, Piece.leavesOf_append, List.filterMap_append]
  rfl

/-- Elements around others hold no TeX of their own. -/
theorem contents_element (tag : Markup.Tag) (ps : List Piece) : contents [.element tag ps] = contents ps := by
  rw [contents, Piece.leavesOf_singleton]
  rfl

theorem contents_leaves {tag : Markup.Tag} (htag : tag.element = .me ∨ tag.element = .mrow) (texs : List Text) :
    contents (texs.map fun tex => .leaf tag (.markup (Markup.escapeContent tex))) = texs := by
  induction texs with
  | nil => rfl
  | cons tex texs ih =>
    have hleaf : content? (.leaf tag (.markup (Markup.escapeContent tex))) = some tex := by
      rw [content?, if_pos htag, Markup.unescape_escape]
    have hleaves (ps : List Piece) : Piece.leavesOf (.leaf tag (.markup (Markup.escapeContent tex)) :: ps) =
      .leaf tag (.markup (Markup.escapeContent tex)) :: Piece.leavesOf ps := rfl
    rw [List.map_cons, contents, hleaves, List.filterMap_cons_some hleaf]
    exact congrArg (tex :: ·) ih

/-- Exactly the expression, or the rows, are written. -/
theorem contents_ofBlock (set : Setting) (context : Context) (count line : Nat) (rows : List Text)
    (id trailing : Option Text) :
    contents (Plan.ofBlock set context count (.displayMath line rows id trailing)) = expressions (ofRows? rows) := by
  have htrailing : contents (trailing.map Piece.paragraph).toList = [] := by cases trailing <;> rfl
  rw [Plan.ofBlock, contents_append, htrailing, List.append_nil, Plan.ofMath]
  split
  · next hnone =>
    rw [hnone]
    rfl
  · next tex hsingle =>
    rw [hsingle, Plan.plainElement, contents_element]
    exact contents_leaves (.inl rfl) [tex]
  · next rs hrows =>
    rw [hrows, Plan.plainElement, contents_element, contents_element]
    exact contents_leaves (.inr rfl) rs

/-- **Rows keep groups together where no row break is in one.** In a block of display
math with nested groups, where each wrapper is read as one and can be taken away without
a change to the rest, a single expression has nested groups. Rows have them exactly if
every row break stands outside all groups, those of the wrappers aside. -/
theorem contents_nested_iff {rows : List Text} (htext : d.text = text rows) (hd : d.Leftmost IsWrapper)
    (hapart : Apart d) (h : Nested kinds (joinWith ['\n'] rows)) (set : Setting) (context : Context) (count line : Nat)
    (id trailing : Option Text) :
    (∀ tex, ofRows? rows = some (.single tex) →
      ∀ x ∈ contents (Plan.ofBlock set context count (.displayMath line rows id trailing)), Nested kinds x) ∧
    ((∀ tex, ofRows? rows ≠ some (.single tex)) → ∀ e : Division, e.text = d.between.flatten →
      e.Leftmost (· = rowBreak e.text) →
      ((∀ x ∈ contents (Plan.ofBlock set context count (.displayMath line rows id trailing)), Nested kinds x) ↔
        ∀ b ∈ e.befores, Nested kinds b)) := by
  have hsource : Nested kinds d.text := by
    refine (nested_of_words ?_).1 h
    rw [htext, words_text, words_joinWith (by decide)]
  rw [contents_ofBlock]
  constructor
  · intro tex hsingle
    obtain ⟨row, hrow, -, -, rfl⟩ := ofRows?_eq_single_iff.1 hsingle
    rw [hsingle, expressions]
    refine List.forall_mem_singleton.2 ((nested_of_words ?_).1 hsource)
    rw [htext, text, filter_trim, hrow, List.map_singleton, joinWith_singleton]
  · intro hnot e hplain he
    have hdrop : e.text = dropEnvironments (text rows) := by rw [hplain, ← htext, dropEnvironments_text hd]
    have hiff := nested_rowsOf_iff hdrop he (hplain ▸ nested_between hd hapart hsource)
    have hwritten : expressions (ofRows? rows) = rowsOf (text rows) := by
      rw [ofRows?_of_not_single hnot]
      split
      · next hempty => exact (List.isEmpty_iff.1 hempty).symm
      · rfl
    rw [hwritten]
    exact hiff

/-- A fraction in the first of two aligned rows: the row break stands outside its braces. -/
theorem contents_nested_aligned :
    let row := "\\begin\x7balign*\x7d \\frac\x7ba\x7d\x7bb\x7d &= c \\\\ d &= e \\end\x7balign*\x7d".toList
    ∀ x ∈ contents (Plan.ofBlock ⟨.ofKind .chapter, none⟩ .document 0 (.displayMath 1 [row] none none)),
      Nested (fun _ => true) x := by
  intro row
  let first := " \\frac\x7ba\x7d\x7bb\x7d &= c ".toList
  let second := " d &= e ".toList
  let d : Division := .next [] "\\begin\x7balign*\x7d".toList
    (.next (first ++ rowMark ++ second) "\\end\x7balign*\x7d".toList (.last []))
  have htext : d.text = text [row] := by decide +kernel
  have hd : d.Leftmost IsWrapper := by decide +kernel
  have hbefore : (read .text (first ++ rowMark ++ second)).2 = .text := by decide +kernel
  have hapart : Apart d := ⟨Mode.restarts_text _, hbefore ▸ Mode.restarts_text _, trivial⟩
  have hnested : Nested (fun _ => true) (joinWith ['\n'] [row]) := by decide +kernel
  have hrows : ofRows? [row] = some (.rows ["\\frac\x7ba\x7d\x7bb\x7d \\amp = c".toList, "d \\amp = e".toList]) := by
    decide +kernel
  refine ((contents_nested_iff htext hd hapart hnested _ _ _ _ _ _).2 (fun tex => ?_)
    (.next first rowMark (.last second)) ?_ ?_).2 ?_
  · rw [hrows]
    exact nofun
  · decide +kernel
  · decide +kernel
  · decide +kernel

/-- A row break in an environment divides it: each row has one of its two ends. -/
theorem contents_cut_cases :
    let row := "\\begin\x7bcases\x7d a \\\\ b \\end\x7bcases\x7d".toList
    Block.readMath 1 [] [⟨2, row⟩, ⟨3, "$$".toList⟩] = .ok (.displayMath 1 [row] none none, []) ∧
      Nested (fun _ => true) (joinWith ['\n'] [row]) ∧
      ¬∀ x ∈ contents (Plan.ofBlock ⟨.ofKind .chapter, none⟩ .document 0 (.displayMath 1 [row] none none)),
        Nested (fun _ => true) x := by
  refine ⟨rfl, by decide +kernel, by decide +kernel⟩

end DisplayMath
end QuartoPretext
