/-
# Lines under other numbers

Which block starts at a line, and how far it goes, hangs on the texts of the lines.
Their numbers only go into the block, or into the fault, and they tell the first line
of a document, where alone front matter may stand. So lines under other numbers are
read as the same blocks under other numbers, as long as the first line stays the
first. Blank lines that are added at the end change nothing, and so numbers that are
left alone are left alone in the block.

Key definitions: `Line.renumber`, `Line.Renumbered`, `Block.renumber`,
`Fault.renumber`, `Block.ReadAlike`.
Key theorems: `BlockStart.of_renumbered`, `ListReader.scan_renumbered`,
`Block.read_renumbered`, `Block.renumber_of_read`.
-/
import QuartoPretext.Proofs.Block.Bare
import Mathlib.Data.List.TakeWhile

namespace QuartoPretext

open Text

/-! ### Renumbering -/

/-- The line under another number. -/
def Line.renumber (f : Nat → Nat) (l : Line) : Line := ⟨f l.number, l.text⟩

def ListItem.renumber (f : Nat → Nat) (i : ListItem) : ListItem :=
  { i with line := f i.line, body := i.body.map (.renumber f) }

def ListBlock.renumber (f : Nat → Nat) (l : ListBlock) : ListBlock :=
  { l with
    line := f l.line
    items := l.items.map (.renumber f)
    interruptedAt := l.interruptedAt.map f }

def Block.renumber (f : Nat → Nat) : Block → Block
  | heading n level title attrs => heading (f n) level title attrs
  | frontMatter n yaml => frontMatter (f n) yaml
  | fence n open' body => fence (f n) open' (body.map (.renumber f))
  | div n label attrs body => div (f n) label attrs (body.map (.renumber f))
  | displayMath n rows id trailing => displayMath (f n) rows id trailing
  | inclusion n path => inclusion (f n) path
  | image n caption source attrs => image (f n) caption source attrs
  | list l => list (l.renumber f)
  | paragraph n text => paragraph (f n) text
  | skipped n kind => skipped (f n) kind

def Fault.renumber (f : Nat → Nat) : Fault → Fault
  | openFence n opener => openFence (f n) opener
  | openDiv n label => openDiv (f n) label
  | strayDivClose n => strayDivClose (f n)
  | openMath n => openMath (f n)
  | levelSkip n level => levelSkip (f n) level
  | frontMatter n => frontMatter (f n)

/-- The same lines under other numbers, and maybe blank lines after them. The first
line of a document stays the first. -/
inductive Line.Renumbered (f : Nat → Nat) : List Line → List Line → Prop
  | blanks {ls : List Line} : (∀ l ∈ ls, l.isBlank) → Renumbered f [] ls
  | cons {l : Line} {ls ls' : List Line} : (f l.number = 1 ↔ l.number = 1) → Renumbered f ls ls' →
      Renumbered f (l :: ls) (l.renumber f :: ls')

variable {f : Nat → Nat} {l : Line} {ls ls' : List Line}

@[simp] theorem Line.text_renumber (f : Nat → Nat) (l : Line) : (l.renumber f).text = l.text := rfl

@[simp] theorem Line.number_renumber (f : Nat → Nat) (l : Line) : (l.renumber f).number = f l.number := rfl

@[simp] theorem Line.isBlank_renumber (f : Nat → Nat) (l : Line) : (l.renumber f).isBlank = l.isBlank := rfl

theorem Line.map_text_renumber (f : Nat → Nat) (ls : List Line) :
    (ls.map (Line.renumber f)).map (·.text) = ls.map (·.text) := by
  rw [List.map_map]
  rfl

theorem Line.renumbered_map : ∀ {ls : List Line}, (∀ l ∈ ls, f l.number = 1 ↔ l.number = 1) →
    Renumbered f ls (ls.map (.renumber f))
  | [], _ => .blanks (List.forall_mem_nil _)
  | _ :: _, h => .cons (h _ List.mem_cons_self) (renumbered_map fun k hk => h k (List.mem_cons_of_mem _ hk))

theorem Line.map_renumber_eq_iff : ∀ {ls : List Line}, ls.map (renumber f) = ls ↔ ∀ l ∈ ls, f l.number = l.number
  | [] => by simp
  | l :: ls => by
    have hl : l.renumber f = l ↔ f l.number = l.number := ⟨congrArg number, fun h => by rw [renumber, h]⟩
    rw [List.map_cons, List.cons.injEq, hl, map_renumber_eq_iff, List.forall_mem_cons]

/-- Lines whose numbers are left alone are left alone. -/
theorem Line.renumbered_of_fixed (h : ∀ l ∈ ls, f l.number = l.number) : Renumbered f ls ls := by
  have hmap := renumbered_map (f := f) fun l hl => by rw [h l hl]
  rwa [map_renumber_eq_iff.2 h] at hmap

/-- After the blank lines that they start with there is nothing in both, or the same line. -/
theorem Line.Renumbered.dropWhile_cases (h : Renumbered f ls ls') :
    (ls.dropWhile isBlank = [] ∧ ls'.dropWhile isBlank = []) ∨
      ∃ l more more', ls.dropWhile isBlank = l :: more ∧ ls'.dropWhile isBlank = l.renumber f :: more' ∧
        (f l.number = 1 ↔ l.number = 1) ∧ Renumbered f more more' := by
  induction h with
  | blanks h => exact .inl ⟨rfl, List.dropWhile_eq_nil_iff.2 h⟩
  | @cons l ls ls' hl h ih =>
    by_cases hb : l.isBlank
    · rw [List.dropWhile_cons_of_pos hb, List.dropWhile_cons_of_pos (by simpa using hb)]
      exact ih
    · rw [List.dropWhile_cons_of_neg hb, List.dropWhile_cons_of_neg (by simpa using hb)]
      exact .inr ⟨l, ls, ls', rfl, rfl, hl, h⟩

theorem Line.Renumbered.dropWhile_isBlank (h : Renumbered f ls ls') :
    Renumbered f (ls.dropWhile isBlank) (ls'.dropWhile isBlank) := by
  rcases h.dropWhile_cases with ⟨hls, hls'⟩ | ⟨l, more, more', hls, hls', hl, hmore⟩
  · rw [hls, hls']
    exact .blanks (List.forall_mem_nil _)
  · rw [hls, hls']
    exact .cons hl hmore

/-! ### Blank lines -/

theorem Text.trim_of_isBlank {s : Text} (h : isBlank s) : trim s = [] := by
  have hstart : trimStart s = [] := List.dropWhile_eq_nil_iff.2 (List.all_eq_true.1 h)
  rw [trim, hstart]
  rfl

/-- A fence of one sign or more is not closed by a blank line. -/
theorem FenceMark.not_closedBy_of_isBlank {mark : FenceMark} (hmark : 0 < mark.length) {s : Text} (h : isBlank s) :
    mark.closedBy s = false := by
  have hstart : trimStart s = [] := List.dropWhile_eq_nil_iff.2 (List.all_eq_true.1 h)
  have hlength : mark.length ≠ 0 := by omega
  simp [closedBy, hstart, hlength]

theorem DivFence.parse?_of_isBlank {s : Text} (h : isBlank s) : parse? s = none := by
  simp [parse?, trim_of_isBlank h]

theorem FenceMark.detect?_length {s : Text} {mark : FenceMark} (h : detect? s = some mark) : 0 < mark.length := by
  unfold detect? at h
  split at h
  · cases h
  · simp only at h
    split at h
    · cases h
    · split at h
      · cases h
      · cases h
        simp only
        omega

namespace CodeFence

theorem mark_addOption (f : CodeFence) (token : Text) : (f.addOption token).mark = f.mark := by
  unfold addOption
  split
  · rfl
  · split <;> rfl

theorem mark_foldl_addOption : ∀ (tokens : List Text) (f : CodeFence), (tokens.foldl addOption f).mark = f.mark
  | [], _ => rfl
  | token :: tokens, f => by rw [List.foldl_cons, mark_foldl_addOption tokens, mark_addOption]

theorem mark_withInfo (f : CodeFence) (info : Text) : (f.withInfo info).mark = f.mark := by
  unfold withInfo
  split
  · split
    · rfl
    · exact mark_foldl_addOption _ _
  · rfl

/-- The mark of a fence is the one that its line starts with. -/
theorem detect?_of_parse? {s : Text} {f : CodeFence} (h : parse? s = some f) :
    FenceMark.detect? (trim s) = some f.mark := by
  obtain ⟨mark, hmark, rfl⟩ := Option.map_eq_some_iff.1 h
  rw [mark_withInfo]
  exact hmark

end CodeFence

/-! ### How blocks start -/

theorem BlockStart.not_closesYaml (h : l.isBlank) : closesYaml l = false := by
  simp [closesYaml, trim_of_isBlank h, yamlOpen]

theorem BlockStart.any_closesYaml_renumbered (h : Line.Renumbered f ls ls') :
    ls'.any closesYaml = ls.any closesYaml := by
  induction h with
  | blanks h =>
    rw [List.any_nil, List.any_eq_false]
    exact fun l hl => by simp [not_closesYaml (h l hl)]
  | cons _ _ ih =>
    rw [List.any_cons, List.any_cons, ih]
    rfl

theorem BlockStart.of_renumbered (hl : f l.number = 1 ↔ l.number = 1) (h : Line.Renumbered f ls ls') :
    BlockStart.of (l.renumber f) ls' = BlockStart.of l ls := by
  have hfirst : (f l.number == 1) = (l.number == 1) := by
    rw [Bool.eq_iff_iff, beq_iff_eq, beq_iff_eq, hl]
  have hyaml : isFrontMatter (l.renumber f) ls' = isFrontMatter l ls := by
    rw [isFrontMatter, isFrontMatter, any_closesYaml_renumbered h, Line.number_renumber, hfirst, Line.text_renumber]
  rw [BlockStart.of, BlockStart.of, hyaml, Line.isBlank_renumber, Line.text_renumber]

theorem classify_renumbered (hl : f l.number = 1 ↔ l.number = 1) (h : Line.Renumbered f ls ls') :
    classify (l.renumber f) ls' = classify l ls := by
  rw [classify, classify, BlockStart.of_renumbered hl h]

/-! ### How far blocks reach -/

namespace Extent

/-- The same lines are cut off under other numbers. -/
inductive CutAlike (f : Nat → Nat) : Option (List Line × List Line) → Option (List Line × List Line) → Prop
  | none : CutAlike f none none
  | some {body rest rest' : List Line} : Line.Renumbered f rest rest' →
      CutAlike f (some (body, rest)) (some (body.map (.renumber f), rest'))

theorem CutAlike.keep {found found' : Option (List Line × List Line)} (h : CutAlike f found found') (l : Line) :
    CutAlike f (found.map fun p => (l :: p.1, p.2)) (found'.map fun p => (l.renumber f :: p.1, p.2)) := by
  cases h with
  | none => exact .none
  | some h => exact .some h

theorem fenceBody?_blanks {mark : FenceMark} (hmark : 0 < mark.length) : ∀ {ls : List Line}, (∀ l ∈ ls, l.isBlank) →
    fenceBody? mark ls = none
  | [], _ => rfl
  | _ :: _, h => by
    obtain ⟨hl, hls⟩ := List.forall_mem_cons.1 h
    simp [fenceBody?, FenceMark.not_closedBy_of_isBlank hmark hl, fenceBody?_blanks hmark hls]

theorem fenceBody?_renumbered {mark : FenceMark} (hmark : 0 < mark.length) (h : Line.Renumbered f ls ls') :
    CutAlike f (fenceBody? mark ls) (fenceBody? mark ls') := by
  induction h with
  | blanks h =>
    rw [fenceBody?_blanks hmark h]
    exact .none
  | @cons l ls ls' _ h ih =>
    rw [fenceBody?, fenceBody?, Line.text_renumber]
    split
    · exact .some h
    · exact ih.keep l

theorem divBody?_blanks (inner : Nat) : ∀ (fence : Option FenceMark) {ls : List Line}, (∀ l ∈ ls, l.isBlank) →
    divBody? inner fence ls = none
  | _, [], _ => rfl
  | _, _ :: _, h => by
    obtain ⟨hl, hls⟩ := List.forall_mem_cons.1 h
    simp [divBody?, DivFence.parse?_of_isBlank hl, divBody?_blanks inner _ hls]

theorem divBody?_renumbered (h : Line.Renumbered f ls ls') (inner : Nat) (fence : Option FenceMark) :
    CutAlike f (divBody? inner fence ls) (divBody? inner fence ls') := by
  induction h generalizing inner fence with
  | blanks h =>
    rw [divBody?_blanks inner fence h]
    exact .none
  | @cons l ls ls' _ h ih =>
    rw [divBody?, divBody?, Line.text_renumber]
    simp only
    split
    · exact (ih _ _).keep l
    · split
      · exact (ih _ _).keep l
      · split
        · exact .some h
        · exact (ih _ _).keep l
      · exact (ih _ _).keep l

/-- Rows that are cut off are texts, so they stay. -/
inductive RowsAlike (f : Nat → Nat) :
    Option (List Text × Text × List Line) → Option (List Text × Text × List Line) → Prop
  | none : RowsAlike f none none
  | some {rows : List Text} {tail : Text} {rest rest' : List Line} : Line.Renumbered f rest rest' →
      RowsAlike f (some (rows, tail, rest)) (some (rows, tail, rest'))

theorem mathRows?_blanks : ∀ {ls : List Line}, (∀ l ∈ ls, l.isBlank) → mathRows? ls = none
  | [], _ => rfl
  | l :: _, h => by
    obtain ⟨hl, hls⟩ := List.forall_mem_cons.1 h
    have hcut : cut? BlockStart.mathMark (trim l.text) = none := by
      rw [trim_of_isBlank hl]
      rfl
    simp [mathRows?, hcut, mathRows?_blanks hls]

theorem mathRows?_renumbered (h : Line.Renumbered f ls ls') : RowsAlike f (mathRows? ls) (mathRows? ls') := by
  induction h with
  | blanks h =>
    rw [mathRows?_blanks h]
    exact .none
  | @cons l ls ls' _ h ih =>
    rw [mathRows?, mathRows?, Line.text_renumber]
    split
    · exact .some h
    · generalize mathRows? ls = found, mathRows? ls' = found' at ih
      cases ih with
      | none => exact .none
      | some h => exact .some h

theorem paragraph_renumbered (h : Line.Renumbered f ls ls') :
    (paragraph ls').1 = (paragraph ls).1.map (.renumber f) ∧ Line.Renumbered f (paragraph ls).2 (paragraph ls').2 := by
  induction h with
  | @blanks ls h =>
    cases ls with
    | nil => exact ⟨rfl, .blanks h⟩
    | cons l ls =>
      have hl : l.isBlank := h l List.mem_cons_self
      have hkind : classify l ls ≠ .paragraph := by simp [classify, BlockStart.of, hl, BlockStart.kind]
      rw [paragraph, paragraph, if_neg hkind]
      exact ⟨rfl, .blanks h⟩
  | @cons l ls ls' hl h ih =>
    rw [paragraph, paragraph, classify_renumbered hl h]
    split
    · exact ⟨congrArg _ ih.1, ih.2⟩
    · exact ⟨rfl, .cons hl h⟩

/-- Front matter that is closed is read alike. -/
theorem frontMatter_renumbered (h : Line.Renumbered f ls ls') (hclose : ls.any BlockStart.closesYaml) :
    (frontMatter ls').1 = (frontMatter ls).1.map (.renumber f) ∧
      Line.Renumbered f (frontMatter ls).2 (frontMatter ls').2 := by
  induction h with
  | blanks _ => cases hclose
  | @cons l ls ls' hl h ih =>
    have hsame : BlockStart.closesYaml (l.renumber f) = BlockStart.closesYaml l := rfl
    by_cases hl' : BlockStart.closesYaml l
    · simpa [frontMatter, hl', hsame] using h
    · have hmore := ih (by simpa [hl'] using hclose)
      simpa [frontMatter, hl', hsame] using hmore

end Extent

theorem Footnotes.continuation_renumbered (h : Line.Renumbered f ls ls') :
    (continuation ls').1 = (continuation ls).1.map (Line.renumber f) ∧
      Line.Renumbered f (continuation ls).2 (continuation ls').2 := by
  induction h with
  | @blanks ls h =>
    cases ls with
    | nil => exact ⟨rfl, .blanks h⟩
    | cons l ls =>
      have hl : continues l = false := by simp [continues, h l List.mem_cons_self]
      simpa [continuation, hl] using Line.Renumbered.blanks h
  | @cons l ls ls' hl h ih =>
    have hsame : continues (l.renumber f) = continues l := rfl
    by_cases hc : continues l
    · simpa [continuation, hc, hsame] using ih
    · simpa [continuation, hc, hsame] using Line.Renumbered.cons hl h

/-! ### Lists -/

namespace ListReader

def Item.renumber (f : Nat → Nat) (i : Item) : Item := { i with item := i.item.renumber f }

theorem close_renumber (f : Nat → Nat) (i : Item) : (i.renumber f).close = i.close.renumber f := by
  simp only [Item.close, Item.renumber, ListItem.renumber, ← List.map_reverse, List.dropWhile_map]
  rfl

theorem add_renumber (f : Nat → Nat) (i : Item) (l : Line) :
    (i.renumber f).add (l.renumber f) = (i.add l).renumber f := by
  simp [Item.add, Item.renumber, ListItem.renumber]

/-- Lists that are read alike under other numbers. -/
structure Outcome.Renumbered (f : Nat → Nat) (o o' : Outcome) : Prop where
  items : o'.items = o.items.map (.renumber f)
  interruptedAt : o'.interruptedAt = o.interruptedAt.map f
  rest : Line.Renumbered f o.rest o'.rest

theorem Outcome.Renumbered.only (h : Line.Renumbered f ls ls') (i : Item) (n : Option Nat) :
    Outcome.Renumbered f ⟨[i.close], n, ls⟩ ⟨[(i.renumber f).close], n.map f, ls'⟩ :=
  ⟨by simp [close_renumber], rfl, h⟩

theorem Outcome.Renumbered.cons {o o' : Outcome} (h : o.Renumbered f o') (i : Item) :
    (o.cons i).Renumbered f (o'.cons (i.renumber f)) :=
  ⟨by simp [Outcome.cons, h.items, close_renumber], h.interruptedAt, h.rest⟩

/-- Blank lines at the end do not belong to a list. -/
theorem scan_blanks (frame : Frame) (i : Item) (gap : Bool) (h : ∀ l ∈ ls, l.isBlank) :
    scan frame i gap ls = ⟨[i.close], none, ls⟩ := by
  cases ls with
  | nil => rw [scan]
  | cons l ls =>
    obtain ⟨hl, hls⟩ := List.forall_mem_cons.1 h
    rw [scan, if_pos hl, List.dropWhile_eq_nil_iff.2 hls]

theorem scan_renumbered (frame : Frame) (i : Item) (gap : Bool) (ls ls' : List Line) (h : Line.Renumbered f ls ls') :
    Outcome.Renumbered f (scan frame i gap ls) (scan frame (i.renumber f) gap ls') := by
  have hmarker (l : Line) : marker? (l.renumber f) = marker? l := rfl
  have hmargin (l : Line) : frame.atMargin (l.renumber f) = frame.atMargin l := rfl
  have hsibling (l : Line) : frame.isSibling (l.renumber f) = frame.isSibling l := rfl
  match h with
  | .blanks hb =>
    rw [scan, scan_blanks _ _ _ hb]
    exact .only (.blanks hb) i none
  | @Line.Renumbered.cons _ l rest rest' hl h =>
    have hdrop := h.dropWhile_isBlank
    have hnext := fun i => scan_renumbered frame i true _ _ hdrop
    rw [scan, scan, Line.isBlank_renumber, hmarker, hmargin, classify_renumbered hl h]
    split
    · rcases h.dropWhile_cases with ⟨hrest, hrest'⟩ | ⟨next, more, more', hrest, hrest', _⟩
      · rw [hrest, hrest']
        exact .only (.cons hl h) i none
      · rw [hrest, hrest'] at hnext ⊢
        simp only [hsibling, Line.number_renumber]
        have hsame : (next.renumber f).indent = next.indent := rfl
        by_cases hs : frame.isSibling next
        · rw [if_pos hs, if_pos hs]
          exact hnext i
        · rw [if_neg hs, if_neg hs]
          by_cases hindent : frame.base + 2 ≤ next.indent
          · rw [if_pos hindent, if_pos (hsame ▸ hindent)]
            have hadd := hnext (i.add ⟨l.number, []⟩)
            rw [← add_renumber] at hadd
            exact hadd
          · rw [if_neg hindent, if_neg (hsame ▸ hindent)]
            exact .only (.cons hl h) i none
    · split
      · next marker first column hm =>
        split
        · have hmore := scan_renumbered frame (Item.start l.number marker first column) false _ _ h
          exact hmore.cons i
        · exact .only (.cons hl h) i (some l.number)
      · split
        · have hmore := scan_renumbered frame (i.add (l.dedent (min i.column l.indent))) gap _ _ h
          rw [← add_renumber] at hmore
          exact hmore
        · exact .only (.cons hl h) i none
termination_by ls.length
decreasing_by
  all_goals
    have := (List.dropWhile_sublist Line.isBlank (l := rest)).length_le
    simp only [List.length_cons]
    omega

theorem read_renumbered (h : Line.Renumbered f ls ls') :
    (read (l.renumber f) ls').1 = (read l ls).1.renumber f ∧
      Line.Renumbered f (read l ls).2 (read (l.renumber f) ls').2 := by
  have hmarker : marker? (l.renumber f) = marker? l := rfl
  rw [read, read, hmarker]
  split
  · exact ⟨rfl, h⟩
  · next marker first column hm =>
    have hscan := scan_renumbered ⟨l.indent, ListStyle.ofMarker marker⟩ (Item.start l.number marker first column)
      false _ _ h
    refine ⟨?_, hscan.rest⟩
    rw [ListBlock.renumber, ← hscan.items, ← hscan.interruptedAt]
    rfl

end ListReader

/-! ### Blocks -/

/-- The same block is read under other numbers, or the same fault. -/
inductive Block.ReadAlike (f : Nat → Nat) : Except Fault (Block × List Line) → Except Fault (Block × List Line) → Prop
  | ok {b : Block} {rest rest' : List Line} : Line.Renumbered f rest rest' →
      ReadAlike f (.ok (b, rest)) (.ok (b.renumber f, rest'))
  | error {e : Fault} : ReadAlike f (.error e) (.error (e.renumber f))

theorem Block.ReadAlike.of_ok {b : Block} {rest : List Line} {r : Except Fault (Block × List Line)}
    (h : ReadAlike f (.ok (b, rest)) r) : ∃ rest', r = .ok (b.renumber f, rest') ∧ Line.Renumbered f rest rest' := by
  cases h with
  | ok hrest => exact ⟨_, rfl, hrest⟩

theorem Block.ReadAlike.of_error {e : Fault} {r : Except Fault (Block × List Line)}
    (h : ReadAlike f (.error e) r) : r = .error (e.renumber f) := by
  cases h with
  | error => rfl

theorem BlockStart.of_eq_frontMatter_iff :
    BlockStart.of l ls = .frontMatter ↔ isFrontMatter l ls := by
  constructor
  · intro h
    unfold BlockStart.of at h
    split at h
    · cases h
    · split at h
      · cases h
      · split at h
        · assumption
        · unfold ofLine at h
          repeat' split at h
          all_goals cases h
  · intro h
    have htrim : trim l.text = yamlOpen := by
      simp only [isFrontMatter, Bool.and_eq_true, beq_iff_eq] at h
      exact h.1.2
    have hblank : ¬l.isBlank := fun hb => by simp [Text.trim_of_isBlank hb, yamlOpen] at htrim
    have hheading : heading? yamlOpen = none := rfl
    rw [BlockStart.of, if_neg hblank, htrim, hheading]
    simp only [if_pos h]

theorem BlockStart.any_closesYaml_of (h : BlockStart.of l ls = .frontMatter) : ls.any closesYaml := by
  have hmatter := of_eq_frontMatter_iff.1 h
  simp only [isFrontMatter, Bool.and_eq_true] at hmatter
  exact hmatter.2

theorem BlockStart.parse?_of_fence {open' : CodeFence} (h : BlockStart.of l ls = .fence open') :
    CodeFence.parse? (trim l.text) = some open' := by
  have hline := Block.ofLine_of h nofun nofun nofun
  unfold ofLine at hline
  split at hline
  · next hparse =>
    cases hline
    exact hparse
  · repeat' split at hline
    all_goals cases hline

theorem BlockStart.mark_length_of {open' : CodeFence} (h : BlockStart.of l ls = .fence open') :
    0 < open'.mark.length :=
  FenceMark.detect?_length (CodeFence.detect?_of_parse? (parse?_of_fence h))

theorem Block.readMath_renumbered (h : Line.Renumbered f ls ls') (n : Nat) (afterOpen : Text) :
    ReadAlike f (readMath n afterOpen ls) (readMath (f n) afterOpen ls') := by
  rw [readMath, readMath]
  split
  · exact .ok h
  · have hrows := Extent.mathRows?_renumbered h
    generalize Extent.mathRows? ls = found, Extent.mathRows? ls' = found' at hrows
    cases hrows with
    | none => exact .error
    | some h => exact .ok h

/-- Lines under other numbers are read as the same block under other numbers. -/
theorem Block.read_renumbered (hl : f l.number = 1 ↔ l.number = 1) (h : Line.Renumbered f ls ls') :
    ReadAlike f (read l ls) (read (l.renumber f) ls') := by
  rw [read, read, BlockStart.of_renumbered hl h]
  simp only
  cases hstart : BlockStart.of l ls with
  | blank => exact .ok h.dropWhile_isBlank
  | heading level raw => exact .ok h
  | frontMatter =>
    have hmatter := Extent.frontMatter_renumbered h (BlockStart.any_closesYaml_of hstart)
    simp only
    rw [hmatter.1, List.flatMap_map]
    exact .ok hmatter.2
  | fence open' =>
    have hbody := Extent.fenceBody?_renumbered (BlockStart.mark_length_of hstart) h
    simp only
    generalize Extent.fenceBody? open'.mark ls = found, Extent.fenceBody? open'.mark ls' = found' at hbody
    cases hbody with
    | none => exact .error
    | some h => exact .ok h
  | divOpen label attrs =>
    have hbody := Extent.divBody?_renumbered h 0 none
    simp only
    generalize Extent.divBody? 0 none ls = found, Extent.divBody? 0 none ls' = found' at hbody
    cases hbody with
    | none => exact .error
    | some h => exact .ok h
  | divClose => exact .error
  | displayMath afterOpen => exact readMath_renumbered h l.number afterOpen
  | inclusion path => exact .ok h
  | image caption source attrs => exact .ok h
  | layout => exact .ok h
  | rule => exact .ok h
  | footnoteDefinition => exact .ok (Footnotes.continuation_renumbered h).2
  | listItem =>
    have hlist := ListReader.read_renumbered (l := l) h
    simp only
    rw [hlist.1]
    exact .ok hlist.2
  | paragraph =>
    have hmore := Extent.paragraph_renumbered h
    have htrim : (fun p : Line => trim p.text) ∘ Line.renumber f = fun p => trim p.text := rfl
    simp only
    rw [hmore.1, ← List.map_cons (f := Line.renumber f), List.map_map, htrim]
    exact .ok hmore.2

/-- Numbers that are left alone in the lines are left alone in the block. -/
theorem Block.renumber_of_read {b : Block} {rest : List Line} (hr : read l ls = .ok (b, rest))
    (h : (l :: ls).map (Line.renumber f) = l :: ls) : b.renumber f = b := by
  obtain ⟨hl, hls⟩ := List.forall_mem_cons.1 (Line.map_renumber_eq_iff.1 h)
  have hlike := read_renumbered (by rw [hl]) (Line.renumbered_of_fixed hls)
  rw [(List.cons.inj h).1, hr] at hlike
  obtain ⟨rest', hsame, _⟩ := hlike.of_ok
  exact (Prod.mk.inj (Except.ok.inj hsame)).1.symm

end QuartoPretext
