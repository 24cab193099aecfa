/-
# The lines of a list

A list takes its lines one after the other, and each item takes those from its
marker up to the next one. What is written in them is in the items, each line
once, in order and under its own number: the text after the marker, and then the
lines that continue it, without some of their indentation. Nothing else is. A
marker of another style ends the list, and it is reported where it follows a line
that is not blank.

Key definitions: `Line.filled`, `Line.DedentOf`, `ItemLines`, `ListItem.ReadFrom`,
`ListBlock.ReadFrom`.
Key theorems: `ListReader.scan_readFrom`, `ListReader.scan_interrupted`,
`ListReader.scan_otherMarker`, `Body.read_list_lines`.
-/
import QuartoPretext.Proofs.Document.Bodies
import Mathlib.Data.List.Forall2
import Mathlib.Data.List.TakeWhile

namespace QuartoPretext

open Text

/-! ### Lines and the items that they make -/

/-- The lines that are not blank. -/
def Line.filled (ls : List Line) : List Line := ls.filter (!·.isBlank)

/-- A line without some of the spaces and tabs that it starts with. -/
def Line.DedentOf (l' l : Line) : Prop :=
  l'.number = l.number ∧ ∃ indent : Text, (∀ c ∈ indent, isTabOrSpace c) ∧ l.text = indent ++ l'.text

/-- The lines of an item: the one with its marker, and those up to the next item or
to the end of the list. -/
structure ItemLines where
  marker : Line
  more : List Line

def ItemLines.all (p : ItemLines) : List Line := p.marker :: p.more

/-- An item of a style that was read from its lines. `first` is the text after the
marker, and `continued` are the lines that continue it. -/
structure ListItem.ReadFrom (style : ListStyle) (i : ListItem) (p : ItemLines) (first : Text)
    (continued : List Line) : Prop where
  marked : ∃ column, ListReader.marker? p.marker = some (i.marker, first, column)
  line : i.line = p.marker.number
  styled : ListStyle.ofMarker i.marker = style
  begins : first ≠ [] → i.body.head? = some ⟨i.line, first⟩
  continues : List.Forall₂ Line.DedentOf continued (Line.filled p.more)
  filled : Line.filled i.body = (if first = [] then [] else [⟨i.line, first⟩]) ++ continued

/-- A list that was read from the lines of its items, one item after the other. -/
def ListBlock.ReadFrom (list : ListBlock) (ps : List ItemLines) : Prop :=
  List.Forall₂ (fun i p => ∃ first continued, ListItem.ReadFrom list.style i p first continued) list.items ps

namespace Line

variable {l l' : Line} {as bs ls : List Line}

@[simp] theorem filled_append (as bs : List Line) : filled (as ++ bs) = filled as ++ filled bs := List.filter_append ..

theorem filled_cons_of_blank (h : l.isBlank) (ls : List Line) : filled (l :: ls) = filled ls :=
  List.filter_cons_of_neg (by simp [h])

theorem filled_cons (h : l.isBlank = false) (ls : List Line) : filled (l :: ls) = l :: filled ls :=
  List.filter_cons_of_pos (by simp [h])

theorem filled_of_blank (h : ∀ l ∈ ls, l.isBlank) : filled ls = [] :=
  List.filter_eq_nil_iff.2 fun l hl => by simp [h l hl]

theorem dropColumns_indent : ∀ (width : Nat) (s : Text), ∃ indent : Text,
    (∀ c ∈ indent, isTabOrSpace c) ∧ s = indent ++ dropColumns width s
  | 0, s => ⟨[], nofun, by simp [dropColumns]⟩
  | width + 1, [] => ⟨[], nofun, by simp [dropColumns]⟩
  | width + 1, c :: s => by
    unfold dropColumns
    split
    · next hw h =>
      cases hw
      cases h
      obtain ⟨indent, hindent, hs⟩ := dropColumns_indent width s
      exact ⟨' ' :: indent, List.forall_mem_cons.2 ⟨rfl, hindent⟩, congrArg _ hs⟩
    · next hw h =>
      cases hw
      cases h
      obtain ⟨indent, hindent, hs⟩ := dropColumns_indent (width - 3) s
      exact ⟨'\t' :: indent, List.forall_mem_cons.2 ⟨rfl, hindent⟩, congrArg _ hs⟩
    · exact ⟨[], nofun, rfl⟩

theorem dedent_dedentOf (width : Nat) (l : Line) : (l.dedent width).DedentOf l :=
  ⟨rfl, dropColumns_indent width l.text⟩

/-- Only spaces and tabs are taken, so that what is written is left. -/
theorem DedentOf.isBlank (h : l'.DedentOf l) : l'.isBlank = l.isBlank := by
  obtain ⟨-, indent, hindent, htext⟩ := h
  have hspace : indent.all isSpace := by
    refine List.all_eq_true.2 fun c hc => ?_
    have := hindent c hc
    simp only [isTabOrSpace, Bool.or_eq_true, beq_iff_eq] at this
    rcases this with rfl | rfl <;> rfl
  rw [Line.isBlank, Line.isBlank, Text.isBlank, Text.isBlank, htext, List.all_append, hspace, Bool.true_and]

/-- A bare line is blank only if there is nothing on it. -/
theorem Bare.isBlank_iff (h : l.Bare) : l.isBlank ↔ l.text = [] := by
  constructor
  · intro hblank
    by_contra hne
    have hlast := List.getLast?_eq_some_getLast hne
    have hspace := List.all_eq_true.1 hblank _ (List.getLast_mem hne)
    rw [h _ hlast] at hspace
    cases hspace
  · intro hnil
    simp [Line.isBlank, Text.isBlank, hnil]

end Line

namespace ListReader

/-- A line with a marker is not blank. -/
theorem not_isBlank_of_marker? {l : Line} {m : Text × Text × Nat} (h : marker? l = some m) : l.isBlank = false := by
  refine Bool.eq_false_iff.2 fun hblank => ?_
  have htrim : l.trimmed = [] := List.dropWhile_eq_nil_iff.2 (List.all_eq_true.1 hblank)
  rw [marker?, htrim] at h
  cases h

/-! ### One item -/

/-- The item that is open, by the lines read for it so far. -/
structure Item.ReadFrom (style : ListStyle) (i : Item) (p : ItemLines) (first : Text)
    (continued : List Line) : Prop where
  marked : ∃ column, marker? p.marker = some (i.item.marker, first, column)
  line : i.item.line = p.marker.number
  styled : ListStyle.ofMarker i.item.marker = style
  bare : Line.Bare ⟨i.item.line, first⟩
  continues : List.Forall₂ Line.DedentOf continued (Line.filled p.more)
  body : ∃ more, i.item.body = ⟨i.item.line, first⟩ :: more ∧ Line.filled more = continued

namespace Item

variable {style : ListStyle} {i : Item} {p : ItemLines} {first : Text} {continued : List Line} {l : Line}

theorem readFrom_start {marker : Text} {column : Nat} (hl : l.Bare) (hm : marker? l = some (marker, first, column))
    (hstyle : ListStyle.ofMarker marker = style) :
    (start l.number marker first column).ReadFrom style ⟨l, []⟩ first [] where
  marked := ⟨column, hm⟩
  line := rfl
  styled := hstyle
  bare := (marker?_endOf hm).bare hl
  continues := .nil
  body := ⟨[], rfl, rfl⟩

/-- Blank lines are passed without a trace in what is written. -/
theorem ReadFrom.blanks {ls : List Line} (h : i.ReadFrom style p first continued) (hls : ∀ l ∈ ls, l.isBlank) :
    i.ReadFrom style ⟨p.marker, p.more ++ ls⟩ first continued :=
  { h with continues := by rw [Line.filled_append, Line.filled_of_blank hls, List.append_nil]; exact h.continues }

/-- An empty line in the body is none that is written. -/
theorem ReadFrom.add_nil (h : i.ReadFrom style p first continued) (n : Nat) :
    (i.add ⟨n, []⟩).ReadFrom style p first continued where
  marked := h.marked
  line := h.line
  styled := h.styled
  bare := h.bare
  continues := h.continues
  body := by
    obtain ⟨more, hbody, hmore⟩ := h.body
    refine ⟨more ++ [⟨n, []⟩], by rw [add, hbody]; rfl, ?_⟩
    rw [Line.filled_append, hmore, Line.filled_cons_of_blank rfl]
    exact List.append_nil continued

theorem ReadFrom.add {l' : Line} (h : i.ReadFrom style p first continued) (hdedent : l'.DedentOf l)
    (hl : l.isBlank = false) :
    (i.add l').ReadFrom style ⟨p.marker, p.more ++ [l]⟩ first (continued ++ [l']) where
  marked := h.marked
  line := h.line
  styled := h.styled
  bare := h.bare
  continues := by
    rw [Line.filled_append, Line.filled_cons hl]
    exact List.rel_append h.continues (.cons hdedent .nil)
  body := by
    obtain ⟨more, hbody, hmore⟩ := h.body
    refine ⟨more ++ [l'], by rw [Item.add, hbody]; rfl, ?_⟩
    rw [Line.filled_append, hmore, Line.filled_cons (hdedent.isBlank.trans hl)]
    rfl

theorem filled_close (i : Item) : Line.filled i.close.body = Line.filled i.item.body := by
  obtain ⟨blanks, hblanks, hbody⟩ : ∃ blanks : List Line, (∀ l ∈ blanks, l.isBlank) ∧
      i.item.body = i.close.body ++ blanks := by
    refine ⟨(i.item.body.reverse.takeWhile Line.isBlank).reverse, ?_, ?_⟩
    · exact fun l hl => List.mem_takeWhile_imp (List.mem_reverse.1 hl)
    · rw [close, ← List.reverse_append, List.takeWhile_append_dropWhile, List.reverse_reverse]
  rw [hbody, Line.filled_append, Line.filled_of_blank hblanks, List.append_nil]

theorem ReadFrom.close (h : i.ReadFrom style p first continued) : i.close.ReadFrom style p first continued where
  marked := h.marked
  line := h.line
  styled := h.styled
  begins := by
    intro hfirst
    obtain ⟨more, hbody, -⟩ := h.body
    have hfilled : ¬Line.isBlank ⟨i.item.line, first⟩ := fun hblank => hfirst (h.bare.isBlank_iff.1 hblank)
    have hlast : (i.item.body.reverse.dropWhile Line.isBlank) =
        more.reverse.dropWhile Line.isBlank ++ [⟨i.item.line, first⟩] := by
      rw [hbody, List.reverse_cons, List.dropWhile_append]
      split
      · next hempty =>
        rw [List.isEmpty_iff.1 hempty, List.dropWhile_cons_of_neg hfilled, List.nil_append]
      · rfl
    show (i.item.body.reverse.dropWhile Line.isBlank).reverse.head? = some ⟨i.item.line, first⟩
    rw [hlast, List.reverse_append]
    rfl
  continues := h.continues
  filled := by
    obtain ⟨more, hbody, hmore⟩ := h.body
    rw [filled_close, hbody]
    show Line.filled (⟨i.item.line, first⟩ :: more) = _
    split
    · next hfirst => rw [Line.filled_cons_of_blank (h.bare.isBlank_iff.2 hfirst), hmore, List.nil_append]
    · next hfirst =>
      have hfilled : Line.isBlank ⟨i.item.line, first⟩ = false :=
        Bool.eq_false_iff.2 fun hblank => hfirst (h.bare.isBlank_iff.1 hblank)
      rw [Line.filled_cons hfilled, hmore]
      rfl

end Item

/-! ### A list -/

/-- The items of a list are read from its lines, of which each item takes those up
to the next one. -/
theorem scan_readFrom (f : Frame) (gap : Bool) {i : Item} {p : ItemLines} {first : Text} {continued : List Line}
    (ls : List Line) (hls : ∀ l ∈ ls, l.Bare) (hi : i.ReadFrom f.style p first continued) :
    ∃ more ps, ls = more ++ ps.flatMap ItemLines.all ++ (scan f i gap ls).rest ∧
      List.Forall₂ (fun i p => ∃ first continued, ListItem.ReadFrom f.style i p first continued)
        (scan f i gap ls).items (⟨p.marker, p.more ++ more⟩ :: ps) := by
  have only (ls : List Line) (n : Option Nat) : ∃ more ps,
      ls = more ++ ps.flatMap ItemLines.all ++ (Outcome.mk [i.close] n ls).rest ∧
        List.Forall₂ (fun i p => ∃ first continued, ListItem.ReadFrom f.style i p first continued)
          (Outcome.mk [i.close] n ls).items (⟨p.marker, p.more ++ more⟩ :: ps) :=
    ⟨[], [], rfl, .cons ⟨first, continued, by simpa using hi.close⟩ .nil⟩
  unfold scan
  match ls with
  | [] => exact only [] none
  | l :: rest =>
    obtain ⟨hl, hrest⟩ := List.forall_mem_cons.1 hls
    simp only
    split
    · next hblank =>
      have hnext : ∀ k ∈ rest.dropWhile Line.isBlank, k.Bare := fun k hk => hrest k ((List.dropWhile_sublist _).subset hk)
      have hblanks : ∀ k ∈ l :: rest.takeWhile Line.isBlank, k.isBlank :=
        List.forall_mem_cons.2 ⟨hblank, fun k hk => List.mem_takeWhile_imp hk⟩
      -- the blank lines go to the item that is open
      have pass {i : Item} (hi : i.ReadFrom f.style p first continued) : ∃ more ps,
          l :: rest = more ++ ps.flatMap ItemLines.all ++ (scan f i true (rest.dropWhile Line.isBlank)).rest ∧
            List.Forall₂ (fun i p => ∃ first continued, ListItem.ReadFrom f.style i p first continued)
              (scan f i true (rest.dropWhile Line.isBlank)).items (⟨p.marker, p.more ++ more⟩ :: ps) := by
        obtain ⟨more, ps, hlines, hitems⟩ := scan_readFrom f true _ hnext (hi.blanks hblanks)
        refine ⟨l :: rest.takeWhile Line.isBlank ++ more, ps, ?_, by simpa using hitems⟩
        rw [List.append_assoc] at hlines
        rw [List.append_assoc, List.append_assoc, ← hlines, List.cons_append, List.takeWhile_append_dropWhile]
      split
      · exact only _ none
      · split
        · exact pass hi
        · split
          · exact pass (hi.add_nil l.number)
          · exact only _ none
    · next hblank =>
      split
      · next marker first' column hm =>
        obtain ⟨hm, -⟩ := Option.filter_eq_some_iff.1 hm
        split
        · next hstyle =>
          obtain ⟨more, ps, hlines, hitems⟩ := scan_readFrom f false rest hrest (Item.readFrom_start hl hm hstyle)
          refine ⟨[], ⟨l, more⟩ :: ps, ?_, .cons ⟨first, continued, by simpa using hi.close⟩ hitems⟩
          show l :: rest = l :: more ++ ps.flatMap ItemLines.all ++ (scan f _ false rest).rest
          rw [List.cons_append, List.cons_append, ← hlines]
        · exact only _ _
      · split
        · have hadd := hi.add (l.dedent_dedentOf (min i.column l.indent)) (by simpa using hblank)
          obtain ⟨more, ps, hlines, hitems⟩ := scan_readFrom f gap rest hrest hadd
          refine ⟨l :: more, ps, ?_, by simpa using hitems⟩
          rw [List.cons_append, List.cons_append, ← hlines]
        · exact only _ none
termination_by ls.length
decreasing_by
  all_goals
    have := (List.dropWhile_sublist Line.isBlank (l := rest)).length_le
    simp only [List.length_cons]
    omega

/-! ### Markers that end a list -/

/-- The line stands where the items do and has a marker of another style. -/
def Frame.Interrupts (f : Frame) (l : Line) : Prop :=
  f.atMargin l ∧ ∃ marker first column, marker? l = some (marker, first, column) ∧ ListStyle.ofMarker marker ≠ f.style

theorem Frame.Interrupts.not_sibling {f : Frame} {l : Line} (h : f.Interrupts l) : f.isSibling l = false := by
  obtain ⟨-, marker, first, column, hm, hstyle⟩ := h
  simp [isSibling, hm, hstyle]

theorem Frame.Interrupts.not_isBlank {f : Frame} {l : Line} (h : f.Interrupts l) : l.isBlank = false := by
  obtain ⟨-, marker, first, column, hm, -⟩ := h
  exact not_isBlank_of_marker? hm

/-- A marker that is reported ends the list, right after a line that is not blank. -/
theorem scan_interrupted (f : Frame) (i : Item) (gap : Bool) (ls : List Line) {n : Nat}
    (h : (scan f i gap ls).interruptedAt = some n) : ∃ stop after, (scan f i gap ls).rest = stop :: after ∧
      stop.number = n ∧ f.Interrupts stop ∧
        ∀ used, ls = used ++ stop :: after → ∀ k ∈ used.getLast?, k.isBlank = false := by
  match ls, h with
  | [], h =>
    unfold scan at h
    cases h
  | l :: rest, h =>
    unfold scan at h ⊢
    -- one line is taken, which is not blank if the list ends after it
    have step {s : Outcome} (hl : l.isBlank = false) (hs : ∃ stop after, s.rest = stop :: after ∧ stop.number = n ∧
        f.Interrupts stop ∧ ∀ used, rest = used ++ stop :: after → ∀ k ∈ used.getLast?, k.isBlank = false) :
        ∃ stop after, s.rest = stop :: after ∧ stop.number = n ∧ f.Interrupts stop ∧
          ∀ used, l :: rest = used ++ stop :: after → ∀ k ∈ used.getLast?, k.isBlank = false := by
      obtain ⟨stop, after, hrest, hn, hstop, hlast⟩ := hs
      refine ⟨stop, after, hrest, hn, hstop, fun used hused k hk => ?_⟩
      cases used with
      | nil => cases hk
      | cons k' used =>
        obtain ⟨rfl, htail⟩ := List.cons.inj hused
        cases used with
        | nil =>
          cases hk
          exact hl
        | cons k'' used => exact hlast (k'' :: used) htail k hk
    split at h
    · next hblank =>
      simp only [if_pos hblank]
      cases hnext : rest.dropWhile Line.isBlank with
      | nil =>
        rw [hnext] at h
        cases h
      | cons next more =>
        -- the line after the blank ones goes on with the list, so it does not end it
        have pass {i : Item} (hgoes : ¬f.Interrupts next)
            (h : (scan f i true (next :: more)).interruptedAt = some n) : ∃ stop after,
              (scan f i true (next :: more)).rest = stop :: after ∧ stop.number = n ∧ f.Interrupts stop ∧
                ∀ used, l :: rest = used ++ stop :: after → ∀ k ∈ used.getLast?, k.isBlank = false := by
          have ih := scan_interrupted f i true (rest.dropWhile Line.isBlank) (hnext ▸ h)
          rw [hnext] at ih
          obtain ⟨stop, after, hrest, hn, hstop, hlast⟩ := ih
          refine ⟨stop, after, hrest, hn, hstop, fun used hused k hk => ?_⟩
          obtain ⟨taken, htaken⟩ := hrest ▸ (scan_size f i true (next :: more)).1
          have hall : used = l :: rest.takeWhile Line.isBlank ++ taken := by
            refine List.append_cancel_right (hused.symm.trans ?_)
            rw [List.append_assoc, htaken, ← hnext, List.cons_append, List.takeWhile_append_dropWhile]
          cases taken with
          | nil => exact absurd ((List.cons.inj htaken).1 ▸ hstop) hgoes
          | cons k' taken =>
            rw [hall, List.getLast?_append_of_ne_nil _ (List.cons_ne_nil k' taken)] at hk
            exact hlast _ htaken.symm k hk
        rw [hnext] at h
        simp only at h ⊢
        split at h
        · next hsibling =>
          rw [if_pos hsibling]
          exact pass (fun hstop => by rw [hstop.not_sibling] at hsibling; cases hsibling) h
        · next hsibling =>
          rw [if_neg hsibling]
          split at h
          · next hindent =>
            rw [if_pos hindent]
            refine pass (fun hstop => ?_) h
            have hmargin := hstop.1
            simp only [Frame.atMargin, decide_eq_true_eq] at hmargin
            omega
          · cases h
    · next hblank =>
      have hl : l.isBlank = false := by simpa using hblank
      simp only [if_neg hblank]
      cases hm : (marker? l).filter fun _ => f.atMargin l with
      | some m =>
        rw [hm] at h
        obtain ⟨marker, first, column⟩ := m
        obtain ⟨hmarker, hmargin⟩ := Option.filter_eq_some_iff.1 hm
        simp only at h ⊢
        split at h
        · next hstyle =>
          rw [if_pos hstyle]
          exact step hl (scan_interrupted f _ false rest h)
        · next hstyle =>
          rw [if_neg hstyle]
          cases h
          refine ⟨l, rest, rfl, rfl, ⟨hmargin, marker, first, column, hmarker, hstyle⟩, fun used hused k hk => ?_⟩
          rw [List.append_left_eq_self.1 hused.symm] at hk
          cases hk
      | none =>
        rw [hm] at h
        simp only at h ⊢
        split at h
        · next hgoes =>
          rw [if_pos hgoes]
          exact step hl (scan_interrupted f _ gap rest h)
        · cases h
termination_by ls.length
decreasing_by
  all_goals
    have := (List.dropWhile_sublist Line.isBlank (l := rest)).length_le
    simp only [List.length_cons]
    omega

/-- A list that stops at a marker of another style reports it. -/
theorem scan_otherMarker (f : Frame) (i : Item) (gap : Bool) (ls : List Line) {stop : Line} {after : List Line}
    (h : (scan f i gap ls).rest = stop :: after) (hstop : f.Interrupts stop) :
    (scan f i gap ls).interruptedAt = some stop.number := by
  match ls, h with
  | [], h =>
    unfold scan at h
    cases h
  | l :: rest, h =>
    unfold scan at h ⊢
    split at h
    · next hblank =>
      -- the list does not stop at a blank line that has a marker
      have hne : ¬l :: rest = stop :: after := fun heq => by
        rw [(List.cons.inj heq).1, hstop.not_isBlank] at hblank
        cases hblank
      simp only [if_pos hblank]
      split at h
      · exact absurd h hne
      · split at h
        · next hsibling =>
          simp only [if_pos hsibling]
          exact scan_otherMarker f i true _ h hstop
        · next hsibling =>
          simp only [if_neg hsibling]
          split at h
          · next hindent =>
            rw [if_pos hindent]
            exact scan_otherMarker f _ true _ h hstop
          · exact absurd h hne
    · next hblank =>
      simp only [if_neg hblank]
      split at h
      · next marker first column hm =>
        split at h
        · next hstyle =>
          rw [if_pos hstyle]
          exact scan_otherMarker f _ false rest h hstop
        · next hstyle =>
          rw [if_neg hstyle]
          cases h
          rfl
      · next hm =>
        split at h
        · next hgoes =>
          rw [if_pos hgoes]
          exact scan_otherMarker f _ gap rest h hstop
        · -- no marker stands there
          cases h
          obtain ⟨hmargin, marker, first, column, hmarker, -⟩ := hstop
          rw [hmarker, Option.filter_some, if_pos hmargin] at hm
          cases hm
termination_by ls.length
decreasing_by
  all_goals
    have := (List.dropWhile_sublist Line.isBlank (l := rest)).length_le
    simp only [List.length_cons]
    omega

theorem read_of_marker? {l : Line} (following : List Line) {marker first : Text} {column : Nat}
    (hm : marker? l = some (marker, first, column)) : read l following =
      let o := scan ⟨l.indent, ListStyle.ofMarker marker⟩ (Item.start l.number marker first column) false following
      (⟨l.number, ListStyle.ofMarker marker, o.items, o.interruptedAt⟩, o.rest) := by
  rw [read, hm]

/-- A list is read from its lines. -/
theorem read_lines {l : Line} {following : List Line} (hbare : ∀ k ∈ l :: following, k.Bare) (hm : (marker? l).isSome) :
    ∃ ps, (read l following).1.items ≠ [] ∧ l :: following = ps.flatMap ItemLines.all ++ (read l following).2 ∧
      (read l following).1.ReadFrom ps ∧
      ∀ n, (read l following).1.interruptedAt = some n ↔ ∃ stop after, (read l following).2 = stop :: after ∧
        stop.number = n ∧ (Frame.mk l.indent (read l following).1.style).Interrupts stop ∧
        ∀ k ∈ (ps.flatMap ItemLines.all).getLast?, k.isBlank = false := by
  obtain ⟨hl, hfollowing⟩ := List.forall_mem_cons.1 hbare
  obtain ⟨⟨marker, first, column⟩, hm⟩ := Option.isSome_iff_exists.1 hm
  rw [read_of_marker? following hm]
  obtain ⟨more, ps, hlines, hitems⟩ := scan_readFrom ⟨l.indent, ListStyle.ofMarker marker⟩ false following
    hfollowing (Item.readFrom_start hl hm rfl)
  refine ⟨⟨l, more⟩ :: ps, ?_, ?_, hitems, fun n => ⟨fun h => ?_, ?_⟩⟩
  · exact List.ne_nil_of_length_eq_add_one hitems.length_eq
  · show l :: following = l :: more ++ ps.flatMap ItemLines.all ++ _
    rw [List.cons_append, List.cons_append, ← hlines]
  · obtain ⟨stop, after, hrest, hn, hstop, hlast⟩ := scan_interrupted _ _ false following h
    refine ⟨stop, after, hrest, hn, hstop, fun k hk => ?_⟩
    have hk : k ∈ (l :: (more ++ ps.flatMap ItemLines.all)).getLast? := hk
    cases hused : more ++ ps.flatMap ItemLines.all with
    | nil =>
      rw [hused] at hk
      have hkl : l = k := Option.some.inj hk
      exact hkl ▸ not_isBlank_of_marker? hm
    | cons k' used =>
      rw [hused] at hk
      exact hlast _ (hlines.trans (congrArg _ hrest)) k (hused ▸ hk)
  · rintro ⟨stop, after, hrest, rfl, hstop, -⟩
    exact scan_otherMarker _ _ false following hrest hstop

end ListReader

/-! ### Lists of a body -/

theorem BlockStart.of_listItem {l : Line} {following : List Line} (h : classify l following = .listItem) :
    BlockStart.of l following = .listItem := by
  unfold classify at h
  cases hof : BlockStart.of l following <;> rw [hof] at h <;> first | rfl | cases h

/-- Where a list item starts a list is read. It has an item, all items are of one
style, and the lines up to where reading stops are those of the items: each that is
not blank stands in one item, once and in order. A marker that interrupts the list
is reported just if reading stops at it right after a line that is not blank. -/
theorem Body.read_list_lines {text : Text} {ls : List Line} (hbody : Body text ls) {l : Line} {following : List Line}
    (hpos : l :: following <:+ ls) (hkind : classify l following = .listItem) :
    ∃ (list : ListBlock) (rest : List Line) (ps : List ItemLines),
      Block.read l following = .ok (.list list, rest) ∧ list.items ≠ [] ∧
      l :: following = ps.flatMap ItemLines.all ++ rest ∧ list.ReadFrom ps ∧
      ∀ n, list.interruptedAt = some n ↔ ∃ stop after, rest = stop :: after ∧ stop.number = n ∧
        (ListReader.Frame.mk l.indent list.style).Interrupts stop ∧
        ∀ k ∈ (ps.flatMap ItemLines.all).getLast?, k.isBlank = false := by
  have hbare : ∀ k ∈ l :: following, k.Bare := fun k hk => hbody.bare k (hpos.subset hk)
  have hof := BlockStart.of_listItem hkind
  obtain ⟨ps, hps⟩ := ListReader.read_lines hbare (Block.marker?_isSome (hbare l List.mem_cons_self) hof)
  refine ⟨(ListReader.read l following).1, (ListReader.read l following).2, ps, ?_, hps⟩
  rw [Block.read, hof]

/-- A number right after the lines of a bullet is where the list of bullets stops. -/
theorem Body.read_list_lines_interrupted : ∃ (list : ListBlock) (ps : List ItemLines),
    Block.read ⟨1, "- a".toList⟩ [⟨2, " b".toList⟩, ⟨3, "1. c".toList⟩] = .ok (.list list, [⟨3, "1. c".toList⟩]) ∧
    [⟨1, "- a".toList⟩, ⟨2, " b".toList⟩] = ps.flatMap ItemLines.all ∧ list.ReadFrom ps ∧
    list.items = [⟨1, ['-'], [⟨1, ['a']⟩, ⟨2, ['b']⟩]⟩] ∧ list.interruptedAt = some 3 := by
  have hlines : [⟨1, "- a".toList⟩, ⟨2, " b".toList⟩, ⟨3, "1. c".toList⟩] <:+ Line.ofText "- a\n b\n1. c".toList := by
    decide +kernel
  have hkind : classify ⟨1, "- a".toList⟩ [⟨2, " b".toList⟩, ⟨3, "1. c".toList⟩] = .listItem := by decide +kernel
  have hread : Block.read ⟨1, "- a".toList⟩ [⟨2, " b".toList⟩, ⟨3, "1. c".toList⟩] =
      .ok (.list ⟨1, .unordered, [⟨1, ['-'], [⟨1, ['a']⟩, ⟨2, ['b']⟩]⟩], some 3⟩, [⟨3, "1. c".toList⟩]) := by
    decide +kernel
  obtain ⟨list, rest, ps, hlist, -, hps, hfrom, -⟩ :=
    Body.read_list_lines .document hlines hkind
  obtain ⟨⟨⟩, ⟨⟩⟩ := hread.symm.trans hlist
  exact ⟨_, ps, hread, List.append_cancel_right hps, hfrom, rfl, rfl⟩

end QuartoPretext
