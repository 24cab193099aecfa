/-
# Listings in items

The code of a fence that is written under an item of a list is listed in that item.
It is what is left of the lines of the fence in the body of the item: all of them if
no two empty lines follow each other, and else fewer than the same fence lists where
it stands on its own.

Key definitions: `BlockStart.isOpen`, `CodeFence.listing`, `Session.listed`.
Key theorems: `Block.passes_text`, `CodeItem.read_fence`, `Runs.item_events`,
`Reached.item_code`.
-/
import QuartoPretext.Proofs.Block.ListCode
import QuartoPretext.Proofs.Document.Matter
import QuartoPretext.Proofs.Document.FaultLines

namespace QuartoPretext

open Text Markup

/-! ### The fence starts a block -/

/-- Blocks that reach up to a line of their own, and the line that ends a div. -/
def BlockStart.isOpen : BlockStart → Bool
  | fence _ | divOpen .. | divClose | frontMatter => true
  | displayMath afterOpen => (cut? mathMark afterOpen).isNone
  | _ => false

/-- A code fence starts with a backtick or a tilde. -/
theorem CodeFence.exists_trim {s : Text} {f : CodeFence} (h : parse? s = some f) :
    ∃ rest, trim s = '\x60' :: rest ∨ trim s = '~' :: rest := by
  rcases FenceMark.prefix_of_detect? (detect?_of_parse? h) with ⟨rest, hrest⟩ | ⟨rest, hrest⟩
  · exact ⟨_, .inl hrest.symm⟩
  · exact ⟨_, .inr hrest.symm⟩

theorem BlockStart.of_codeFence {l : Line} {f : CodeFence} (h : CodeFence.parse? l.text = some f)
    (following : List Line) : BlockStart.of l following = .fence f := by
  have hparse : CodeFence.parse? (trim l.text) = some f := by
    rw [CodeFence.parse?, trim_trim]
    exact h
  have hfilled : ¬l.isBlank := fun hblank => by
    rw [trim_of_isBlank hblank] at hparse
    cases hparse
  obtain ⟨rest, htrim⟩ := CodeFence.exists_trim h
  have hheading : heading? (trim l.text) = none := by
    rcases htrim with htrim | htrim <;> rw [htrim] <;> rfl
  have hmatter : isFrontMatter l following = false := by
    rcases htrim with htrim | htrim <;> simp [isFrontMatter, htrim, yamlOpen]
  rw [BlockStart.of, if_neg hfilled, hheading, hmatter]
  simp only [Bool.false_eq_true, if_false, ofLine, hparse]

/-- No block goes on at a code fence at the margin. -/
theorem Line.stops_of_codeFence {l : Line} {f : CodeFence} (h : CodeFence.parse? l.text = some f) (hbare : l.Bare)
    (hmargin : l.indent = 0) (after : List Line) : l.Stops after := by
  obtain ⟨rest, htrim⟩ := CodeFence.exists_trim h
  constructor
  · refine Bool.eq_false_iff.2 fun hblank => ?_
    rw [trim_of_isBlank hblank] at htrim
    rcases htrim with htrim | htrim <;> cases htrim
  · rw [classify, BlockStart.of_codeFence h]
    exact fun hkind => by cases hkind
  · rw [ListReader.marker?, ← hbare.trim_text]
    rcases htrim with htrim | htrim <;> rw [htrim] <;> rfl
  · exact hmargin
  · rcases htrim with htrim | htrim <;> simp [BlockStart.closesYaml, htrim, BlockStart.yamlOpen]

variable {l d : Line} {gap after : List Line}

theorem Block.passes_blanks (hd : d.isBlank = false) (hgap : ∀ k ∈ gap, k.isBlank) :
    Block.Passes (gap ++ d :: after) (d :: after) := by
  cases gap with
  | nil => exact .here
  | cons k gap =>
    obtain ⟨hk, hgap⟩ := List.forall_mem_cons.1 hgap
    have hread : Block.read k (gap ++ d :: after) = .ok (.skipped k.number .blank, d :: after) := by
      have hof : BlockStart.of k (gap ++ d :: after) = .blank := by rw [BlockStart.of, if_pos hk]
      have hdrop : (gap ++ d :: after).dropWhile Line.isBlank = d :: after := by
        rw [List.dropWhile_append_of_pos hgap, List.dropWhile_cons_of_neg (by simp [hd])]
      simp only [Block.read, hof, hdrop]
      rfl
    exact .next hread .here

/-- A block that is not open leaves a line where no block goes on. -/
theorem Block.exists_read (hd : d.Stops after) (hgap : ∀ k ∈ gap, k.number ≠ 1)
    (hopen : (BlockStart.of l (gap ++ d :: after)).isOpen = false) : ∃ b left,
      Block.read l (gap ++ d :: after) = .ok (b, left ++ d :: after) ∧ left <:+ gap := by
  unfold Block.read
  cases hof : BlockStart.of l (gap ++ d :: after) with
  | blank => exact ⟨_, _, by rw [Line.dropWhile_stop hd.not_blank], List.dropWhile_suffix _⟩
  | fence _ | divOpen _ _ | divClose | frontMatter =>
    rw [hof] at hopen
    cases hopen
  | displayMath afterOpen =>
    -- the math is closed on its line
    rw [hof] at hopen
    obtain ⟨⟨content, tail⟩, hcut⟩ : ∃ p, cut? BlockStart.mathMark afterOpen = some p :=
      Option.isSome_iff_exists.1 (by simpa [BlockStart.isOpen] using hopen)
    refine ⟨.displayMath l.number (Extent.row (trim content)) (BlockStart.mathTail tail).1
      (BlockStart.mathTail tail).2, gap, ?_, List.suffix_refl _⟩
    simp only [readMath, hcut]
  | footnoteDefinition =>
    have hcontinues : Footnotes.continues d = false := by simp [Footnotes.continues, hd.not_indented]
    refine ⟨.skipped l.number BlockStart.footnoteDefinition.kind, (Footnotes.continuation gap).2, ?_,
      List.dropWhile_suffix _⟩
    simp only [Footnotes.continuation_append hcontinues]
  | listItem =>
    refine ⟨.list (ListReader.read l gap).1, (ListReader.read l gap).2, ?_, ListReader.read_suffix l gap⟩
    simp only [ListReader.read_stop hd l hgap]
  | paragraph =>
    refine ⟨.paragraph l.number (joinWith [' '] ((l :: (Extent.paragraph gap).1).map fun p => trim p.text)),
      (Extent.paragraph gap).2, ?_, ⟨_, Extent.paragraph_eq gap⟩⟩
    simp only [Extent.paragraph_stop hd hgap]
  | _ => exact ⟨_, gap, rfl, List.suffix_refl _⟩

/-- After a text whose block is not open, and blank lines, the line is read as the start of a block. -/
theorem Block.passes_text (hd : d.Stops after) (hgap : ∀ k ∈ gap, k.isBlank ∧ k.number ≠ 1)
    (hopen : (BlockStart.of l (gap ++ d :: after)).isOpen = false) :
    Block.Passes (l :: (gap ++ d :: after)) (d :: after) := by
  obtain ⟨b, left, hread, hleft⟩ := Block.exists_read hd (fun k hk => (hgap k hk).2) hopen
  exact .next hread (Block.passes_blanks hd.not_blank fun k hk => (hgap k (hleft.subset hk)).1)

namespace CodeItem

/-- Lines between the fence that do not close it are its code. -/
theorem read_fence (c : CodeItem) {code : List Line} (h : ∀ k ∈ code, c.fence.mark.closedBy k.text = false)
    (after : List Line) : Block.read c.opening (code ++ c.closing :: after) =
      .ok (.fence c.opening.number c.fence code, after) := by
  simp only [Block.read, BlockStart.of_codeFence c.opens, Extent.fenceBody?_of_closedBy c.closes after h]

/-- What is left of the code does not close the fence. -/
theorem kept_keptCode (c : CodeItem) (hbare : ∀ k ∈ c.lines, k.Bare) :
    ∀ k ∈ c.keptCode, c.fence.mark.closedBy k.text = false := by
  intro k hk
  have htext : k.text ∈ (c.code.map (·.text)).destutter Text.Apart := by
    rw [← map_text_keptCode hbare]
    exact List.mem_map_of_mem hk
  obtain ⟨j, hj, hjk⟩ := List.mem_map.1 ((List.destutter_sublist Text.Apart _).subset htext)
  rw [← hjk]
  exact c.kept j hj

end CodeItem

/-! ### What is written -/

/-- The events of a listing of some code under a fence. -/
def CodeFence.listing (f : CodeFence) (code : List Text) : List Event :=
  enclose ⟨.program, (f.language.map fun language => (.language, language)).toList⟩ [.verbatim .code code]

/-- The code that is listed, in order. -/
def Session.listed (s : Session) : List (List Text) :=
  s.writer.events.filterMap fun
    | .verbatim .code code => some code
    | _ => none

namespace Session

variable (s : Session)

@[simp]
theorem listed_line (n : Option Nat) : listed { s with line := n } = s.listed := rfl

@[simp]
theorem listed_openTag (tag : Tag) : (s.openTag tag).listed = s.listed := by simp [listed, openTag, Writer.openTag]

@[simp]
theorem listed_close : s.close.listed = s.listed := by
  unfold listed close Writer.close
  split <;> simp

@[simp]
theorem listed_code (code : List Text) : (s.add (.verbatim .code code)).listed = s.listed ++ [code] := by
  simp [listed, add, Writer.add]

@[simp]
theorem listed_leaf (tag : Tag) (xml : Text) : (s.add (.leaf tag xml)).listed = s.listed := by
  simp [listed, add, Writer.add]

@[simp]
theorem listed_paragraph (ctx : Inline.Context) (text : Text) : (s.paragraph ctx text).listed = s.listed := by
  have hinline : (s.inline ctx text).2.listed = s.listed := rfl
  simp only [paragraph]
  split
  · exact hinline
  · rw [listed_leaf, hinline]

end Session

variable {set : Setting} {ctx : Inline.Context} {t : Task} {s s' : Session} {context : Context}

theorem Session.prefix_close (s : Session) : s.writer.events <+: s.close.writer.events := by
  cases hstack : s.writer.stack with
  | nil => simp [Session.close, Writer.close, hstack]
  | cons e stack =>
    rw [Session.events_close hstack]
    exact List.prefix_append _ _

theorem Runs.prefix_events (h : Runs set ctx t s s') : s.writer.events <+: s'.writer.events := by
  obtain ⟨d, -, rfl⟩ := h.adds
  exact List.prefix_append _ _

/-- Code that is not executed is listed as it is. -/
theorem Runs.fence_writes {f : CodeFence} (hstatic : f.executable = false) {n count : Nat} {body : List Line}
    (h : Runs set ctx (.pieces (Plan.ofBlock set context count (.fence n f body))) s s') :
    s.Writes (f.listing (body.map (·.text))) s' := by
  have hplan : Plan.ofBlock set context count (.fence n f body) = [Plan.program f.language body] := by
    simp [Plan.ofBlock, Plan.ofFence, hstatic]
  rw [hplan] at h
  refine (runs_singleton.1 h).element_writes fun s₁ h₁ => ?_
  cases (runs_write rfl).1 (runs_singleton.1 h₁)
  exact ⟨rfl, rfl⟩

/-- The lines before a line where no block goes on are converted first. -/
theorem Runs.split_stop {ls : List Line} (hd : d.Stops after) (hls : ∀ k ∈ ls.tail, k.number ≠ 1)
    (hpasses : Block.Passes (ls ++ d :: after) (d :: after))
    (h : Runs set ctx (.lines context (ls ++ d :: after)) s s') :
    ∃ s₁, Runs set ctx (.lines context ls) s s₁ ∧ Runs set ctx (.lines context (d :: after)) s₁ s' := by
  have hrun := h.run_eq
  rw [Task.run, convertLines_stop hd hls hpasses] at hrun
  cases hfirst : convertLines set ctx context ls s with
  | error f =>
    rw [hfirst] at hrun
    cases hrun
  | ok s₁ =>
    rw [hfirst] at hrun
    exact ⟨s₁, .of_run_eq hfirst, .of_run_eq hrun⟩

/-- An item of a list with a fence in its body has the listing of its code. -/
theorem Runs.item_events {ls : List Line} {f : CodeFence} {n : Nat} {code back : List Line}
    (h : Runs set ctx (.piece (Plan.plainElement .li [.blocks .container (ls ++ d :: after)])) s s')
    (hstatic : f.executable = false) (hd : d.Stops after) (hls : ∀ k ∈ ls.tail, k.number ≠ 1)
    (hpasses : Block.Passes (ls ++ d :: after) (d :: after))
    (hread : Block.read d after = .ok (.fence n f code, back)) : ∃ before behind, s'.writer.events =
      s.writer.events ++ enclose (.plain .li) (before ++ f.listing (code.map (·.text)) ++ behind) := by
  obtain ⟨s₁, hcontent, rfl⟩ := runs_element.1 h
  have hlines : Runs set ctx (.lines .container (ls ++ d :: after)) (s.openTag (.plain .li)) s₁ := by
    cases runs_singleton.1 hcontent with
    | blocks hlines => exact hlines
    | write hp _ => cases hp
  have hopen := hlines.sameOpen rfl
  obtain ⟨s₂, hfirst, hrest⟩ := hlines.split_stop hd hls hpasses
  obtain ⟨before, hbefore⟩ := hfirst.prefix_events
  cases hrest with
  | lines hb hfence hback =>
    cases hread.symm.trans hb
    have hlisting := (hfence.fence_writes hstatic).events
    obtain ⟨behind, hbehind⟩ := hback.prefix_events
    refine ⟨before, behind, Session.events_enclose ?_ hopen.stack⟩
    rw [← hbehind, hlisting, ← hbefore]
    simp only [List.append_assoc]

/-- All items of a list are carried out. -/
theorem Runs.list_item {list : ListBlock} {i : ListItem} (hi : i ∈ list.items)
    (h : Runs set ctx (.pieces (Plan.ofList list)) s s') : ∃ s₁ s₂,
      Runs set ctx (.piece (Plan.plainElement .li [.blocks .container i.body])) s₁ s₂ ∧
        s₂.writer.events <+: s'.writer.events := by
  obtain ⟨front, behind, hitems⟩ := List.append_of_mem hi
  obtain ⟨s₀, -, hparagraph⟩ := runs_append.1 h
  obtain ⟨sp, hlist, rfl⟩ := runs_element.1 (runs_singleton.1 hparagraph)
  obtain ⟨sl, hcontent, rfl⟩ := runs_element.1 (runs_singleton.1 hlist)
  rw [hitems, List.map_append, List.map_cons] at hcontent
  obtain ⟨s₁, -, hfrom⟩ := runs_append.1 hcontent
  obtain ⟨s₂, hitem, hrest⟩ := runs_cons.1 hfrom
  exact ⟨s₁, s₂, hitem, hrest.prefix_events.trans ((Session.prefix_close _).trans (Session.prefix_close _))⟩

/-! ### The listing of an item -/

variable {input : Text} {c : CodeItem} {l : Line} {following rest before after : List Line} {list : ListBlock}
  {i : ListItem}

/-- The lines after the first one of an item are not the first line of the document. -/
theorem Reached.one_not_mem_item (hr : Reached set ctx (.lines .document (Line.ofText input)) .start
      (.lines context (l :: following)) s) (hread : Block.read l following = .ok (.list list, rest))
    (hi : i ∈ list.items) : ∀ k ∈ i.body.tail, k.number ≠ 1 := by
  have hitem : i.numbers.Sublist (Line.numbers (Line.ofText input)) :=
    (List.sublist_flatten_of_mem (List.mem_map_of_mem hi)).trans
      (((List.sublist_append_left _ _).trans (Block.read_numbers hread)).trans hr.heads.1)
  intro k hk hone
  exact Line.one_not_mem_numbers hitem (hone ▸ List.mem_map_of_mem hk)

/-- The item of a list at the left margin that a fence is written under lists what is
left of the code of the fence. -/
theorem Reached.item_listing (hr : Reached set ctx (.lines .document (Line.ofText input)) .start
      (.lines context (l :: following)) s) (hread : Block.read l following = .ok (.list list, rest))
    (hmargin : l.indent = 0) (hi : i ∈ list.items) (hline : i.line = c.number)
    (hlines : l :: following = before ++ c.lines ++ after)
    (hopen : ∀ following, (BlockStart.of ⟨c.number, c.text⟩ following).isOpen = false)
    (h : Runs set ctx (.lines .document (Line.ofText input)) .start s') : ∃ front back,
      enclose (.plain .li) (front ++ c.fence.listing ((c.code.map (·.text)).destutter Text.Apart) ++ back) <:+:
        s'.writer.events := by
  have hbare := hr.lines_body.bare
  have hitem : ∀ k ∈ c.lines, k.Bare := fun k hk => hbare k (by simp [hlines, hk])
  have hascending := (Line.ascending_numberFrom 1 _).sublist hr.heads.1
  obtain ⟨hstyle, left, hbody⟩ := c.body_of_read hbare hascending hread hmargin hi hline hlines
  -- the body up to the fence is read for itself
  have hstops : c.opening.Stops (c.keptCode ++ c.closing :: left) :=
    Line.stops_of_codeFence c.opens (CodeItem.bare_of_lines hitem _ List.mem_cons_self) c.margin _
  have htail := hr.one_not_mem_item hread hi
  rw [hbody, List.cons_append, List.tail_cons] at htail
  have hgap : ∀ k ∈ ListReader.laid 2 false c.gap, k.number ≠ 1 := fun k hk =>
    htail k (List.mem_append_left _ hk)
  have hpasses := Block.passes_text (l := ⟨c.number, c.text⟩) hstops
    (fun k hk => ⟨ListReader.isBlank_of_mem_laid c.blank k hk, hgap k hk⟩) (hopen _)
  -- what is written for the list is a part of what is written in the end
  obtain ⟨s₁, hrun, hs₁⟩ := hr.runs (P := fun s => s.writer.events <+: s'.writer.events) h (List.prefix_refl _)
    (fun s hs => s.prefix_close.trans hs) fun _ _ _ _ hruns hs => hruns.prefix_events.trans hs
  cases hrun with
  | lines hread' hplan hrest =>
    cases hread.symm.trans hread'
    have hlist : ∀ count, Plan.ofBlock set context count (.list list) = Plan.ofList list := fun count => by
      simp [Plan.ofBlock, Plan.ofExercises, hstyle]
    rw [hlist] at hplan
    obtain ⟨sₐ, sᵦ, hli, hsᵦ⟩ := hplan.list_item hi
    rw [hbody] at hli
    obtain ⟨front, back, hevents⟩ := hli.item_events c.static hstops hgap hpasses
      (c.read_fence (c.kept_keptCode hitem) left)
    rw [CodeItem.map_text_keptCode hitem] at hevents
    refine ⟨front, back, List.IsInfix.trans ⟨sₐ.writer.events, [], ?_⟩
      (hsᵦ.trans (hrest.prefix_events.trans hs₁)).isInfix⟩
    rw [List.append_nil, hevents]

/-- The same fence on its own lists all of its code. -/
theorem CodeItem.writes_fenceLines (c : CodeItem) (h : Runs set ctx (.lines context (c.fenceLines ++ after)) s s') :
    ∃ s₁, Session.Writes (c.fence.listing (c.code.map (·.text))) { s with line := some c.opening.number } s₁ ∧
      Runs set ctx (.lines context after) s₁ s' := by
  have hlines : c.fenceLines ++ after = c.opening :: (c.code ++ c.closing :: after) := by simp [fenceLines]
  rw [hlines] at h
  cases h with
  | lines hread hfence hrest =>
    cases (c.read_fence c.kept after).symm.trans hread
    exact ⟨_, hfence.fence_writes c.static, hrest⟩

/-- An item that a fence of code is written under lists the lines of the code without
the empty ones that follow an empty one, and so all of them just if no two empty
lines follow each other; the fence at the left margin lists all of them. -/
theorem Reached.item_code (hr : Reached set ctx (.lines .document (Line.ofText input)) .start
      (.lines context (l :: following)) s) (hread : Block.read l following = .ok (.list list, rest))
    (hmargin : l.indent = 0) (hi : i ∈ list.items) (hline : i.line = c.number)
    (hlines : l :: following = before ++ c.lines ++ after)
    (hopen : ∀ following, (BlockStart.of ⟨c.number, c.text⟩ following).isOpen = false) :
    (∀ s', Runs set ctx (.lines .document (Line.ofText input)) .start s' → ∃ front back,
      enclose (.plain .li) (front ++ c.fence.listing ((c.code.map (·.text)).destutter Text.Apart) ++ back) <:+:
        s'.writer.events) ∧
    ((c.code.map (·.text)).destutter Text.Apart = c.code.map (·.text) ↔
      (c.code.map (·.text)).IsChain Text.Apart) ∧
    ∀ context after s s', Runs set ctx (.lines context (c.fenceLines ++ after)) s s' →
      ∃ s₁, Session.Writes (c.fence.listing (c.code.map (·.text))) { s with line := some c.opening.number } s₁ ∧
        Runs set ctx (.lines context after) s₁ s' :=
  ⟨fun _ => hr.item_listing hread hmargin hi hline hlines hopen, List.destutter_eq_self_iff Text.Apart _,
    fun _ _ _ _ => c.writes_fenceLines⟩

/-- An item with two empty lines in its code. -/
def CodeItem.sparse : CodeItem where
  number := 1
  text := ['a']
  gap := []
  fence := .bare "~~~".toList ⟨'~', 3⟩
  opening := ⟨2, "~~~".toList⟩
  code := [⟨3, ['x']⟩, ⟨4, []⟩, ⟨5, []⟩, ⟨6, ['y']⟩]
  closing := ⟨7, "~~~".toList⟩
  starts := ⟨'a', rfl, rfl⟩
  blank := by decide
  opens := by decide
  static := rfl
  margin := rfl
  kept := by decide
  closes := by decide

/-- Code with two empty lines, in an item and on its own. -/
theorem Reached.item_code_sparse :
    let set : Setting := ⟨.ofKind .chapter, none⟩
    let input : Text := "- a\n  ~~~\n  x\n\n\n  y\n  ~~~\n".toList
    let ctx := Conversion.contextOf set input
    let f := CodeItem.sparse.fence
    Line.ofText input = CodeItem.sparse.lines ∧
    Block.read ⟨1, "- a".toList⟩ CodeItem.sparse.lines.tail = .ok (.list ⟨1, .unordered, [⟨1, ['-'],
      [⟨1, ['a']⟩, ⟨2, "~~~".toList⟩, ⟨3, ['x']⟩, ⟨4, []⟩, ⟨6, ['y']⟩, ⟨7, "~~~".toList⟩]⟩], none⟩, []) ∧
    (∀ s, Runs set ctx (.lines .document (Line.ofText input)) .start s → ∃ front back,
      enclose (.plain .li) (front ++ f.listing [['x'], [], ['y']] ++ back) <:+: s.writer.events) ∧
    ∀ context after s s', Runs set ctx (.lines context (CodeItem.sparse.fenceLines ++ after)) s s' → ∃ s₁,
      Session.Writes (f.listing [['x'], [], [], ['y']]) { s with line := some 2 } s₁ ∧
        Runs set ctx (.lines context after) s₁ s' := by
  intro set input ctx f
  have hlines : Line.ofText input = CodeItem.sparse.lines := by decide +kernel
  have hread : Block.read ⟨1, "- a".toList⟩ CodeItem.sparse.lines.tail = .ok (.list ⟨1, .unordered, [⟨1, ['-'],
      [⟨1, ['a']⟩, ⟨2, "~~~".toList⟩, ⟨3, ['x']⟩, ⟨4, []⟩, ⟨6, ['y']⟩, ⟨7, "~~~".toList⟩]⟩], none⟩, []) := by
    decide +kernel
  have hstart : Reached set ctx (.lines .document (Line.ofText input)) .start
      (.lines .document (⟨1, "- a".toList⟩ :: CodeItem.sparse.lines.tail)) .start := hlines ▸ .start
  have hall : ⟨1, "- a".toList⟩ :: CodeItem.sparse.lines.tail = [] ++ CodeItem.sparse.lines ++ [] := by decide +kernel
  obtain ⟨hitem, -, htop⟩ := Reached.item_code hstart hread rfl List.mem_cons_self rfl hall fun _ => rfl
  exact ⟨hlines, hread, hitem, htop⟩

/-- Of the two empty lines one is left in the code of the item. -/
theorem convert_item_code_merges :
    let set : Setting := ⟨.ofKind .chapter, none⟩
    let input : Text := "- a\n  ~~~\n  x\n\n\n  y\n  ~~~\n".toList
    Line.ofText input = CodeItem.sparse.lines ∧ CodeItem.sparse.code.map (·.text) = [['x'], [], [], ['y']] ∧
    ∃ s, convert set input = .ok (.ofSession set (Conversion.contextOf set input) s) ∧
      s.listed = [[['x'], [], ['y']]] := by
  intro set input
  have hlines : Line.ofText input = CodeItem.sparse.lines := by decide +kernel
  have hlist : Block.read ⟨1, "- a".toList⟩ CodeItem.sparse.lines.tail = .ok (.list ⟨1, .unordered, [⟨1, ['-'],
      [⟨1, ['a']⟩, ⟨2, "~~~".toList⟩, ⟨3, ['x']⟩, ⟨4, []⟩, ⟨6, ['y']⟩, ⟨7, "~~~".toList⟩]⟩], none⟩, []) := by
    decide +kernel
  have htext : Block.read ⟨1, ['a']⟩
      [⟨2, "~~~".toList⟩, ⟨3, ['x']⟩, ⟨4, []⟩, ⟨6, ['y']⟩, ⟨7, "~~~".toList⟩] = .ok (.paragraph 1 ['a'],
        [⟨2, "~~~".toList⟩, ⟨3, ['x']⟩, ⟨4, []⟩, ⟨6, ['y']⟩, ⟨7, "~~~".toList⟩]) := by decide +kernel
  have hfence : Block.read ⟨2, "~~~".toList⟩ [⟨3, ['x']⟩, ⟨4, []⟩, ⟨6, ['y']⟩, ⟨7, "~~~".toList⟩] =
      .ok (.fence 2 CodeItem.sparse.fence [⟨3, ['x']⟩, ⟨4, []⟩, ⟨6, ['y']⟩], []) := by decide +kernel
  obtain ⟨s, hrun, hlisted⟩ : ∃ s, Runs set (Conversion.contextOf set input) (.lines .document (Line.ofText input))
      .start s ∧ s.listed = [[['x'], [], ['y']]] := by
    rw [hlines]
    refine ⟨_, .lines hlist (.pieces (.element (.pieces (.element (.pieces (.element (.pieces (.blocks
      (.lines htext (.pieces (.write rfl rfl) .noPieces) (.lines hfence (.pieces (.element
      (.pieces (.write rfl rfl) .noPieces)) .noPieces) .noLines))) .noPieces)) .noPieces)) .noPieces)) .noPieces)
      .noLines, ?_⟩
    simp only [Session.listed_close, Session.listed_code, Session.listed_openTag, Session.listed_line,
      Session.listed_paragraph, List.map_cons, List.map_nil]
    rfl
  exact ⟨hlines, rfl, s, Conversion.convert_of_run hrun.run_eq, hlisted⟩

end QuartoPretext
