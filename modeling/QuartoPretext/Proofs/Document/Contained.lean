/-
# A text in a container

A text that is converted in the body of a document is converted in a container
too: there is nothing that a container demands and the body of a document does
not. So the text stays convertible in a div, as long as the div ends where it
should, and for this its lines must be balanced. A block that is read from them
is balanced by itself, unless it hides fences: display math, a list and a
footnote definition take lines whatever stands in them, and there the search
for the end of a div and the reader of the blocks can disagree.

Key definitions: `Piece.contain`, `Task.contain`, `Block.hidesFences`.
Key theorems: `Plan.ofBlock_contain`, `Runs.contain`, `Block.balanced_of_read`,
`Cursor.balanced_readAll`, `convert_data`.
-/
import QuartoPretext.Proofs.Document.Sections
import QuartoPretext.Proofs.Document.Transparent

namespace QuartoPretext

/-! ### Pieces in a container -/

namespace Piece

mutual

/-- What a piece of the body of a document is in a container. -/
def contain : Piece → Piece
  | element tag content => element tag (containAll content)
  | blocks _ ls => blocks .container ls
  | heading _ _ title _ => leaf (.plain .p) (.alert title)
  | p => p

def containAll : List Piece → List Piece
  | [] => []
  | p :: ps => contain p :: containAll ps

end

variable {L : List Line → Prop}

mutual

theorem contain_of_tame : ∀ {p : Piece}, p.All (Tame L) → contain p = p
  | element tag content, h => by rw [contain, containAll_of_tame h.2]
  | blocks context ls, h => by rw [contain, h.1]
  | heading .., h => h.elim
  | leaf .., _ | empty _, _ | code _, _ | paragraph _, _ | warn .., _ | frontMatter .., _ | inclusion _, _
  | countExercise, _ => rfl

theorem containAll_of_tame : ∀ {ps : List Piece}, AllIn (Tame L) ps → containAll ps = ps
  | [], _ => rfl
  | p :: ps, h => by rw [containAll, contain_of_tame h.1, containAll_of_tame h.2]

end

theorem isSimple_contain {p : Piece} (h : p.isSimple) : p.contain.isSimple := by
  cases p <;> exact h

end Piece

namespace Plan

open Piece

/-- In a chapter a block has the same pieces in a container, but for what depends on the place. -/
theorem ofBlock_contain {set : Setting} (hkind : set.profile.kind = .chapter) (context : Context) (count count' : Nat)
    (b : Block) : ofBlock set .container count' b = containAll (ofBlock set context count b) := by
  have hsame (h : ofBlock set context count b = ofBlock set .container count' b) :
      ofBlock set .container count' b = containAll (ofBlock set context count b) := by
    rw [h, containAll_of_tame (inside_ofBlock set count' b)]
  cases b with
  | heading n level title attrs => cases context <;> rfl
  | div n label attrs body =>
    cases hdiv : Div.kind set.profile attrs with
    | transparent => simp only [ofBlock, ofDiv, hdiv, containAll, contain]
    | unknown => simp only [ofBlock, ofDiv, hdiv, containAll, contain]
    | _ => exact hsame (by simp only [ofBlock, ofDiv, hdiv])
  | list l => exact hsame (by simp [ofBlock, hkind])
  | _ => exact hsame rfl

end Plan

/-! ### Runs in a container -/

def Task.contain : Task → Task
  | piece p => piece p.contain
  | pieces ps => pieces (Piece.containAll ps)
  | lines _ ls => lines .container ls

variable {set : Setting} {ctx : Inline.Context} {t : Task} {s s₁ : Session}

/-- Of the pieces of a container only front matter can fail, in any session or in none. -/
theorem Session.write_contain {kind : DocumentKind} {p : Piece} (h : s.write ctx kind p = .ok s₁) (s' : Session) :
    ∃ s₁', s'.write ctx kind p.contain = .ok s₁' := by
  cases p with
  | frontMatter n yaml =>
    simp only [Session.write, Piece.contain] at h ⊢
    split at h
    · exact ⟨_, rfl⟩
    · cases h
  | _ => exact ⟨_, rfl⟩

/-- What is carried out in the body of a chapter is carried out in a container, in any session. -/
theorem Runs.contain (hkind : set.profile.kind = .chapter) (h : Runs set ctx t s s₁) (s' : Session) :
    ∃ s₁', Runs set ctx t.contain s' s₁' := by
  induction h generalizing s' with
  | @element tag _ _ _ _ ih =>
    obtain ⟨s₁', hs⟩ := ih (s'.openTag tag)
    exact ⟨_, .element hs⟩
  | blocks _ ih =>
    obtain ⟨s₁', hs⟩ := ih s'
    exact ⟨_, .blocks hs⟩
  | write hp hw =>
    obtain ⟨s₁', hs⟩ := Session.write_contain hw s'
    exact ⟨_, .write (Piece.isSimple_contain hp) hs⟩
  | noPieces => exact ⟨_, .noPieces⟩
  | pieces _ _ ih₁ ih₂ =>
    obtain ⟨s₁', hs₁⟩ := ih₁ s'
    obtain ⟨s₂', hs₂⟩ := ih₂ s₁'
    exact ⟨_, .pieces hs₁ hs₂⟩
  | noLines => exact ⟨_, .noLines⟩
  | @lines context _ _ _ b s _ _ hb _ _ ih₁ ih₂ =>
    obtain ⟨s₁', hs₁⟩ := ih₁ { s' with line := some b.line }
    obtain ⟨s₂', hs₂⟩ := ih₂ s₁'
    rw [Task.contain, ← Plan.ofBlock_contain hkind context s.exerciseCount s'.exerciseCount] at hs₁
    exact ⟨_, .lines hb hs₁ hs₂⟩

/-! ### Where the end of a div is searched as blocks are read -/

/-- Blocks that take lines whatever fences stand in them. -/
def Block.hidesFences : Block → Bool
  | displayMath .. | list _ | frontMatter .. | skipped _ .footnoteDefinition => true
  | _ => false

namespace DivFence

/-- A text that is no fence of a div and opens no code. -/
def Plain (s : Text) : Prop := FenceMark.next none s = none ∧ parse? s = none

theorem balanced_of_plain : ∀ {ss : List Text}, (∀ s ∈ ss, Plain s) → Balanced ss
  | [], _ => .nil
  | s :: ss, h => by
    obtain ⟨hs, hss⟩ := List.forall_mem_cons.1 h
    exact (balanced_of_plain hss).cons hs.1 hs.2

theorem parse?_trim (s : Text) : parse? (Text.trim s) = parse? s := by
  rw [parse?, parse?, Text.trim_trim]

end DivFence

variable {l : Line} {following rest : List Line} {b : Block}

theorem Line.Bare.next_eq (h : l.Bare) : FenceMark.next none l.text = FenceMark.detect? (Text.trim l.text) := by
  have htrim : Text.trim l.text = Text.trimStart l.text :=
    (Text.endsBare_iff _).1 (h.suffix (List.dropWhile_suffix _))
  rw [FenceMark.next, htrim]

theorem DivFence.plain_of_isBlank {s : Text} (h : Text.isBlank s) : Plain s := by
  have hstart : Text.trimStart s = [] := List.dropWhile_eq_nil_iff.2 (List.all_eq_true.1 h)
  exact ⟨by rw [FenceMark.next, hstart]; rfl, parse?_of_isBlank h⟩

theorem BlockStart.heading?_eq {s title : Text} {level : Nat} (h : heading? s = some (level, title)) :
    ∃ rest, s = '#' :: rest := by
  unfold heading? at h
  cases s with
  | nil => cases h
  | cons c rest =>
    by_cases hc : c = '#'
    · exact ⟨rest, by rw [hc]⟩
    · simp [hc] at h

/-- What neither is a fence nor starts front matter. -/
def BlockStart.isPlain : BlockStart → Bool
  | fence _ | divOpen .. | divClose | frontMatter => false
  | _ => true

/-- A line that starts neither a fence nor front matter is plain. -/
theorem BlockStart.plain_of {start : BlockStart} (hl : l.Bare) (h : BlockStart.of l following = start)
    (hplain : start.isPlain) : DivFence.Plain l.text := by
  unfold BlockStart.of at h
  split at h
  · next hb => exact DivFence.plain_of_isBlank hb
  · split at h
    · next hh =>
      obtain ⟨rest, ht⟩ := heading?_eq hh
      refine ⟨by rw [hl.next_eq, ht]; rfl, ?_⟩
      rw [← DivFence.parse?_trim, ht]
      cases hdiv : DivFence.parse? ('#' :: rest) with
      | none => rfl
      | some d =>
        obtain ⟨more, hmore⟩ := DivFence.trim_of_parse? hdiv
        rw [← ht, Text.trim_trim, ht] at hmore
        cases hmore
    · split at h
      · rw [← h] at hplain
        cases hplain
      · unfold ofLine at h
        split at h
        · rw [← h] at hplain
          cases hplain
        · next hcode =>
          rw [CodeFence.parse?, Option.map_eq_none_iff, Text.trim_trim] at hcode
          split at h
          · rw [← h] at hplain
            cases hplain
          · rw [← h] at hplain
            cases hplain
          · next hdiv => exact ⟨hl.next_eq.trans hcode, (DivFence.parse?_trim _).symm.trans hdiv⟩

theorem BlockStart.opens_of {label : Text} {attrs : Attributes} (h : BlockStart.of l following = .divOpen label attrs) :
    DivFence.Opens l.text := by
  have hline := Block.ofLine_of h nofun nofun nofun
  unfold ofLine at hline
  split at hline
  · cases hline
  · split at hline
    · next hdiv =>
      cases hline
      exact ⟨_, _, _, (DivFence.parse?_trim _).symm.trans hdiv⟩
    · cases hline
    · repeat' split at hline
      all_goals cases hline

/-! ### Blocks that are balanced -/

theorem Extent.fenceBody?_eq_some {mark : FenceMark} : ∀ {ls body rest : List Line},
    fenceBody? mark ls = some (body, rest) → ∃ c, ls = body ++ c :: rest ∧
      (∀ l ∈ body, mark.closedBy l.text = false) ∧ mark.closedBy c.text
  | [], _, _, h => by cases h
  | l :: ls, body, rest, h => by
    unfold fenceBody? at h
    split at h
    · next hl =>
      cases h
      exact ⟨l, rfl, List.forall_mem_nil _, hl⟩
    · next hl =>
      obtain ⟨⟨more, after⟩, hmore, he⟩ := Option.map_eq_some_iff.1 h
      obtain ⟨c, hc, hbody, hclose⟩ := fenceBody?_eq_some hmore
      simp only [Prod.mk.injEq] at he
      rw [← he.1, ← he.2]
      exact ⟨c, by rw [hc, List.cons_append], List.forall_mem_cons.2 ⟨by simpa using hl, hbody⟩, hclose⟩

theorem Extent.paragraph_plain : ∀ {ls : List Line}, (∀ l ∈ ls, l.Bare) →
    ∀ l ∈ (paragraph ls).1, DivFence.Plain l.text
  | [], _ => List.forall_mem_nil _
  | l :: ls, h => by
    obtain ⟨hl, hls⟩ := List.forall_mem_cons.1 h
    rw [paragraph]
    split
    · next hkind =>
      refine List.forall_mem_cons.2 ⟨?_, paragraph_plain hls⟩
      cases hstart : BlockStart.of l ls with
      | paragraph => exact BlockStart.plain_of hl hstart rfl
      | _ => simp [classify, hstart, BlockStart.kind] at hkind
    · exact List.forall_mem_nil _

/-- The lines of a block that hides no fences are balanced. -/
theorem Block.balanced_of_read {taken : List Line} (hbare : ∀ k ∈ l :: following, k.Bare)
    (h : Block.read l following = .ok (b, rest)) (htaken : l :: following = taken ++ rest)
    (hb : b.hidesFences = false) : DivFence.Balanced (taken.map (·.text)) := by
  obtain ⟨hl, hfollowing⟩ := List.forall_mem_cons.1 hbare
  have htake {more : List Line} (hmore : following = more ++ rest) : taken = l :: more :=
    (List.append_cancel_right (htaken.symm.trans (by rw [hmore, List.cons_append])))
  have hline (hplain : DivFence.Plain l.text) (hrest : rest = following) :
      DivFence.Balanced (taken.map (·.text)) := by
    rw [htake (show following = [] ++ rest by rw [hrest, List.nil_append])]
    exact .line hplain.1 hplain.2
  simp only [Block.read] at h
  cases hstart : BlockStart.of l following with
  | blank =>
    rw [hstart] at h
    cases h
    rw [htake List.takeWhile_append_dropWhile.symm]
    refine DivFence.balanced_of_plain (List.forall_mem_map.2 (List.forall_mem_cons.2 ⟨?_, ?_⟩))
    · exact BlockStart.plain_of hl hstart rfl
    · exact fun k hk => DivFence.plain_of_isBlank (show k.isBlank from List.mem_takeWhile_imp hk)
  | heading level raw =>
    rw [hstart] at h
    cases h
    exact hline (BlockStart.plain_of hl hstart rfl) rfl
  | frontMatter =>
    rw [hstart] at h
    cases h
    cases hb
  | fence open' =>
    rw [hstart] at h
    simp only at h
    split at h
    · next body after hbody =>
      cases h
      obtain ⟨c, hc, hcode, hclose⟩ := Extent.fenceBody?_eq_some hbody
      have hmark : FenceMark.next none l.text = some open'.mark := by
        rw [hl.next_eq, ← Text.trim_trim, CodeFence.detect?_of_parse? (BlockStart.parse?_of_fence hstart)]
      rw [htake (show following = (body ++ [c]) ++ rest by simp [hc])]
      simpa using DivFence.Balanced.code hmark (List.forall_mem_map.2 hcode) hclose
    · cases h
  | divOpen label attrs =>
    rw [hstart] at h
    simp only at h
    split at h
    · next body after hbody =>
      cases h
      obtain ⟨c, hclose, hc, hbalanced⟩ := Extent.divBody?_eq_some_iff.1 hbody
      rw [htake (show following = (body ++ [c]) ++ rest by simp [hc])]
      simpa using DivFence.Balanced.div (BlockStart.opens_of hstart) hbalanced hclose
    · cases h
  | divClose =>
    rw [hstart] at h
    cases h
  | displayMath afterOpen =>
    rw [hstart] at h
    simp only [Block.readMath] at h
    repeat' split at h
    all_goals
      cases h
      try cases hb
  | footnoteDefinition =>
    rw [hstart] at h
    cases h
    cases hb
  | listItem =>
    rw [hstart] at h
    cases h
    cases hb
  | paragraph =>
    rw [hstart] at h
    cases h
    rw [htake (Extent.paragraph_eq following).symm]
    refine DivFence.balanced_of_plain (List.forall_mem_map.2 (List.forall_mem_cons.2 ⟨?_, ?_⟩))
    · exact BlockStart.plain_of hl hstart rfl
    · exact Extent.paragraph_plain hfollowing
  | _ =>
    rw [hstart] at h
    cases h
    exact hline (BlockStart.plain_of hl hstart rfl) rfl

/-- Lines that are read to the end are balanced, if those of each block that hides fences are. -/
theorem Cursor.balanced_readAll {c : Cursor} (hbare : ∀ l ∈ c.rest, l.Bare) (hfault : c.readAll.fault = none)
    (h : ∀ taken b, (taken, b) ∈ c.readAll.blocks → b.hidesFences → DivFence.Balanced (taken.map (·.text))) :
    DivFence.Balanced (c.rest.map (·.text)) := by
  induction c using Cursor.readAll.induct with
  | case1 c hc =>
    rw [hc]
    exact .nil
  | case2 c l following hc f c' hr =>
    rw [Cursor.readAll_error (by simp [hc]) hr] at hfault
    cases hfault
  | case3 c l following hc b next hr ih =>
    have hread := Cursor.read_cons hc hr
    obtain ⟨more, hmore⟩ := Block.rest_suffix hread
    have hrest : c.rest = (l :: more) ++ next.rest := by rw [hc, ← hmore, List.cons_append]
    rw [Cursor.readAll_ok hrest (by simp [hc]) hr] at hfault h
    have hnext := ih (fun k hk => hbare k (hrest ▸ List.mem_append_right _ hk)) hfault
      fun taken b' hmem => h taken b' (List.mem_cons_of_mem _ hmem)
    rw [hrest, List.map_append]
    refine .append ?_ hnext
    cases hb : b.hidesFences with
    | true => exact h _ b List.mem_cons_self hb
    | false => exact Block.balanced_of_read (hc ▸ hbare) hread (hc ▸ hrest) hb

/-- Lines that are converted are read to the end. -/
theorem Runs.readAll_fault {context : Context} {c : Cursor} (h : Runs set ctx (.lines context c.rest) s s₁) :
    c.readAll.fault = none := by
  induction c using Cursor.readAll.induct generalizing s with
  | case1 c hc => rw [Cursor.readAll_nil hc]
  | case2 c l following hc f c' hr =>
    rw [hc] at h
    cases h with
    | lines hb =>
      rw [Cursor.read, hc] at hr
      simp only [hb] at hr
      cases hr
  | case3 c l following hc b next hr ih =>
    obtain ⟨more, hmore⟩ := Block.rest_suffix (Cursor.read_cons hc hr)
    rw [Cursor.readAll_ok (show c.rest = (l :: more) ++ next.rest by rw [hc, ← hmore, List.cons_append]) (by simp [hc]) hr]
    rw [hc] at h
    cases h with
    | lines hb _ hrest =>
      have hsame := (Cursor.read_cons hc hr).symm.trans hb
      cases hsame
      exact ih hrest

/-! ### A div around a text -/

/-- The pieces of a data div are carried out in a chapter if its body is in the body of a document. -/
theorem Runs.ofDiv_data (n : Nat) (label : Text) {attrs : Attributes} {ls : List Line}
    (hkind : set.profile.kind = .chapter) (hdiv : Div.kind set.profile attrs = .data) {context : Context}
    (h : Runs set ctx (.lines context ls) s s₁) (context' : Context) (s' : Session) :
    ∃ s₁', Runs set ctx (.pieces (Plan.ofDiv set.profile context' n label attrs ls)) s' s₁' := by
  have htitle (s : Session) : Runs set ctx (.piece (.leaf (.plain .title) (.markup "Data".toList))) s
      (s.leaf ctx (.plain .title) (.markup "Data".toList)) := .write rfl rfl
  obtain ⟨s₂, hbody⟩ := h.contain hkind
    ((s'.openTag (.withId .note attrs.id)).leaf ctx (.plain .title) (.markup "Data".toList))
  rw [Plan.ofDiv, hdiv]
  exact ⟨_, .pieces (.element (.pieces (htitle _) (.pieces (.blocks hbody) .noPieces))) .noPieces⟩

/-- The lines of a data div are converted, if those of its body are as the body of a chapter. -/
theorem convertLines_data {ls ls' : List Line} {label fence : Text} {attrs : Attributes} {n m : Nat}
    (hkind : set.profile.kind = .chapter) (hfence : DivFence.parse? fence = some (.opening n label attrs))
    (hdiv : Div.kind set.profile attrs = .data) (hmoved : Line.Renumbered (· + 1) ls ls')
    (hnumbers : ∀ k ∈ ls, 2 ≤ k.number) (hls' : DivFence.Balanced (ls'.map (·.text)))
    (h : convertLines set ctx .document (⟨1, []⟩ :: ls) .start = .ok s) : ∃ s',
      convertLines set ctx .document (⟨1, []⟩ :: ⟨2, fence⟩ :: (ls' ++ [⟨m, ":::".toList⟩])) .start = .ok s' := by
  obtain ⟨s', hrun, _⟩ := (h ▸ convertLines_moved hmoved hnumbers (.refl .start) .document).of_ok
  have hruns : Runs set ctx (.lines .document ls') .start s' := runs_iff.2 hrun
  obtain ⟨s₁, hpieces⟩ := Runs.ofDiv_data 2 label hkind hdiv hruns .document
    { Session.start with line := some 2 }
  exact ⟨s₁, (convertLines_wrapped hfence hls' _).trans hpieces.run_eq⟩

/-- A text that a chapter converts is converted in a data div too if its lines are
balanced. They are, if those of each block that hides fences are. -/
theorem convert_data {body : Text} (h : ∃ c, convert ⟨.ofKind .chapter, none⟩ ('\n' :: body) = .ok c) :
    (DivFence.Balanced ((Line.ofText body).map (·.text)) → ∃ c, convert ⟨.ofKind .chapter, none⟩
      ("\n::: {.data}\n".toList ++ body ++ "\n:::\n".toList) = .ok c) ∧
    ((∀ taken b, (taken, b) ∈ (Cursor.ofLines (Line.ofText ('\n' :: body))).readAll.blocks → b.hidesFences →
      DivFence.Balanced (taken.map (·.text))) → DivFence.Balanced ((Line.ofText body).map (·.text))) := by
  obtain ⟨s, hrun⟩ := convert_eq_ok_iff.1 h
  refine ⟨fun hbody => ?_, fun hblocks => ?_⟩
  · obtain ⟨ls, ls', n, hplain, hwrapped, hmoved, hnumbers, gap, hgap, htexts⟩ :=
      Line.ofText_wrapped "::: {.data}".toList (by decide) rfl body
    have hfence : DivFence.parse? "::: {.data}".toList =
        some (.opening 3 "{.data}".toList ⟨none, ["data".toList], .empty⟩) := by decide +kernel
    have hinput : "\n::: {.data}\n".toList ++ body ++ "\n:::\n".toList =
        Text.wrapped "::: {.data}".toList body := rfl
    rw [hplain] at hrun
    rw [hinput, convert_eq_ok_iff, hwrapped, Footnotes.collect_wrapped hfence rfl hmoved n]
    exact convertLines_data rfl hfence rfl hmoved hnumbers (htexts ▸ hbody.append_gap hgap) hrun
  · have hruns : Runs ⟨.ofKind .chapter, none⟩ _ (.lines .document (Cursor.ofLines (Line.ofText ('\n' :: body))).rest)
        .start s := runs_iff.2 hrun
    have hall := Cursor.balanced_readAll (fun _ hl => Line.bare_ofText hl) hruns.readAll_fault hblocks
    rw [Cursor.ofLines, Line.map_text_ofText, Line.lines_newline_cons, List.map_cons, Extent.balanced_iff,
      Extent.openAfter_line rfl rfl, ← Extent.balanced_iff, ← Line.map_text_ofText] at hall
    exact hall

/-- A div with a closing fence in its code is converted in a data div. -/
theorem convert_data_code : (∃ c, convert ⟨.ofKind .chapter, none⟩ "\n::: x\n~~~\n:::\n~~~\n:::".toList = .ok c) ∧
    DivFence.Balanced ((Line.ofText "::: x\n~~~\n:::\n~~~\n:::".toList).map (·.text)) ∧
    ∃ c, convert ⟨.ofKind .chapter, none⟩ "\n::: {.data}\n::: x\n~~~\n:::\n~~~\n:::\n:::\n".toList = .ok c := by
  have hdiv : Block.read ⟨2, "::: x".toList⟩
      [⟨3, "~~~".toList⟩, ⟨4, ":::".toList⟩, ⟨5, "~~~".toList⟩, ⟨6, ":::".toList⟩] =
        .ok (.div 2 "x".toList ⟨none, ["x".toList], .empty⟩
          [⟨3, "~~~".toList⟩, ⟨4, ":::".toList⟩, ⟨5, "~~~".toList⟩], []) := rfl
  have hcode : Block.read ⟨3, "~~~".toList⟩ [⟨4, ":::".toList⟩, ⟨5, "~~~".toList⟩] =
      .ok (.fence 3 (.bare "~~~".toList ⟨'~', 3⟩) [⟨4, ":::".toList⟩], []) := rfl
  have hrun (ctx : Inline.Context) (s : Session) : ∃ s', Runs ⟨.ofKind .chapter, none⟩ ctx
      (.lines .document [⟨1, []⟩, ⟨2, "::: x".toList⟩, ⟨3, "~~~".toList⟩, ⟨4, ":::".toList⟩, ⟨5, "~~~".toList⟩,
        ⟨6, ":::".toList⟩]) s s' :=
    ⟨_, .lines rfl .noPieces (.lines hdiv (.pieces (.write rfl rfl) (.pieces (.blocks
      (.lines hcode (.pieces (.element (.pieces (.write rfl rfl) .noPieces)) .noPieces) .noLines)) .noPieces)) .noLines)⟩
  have hconvert : ∃ c, convert ⟨.ofKind .chapter, none⟩ "\n::: x\n~~~\n:::\n~~~\n:::".toList = .ok c := by
    obtain ⟨s', h⟩ := hrun _ .start
    exact convert_eq_ok_iff.2 ⟨s', h.run_eq⟩
  have hbody : DivFence.Balanced ((Line.ofText "::: x\n~~~\n:::\n~~~\n:::".toList).map (·.text)) :=
    Extent.balanced_iff.2 (by decide +kernel)
  exact ⟨hconvert, hbody, (convert_data hconvert).1 hbody⟩

/-- The search for the end of a div takes a closing fence in math for the end: a text
with such a fence is converted, and in a div it is math without an end. -/
theorem convert_data_math : (∃ c, convert ⟨.ofKind .chapter, none⟩ "\n$$\n:::\n$$".toList = .ok c) ∧
    convert ⟨.ofKind .chapter, none⟩ "\n::: {.data}\n$$\n:::\n$$\n:::\n".toList = .error (.openMath 3) := by
  constructor
  · have hmath : Block.read ⟨2, "$$".toList⟩ [⟨3, ":::".toList⟩, ⟨4, "$$".toList⟩] =
        .ok (.displayMath 2 [":::".toList] none none, []) := rfl
    have hrun (ctx : Inline.Context) (s : Session) : ∃ s', Runs ⟨.ofKind .chapter, none⟩ ctx
        (.lines .document [⟨1, []⟩, ⟨2, "$$".toList⟩, ⟨3, ":::".toList⟩, ⟨4, "$$".toList⟩]) s s' :=
      ⟨_, .lines rfl .noPieces
        (.lines hmath (.pieces (.element (.pieces (.write rfl rfl) .noPieces)) .noPieces) .noLines)⟩
    obtain ⟨s', h⟩ := hrun _ .start
    exact convert_eq_ok_iff.2 ⟨s', h.run_eq⟩
  · let attrs : Attributes := ⟨none, ["data".toList], .empty⟩
    have hfence : DivFence.parse? "::: {.data}".toList = some (.opening 3 "{.data}".toList attrs) := by
      decide +kernel
    have hdiv : Block.read ⟨2, "::: {.data}".toList⟩
        [⟨3, "$$".toList⟩, ⟨4, ":::".toList⟩, ⟨5, "$$".toList⟩, ⟨6, ":::".toList⟩] =
          .ok (.div 2 "{.data}".toList attrs [⟨3, "$$".toList⟩], [⟨5, "$$".toList⟩, ⟨6, ":::".toList⟩]) := by
      rw [Block.read, BlockStart.of_divFence hfence]
      rfl
    have hmath : Block.read ⟨3, "$$".toList⟩ [] = .error (.openMath 3) := rfl
    have hplan (count : Nat) : Plan.ofBlock ⟨.ofKind .chapter, none⟩ .document count
        (.div 2 "{.data}".toList attrs [⟨3, "$$".toList⟩]) =
          [.element (.withId .note none)
            [.leaf (.plain .title) (.markup "Data".toList), .blocks .container [⟨3, "$$".toList⟩]]] := rfl
    have hrun (ctx : Inline.Context) (s : Session) : convertLines ⟨.ofKind .chapter, none⟩ ctx .document
        [⟨1, []⟩, ⟨2, "::: {.data}".toList⟩, ⟨3, "$$".toList⟩, ⟨4, ":::".toList⟩, ⟨5, "$$".toList⟩, ⟨6, ":::".toList⟩] s =
          .error (.openMath 3) := by
      obtain ⟨n, hblank⟩ := convertLines_dropWhile ⟨.ofKind .chapter, none⟩ ctx .document
        [⟨1, []⟩, ⟨2, "::: {.data}".toList⟩, ⟨3, "$$".toList⟩, ⟨4, ":::".toList⟩, ⟨5, "$$".toList⟩, ⟨6, ":::".toList⟩] s
      rw [hblank, List.dropWhile_cons_of_pos rfl, List.dropWhile_cons_of_neg (by decide), convertLines_of_read hdiv, hplan]
      simp only [runPieces_singleton, runPiece, runPieces, Session.write, convertLines_of_read_error hmath]
    exact convert_eq_error_iff.2 (hrun _ _)

end QuartoPretext
