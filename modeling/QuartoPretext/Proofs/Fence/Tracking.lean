/-
# A tracker sees the fences that the block reader sees

Lines that are scanned for something else than code are scanned with the code fence
that is open. The fence that is open before a line and the line give the one that is
open after it. The block reader parses an opening line as a whole and looks for the
line that closes it. Both see the same fence in a line, and from there on the fence
is open in the one as long as the other has not found its end.

Key definitions: `FenceMark.after`, `Line.fenceAfter`.
Key theorems: `FenceMark.detect?_append`, `CodeFence.mark_parse?`,
`FenceMark.after_of_not_closedBy`, `BlockStart.of_fence`, `Block.read_tracked`.
-/
import QuartoPretext.Proofs.Document.Contained
import QuartoPretext.Proofs.Document.FaultLines
import QuartoPretext.Proofs.Text.Cut

namespace QuartoPretext

open Text

/-! ### Opening lines -/

namespace FenceMark

variable {s gap : Text} {m : FenceMark} {c : Char}

/-- White space is no part of a run. -/
theorem run_append (hc : isSpace c = false) (hgap : ∀ d ∈ gap, isSpace d) (s : Text) :
    (s ++ gap).takeWhile (· == c) = s.takeWhile (· == c) ∧ (s ++ gap).dropWhile (· == c) = s.dropWhile (· == c) ++ gap := by
  have hne : ∀ d ∈ gap.head?, (d == c) = false := by
    intro d hd
    refine beq_false_of_ne fun he => ?_
    rw [he] at hd
    rw [hgap c (List.mem_of_head? hd)] at hc
    cases hc
  obtain ⟨htake, hdrop⟩ := span_append (s := []) (t := gap) (List.forall_mem_nil _) hne
  rw [List.takeWhile_append, List.dropWhile_append]
  constructor
  · split
    · next hall =>
      rw [← List.append_nil (s.takeWhile _), (List.takeWhile_prefix (· == c)).eq_of_length hall]
      exact congrArg (s ++ ·) htake
    · rfl
  · split
    · next hnone =>
      rw [List.isEmpty_iff.1 hnone]
      exact hdrop
    · rfl

/-- White space after an opening line does not count. -/
theorem detect?_append (hgap : ∀ d ∈ gap, isSpace d) : detect? (s ++ gap) = detect? s := by
  have hspace {d : Char} (hd : d = '\x60' ∨ d = '~') : isSpace d = false := by
    rcases hd with rfl | rfl <;> decide
  cases s with
  | nil =>
    cases gap with
    | nil => rfl
    | cons d gap =>
      have hd : isSpace d := hgap d List.mem_cons_self
      have hmark : (d != '\x60' && d != '~') = true := by
        rw [Bool.and_eq_true, bne_iff_ne, bne_iff_ne]
        constructor <;>
        · rintro rfl
          cases hd
      rw [List.nil_append]
      exact if_pos hmark
  | cons c s =>
    rw [List.cons_append, detect?, detect?]
    split
    · rfl
    · next hmark =>
      have hc : isSpace c = false := hspace (by simpa [Decidable.or_iff_not_imp_left] using hmark)
      obtain ⟨htake, hdrop⟩ := run_append hc hgap s
      have hnone : gap.contains '\x60' = false := by
        simp only [List.contains_eq_mem, decide_eq_false_iff_not]
        intro hmem
        cases hgap _ hmem
      rw [htake, hdrop, List.contains_append, hnone, Bool.or_false]

theorem next_none_eq (s : Text) : next none s = detect? (trim s) := by
  obtain ⟨gap, hsplit, hgap⟩ := exists_trimEnd_append (trimStart s)
  rw [next, trim, hsplit]
  exact (detect?_append hgap).trans (by rw [← hsplit])

/-! ### Runs of a tracker -/

/-- The fence that is open after some lines, from the one that was open before them. -/
def after (fence : Option FenceMark) (ss : List Text) : Option FenceMark := ss.foldl next fence

theorem after_append (fence : Option FenceMark) (ss ts : List Text) :
    after fence (ss ++ ts) = after (after fence ss) ts := List.foldl_append

/-- A fence stays open up to a line that closes it. -/
theorem after_of_not_closedBy : ∀ {ss : List Text}, (∀ s ∈ ss, m.closedBy s = false) → after (some m) ss = some m
  | [], _ => rfl
  | s :: ss, h => by
    obtain ⟨hs, hss⟩ := List.forall_mem_cons.1 h
    have hstep : next (some m) s = some m := by simp [next, hs]
    exact (congrArg (ss.foldl next) hstep).trans (after_of_not_closedBy hss)

end FenceMark

/-- The reader parses a line as an opening fence with the mark that a tracker sees in it. -/
theorem CodeFence.mark_parse? (s : Text) : (parse? s).map mark = FenceMark.next none s := by
  rw [parse?, Option.map_map, FenceMark.next_none_eq]
  have hmark : (mark ∘ fun m : FenceMark => (bare (trim s) m).withInfo (trim ((trim s).drop m.length))) = id :=
    funext fun m => mark_withInfo _ _
  rw [hmark, Option.map_id]
  rfl

theorem CodeFence.parse?_trim (s : Text) : parse? (trim s) = parse? s := by
  rw [parse?, parse?, trim_trim]

/-! ### Reading a fence -/

variable {l : Line} {f : CodeFence} {m : FenceMark}

/-- The fence that is open after the first `k` lines that follow a line. -/
def Line.fenceAfter (l : Line) (following : List Line) (k : Nat) : Option FenceMark :=
  FenceMark.after none (((l :: following).take (k + 1)).map Line.text)

theorem Line.fenceAfter_eq (h : CodeFence.parse? l.text = some f) (following : List Line) (k : Nat) :
    l.fenceAfter following k = FenceMark.after (some f.mark) ((following.take k).map Line.text) := by
  have hfirst : FenceMark.next none l.text = some f.mark := by rw [← CodeFence.mark_parse?, h]; rfl
  show ((following.take k).map Line.text).foldl FenceMark.next (FenceMark.next none l.text) = _
  rw [hfirst]
  rfl

/-- A line that opens a fence starts a block of code, whatever follows it. -/
theorem BlockStart.of_fence (h : CodeFence.parse? l.text = some f) (following : List Line) :
    BlockStart.of l following = .fence f := by
  obtain ⟨mark, hmark, -⟩ := Option.map_eq_some_iff.1 h
  obtain ⟨c, s, hs⟩ := List.exists_cons_of_ne_nil (l := trim l.text) (by
    intro hnil
    rw [hnil] at hmark
    cases hmark)
  have hc : c = '\x60' ∨ c = '~' := by
    have hthree (d : Char) : List.replicate 3 d = d :: List.replicate 2 d := rfl
    rw [hs] at hmark
    rcases FenceMark.prefix_of_detect? hmark with hprefix | hprefix
    · exact .inl (List.cons_prefix_cons.1 (hthree '\x60' ▸ hprefix)).1.symm
    · exact .inr (List.cons_prefix_cons.1 (hthree '~' ▸ hprefix)).1.symm
  have hblank : l.isBlank = false := by
    refine Bool.eq_false_iff.2 fun hblank => ?_
    have hnil : trimStart l.text = [] := List.dropWhile_eq_nil_iff.2 (List.all_eq_true.1 hblank)
    rw [trim, hnil] at hs
    cases hs
  have hheading : heading? (trim l.text) = none := by
    refine Option.eq_none_iff_forall_not_mem.2 fun heading hfound => ?_
    obtain ⟨rest, hrest⟩ := heading?_eq hfound
    rw [hs] at hrest
    cases hrest
    rcases hc with hc | hc <;> cases hc
  have hyaml : isFrontMatter l following = false := by
    rw [isFrontMatter, hs]
    rcases hc with rfl | rfl <;> simp [yamlOpen]
  rw [BlockStart.of, if_neg (by simp [hblank]), hheading, hyaml]
  simp only [Bool.false_eq_true, if_false]
  rw [ofLine, CodeFence.parse?_trim, h]

theorem Extent.fenceBody?_eq_none : ∀ {ls : List Line}, fenceBody? m ls = none → ∀ l ∈ ls, m.closedBy l.text = false
  | [], _ => List.forall_mem_nil _
  | l :: ls, h => by
    unfold fenceBody? at h
    split at h
    · cases h
    · next hl => exact List.forall_mem_cons.2 ⟨by simpa using hl, fenceBody?_eq_none (Option.map_eq_none_iff.1 h)⟩

/-- A fence with its end is read up to it. -/
theorem Block.read_fence_iff (h : CodeFence.parse? l.text = some f) {following rest : List Line} {b : Block} :
    Block.read l following = .ok (b, rest) ↔
      ∃ body, b = .fence l.number f body ∧ Extent.fenceBody? f.mark following = some (body, rest) := by
  rw [Block.read, BlockStart.of_fence h following]
  cases hbody : Extent.fenceBody? f.mark following with
  | none => simp [hbody]
  | some found =>
    obtain ⟨body, after⟩ := found
    simp only [hbody, Except.ok.injEq, Prod.mk.injEq, Option.some.injEq]
    constructor
    · rintro ⟨rfl, rfl⟩
      exact ⟨body, rfl, rfl, rfl⟩
    · rintro ⟨_, rfl, rfl, rfl⟩
      exact ⟨rfl, rfl⟩

/-- A fence without an end is a fault. -/
theorem Block.read_fence_error_iff (h : CodeFence.parse? l.text = some f) {following : List Line} {fault : Fault} :
    Block.read l following = .error fault ↔
      fault = .openFence l.number f.opener ∧ Extent.fenceBody? f.mark following = none := by
  rw [Block.read, BlockStart.of_fence h following]
  cases hbody : Extent.fenceBody? f.mark following with
  | none => simp [hbody, eq_comm]
  | some found => simp [hbody]

/-- **Trackers and the block reader agree on code fences.** A line is parsed as an
opening fence exactly if a tracker outside of code sees a fence in it, and with that
mark. From such a line the reader reads a fence with a body, or reports that the fence
is not closed. If it reads a body, a tracker that is given the line and those after it
is in the fence up to the last line of the body, and out of it after the next line. If
it reports a fault, the tracker stays in the fence. -/
theorem Block.read_tracked (l : Line) (following : List Line) :
    (∀ mark, FenceMark.next none l.text = some mark ↔ ∃ f, CodeFence.parse? l.text = some f ∧ f.mark = mark) ∧
    ∀ f, CodeFence.parse? l.text = some f →
      (∀ b rest, Block.read l following = .ok (b, rest) → ∃ body closing, b = .fence l.number f body ∧
        following = body ++ closing :: rest ∧ (∀ k ≤ body.length, l.fenceAfter following k = some f.mark) ∧
        l.fenceAfter following (body.length + 1) = none) ∧
      ∀ fault, Block.read l following = .error fault →
        fault = .openFence l.number f.opener ∧ ∀ k, l.fenceAfter following k = some f.mark := by
  refine ⟨fun mark => by rw [← CodeFence.mark_parse?, Option.map_eq_some_iff], fun f hf => ⟨?_, ?_⟩⟩
  · intro b rest hread
    obtain ⟨body, rfl, hbody⟩ := (Block.read_fence_iff hf).1 hread
    obtain ⟨closing, rfl, hopen, hclosing⟩ := Extent.fenceBody?_eq_some hbody
    have hinside : ∀ ls ⊆ body, FenceMark.after (some f.mark) (ls.map Line.text) = some f.mark := fun ls hls =>
      FenceMark.after_of_not_closedBy (List.forall_mem_map.2 fun k hk => hopen k (hls hk))
    refine ⟨body, closing, rfl, rfl, fun k hk => ?_, ?_⟩
    · rw [Line.fenceAfter_eq hf, List.take_append_of_le_length hk]
      exact hinside _ (List.take_subset k body)
    · have htake : (body ++ closing :: rest).take (body.length + 1) = body ++ [closing] := by
        rw [List.append_cons, List.take_left' (by simp)]
      rw [Line.fenceAfter_eq hf, htake, List.map_append, FenceMark.after_append, hinside body (List.Subset.refl body)]
      show FenceMark.next (some f.mark) closing.text = none
      rw [FenceMark.next, if_pos hclosing]
  · intro fault hread
    obtain ⟨rfl, hbody⟩ := (Block.read_fence_error_iff hf).1 hread
    refine ⟨rfl, fun k => ?_⟩
    rw [Line.fenceAfter_eq hf]
    refine FenceMark.after_of_not_closedBy (List.forall_mem_map.2 fun l' hl' => ?_)
    exact Extent.fenceBody?_eq_none hbody l' (List.mem_of_mem_take hl')

end QuartoPretext
