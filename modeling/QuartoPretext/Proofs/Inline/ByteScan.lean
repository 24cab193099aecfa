/-
# What a scan by bytes finds

A scan over the bytes of a text finds stretches of it by their byte offsets: text,
what stands between delimiters, and opening signs without their closing ones. The
text is then cut at these offsets, which can be done only where a character starts
or the text ends. A scan is sound if the text can be cut at all of them, and if the
spans and the causes of warnings are those of a reader of characters.

Key definitions: `ByteScan.Found`, `ByteScan.spans?`, `ByteScan.Gives`,
`ByteScan.Sound`.
Key theorems: `ByteScan.isBoundary_of_spans?`, `ByteScan.Gives.mark`.
-/
import QuartoPretext.Inline.Math
import QuartoPretext.Proofs.Text.Bytes

namespace QuartoPretext

open Text

/-! ### Spans in pieces -/

namespace Span

/-- The spans of some cells after a text that is not yet given out: a text before each mark, also
if it is empty, and one at the end if it is not. -/
def unmerged (pending : Text) : List Cell → List Span
  | [] => if pending.isEmpty then [] else [text pending]
  | .char c :: cells => unmerged (pending ++ [c]) cells
  | .mark m :: cells => text pending :: mark m :: unmerged [] cells

theorem unmerged_cellsOf : ∀ (pending s : Text) (cells : List Cell),
    unmerged pending (cellsOf s ++ cells) = unmerged (pending ++ s) cells
  | pending, [], cells => by rw [List.append_nil]; rfl
  | pending, c :: s, cells => by
    show unmerged (pending ++ [c]) (cellsOf s ++ cells) = _
    rw [unmerged_cellsOf, List.append_assoc, List.singleton_append]

end Span

namespace ByteScan

/-! ### What a scan by bytes finds -/

/-- What a stretch between delimiters is. -/
inductive Kind
  | math
  | displayMath
  | code
  deriving Repr, DecidableEq

/-- Stretches between two byte offsets, and opening signs without their closing ones. -/
inductive Found
  | text (start stop : Nat)
  | mark (kind : Kind) (start stop : Nat)
  | unmatched (delimiter : Text)
  deriving Repr, DecidableEq

/-- The offsets that a text is cut at. -/
def Found.offsets : Found → List Nat
  | text start stop => [start, stop]
  | mark _ start stop => [start, stop]
  | unmatched _ => []

def Found.warning? : Found → Option Cause
  | unmatched delimiter => some (.unmatched delimiter)
  | _ => none

/-- The content of code without one space at each end, cut off by bytes. -/
def unpadded? (content : Text) : Option Text :=
  if 2 < utf8Length content ∧ content.head? = some ' ' ∧ content.getLast? = some ' ' ∧ trim content ≠ [] then
    slice? content 1 (utf8Length content - 1)
  else some content

def Kind.mark? : Kind → Text → Option Mark
  | math, tex => some (.math tex)
  | displayMath, tex => some (.displayMath (trim tex))
  | code, content => (unpadded? content).map .code

/-- The spans that a text is cut into; there are none if it cannot be cut at one of the offsets. -/
def spans? (s : Text) : List Found → Option (List Span)
  | [] => some []
  | .text start stop :: found => do
    let t ← slice? s start stop
    let spans ← spans? s found
    return .text t :: spans
  | .mark kind start stop :: found => do
    let t ← slice? s start stop
    let m ← kind.mark? t
    let spans ← spans? s found
    return .mark m :: spans
  | .unmatched _ :: found => spans? s found

variable {s pending before content : Text} {found : List Found} {cells : List Cell} {causes : List Cause}

/-- A text can be cut where it is cut into spans. -/
theorem isBoundary_of_spans? : ∀ {found : List Found} {spans : List Span}, spans? s found = some spans →
    ∀ f ∈ found, ∀ i ∈ f.offsets, IsBoundary s i
  | [], _, _ => List.forall_mem_nil _
  | f :: found, spans, h => by
    have hpair {start stop : Nat} {t : Text} (ht : slice? s start stop = some t) :
        ∀ i ∈ [start, stop], IsBoundary s i := by
      obtain ⟨hstart, hstop⟩ := isBoundary_of_slice? ht
      exact List.forall_mem_cons.2 ⟨hstart, List.forall_mem_singleton.2 hstop⟩
    cases f with
    | text start stop =>
      obtain ⟨t, ht, h⟩ := Option.bind_eq_some_iff.1 h
      obtain ⟨_, hmore, _⟩ := Option.bind_eq_some_iff.1 h
      exact List.forall_mem_cons.2 ⟨hpair ht, isBoundary_of_spans? hmore⟩
    | mark kind start stop =>
      obtain ⟨t, ht, h⟩ := Option.bind_eq_some_iff.1 h
      obtain ⟨_, _, h⟩ := Option.bind_eq_some_iff.1 h
      obtain ⟨_, hmore, _⟩ := Option.bind_eq_some_iff.1 h
      exact List.forall_mem_cons.2 ⟨hpair ht, isBoundary_of_spans? hmore⟩
    | unmatched delimiter =>
      have hmore : spans? s found = some spans := h
      exact List.forall_mem_cons.2 ⟨List.forall_mem_nil _, isBoundary_of_spans? hmore⟩

/-- What is found in the rest of a text gives these cells and causes, where some text before the
rest is not yet given out. -/
structure Gives (s pending : Text) (found : List Found) (cells : List Cell) (causes : List Cause) : Prop where
  spans : spans? s found = some (Span.unmerged pending cells)
  causes : found.filterMap Found.warning? = causes

theorem Gives.chars {used : Text} (h : Gives s (pending ++ used) found cells causes) :
    Gives s pending found (Span.cellsOf used ++ cells) causes :=
  ⟨h.spans.trans (by rw [Span.unmerged_cellsOf]), h.causes⟩

theorem Gives.unmatched (h : Gives s pending found cells causes) (delimiter : Text) :
    Gives s pending (.unmatched delimiter :: found) cells (.unmatched delimiter :: causes) :=
  ⟨h.spans, congrArg (Cause.unmatched delimiter :: ·) h.causes⟩

theorem Gives.mark {opening after : Text} {kind : Kind} {m : Mark}
    (hs : s = before ++ pending ++ opening ++ content ++ after) (hm : kind.mark? content = some m)
    (h : Gives s [] found cells causes) :
    Gives s pending
      (.text (utf8Length before) (utf8Length (before ++ pending)) ::
        .mark kind (utf8Length (before ++ pending ++ opening))
          (utf8Length (before ++ pending ++ opening ++ content)) :: found)
      (.mark m :: cells) causes := by
  have htext : slice? s (utf8Length before) (utf8Length (before ++ pending)) = some pending := by
    rw [hs, List.append_assoc _ opening, List.append_assoc _ (opening ++ content)]
    exact slice?_append _ _ _
  have hcontent : slice? s (utf8Length (before ++ pending ++ opening))
      (utf8Length (before ++ pending ++ opening ++ content)) = some content := by
    rw [hs]
    exact slice?_append _ _ _
  refine ⟨?_, h.causes⟩
  simp only [spans?, htext, hcontent, hm, h.spans, Option.bind_eq_bind, Option.bind_some, Option.pure_def,
    Span.unmerged]

theorem gives_end (before pending : Text) :
    Gives (before ++ pending) pending
      (if utf8Length before < utf8Length (before ++ pending) then
        [.text (utf8Length before) (utf8Length (before ++ pending))] else []) [] [] := by
  cases pending with
  | nil =>
    rw [List.append_nil, if_neg (Nat.lt_irrefl _)]
    exact ⟨rfl, rfl⟩
  | cons c pending =>
    have hlt : utf8Length before < utf8Length (before ++ c :: pending) := by
      rw [utf8Length_append]
      exact Nat.lt_add_of_pos_right (utf8Length_pos (List.cons_ne_nil c pending))
    have htext := slice?_append before (c :: pending) []
    rw [List.append_nil] at htext
    rw [if_pos hlt]
    refine ⟨?_, rfl⟩
    simp only [spans?, htext, Option.bind_eq_bind, Option.bind_some, Option.pure_def, Span.unmerged]
    rfl

/-- What is found in a whole text is right: the text can be cut at all the offsets, and its spans
and causes of warnings are these. -/
structure Sound (s : Text) (found : List Found) (cells : List Cell) (causes : List Cause) : Prop where
  boundary : ∀ f ∈ found, ∀ i ∈ f.offsets, IsBoundary s i
  spans : spans? s found = some (Span.unmerged [] cells)
  causes : found.filterMap Found.warning? = causes

theorem Gives.sound (h : Gives s [] found cells causes) : Sound s found cells causes :=
  ⟨isBoundary_of_spans? h.spans, h.spans, h.causes⟩

/-! ### Ends -/

/-- Where the content that was found after a text ends. -/
def endOf (before : Text) (found : Option (Text × Text)) : Option Nat := found.map fun p => utf8Length (before ++ p.1)

theorem endOf_prepend (before t : Text) (found : Option (Text × Text)) :
    endOf before (Math.prepend t found) = endOf (before ++ t) found := by
  cases found with
  | none => rfl
  | some p => exact congrArg (some <| utf8Length ·) (List.append_assoc before t p.1).symm

theorem endOf_nil (before rest : Text) : endOf before (some ([], rest)) = some (utf8Length before) := by
  rw [endOf, Option.map_some, List.append_nil]

end ByteScan
end QuartoPretext
