/-
# What stands outside of divs and code

A div of two phases is split at the first line of some kind that stands outside
of the divs and the code in it. A line stands there if the lines before it are
balanced and it is no code itself; and the search, which counts as it goes, finds
the first such line that is accepted, in all lines that close no div but their own.

Key definitions: `Div.NoneTop`, `Div.FirstTop`.
Key theorems: `Div.splitTop?_append`, `Div.splitTop?_eq_none_iff`, `Div.splitTop?_eq_some_iff`.
-/
import QuartoPretext.Document.Size
import QuartoPretext.Proofs.Block.Balance

namespace QuartoPretext.Div

open Extent DivFence

/-- No line that stands outside of divs and code is accepted. -/
def NoneTop (accepts : Line → Option DivFence → Bool) (ls : List Line) : Prop :=
  ∀ before l after, ls = before ++ l :: after → Balanced (before.map (·.text)) →
    FenceMark.isCode none l.text = false → accepts l (parse? l.text) = false

/-- After the lines `before` stands the first line outside of divs and code that is accepted. -/
structure FirstTop (accepts : Line → Option DivFence → Bool) (before : List Line) (l : Line) : Prop where
  balanced : Balanced (before.map (·.text))
  no_code : FenceMark.isCode none l.text = false
  accepted : accepts l (parse? l.text)
  first : NoneTop accepts before

variable {accepts : Line → Option DivFence → Bool} {ls before after : List Line} {l : Line} {depth d : Nat}
  {fence f : Option FenceMark}

/-- A search in some lines goes on after them, if it finds nothing there and they
close no more than what is open. -/
theorem splitTop?_append (rest : List Line) (h : openAfter depth fence (ls.map (·.text)) = some (d, f)) :
    splitTop? accepts depth fence (ls ++ rest) =
      match splitTop? accepts depth fence ls with
      | some (before, l, after) => some (before, l, after ++ rest)
      | none => (splitTop? accepts d f rest).map fun p => (ls ++ p.1, p.2) := by
  induction ls generalizing depth fence with
  | nil =>
    cases h
    simp [splitTop?]
  | cons k ls ih =>
    rw [List.map_cons] at h
    unfold openAfter at h
    -- a line that is passed stands before what is found in the lines after it
    have pass {depth' : Nat} {fence' : Option FenceMark} (h : openAfter depth' fence' (ls.map (·.text)) = some (d, f)) :
        ((splitTop? accepts depth' fence' (ls ++ rest)).map fun p => (k :: p.1, p.2)) =
          match (splitTop? accepts depth' fence' ls).map fun p => (k :: p.1, p.2) with
          | some (before, l, after) => some (before, l, after ++ rest)
          | none => (splitTop? accepts d f rest).map fun p => (k :: ls ++ p.1, p.2) := by
      rw [ih h]
      cases splitTop? accepts depth' fence' ls with
      | some p => rfl
      | none => simp [Function.comp_def]
    rw [List.cons_append, splitTop?, splitTop?]
    simp only
    split at h
    · next hcode => simpa only [if_pos hcode] using pass h
    · next hcode =>
      simp only [if_neg hcode]
      split
      · rfl
      · split at h
        · next hdiv => simpa only [hdiv] using pass h
        · next hdiv =>
          split at h
          · cases h
          · simpa only [hdiv] using pass h
        · next hdiv => simpa only [hdiv] using pass h

/-- What is found stands outside of divs and code, if the lines close no more than what is open. -/
theorem of_splitTop?_eq_some : ∀ {ls before : List Line} {depth : Nat} {fence : Option FenceMark},
    openAfter depth fence (ls.map (·.text)) ≠ none → splitTop? accepts depth fence ls = some (before, l, after) →
      openAfter depth fence (before.map (·.text)) = some (0, none) ∧ FenceMark.isCode none l.text = false ∧
        accepts l (parse? l.text)
  | [], _, _, _, _, h => by simp [splitTop?] at h
  | k :: ls, before, depth, fence, hopen, h => by
    rw [List.map_cons] at hopen
    have pass {depth' : Nat} {fence' : Option FenceMark} (hopen' : openAfter depth' fence' (ls.map (·.text)) ≠ none)
        (hstep : ∀ ss, openAfter depth fence (k.text :: ss) = openAfter depth' fence' ss)
        (h : ((splitTop? accepts depth' fence' ls).map fun p => (k :: p.1, p.2)) = some (before, l, after)) :
        openAfter depth fence (before.map (·.text)) = some (0, none) ∧ FenceMark.isCode none l.text = false ∧
          accepts l (parse? l.text) := by
      obtain ⟨⟨b, l', a⟩, hfound, heq⟩ := Option.map_eq_some_iff.1 h
      cases heq
      rw [List.map_cons, hstep]
      exact of_splitTop?_eq_some hopen' hfound
    unfold splitTop? at h
    simp only at h
    split at h
    · next hcode =>
      have hstep := openAfter_code hcode depth
      exact pass (by rwa [hstep] at hopen) hstep h
    · next hcode =>
      have hfence : fence = none := by
        cases fence with
        | none => rfl
        | some mark => exact absurd rfl hcode
      subst hfence
      split at h
      · next hfound =>
        cases h
        simp only [Bool.and_eq_true, decide_eq_true_eq] at hfound
        exact ⟨by rw [hfound.1]; rfl, by simpa using hcode, hfound.2⟩
      · split at h
        · next n label attrs hdiv =>
          have hstep := openAfter_opening ⟨n, label, attrs, hdiv⟩ depth
          exact pass (by rwa [hstep] at hopen) hstep h
        · next n hdiv =>
          have hstep := openAfter_closing ⟨n, hdiv⟩ depth
          have hdepth : depth ≠ 0 := fun hzero => hopen (by rw [hstep, if_pos hzero])
          simp only [if_neg hdepth] at hstep
          exact pass (by rwa [hstep] at hopen) hstep h
        · next hdiv =>
          have hstep := openAfter_line (isCode_none_iff.1 (by simpa using hcode)) hdiv depth
          exact pass (by rwa [hstep] at hopen) hstep h

/-- A line outside of divs and code is found just if it is accepted. -/
theorem splitTop?_cons_iff (hcode : FenceMark.isCode none l.text = false) (after : List Line) :
    splitTop? accepts 0 none (l :: after) = some ([], l, after) ↔ accepts l (parse? l.text) := by
  constructor
  · intro h
    cases hl : accepts l (parse? l.text) with
    | true => rfl
    | false =>
      -- then the line stands before what is found
      unfold splitTop? at h
      simp only [hcode, hl, Bool.false_eq_true, if_false, Bool.and_false] at h
      split at h
      all_goals
        obtain ⟨_, -, heq⟩ := Option.map_eq_some_iff.1 h
        cases heq
  · intro hl
    simp [splitTop?, hcode, hl]

/-- A line after balanced lines is found, or a line within them. -/
theorem splitTop?_after (hbefore : Balanced (before.map (·.text))) (hcode : FenceMark.isCode none l.text = false)
    (hl : accepts l (parse? l.text)) (after : List Line) : splitTop? accepts 0 none (before ++ l :: after) =
      match splitTop? accepts 0 none before with
      | some (b, k, a) => some (b, k, a ++ l :: after)
      | none => some (before, l, after) := by
  rw [splitTop?_append _ (balanced_iff.1 hbefore), (splitTop?_cons_iff hcode after).2 hl]
  simp

theorem splitTop?_eq_none_iff (hls : openAfter 0 none (ls.map (·.text)) ≠ none) :
    splitTop? accepts 0 none ls = none ↔ NoneTop accepts ls := by
  constructor
  · rintro hnone before l after rfl hbefore hcode
    refine Bool.eq_false_iff.2 fun hl => ?_
    rw [splitTop?_after hbefore hcode hl] at hnone
    split at hnone <;> cases hnone
  · intro hnone
    refine Option.eq_none_iff_forall_not_mem.2 fun ⟨before, l, after⟩ hfound => ?_
    obtain ⟨hbefore, hcode, hl⟩ := of_splitTop?_eq_some hls hfound
    rw [hnone before l after (splitTop?_eq hfound) (balanced_iff.2 hbefore) hcode] at hl
    cases hl

/-- The search finds the first line outside of divs and code that is accepted. -/
theorem splitTop?_eq_some_iff (hls : openAfter 0 none (ls.map (·.text)) ≠ none) :
    splitTop? accepts 0 none ls = some (before, l, after) ↔ ls = before ++ l :: after ∧ FirstTop accepts before l := by
  constructor
  · intro hfound
    obtain ⟨hbefore, hcode, hl⟩ := of_splitTop?_eq_some hls hfound
    have hbalanced := balanced_iff.2 hbefore
    obtain rfl := splitTop?_eq hfound
    refine ⟨rfl, hbalanced, hcode, hl, (splitTop?_eq_none_iff (by simp [hbefore])).1 ?_⟩
    -- what is found within the lines before would be found first
    cases hearlier : splitTop? accepts 0 none before with
    | none => rfl
    | some p =>
      obtain ⟨b, k, a⟩ := p
      rw [splitTop?_after hbalanced hcode hl, hearlier] at hfound
      have hlength := congrArg List.length (splitTop?_eq hearlier)
      simp only [Option.some.injEq, Prod.mk.injEq] at hfound
      simp only [hfound.1, List.length_append, List.length_cons] at hlength
      omega
  · rintro ⟨rfl, hfirst⟩
    have hnone : splitTop? accepts 0 none before = none :=
      (splitTop?_eq_none_iff (by simp [balanced_iff.1 hfirst.balanced])).2 hfirst.first
    rw [splitTop?_after hfirst.balanced hfirst.no_code hfirst.accepted, hnone]

end QuartoPretext.Div
