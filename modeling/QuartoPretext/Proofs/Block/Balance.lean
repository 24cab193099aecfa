/-
# Lines in which divs are closed

The end of a div is searched line by line: a fence with a label opens one more
div, a bare one closes the latest, and code is passed over. The lines that the
search takes for the body of a div are those in which each div and each code
fence that opens is closed again. What else the lines are read as does not count.

Key definitions: `DivFence.Balanced`, `Extent.openAfter`.
Key theorems: `Extent.openAfter_balanced`, `Extent.balanced_iff`,
`Extent.divBody?_eq_some_iff`.
-/
import QuartoPretext.Block.Extent

namespace QuartoPretext

open Text

namespace DivFence

def Opens (s : Text) : Prop := ∃ n label attrs, parse? s = some (.opening n label attrs)

def Closes (s : Text) : Prop := ∃ n, parse? s = some (.closing n)

/-- Lines in which every div and every code fence that opens is closed again, and
no other closing fence of a div stands outside of code. -/
inductive Balanced : List Text → Prop
  | nil : Balanced []
  | line {s : Text} : FenceMark.next none s = none → parse? s = none → Balanced [s]
  | code {s t : Text} {mark : FenceMark} {ss : List Text} : FenceMark.next none s = some mark →
      (∀ r ∈ ss, mark.closedBy r = false) → mark.closedBy t → Balanced (s :: ss ++ [t])
  | div {s t : Text} {ss : List Text} : Opens s → Balanced ss → Closes t → Balanced (s :: ss ++ [t])
  | append {ss ts : List Text} : Balanced ss → Balanced ts → Balanced (ss ++ ts)

theorem Balanced.cons {s : Text} {ss : List Text} (hs : FenceMark.next none s = none) (hdiv : parse? s = none)
    (h : Balanced ss) : Balanced (s :: ss) := (Balanced.line hs hdiv).append h

theorem trim_of_parse? {s : Text} {d : DivFence} (h : parse? s = some d) : ∃ rest, trim s = ':' :: rest := by
  unfold parse? at h
  simp only at h
  split at h
  · cases h
  · next hlt =>
    cases ht : trim s with
    | nil => simp [ht] at hlt
    | cons c rest =>
      by_cases hc : c = ':'
      · exact ⟨rest, by rw [hc]⟩
      · simp [ht, hc] at hlt

/-- A fence of a div starts with a colon, so it opens no code. -/
theorem next_of_parse? {s : Text} {d : DivFence} (h : parse? s = some d) : FenceMark.next none s = none := by
  obtain ⟨rest, ht⟩ := trim_of_parse? h
  have hstart : ':' :: rest <+: trimStart s := by
    rw [← ht]
    have := List.dropWhile_suffix isSpace (l := (trimStart s).reverse)
    simpa [trim, trimEnd] using List.reverse_prefix.2 this
  obtain ⟨more, hmore⟩ := hstart
  rw [FenceMark.next, ← hmore]
  rfl

end DivFence

namespace Extent

open DivFence

variable {inner d : Nat} {fence : Option FenceMark} {s : Text} {ss ts : List Text}

/-- What is open after some lines in a div, if they do not close it: divs, and
maybe a code fence. -/
def openAfter (inner : Nat) (fence : Option FenceMark) : List Text → Option (Nat × Option FenceMark)
  | [] => some (inner, fence)
  | s :: rest =>
    if FenceMark.isCode fence s then openAfter inner (FenceMark.next fence s) rest
    else
      match DivFence.parse? s with
      | some (.opening ..) => openAfter (inner + 1) none rest
      | some (.closing _) => if inner = 0 then none else openAfter (inner - 1) none rest
      | none => openAfter inner none rest

theorem isCode_none_iff : FenceMark.isCode none s = false ↔ FenceMark.next none s = none := by
  simp [FenceMark.isCode]

theorem openAfter_line (hs : FenceMark.next none s = none) (hdiv : parse? s = none) (inner : Nat) (ss : List Text) :
    openAfter inner none (s :: ss) = openAfter inner none ss := by
  rw [openAfter, if_neg (by simp [isCode_none_iff.2 hs]), hdiv]

theorem openAfter_opening (hs : Opens s) (inner : Nat) (ss : List Text) :
    openAfter inner none (s :: ss) = openAfter (inner + 1) none ss := by
  obtain ⟨n, label, attrs, hdiv⟩ := hs
  rw [openAfter, if_neg (by simp [isCode_none_iff.2 (next_of_parse? hdiv)]), hdiv]

theorem openAfter_closing (hs : Closes s) (inner : Nat) (ss : List Text) :
    openAfter inner none (s :: ss) = if inner = 0 then none else openAfter (inner - 1) none ss := by
  obtain ⟨n, hdiv⟩ := hs
  rw [openAfter, if_neg (by simp [isCode_none_iff.2 (next_of_parse? hdiv)]), hdiv]

theorem openAfter_code (h : FenceMark.isCode fence s) (inner : Nat) (ss : List Text) :
    openAfter inner fence (s :: ss) = openAfter inner (FenceMark.next fence s) ss := by
  rw [openAfter, if_pos h]

theorem openAfter_append (inner : Nat) (fence : Option FenceMark) (ss ts : List Text) :
    openAfter inner fence (ss ++ ts) = (openAfter inner fence ss).bind fun p => openAfter p.1 p.2 ts := by
  fun_induction openAfter inner fence ss with
  | case1 => rfl
  | case2 inner fence s rest hcode ih => rw [List.cons_append, openAfter, if_pos hcode, ih]
  | case3 inner fence s rest hcode n label attrs hdiv ih => rw [List.cons_append, openAfter, if_neg hcode, hdiv, ih]
  | case4 fence s rest hcode n hdiv =>
    rw [List.cons_append, openAfter, if_neg hcode, hdiv, if_pos rfl]
    rfl
  | case5 inner fence s rest hcode n hdiv hinner ih =>
    rw [List.cons_append, openAfter, if_neg hcode, hdiv]
    simp only [if_neg hinner, ih]
  | case6 inner fence s rest hcode hdiv ih => rw [List.cons_append, openAfter, if_neg hcode, hdiv, ih]

theorem openAfter_unclosed {mark : FenceMark} (inner : Nat) : ∀ {ss : List Text}, (∀ r ∈ ss, mark.closedBy r = false) →
    openAfter inner (some mark) ss = some (inner, some mark)
  | [], _ => rfl
  | s :: ss, h => by
    obtain ⟨hs, hss⟩ := List.forall_mem_cons.1 h
    rw [openAfter_code rfl, FenceMark.next, if_neg (by simp [hs]), openAfter_unclosed inner hss]

/-- Balanced lines leave open what was open before them. -/
theorem openAfter_balanced (h : Balanced ss) (inner : Nat) : openAfter inner none ss = some (inner, none) := by
  induction h generalizing inner with
  | nil => rfl
  | line hs hdiv => rw [openAfter_line hs hdiv, openAfter]
  | @code s t mark ss hs hcode hclose =>
    rw [List.cons_append, openAfter_code (by simp [FenceMark.isCode, hs]), hs, openAfter_append,
      openAfter_unclosed inner hcode, Option.bind_some, openAfter_code rfl, FenceMark.next, if_pos hclose, openAfter]
  | @div s t ss hs _ hclose ih =>
    rw [List.cons_append, openAfter_opening hs, openAfter_append, ih, Option.bind_some, openAfter_closing hclose,
      if_neg (Nat.succ_ne_zero inner), Nat.add_sub_cancel, openAfter]
  | append _ _ ih₁ ih₂ => rw [openAfter_append, ih₁, Option.bind_some, ih₂]

/-! ### Nothing else is balanced -/

/-- After an open code fence comes the rest of its code, if it is closed. -/
theorem exists_code {mark : FenceMark} : ∀ {ss : List Text} {inner d : Nat},
    openAfter inner (some mark) ss = some (d, none) → ∃ code t rest, ss = code ++ t :: rest ∧
      (∀ r ∈ code, mark.closedBy r = false) ∧ mark.closedBy t ∧ openAfter inner none rest = some (d, none)
  | [], _, _, h => by cases h
  | s :: ss, inner, d, h => by
    rw [openAfter_code rfl, FenceMark.next] at h
    by_cases hs : mark.closedBy s
    · rw [if_pos hs] at h
      exact ⟨[], s, ss, rfl, List.forall_mem_nil _, hs, h⟩
    · rw [if_neg hs] at h
      obtain ⟨code, t, rest, rfl, hcode, ht, hrest⟩ := exists_code h
      exact ⟨s :: code, t, rest, rfl, List.forall_mem_cons.2 ⟨by simpa using hs, hcode⟩, ht, hrest⟩

/-- Lines that close a div start with a body of it and its closing fence. -/
theorem exists_body (d : Nat) : ∀ {ss : List Text} (inner : Nat) {fence : Option FenceMark},
    openAfter (inner + d + 1) fence ss = some (d, none) → ∃ body t rest, ss = body ++ t :: rest ∧
      openAfter inner fence body = some (0, none) ∧ Closes t ∧ openAfter d none rest = some (d, none)
  | [], inner, fence, h => by
    have := congrArg Prod.fst (Option.some.inj h)
    simp only at this
    omega
  | s :: ss, inner, fence, h => by
    unfold openAfter at h
    split at h
    · next hcode =>
      obtain ⟨body, t, rest, rfl, hbody, ht, hrest⟩ := exists_body d inner h
      exact ⟨s :: body, t, rest, rfl, by rw [openAfter_code hcode, hbody], ht, hrest⟩
    · next hcode =>
      split at h
      · next n label attrs hdiv =>
        rw [show inner + d + 1 + 1 = inner + 1 + d + 1 by omega] at h
        obtain ⟨body, t, rest, rfl, hbody, ht, hrest⟩ := exists_body d (inner + 1) h
        exact ⟨s :: body, t, rest, rfl, by rw [openAfter, if_neg hcode, hdiv, hbody], ht, hrest⟩
      · next n hdiv =>
        rw [if_neg (Nat.succ_ne_zero _), Nat.add_sub_cancel] at h
        cases inner with
        | zero =>
          -- the closing fence belongs to the div itself
          have hfence : fence = none := by
            cases fence with
            | none => rfl
            | some mark => exact absurd rfl hcode
          rw [Nat.zero_add] at h
          exact ⟨[], s, ss, rfl, by rw [openAfter, hfence], ⟨n, hdiv⟩, h⟩
        | succ inner =>
          rw [show inner + 1 + d = inner + d + 1 by omega] at h
          obtain ⟨body, t, rest, rfl, hbody, ht, hrest⟩ := exists_body d inner h
          refine ⟨s :: body, t, rest, rfl, ?_, ht, hrest⟩
          rw [openAfter, if_neg hcode, hdiv]
          simpa using hbody
      · next hdiv =>
        obtain ⟨body, t, rest, rfl, hbody, ht, hrest⟩ := exists_body d inner h
        exact ⟨s :: body, t, rest, rfl, by rw [openAfter, if_neg hcode, hdiv, hbody], ht, hrest⟩

theorem balanced_of_openAfter {ss : List Text} (h : openAfter 0 none ss = some (0, none)) : Balanced ss := by
  match ss with
  | [] => exact .nil
  | s :: ss =>
    cases hs : FenceMark.next none s with
    | some mark =>
      rw [openAfter_code (by simp [FenceMark.isCode, hs]), hs] at h
      obtain ⟨code, t, rest, rfl, hcode, ht, hrest⟩ := exists_code h
      have hmore := balanced_of_openAfter hrest
      simpa using (Balanced.code hs hcode ht).append hmore
    | none =>
      cases hdiv : parse? s with
      | none =>
        rw [openAfter_line hs hdiv] at h
        exact (balanced_of_openAfter h).cons hs hdiv
      | some div =>
        cases div with
        | closing n => simp [openAfter_closing ⟨n, hdiv⟩] at h
        | opening n label attrs =>
          rw [openAfter_opening ⟨n, label, attrs, hdiv⟩] at h
          obtain ⟨body, t, rest, rfl, hbody, ht, hrest⟩ := exists_body 0 0 h
          have hinner := balanced_of_openAfter hbody
          have hmore := balanced_of_openAfter hrest
          simpa using (Balanced.div ⟨n, label, attrs, hdiv⟩ hinner ht).append hmore
termination_by ss.length
decreasing_by
  all_goals
    subst_vars
    simp only [List.length_cons, List.length_append]
    omega

theorem balanced_iff : Balanced ss ↔ openAfter 0 none ss = some (0, none) :=
  ⟨fun h => openAfter_balanced h 0, balanced_of_openAfter⟩

/-! ### The body of a div -/

theorem divBody?_append {ls : List Line} (rest : List Line)
    (h : openAfter inner fence (ls.map (·.text)) = some (d, none)) :
    divBody? inner fence (ls ++ rest) = (divBody? d none rest).map fun p => (ls ++ p.1, p.2) := by
  induction ls generalizing inner fence with
  | nil =>
    cases h
    simp
  | cons l ls ih =>
    rw [List.map_cons] at h
    unfold openAfter at h
    rw [List.cons_append, divBody?]
    simp only
    split at h
    · next hcode => simp [hcode, ih h, Function.comp_def]
    · next hcode =>
      split at h
      · next hdiv => simp [hcode, hdiv, ih h, Function.comp_def]
      · next hdiv =>
        split at h
        · cases h
        · next hinner => simp [hcode, hdiv, hinner, ih h, Function.comp_def]
      · next hdiv => simp [hcode, hdiv, ih h, Function.comp_def]

theorem openAfter_of_divBody? : ∀ {ls body rest : List Line} {inner : Nat} {fence : Option FenceMark},
    divBody? inner fence ls = some (body, rest) → openAfter inner fence (body.map (·.text)) = some (0, none) ∧
      ∃ l, Closes l.text ∧ ls = body ++ l :: rest
  | [], _, _, _, _, h => by simp [divBody?] at h
  | l :: ls, body, rest, inner, fence, h => by
    have keep {found : Option (List Line × List Line)} {inner' : Nat} {fence' : Option FenceMark}
        (hopen : ∀ ss, openAfter inner fence (l.text :: ss) = openAfter inner' fence' ss)
        (ih : ∀ {b r}, found = some (b, r) → openAfter inner' fence' (b.map (·.text)) = some (0, none) ∧
          ∃ c, Closes c.text ∧ ls = b ++ c :: r)
        (h : (found.map fun p => (l :: p.1, p.2)) = some (body, rest)) :
        openAfter inner fence (body.map (·.text)) = some (0, none) ∧
          ∃ c, Closes c.text ∧ l :: ls = body ++ c :: rest := by
      obtain ⟨⟨b, r⟩, h', e⟩ := Option.map_eq_some_iff.1 h
      obtain ⟨hb, c, hc, hls⟩ := ih h'
      simp only [Prod.mk.injEq] at e
      refine ⟨by rw [← e.1, List.map_cons, hopen, hb], c, hc, by simp [← e.1, ← e.2, hls]⟩
    unfold divBody? at h
    simp only at h
    split at h
    · next hcode => exact keep (openAfter_code hcode inner) openAfter_of_divBody? h
    · next hcode =>
      split at h
      · next hdiv => exact keep (fun ss => by rw [openAfter, if_neg hcode, hdiv]) openAfter_of_divBody? h
      · next n hdiv =>
        split at h
        · next hinner =>
          cases h
          have hfence : fence = none := by
            cases fence with
            | none => rfl
            | some mark => exact absurd rfl hcode
          exact ⟨by rw [hinner, hfence]; rfl, l, ⟨n, hdiv⟩, rfl⟩
        · next hinner =>
          exact keep (fun ss => by rw [openAfter, if_neg hcode, hdiv]; simp [hinner]) openAfter_of_divBody? h
      · next hdiv => exact keep (fun ss => by rw [openAfter, if_neg hcode, hdiv]) openAfter_of_divBody? h

/-- The body of a div is what is balanced up to a closing fence. -/
theorem divBody?_eq_some_iff {ls body rest : List Line} : divBody? 0 none ls = some (body, rest) ↔
    ∃ l, Closes l.text ∧ ls = body ++ l :: rest ∧ Balanced (body.map (·.text)) := by
  constructor
  · intro h
    obtain ⟨hbody, l, hl, hls⟩ := openAfter_of_divBody? h
    exact ⟨l, hl, hls, balanced_iff.2 hbody⟩
  · rintro ⟨l, ⟨n, hl⟩, rfl, hbody⟩
    rw [divBody?_append _ (balanced_iff.1 hbody), divBody?]
    simp [isCode_none_iff.2 (next_of_parse? hl), hl]

end Extent
end QuartoPretext
