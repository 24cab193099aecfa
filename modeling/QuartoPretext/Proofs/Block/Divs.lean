/-
# Divs are read by balance

The search for the end of a div counts divs and passes over code. What it finds
is what a grammar says: a div reaches over balanced lines up to the first bare
fence that closes them off, and there is one such body or none. What stands in
code does not count, nor how many colons a fence has, from three on.

Key definitions: `Extent.IsDivBody`, `DivFence.Alike`, `Line.Alike`.
Key theorems: `Extent.IsDivBody.unique`, `Extent.openAfter_alike`, `Extent.IsDivBody.alike`,
`Cursor.read_div`.
-/
import QuartoPretext.Proofs.Document.Wrapped
import Mathlib.Data.List.Forall2

namespace QuartoPretext

open Text

/-- After the opening fence of a div come its body, a bare fence and the rest. -/
def Extent.IsDivBody (following body rest : List Line) : Prop :=
  ∃ close : Line, DivFence.Closes close.text ∧ following = body ++ close :: rest ∧
    DivFence.Balanced (body.map (·.text))

/-- The same text, or the same fence of a div with another number of colons. -/
inductive DivFence.Alike : Text → Text → Prop
  | refl (s : Text) : Alike s s
  | colons {before after : Text} {m n : Nat} : isBlank before → after.head? ≠ some ':' → 3 ≤ m → 3 ≤ n →
      Alike (before ++ List.replicate m ':' ++ after) (before ++ List.replicate n ':' ++ after)

/-- Two lines of one number that differ in the colons of a fence at most. -/
def Line.Alike (l l' : Line) : Prop := l'.number = l.number ∧ DivFence.Alike l.text l'.text

/-! ### The colons of a fence -/

/-- A code fence is made of backticks or tildes. -/
theorem FenceMark.char_of_detect? {s : Text} {mark : FenceMark} (h : detect? s = some mark) :
    mark.char = '\x60' ∨ mark.char = '~' := by
  unfold detect? at h
  split at h
  · cases h
  · simp only at h
    split at h
    · cases h
    · next hchar =>
      split at h
      · cases h
      · cases h
        simpa [imp_iff_or_not, or_comm] using hchar

namespace DivFence

variable {before after : Text} {m : Nat}

theorem trimStart_colons (hb : isBlank before) (hm : 3 ≤ m) (after : Text) :
    trimStart (before ++ List.replicate m ':' ++ after) = List.replicate m ':' ++ after := by
  obtain ⟨k, rfl⟩ : ∃ k, m = k + 1 := ⟨m - 1, by omega⟩
  rw [trimStart, List.append_assoc, List.dropWhile_append_of_pos (List.all_eq_true.1 hb), List.replicate_succ,
    List.cons_append, List.dropWhile_cons_of_neg (by decide)]

/-- What a fence says hangs on what stands after its colons. -/
theorem parse?_colons (hb : isBlank before) (ha : after.head? ≠ some ':') (hm : 3 ≤ m) :
    parse? (before ++ List.replicate m ':' ++ after) =
      if (trim (trimEnd after)).isEmpty then some (closing m)
      else (labelAttributes? (trim (trimEnd after))).map (opening m (trim (trimEnd after))) := by
  have hbare : EndsBare (List.replicate m ':') := fun c hc => by
    rw [List.eq_of_mem_replicate (List.mem_of_getLast? hc)]
    rfl
  have htrim : trim (before ++ List.replicate m ':' ++ after) = List.replicate m ':' ++ trimEnd after := by
    rw [trim, trimStart_colons hb hm, trimEnd_append hbare]
  have hcolons : ∀ c ∈ List.replicate m ':', (c == ':') = true := fun c hc => by
    rw [List.eq_of_mem_replicate hc]
    rfl
  have hhead : (trimEnd after).head? ≠ some ':' := by
    have hprefix : trimEnd after <+: after := by
      simpa [trimEnd] using List.reverse_prefix.2 (List.dropWhile_suffix isSpace (l := after.reverse))
    intro h
    obtain ⟨rest, hrest⟩ := List.head?_eq_some_iff.1 h
    obtain ⟨more, hmore⟩ := hprefix
    rw [hrest] at hmore
    exact ha (by rw [← hmore]; rfl)
  have htake : (trimEnd after).takeWhile (· == ':') = [] := by
    cases h : trimEnd after with
    | nil => rfl
    | cons c rest => exact List.takeWhile_cons_of_neg (by simpa [h] using hhead)
  have hdrop : (trimEnd after).dropWhile (· == ':') = trimEnd after := by
    cases h : trimEnd after with
    | nil => rfl
    | cons c rest => exact List.dropWhile_cons_of_neg (by simpa [h] using hhead)
  rw [parse?, htrim, List.takeWhile_append_of_pos hcolons, List.dropWhile_append_of_pos hcolons, htake, hdrop,
    List.append_nil, List.length_replicate]
  exact if_neg (by omega)

variable {s s' : Text}

theorem Alike.symm (h : Alike s s') : Alike s' s := by
  cases h with
  | refl => exact .refl _
  | colons hb ha hm hn => exact .colons hb ha hn hm

theorem Alike.parse?_none (h : Alike s s') (hs : parse? s = none) : parse? s' = none := by
  cases h with
  | refl => exact hs
  | colons hb ha hm hn =>
    rw [parse?_colons hb ha hm] at hs
    rw [parse?_colons hb ha hn]
    split at hs
    · cases hs
    · next hlabel => rw [if_neg hlabel, Option.map_eq_none_iff.2 (Option.map_eq_none_iff.1 hs)]

theorem Alike.parse?_closing (h : Alike s s') {n : Nat} (hs : parse? s = some (.closing n)) : Closes s' := by
  cases h with
  | refl => exact ⟨n, hs⟩
  | colons hb ha hm hn =>
    rw [parse?_colons hb ha hm] at hs
    split at hs
    · next hlabel => exact ⟨_, by rw [parse?_colons hb ha hn, if_pos hlabel]⟩
    · obtain ⟨_, _, hopening⟩ := Option.map_eq_some_iff.1 hs
      cases hopening

theorem Alike.parse?_opening (h : Alike s s') {n : Nat} {label : Text} {attrs : Attributes}
    (hs : parse? s = some (.opening n label attrs)) : ∃ n', parse? s' = some (.opening n' label attrs) := by
  cases h with
  | refl => exact ⟨n, hs⟩
  | colons hb ha hm hn =>
    rw [parse?_colons hb ha hm] at hs
    split at hs
    · cases hs
    · next hlabel =>
      obtain ⟨as, has, hopening⟩ := Option.map_eq_some_iff.1 hs
      cases hopening
      exact ⟨_, by rw [parse?_colons hb ha hn, if_neg hlabel, has, Option.map_some]⟩

/-- What is made of colons opens no code and closes none. -/
theorem Alike.next_eq (h : Alike s s') {fence : Option FenceMark}
    (hfence : ∀ mark ∈ fence, mark.char ≠ ':' ∧ 0 < mark.length) : FenceMark.next fence s' = FenceMark.next fence s := by
  cases h with
  | refl => rfl
  | @colons before after m n hb ha hm hn =>
    have hnone {k : Nat} (hk : 3 ≤ k) : FenceMark.next none (before ++ List.replicate k ':' ++ after) = none := by
      obtain ⟨j, rfl⟩ : ∃ j, k = j + 1 := ⟨k - 1, by omega⟩
      rw [FenceMark.next, trimStart_colons hb hk]
      rfl
    have hopen {mark : FenceMark} (hmark : mark.char ≠ ':' ∧ 0 < mark.length) {k : Nat} (hk : 3 ≤ k) :
        mark.closedBy (before ++ List.replicate k ':' ++ after) = false := by
      obtain ⟨j, rfl⟩ : ∃ j, k = j + 1 := ⟨k - 1, by omega⟩
      have hrun : (List.replicate (j + 1) ':' ++ after).takeWhile (· == mark.char) = [] :=
        List.takeWhile_cons_of_neg (by simpa using hmark.1.symm)
      have hlength : ¬mark.length ≤ 0 := by omega
      simp only [FenceMark.closedBy, trimStart_colons hb hk, hrun, List.length_nil, hlength, decide_false, Bool.false_and]
    cases fence with
    | none => rw [hnone hm, hnone hn]
    | some mark => simp only [FenceMark.next, hopen (hfence mark rfl) hm, hopen (hfence mark rfl) hn]

end DivFence

namespace Extent

open DivFence

/-- The fence that a line opens is made of no colons. -/
theorem next_not_colons {fence : Option FenceMark} (hfence : ∀ mark ∈ fence, mark.char ≠ ':' ∧ 0 < mark.length)
    (s : Text) : ∀ mark ∈ FenceMark.next fence s, mark.char ≠ ':' ∧ 0 < mark.length := by
  intro mark hmark
  cases fence with
  | some open' =>
    simp only [FenceMark.next] at hmark
    split at hmark
    · cases hmark
    · exact hfence mark hmark
  | none =>
    refine ⟨fun hcolon => ?_, FenceMark.detect?_length hmark⟩
    rcases FenceMark.char_of_detect? hmark with hchar | hchar
    · exact absurd (hcolon.symm.trans hchar) (by decide)
    · exact absurd (hcolon.symm.trans hchar) (by decide)

/-- What is open after some lines hangs on no number of colons. -/
theorem openAfter_alike {ss ss' : List Text} (h : List.Forall₂ DivFence.Alike ss ss') : ∀ (inner : Nat)
    {fence : Option FenceMark}, (∀ mark ∈ fence, mark.char ≠ ':' ∧ 0 < mark.length) →
      openAfter inner fence ss' = openAfter inner fence ss := by
  induction h with
  | nil => exact fun _ _ _ => rfl
  | @cons s s' ss ss' hs _ ih =>
    intro inner fence hfence
    have hnext := hs.next_eq hfence
    have hcode : FenceMark.isCode fence s' = FenceMark.isCode fence s := by rw [FenceMark.isCode, hnext, FenceMark.isCode]
    have hnone : ∀ mark ∈ (none : Option FenceMark), mark.char ≠ ':' ∧ 0 < mark.length := fun mark hmark =>
      absurd hmark (Option.not_mem_none mark)
    rw [openAfter, openAfter, hcode, hnext]
    split
    · exact ih inner (next_not_colons hfence s)
    · split
      · next hdiv =>
        obtain ⟨n', hdiv'⟩ := hs.symm.parse?_opening hdiv
        simp only [hdiv', ih _ hnone]
      · next hdiv =>
        obtain ⟨n', hdiv'⟩ := hs.symm.parse?_closing hdiv
        simp only [hdiv', ih _ hnone]
      · next hdiv => simp only [hs.symm.parse?_none hdiv, ih _ hnone]

/-! ### Bodies -/

variable {following body rest : List Line}

theorem isDivBody_iff : IsDivBody following body rest ↔ divBody? 0 none following = some (body, rest) :=
  divBody?_eq_some_iff.symm

/-- A div has one body at most. -/
theorem IsDivBody.unique {body' rest' : List Line} (h : IsDivBody following body rest)
    (h' : IsDivBody following body' rest') : body' = body ∧ rest' = rest := by
  have hsame := (isDivBody_iff.1 h').symm.trans (isDivBody_iff.1 h)
  simpa using hsame

/-- Balanced lines before the body belong to it. -/
theorem isDivBody_append {ls : List Line} (hls : Balanced (ls.map (·.text))) :
    IsDivBody (ls ++ following) (ls ++ body) rest ↔ IsDivBody following body rest := by
  rw [isDivBody_iff, isDivBody_iff, divBody?_append _ (balanced_iff.1 hls), Option.map_eq_some_iff]
  constructor
  · rintro ⟨⟨b, r⟩, hb, heq⟩
    simp only [Prod.mk.injEq, List.append_cancel_left_eq] at heq
    rw [hb, heq.1, heq.2]
  · exact fun h => ⟨_, h, rfl⟩

theorem exists_of_alike_append {bs ls : List Line} : ∀ {as : List Line}, List.Forall₂ Line.Alike (as ++ bs) ls →
    ∃ as' bs', ls = as' ++ bs' ∧ List.Forall₂ Line.Alike as as' ∧ List.Forall₂ Line.Alike bs bs'
  | [], h => ⟨[], ls, rfl, .nil, h⟩
  | a :: as, h => by
    obtain ⟨a', ls', ha, hls, rfl⟩ := List.forall₂_cons_left_iff.1 h
    obtain ⟨as', bs', rfl, has, hbs⟩ := exists_of_alike_append hls
    exact ⟨a' :: as', bs', rfl, .cons ha has, hbs⟩

/-- With other colons the body has as many lines. -/
theorem IsDivBody.alike {following' : List Line} (h : IsDivBody following body rest)
    (halike : List.Forall₂ Line.Alike following following') :
    ∃ body' rest', IsDivBody following' body' rest' ∧ List.Forall₂ Line.Alike body body' ∧
      List.Forall₂ Line.Alike rest rest' := by
  obtain ⟨close, ⟨n, hclose⟩, rfl, hbody⟩ := h
  obtain ⟨body', more, rfl, hbody', hmore⟩ := exists_of_alike_append halike
  obtain ⟨close', rest', hclose', hrest', rfl⟩ := List.forall₂_cons_left_iff.1 hmore
  have htexts : List.Forall₂ DivFence.Alike (body.map (·.text)) (body'.map (·.text)) :=
    List.forall₂_map_left_iff.2 (List.forall₂_map_right_iff.2 (hbody'.imp fun _ _ hl => hl.2))
  refine ⟨body', rest', ⟨close', hclose'.2.parse?_closing hclose, rfl, ?_⟩, hbody', hrest'⟩
  rw [balanced_iff, openAfter_alike htexts 0 (by simp), ← balanced_iff]
  exact hbody

end Extent

/-! ### Reading -/

open Extent

/-- From a fence with a label a cursor reads the div whose body is balanced and
ends at a bare fence, and stands after that one then. Without such a body the div
is not closed. There is one body at most; code in front of it belongs to it,
whatever stands in the code; and other numbers of colons make the same divs. -/
theorem Cursor.read_div {c : Cursor} {o : Line} {following : List Line} {n : Nat} {label : Text} {attrs : Attributes}
    (hc : c.rest = o :: following) (ho : DivFence.parse? o.text = some (.opening n label attrs)) :
    (∀ body rest, c.read = (.ok (.div o.number label attrs body), { c with rest }) ↔ IsDivBody following body rest) ∧
    ((∀ body rest, ¬IsDivBody following body rest) → c.read.1 = .error (.openDiv o.number label)) ∧
    (∀ body rest body' rest', IsDivBody following body rest → IsDivBody following body' rest' →
      body' = body ∧ rest' = rest) ∧
    (∀ (s t : Line) (code : List Line) (mark : FenceMark) (body rest : List Line),
      FenceMark.next none s.text = some mark → (∀ l ∈ code, mark.closedBy l.text = false) → mark.closedBy t.text →
      (IsDivBody (s :: code ++ t :: following) (s :: code ++ t :: body) rest ↔ IsDivBody following body rest)) ∧
    ∀ (c' : Cursor) (o' : Line) (following' : List Line), c'.rest = o' :: following' → o.Alike o' →
      List.Forall₂ Line.Alike following following' → ∀ body rest, IsDivBody following body rest →
        ∃ body' rest', c'.read = (.ok (.div o'.number label attrs body'), { c' with rest := rest' }) ∧
          List.Forall₂ Line.Alike body body' ∧ List.Forall₂ Line.Alike rest rest' := by
  have hread {c : Cursor} {o : Line} {following : List Line} {n : Nat} (hc : c.rest = o :: following)
      (ho : DivFence.parse? o.text = some (.opening n label attrs)) {body rest : List Line}
      (h : IsDivBody following body rest) : c.read = (.ok (.div o.number label attrs body), { c with rest }) := by
    obtain ⟨close, hclose, rfl, hbody⟩ := h
    exact Cursor.read_of_read hc (Block.read_of_divFence ho hbody hclose rest)
  have hfault (h : ∀ body rest, ¬IsDivBody following body rest) :
      Block.read o following = .error (.openDiv o.number label) := by
    have hnone : divBody? 0 none following = none :=
      Option.eq_none_iff_forall_not_mem.2 fun ⟨body, rest⟩ hb => h body rest (isDivBody_iff.2 hb)
    rw [Block.read, BlockStart.of_divFence ho]
    simp only [hnone]
  refine ⟨fun body rest => ⟨fun h => ?_, hread hc ho⟩, fun h => ?_, fun _ _ _ _ => IsDivBody.unique, ?_, ?_⟩
  · -- a body must be there, and reading finds it
    by_cases hany : ∃ body rest, IsDivBody following body rest
    · obtain ⟨body', rest', h'⟩ := hany
      have hsame := (hread hc ho h').symm.trans h
      simp only [Prod.mk.injEq, Except.ok.injEq, Block.div.injEq, Cursor.mk.injEq, true_and, and_true] at hsame
      rwa [← hsame.1, ← hsame.2]
    · have herror := hfault fun body rest hb => hany ⟨body, rest, hb⟩
      rw [Cursor.read, hc] at h
      simp only [herror] at h
      cases h
  · rw [Cursor.read, hc]
    simp only [hfault h]
  · intro s t code mark body rest hs hcode ht
    have hlines : DivFence.Balanced ((s :: code ++ [t]).map (·.text)) := by
      rw [List.map_append]
      exact .code hs (List.forall_mem_map.2 hcode) ht
    have hiff : IsDivBody (s :: code ++ [t] ++ following) (s :: code ++ [t] ++ body) rest ↔ _ := isDivBody_append hlines
    rwa [List.append_assoc, List.append_assoc] at hiff
  · intro c' o' following' hc' halike hfollowing body rest h
    obtain ⟨body', rest', h', hbody, hrest⟩ := h.alike hfollowing
    obtain ⟨n', ho'⟩ := halike.2.parse?_opening ho
    exact ⟨body', rest', hread hc' ho' h', hbody, hrest⟩

/-- The colons in the code of a div do not close it, and the fewer ones after it do. -/
theorem Cursor.read_div_code : ∃ (c : Cursor) (o : Line) (body rest : List Line),
    body = [⟨2, "~~~".toList⟩, ⟨3, ":::".toList⟩, ⟨4, "~~~".toList⟩] ∧ rest = [⟨6, ['a']⟩] ∧
    c.rest = o :: (body ++ ⟨5, ":::".toList⟩ :: rest) ∧
    DivFence.parse? o.text = some (.opening 5 ['x'] ⟨none, [['x']], .ofList []⟩) ∧
    c.read = (.ok (.div 1 ['x'] ⟨none, [['x']], .ofList []⟩ body), { c with rest }) := by
  have hlabel : DivFence.parse? (Line.mk 1 "::::: x".toList).text = some (.opening 5 ['x'] ⟨none, [['x']], .ofList []⟩) :=
    rfl
  have hmark : FenceMark.next none "~~~".toList = some ⟨'~', 3⟩ := rfl
  have hbody : IsDivBody [⟨2, "~~~".toList⟩, ⟨3, ":::".toList⟩, ⟨4, "~~~".toList⟩, ⟨5, ":::".toList⟩, ⟨6, ['a']⟩]
      [⟨2, "~~~".toList⟩, ⟨3, ":::".toList⟩, ⟨4, "~~~".toList⟩] [⟨6, ['a']⟩] :=
    ⟨⟨5, ":::".toList⟩, ⟨3, rfl⟩, rfl, .code hmark (List.forall_mem_singleton.2 rfl) rfl⟩
  refine ⟨.ofLines [⟨1, "::::: x".toList⟩, ⟨2, "~~~".toList⟩, ⟨3, ":::".toList⟩, ⟨4, "~~~".toList⟩,
    ⟨5, ":::".toList⟩, ⟨6, ['a']⟩], ⟨1, "::::: x".toList⟩, _, _, rfl, rfl, rfl, hlabel, ?_⟩
  exact ((Cursor.read_div rfl hlabel).1 _ _).2 hbody

end QuartoPretext
