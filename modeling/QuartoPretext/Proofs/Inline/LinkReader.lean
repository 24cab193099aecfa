/-
# Reading links in parts

A target ends where its parenthesis is closed, so what stands in cells that leave no
parenthesis open is read without a look at the cells after them. Cells that have been
read keep their places, but for brackets that become links; and those before all open
brackets are never read again.

Key definitions: `Link.unclosed`, `Bracketing.pushAll`, `Bracketing.onto`, `Cell.Keeps`.
Key theorems: `Link.target?_append`, `Link.read_append`, `Link.read_onto`,
`Link.cells_read_pushAll`, `Link.read_keepsPlaces`.
-/
import QuartoPretext.Proofs.Inline.EscapedDelimiters

namespace QuartoPretext

/-! ### Cells before all brackets -/

namespace Bracketing

variable {b : Bracketing} {br : Bracket} {more : List Bracket} {base : List Cell}

/-- Open brackets with more cells before the outermost one. -/
def under (base : List Cell) : List Bracket → List Bracket
  | [] => []
  | [br] => [{ br with before := br.before ++ base }]
  | br :: br' :: more => br :: under base (br' :: more)

/-- What has been read with more cells before all of it, given backwards. -/
def onto (base : List Cell) (b : Bracketing) : Bracketing :=
  { b with
    pending := under base b.pending
    current := if b.pending = [] then b.current ++ base else b.current }

/-- Reads cells that are no brackets. -/
def pushAll (b : Bracketing) (cs : List Cell) : Bracketing := { b with current := cs.reverse ++ b.current }

theorem pushAll_cons (b : Bracketing) (c : Cell) (cs : List Cell) : b.pushAll (c :: cs) = (b.push c).pushAll cs := by
  simp [pushAll, push]

theorem pushAll_append (b : Bracketing) (cs ds : List Cell) : b.pushAll (cs ++ ds) = (b.pushAll cs).pushAll ds := by
  simp [pushAll]

theorem cells_pushAll (b : Bracketing) (cs : List Cell) : (b.pushAll cs).cells = b.cells ++ cs := by
  simp [cells_eq, pushAll]

theorem onto_start (base : List Cell) (n : Nat) : (start n).onto base = ⟨[], base, n⟩ := rfl

theorem cells_onto (base : List Cell) (b : Bracketing) : (b.onto base).cells = base.reverse ++ b.cells := by
  have hpending : ∀ br more, (under base (br :: more)).flatMap (fun br => Cell.char '[' :: br.before) =
      (br :: more).flatMap (fun br => Cell.char '[' :: br.before) ++ base := by
    intro br more
    induction more generalizing br with
    | nil => simp [under]
    | cons br' more ih =>
      rw [under, List.flatMap_cons, ih, ← List.append_assoc]
      rfl
  rw [cells_eq, cells_eq, ← List.reverse_append, onto]
  cases hp : b.pending with
  | nil => simp [under]
  | cons br more => simp only [reduceCtorEq, if_false, hpending, List.append_assoc]

theorem onto_push (b : Bracketing) (c : Cell) : (b.push c).onto base = (b.onto base).push c := by
  unfold onto push
  split <;> rfl

theorem onto_openBracket (b : Bracketing) (isNote : Bool) :
    (b.openBracket isNote).onto base = (b.onto base).openBracket isNote := by
  unfold onto openBracket
  cases hp : b.pending <;> simp [under]

theorem onto_shut (b : Bracketing) : b.shut.onto base = (b.onto base).shut := by
  unfold onto shut
  rcases hp : b.pending with _ | ⟨br, _ | ⟨br', more⟩⟩ <;> simp [under, push, hp]

end Bracketing

namespace Link

open Text

variable {pre more cells : List Cell} {depth : Nat}

/-! ### Reading on -/

/-- The parentheses that are open after some cells, where `depth` are open before them. -/
def unclosed : Nat → List Cell → Nat
  | depth, [] => depth
  | depth, c :: cs => unclosed (if c.isChar '(' then depth + 1 else if c.isChar ')' then depth - 1 else depth) cs

theorem unclosed_append (us : List Cell) : ∀ (vs : List Cell) (depth : Nat),
    unclosed depth (vs ++ us) = unclosed (unclosed depth vs) us
  | [], _ => rfl
  | c :: vs, depth => by rw [List.cons_append, unclosed, unclosed_append us vs, unclosed]

theorem unclosed_mono : ∀ (cs : List Cell) {depth depth' : Nat}, depth ≤ depth' →
    unclosed depth cs ≤ unclosed depth' cs
  | [], _, _, h => h
  | c :: cs, depth, depth', h => by
    unfold unclosed
    refine unclosed_mono cs ?_
    split
    · omega
    · split <;> omega

/-- What follows in closed cells is closed. -/
theorem unclosed_right (vs : List Cell) {us : List Cell} (h : unclosed 0 (vs ++ us) = 0) : unclosed 0 us = 0 := by
  rw [unclosed_append] at h
  have := unclosed_mono us (Nat.zero_le (unclosed 0 vs))
  omega

/-- A target that starts in closed cells does not reach over their end. -/
theorem inner?_append (more : List Cell) : ∀ {cells : List Cell} {depth : Nat}, unclosed (depth + 1) cells = 0 →
    inner? depth (cells ++ more) = (inner? depth cells).map fun (s, after) => (s, after ++ more)
  | [], depth, h => by cases h
  | .mark m :: cells, depth, _ => rfl
  | .char c :: cells, depth, h => by
    have keep {depth : Nat} (h : unclosed (depth + 1) cells = 0) :
        (inner? depth (cells ++ more)).map (fun (s, after) => (c :: s, after)) =
          ((inner? depth cells).map fun (s, after) => (c :: s, after)).map fun (s, after) => (s, after ++ more) := by
      rw [inner?_append more h, Option.map_map, Option.map_map]
      rfl
    unfold unclosed at h
    rw [List.cons_append]
    unfold inner?
    simp only
    by_cases hclose : c = ')'
    · subst hclose
      rw [if_neg (by decide), if_pos (by decide)] at h
      by_cases hdepth : depth = 0
      · simp [hdepth]
      · have hcells : unclosed (depth - 1 + 1) cells = 0 := by
          rwa [Nat.sub_add_cancel (Nat.pos_of_ne_zero hdepth)]
        simp only [beq_self_eq_true, if_true, hdepth, if_false]
        exact keep hcells
    · by_cases hopen : c = '('
      · subst hopen
        exact keep h
      · by_cases hline : c = '\n'
        · subst hline
          rfl
        · rw [if_neg (by simpa [Cell.isChar] using hopen), if_neg (by simpa [Cell.isChar] using hclose)] at h
          simp only [beq_iff_eq, hclose, hopen, hline, if_false]
          exact keep h

theorem target?_paren (rest : List Cell) : target? (.char '(' :: rest) =
    (inner? 0 rest).bind fun (s, after) => (words s).head?.map fun href => (href, after) := by
  simp only [target?]
  cases inner? 0 rest <;> rfl

theorem target?_eq_none {c : Cell} (h : c ≠ .char '(') (rest : List Cell) : target? (c :: rest) = none := by
  unfold target?
  split
  · next hcells => exact absurd (List.cons.inj hcells).1 h
  · rfl

theorem target?_append (h : unclosed 0 cells = 0) (hmore : more.head? ≠ some (.char '(')) :
    target? (cells ++ more) = (target? cells).map fun (href, after) => (href, after ++ more) := by
  cases cells with
  | nil =>
    cases more with
    | nil => rfl
    | cons d more => exact target?_eq_none (fun hd => hmore (congrArg some hd)) more
  | cons c cells =>
    rw [List.cons_append]
    by_cases hc : c = .char '('
    · subst hc
      rw [target?_paren, target?_paren, inner?_append more h, Option.bind_map, Option.map_bind]
      refine Option.bind_congr fun found _ => ?_
      simp only [Function.comp_apply, Option.map_map]
      rfl
    · rw [target?_eq_none hc, target?_eq_none hc]
      rfl

/-- What follows closed cells is read from where they leave the reader. -/
theorem readAt_append (escapes : List Cell → Bool) (before : List Cell) (b : Bracketing) (h : unclosed 0 pre = 0)
    (hmore : more.head? ≠ some (.char '(')) :
    readAt escapes before b (pre ++ more) = readAt escapes (before ++ pre) (readAt escapes before b pre) more := by
  fun_induction readAt escapes before b pre with
  | case1 before b => rw [List.nil_append, List.append_nil]
  | case2 before b c rest hc ih =>
    rw [List.append_assoc] at ih
    rw [List.cons_append, readAt, if_pos hc]
    exact ih (unclosed_right [c] h)
  | case3 before b c rest hopen hc hp ih =>
    rw [List.append_assoc] at ih
    rw [List.cons_append, readAt_shut hopen hc (.inl hp)]
    exact ih (unclosed_right [c] h)
  | case4 before b c rest hopen hc br brs hp href after ht ih =>
    obtain ⟨used, hrest⟩ := target?_eq_append ht
    rw [List.append_cons] at hrest
    have hafter : unclosed 0 after = 0 := unclosed_right (c :: (used ++ [.char ')'])) (by rwa [hrest] at h)
    have ht' : target? (rest ++ more) = some (href, after ++ more) := by
      rw [target?_append (unclosed_right [c] h) hmore, ht]
      rfl
    have htake : rest.take (rest.length - after.length) = used ++ [.char ')'] := by rw [hrest, take_used]
    have htake' : (rest ++ more).take ((rest ++ more).length - (after ++ more).length) = used ++ [.char ')'] := by
      rw [hrest, List.append_assoc, take_used]
    rw [htake, List.append_assoc] at ih
    rw [List.cons_append, readAt_link hopen hc hp ht', htake', htake, ih hafter, hrest]
    rfl
  | case5 before b c rest hopen hc br brs hp ht ih =>
    have ht' : target? (rest ++ more) = none := by
      rw [target?_append (unclosed_right [c] h) hmore, ht]
      rfl
    rw [List.append_assoc] at ih
    rw [List.cons_append, readAt_shut hopen hc (.inr ht')]
    exact ih (unclosed_right [c] h)
  | case6 before b c rest hopen hc ih =>
    rw [List.append_assoc] at ih
    rw [List.cons_append, readAt, if_neg hopen, if_neg hc]
    exact ih (unclosed_right [c] h)

theorem read_append (n : Nat) (hpre : unclosed 0 pre = 0) (hmore : more.head? ≠ some (.char '(')) :
    read false false (.start n) (pre ++ more) = readAt Cell.isEscaped pre (read false false (.start n) pre) more := by
  have hread (cs : List Cell) : read false false (.start n) cs = readAt Cell.isEscaped [] (.start n) cs :=
    read_eq_readAt (.start n) cs []
  rw [hread, hread, readAt_append _ [] _ hpre hmore, List.nil_append]

/-! ### Cells that stand before all brackets -/

variable {b : Bracketing} {br : Bracket} {brs : List Bracket} {base : List Cell} {href : Text}

theorem onto_close (base : List Cell) (hp : b.pending = br :: brs) (href : Text) : ∃ br' brs',
    (b.onto base).pending = br' :: brs' ∧ close (b.onto base) br' brs' href = (close b br brs href).onto base := by
  have hcurrent : (b.onto base).current = b.current := by simp [Bracketing.onto, hp]
  have hscope : (b.onto base).nextScope = b.nextScope := rfl
  cases brs with
  | nil =>
    refine ⟨{ br with before := br.before ++ base }, [], by simp [Bracketing.onto, Bracketing.under, hp], ?_⟩
    simp only [close, hcurrent, Bracketing.enclose, hscope]
    split <;> simp [Bracketing.onto, Bracketing.under]
  | cons br' brs =>
    refine ⟨br, Bracketing.under base (br' :: brs), by simp [Bracketing.onto, Bracketing.under, hp], ?_⟩
    simp only [close, hcurrent, Bracketing.enclose, hscope]
    split <;> simp [Bracketing.onto]

/-- Cells before all brackets are not read again. -/
theorem read_onto (base : List Cell) (bang escaped : Bool) (b : Bracketing) (cells : List Cell) :
    read bang escaped (b.onto base) cells = (read bang escaped b cells).onto base := by
  fun_induction read bang escaped b cells with
  | case1 => rw [read]
  | case2 bang escaped b c rest hc ih =>
    rw [read, if_pos hc]
    cases bang with
    | true => simpa [Bracketing.onto_push] using ih
    | false => simpa [Bracketing.onto_openBracket] using ih
  | case3 bang escaped b c rest hopen hc hp ih =>
    have hp' : (b.onto base).pending = [] := by simp [Bracketing.onto, Bracketing.under, hp]
    rw [read_shut hopen hc (.inl hp'), ← ih, Bracketing.onto_shut]
  | case4 bang escaped b c rest hopen hc br brs hp href after ht ih =>
    obtain ⟨br', brs', hp', hclose⟩ := onto_close base hp href
    rw [read_link hopen hc hp' ht, ← ih, hclose]
  | case5 bang escaped b c rest hopen hc br brs hp ht ih =>
    rw [read_shut hopen hc (.inr ht), ← ih, Bracketing.onto_shut]
  | case6 bang escaped b c rest hopen hc ih =>
    rw [read, if_neg hopen, if_neg hc, ← ih, Bracketing.onto_push]

/-- Where no bracket is open what has been read stays as it is. -/
theorem cells_read_pushAll (hp : b.pending = []) (cs post : List Cell) :
    (read false false (b.pushAll cs) post).cells =
      b.cells ++ cs ++ (read false false (.start b.nextScope) post).cells := by
  have hbase : b.pushAll cs = (Bracketing.start b.nextScope).onto (cs.reverse ++ b.current) := by
    rw [Bracketing.onto_start, Bracketing.pushAll, hp]
  have hcells : b.cells = b.current.reverse := by simp [Bracketing.cells_eq, hp]
  calc (read false false (b.pushAll cs) post).cells
      = ((read false false (.start b.nextScope) post).onto (cs.reverse ++ b.current)).cells := by rw [hbase, read_onto]
    _ = (cs.reverse ++ b.current).reverse ++ (read false false (.start b.nextScope) post).cells :=
        Bracketing.cells_onto _ _
    _ = b.cells ++ cs ++ (read false false (.start b.nextScope) post).cells := by
        rw [hcells, List.reverse_append, List.reverse_reverse]

end Link

/-! ### Places -/

/-- Cells stand at the same places in both lists, but for opening brackets. -/
def Cell.Keeps (cs ds : List Cell) : Prop :=
  ∀ (i : Nat) (c : Cell), cs[i]? = some c → c ≠ .char '[' → ds[i]? = some c

namespace Cell

variable {cs ds es : List Cell}

theorem Keeps.trans (h : Keeps cs ds) (h' : Keeps ds es) : Keeps cs es := fun i c hc hne => h' i c (h i c hc hne) hne

theorem keeps_append (cs ds : List Cell) : Keeps cs (cs ++ ds) := fun i c hc _ => by
  rw [List.getElem?_append_left (List.getElem?_eq_some_iff.1 hc).1, hc]

/-- A bracket is replaced, and cells are added at the end. -/
theorem keeps_bracket (before cs : List Cell) (c : Cell) (more : List Cell) :
    Keeps (before ++ .char '[' :: cs) (before ++ c :: cs ++ more) := by
  refine Keeps.trans ?_ (keeps_append _ more)
  intro i d hd hne
  rcases Nat.lt_trichotomy i before.length with h | rfl | h
  · rwa [List.getElem?_append_left h] at hd ⊢
  · rw [List.getElem?_append_right (Nat.le_refl _), Nat.sub_self] at hd
    cases hd
    exact absurd rfl hne
  · obtain ⟨k, rfl⟩ := Nat.exists_eq_add_of_lt h
    have hk : before.length + k + 1 - before.length = k + 1 := by omega
    rw [List.getElem?_append_right (by omega), hk] at hd ⊢
    exact hd

end Cell

namespace Link

variable {b : Bracketing} {br : Bracket} {brs : List Bracket}

theorem keeps_close (hp : b.pending = br :: brs) (href : Text) : Cell.Keeps b.cells (close b br brs href).cells := by
  unfold close
  split
  · next hempty =>
    rw [Bracketing.cells_pending hp b.nextScope, List.isEmpty_iff.1 hempty]
    have hcells : (Bracketing.mk brs (.mark (.bareLink href) :: br.before) b.nextScope).cells =
        (Bracketing.mk brs br.before b.nextScope).cells ++ .mark (.bareLink href) :: [] ++ [] := by
      rw [List.append_nil]
      exact Bracketing.cells_push ⟨brs, br.before, b.nextScope⟩ _
    rw [hcells]
    exact Cell.keeps_bracket _ [] _ []
  · rw [Bracketing.cells_pending hp b.nextScope, Bracketing.cells_enclose]
    exact Cell.keeps_bracket _ _ _ _

/-- Cells that have been read keep their places. -/
theorem read_keepsPlaces (bang escaped : Bool) (b : Bracketing) (cells : List Cell) :
    Cell.Keeps b.cells (read bang escaped b cells).cells :=
  read_keeps (D := fun b' _ => Cell.Keeps b.cells b'.cells)
    (fun {b' c _} h => h.trans (Bracketing.cells_push b' c ▸ Cell.keeps_append _ _))
    (fun {b' _} h => h.trans (Bracketing.cells_openBracket b' false ▸ Cell.keeps_append _ _))
    (fun {b' _} h => h.trans (Bracketing.cells_shut b' ▸ Cell.keeps_append _ _))
    (fun hp _ h => h.trans (keeps_close hp _)) bang escaped fun _ _ hc _ => hc

end Link
end QuartoPretext
