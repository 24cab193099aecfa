/-
# The brace block that ends a text

The block is looked for from the end of the text, with a counter of the closing braces
that are not yet matched. Wherever the scan has come to, the counter is the excess of
closing over opening braces behind that place. So the scan ends at the first place, seen
from the end, behind which there are as many of both, and the block that starts there is
the shortest one. Read forwards, it is nested.

Key definitions: `Attributes.excess`, `Attributes.Finds`, `Attributes.TrailingBlock`,
`Attributes.splitByOffsets?`.
Key theorems: `Attributes.finds_lastGroup`, `Attributes.groupStart?_offsets`,
`Attributes.trailingBlock_splitTrailing?`.
-/
import QuartoPretext.Attributes.Trailing
import QuartoPretext.Proofs.Text.Bytes
import QuartoPretext.Proofs.Text.Cut

namespace QuartoPretext.Attributes

open Text

variable {s t u before inner r a b : Text} {c : Char} {d : Int} {depth i n : Nat}

/-! ### Excess of closing braces -/

/-- How many more closing than opening braces a text has. -/
def excess (s : Text) : Int := s.count '\x7d' - s.count '\x7b'

@[simp] theorem excess_nil : excess [] = 0 := rfl

@[simp] theorem excess_append (s t : Text) : excess (s ++ t) = excess s + excess t := by
  simp only [excess, List.count_append]
  omega

@[simp] theorem excess_reverse (s : Text) : excess s.reverse = excess s := by
  simp only [excess, List.count_reverse]

@[simp] theorem excess_cons_close (s : Text) : excess ('\x7d' :: s) = excess s + 1 := by
  simp [excess]
  omega

@[simp] theorem excess_cons_open (s : Text) : excess ('\x7b' :: s) = excess s - 1 := by
  simp [excess]
  omega

theorem excess_cons_other (hclose : c ≠ '\x7d') (hopen : c ≠ '\x7b') (s : Text) : excess (c :: s) = excess s := by
  simp [excess, hclose, hopen]

theorem excess_eq_zero_iff : excess s = 0 ↔ s.count '\x7b' = s.count '\x7d' := by
  unfold excess
  omega

/-! ### The scan from the end -/

/-- A counter that starts at `d` does not come to zero anywhere in a text. -/
def StaysOpen (d : Int) (s : Text) : Prop := ∀ p, p <+: s → 0 < d + excess p

theorem StaysOpen.cons (hd : 0 < d) (h : StaysOpen (d + excess [c]) s) : StaysOpen d (c :: s) := by
  intro p hp
  rcases List.prefix_cons_iff.1 hp with rfl | ⟨q, rfl, hq⟩
  · simpa using hd
  · have hpos := h q hq
    rw [← List.singleton_append, excess_append]
    omega

/-- What a scan with a counter finds: the opening brace at which the counter comes to zero, what
it has read before and what it has not read. -/
def Finds (d : Int) (s : Text) : Option (Text × Text) → Prop
  | some (a, b) => s = a ++ '\x7b' :: b ∧ StaysOpen d a ∧ d + excess a = 1
  | Option.none => StaysOpen d s

/-- One step of the scan. -/
theorem Finds.cons {found : Option (Text × Text)} (hd : 0 < d) (h : Finds (d + excess [c]) s found) :
    Finds d (c :: s) (found.map fun (a, b) => (c :: a, b)) := by
  cases found with
  | none => exact StaysOpen.cons hd h
  | some p =>
    obtain ⟨hs, hopen, hone⟩ := h
    refine ⟨congrArg (c :: ·) hs, hopen.cons hd, ?_⟩
    rw [← List.singleton_append, excess_append]
    omega

theorem finds_lastGroup (hd : 0 < depth) (s : Text) : Finds depth s (lastGroup depth s) := by
  fun_induction lastGroup depth s with
  | case1 depth =>
    intro p hp
    rw [List.prefix_nil.1 hp]
    exact Int.add_pos_of_pos_of_nonneg (Int.natCast_pos.2 hd) (Int.le_refl 0)
  | case2 depth s ih => exact Finds.cons (Int.natCast_pos.2 hd) (ih (Nat.succ_pos depth))
  | case3 depth s hle =>
    have hone : depth = 1 := Nat.le_antisymm hle hd
    refine ⟨rfl, fun p hp => ?_, ?_⟩
    · rw [List.prefix_nil.1 hp, hone]
      decide
    · rw [hone]
      rfl
  | case4 depth s hle ih =>
    have hcount : ((depth - 1 : Nat) : Int) = depth + excess ['\x7b'] := by
      rw [excess_cons_open, excess_nil]
      omega
    have h := ih (by omega)
    rw [hcount] at h
    exact Finds.cons (Int.natCast_pos.2 hd) h
  | case5 depth c s hclose hopen ih =>
    refine Finds.cons (Int.natCast_pos.2 hd) ?_
    rw [excess_cons_other hclose hopen, excess_nil, Int.add_zero]
    exact ih hd

/-! ### The block -/

/-- The shortest balanced brace block that ends a text, and what stands before it without white
space at its end. -/
structure TrailingBlock (t before inner : Text) : Prop where
  text : ∃ gap, t = before ++ gap ++ '\x7b' :: inner ++ ['\x7d'] ∧ ∀ c ∈ gap, isSpace c
  bare : EndsBare before
  balanced : inner.count '\x7b' = inner.count '\x7d'
  nested : ∀ p, p <+: inner → p.count '\x7d' ≤ p.count '\x7b'
  shortest : ∀ u, u <:+ t → u ≠ [] → u.count '\x7b' = u.count '\x7d' → '\x7b' :: inner ++ ['\x7d'] <:+ u

/-- The end of a text that ends in a closing brace, read from its end. -/
theorem exists_of_suffix (hu : u <:+ r.reverse ++ ['\x7d']) (hne : u ≠ []) :
    ∃ p, p <+: r ∧ u = p.reverse ++ ['\x7d'] := by
  rcases List.suffix_concat_iff.1 hu with rfl | ⟨q, rfl, hq⟩
  · exact absurd rfl hne
  · refine ⟨q.reverse, ?_, by rw [List.reverse_reverse]⟩
    rwa [← List.reverse_suffix, List.reverse_reverse]

theorem excess_block (p : Text) : excess (p.reverse ++ ['\x7d']) = 1 + excess p := by
  simp only [excess_append, excess_reverse, excess_cons_close, excess_nil]
  omega

/-- Behind every place within the block there are at least as many closing braces, so before it
there are at least as many opening ones. -/
theorem StaysOpen.nested (h : StaysOpen 1 a) (hzero : excess a = 0) :
    ∀ p, p <+: a.reverse → p.count '\x7d' ≤ p.count '\x7b' := by
  intro p hp
  obtain ⟨q, hq⟩ := hp
  have hprefix : q.reverse <+: a := by
    rw [← List.reverse_suffix, List.reverse_reverse, ← hq]
    exact List.suffix_append p q
  have hpos : 0 < 1 + excess q := by
    rw [← excess_reverse q]
    exact h q.reverse hprefix
  have hsum : excess p + excess q = 0 := by rw [← excess_append, hq, excess_reverse, hzero]
  unfold excess at hsum hpos
  omega

/-- The counter comes to zero within every suffix with as many opening as closing braces. -/
theorem StaysOpen.shortest (h : StaysOpen 1 a) (hu : u <:+ (a ++ '\x7b' :: b).reverse ++ ['\x7d']) (hne : u ≠ [])
    (hequal : u.count '\x7b' = u.count '\x7d') : '\x7b' :: a.reverse ++ ['\x7d'] <:+ u := by
  obtain ⟨p, hp, rfl⟩ := exists_of_suffix hu hne
  have hclosed : 1 + excess p = 0 := by
    rw [← excess_block]
    exact excess_eq_zero_iff.2 hequal
  have hlong : a ++ ['\x7b'] <+: p := by
    have hblock : a ++ ['\x7b'] <+: a ++ '\x7b' :: b := ⟨b, by rw [List.append_assoc, List.singleton_append]⟩
    rcases List.prefix_or_prefix_of_prefix hblock hp with hlong | hshort
    · exact hlong
    · rcases List.prefix_concat_iff.1 hshort with rfl | hwithin
      · exact List.prefix_rfl
      · have hpos : 0 < 1 + excess p := h p hwithin
        omega
  have hsuffix := List.reverse_suffix.2 hlong
  rw [List.reverse_append] at hsuffix
  exact List.suffix_append_self_iff.2 hsuffix

theorem trailingBlock_of_finds (h : Finds 1 r (some (a, b))) :
    TrailingBlock (r.reverse ++ ['\x7d']) (trimEnd b.reverse) a.reverse := by
  obtain ⟨rfl, hopen, hone⟩ := h
  have hzero : excess a = 0 := by omega
  have htext : (a ++ '\x7b' :: b).reverse = b.reverse ++ '\x7b' :: a.reverse := by
    rw [List.reverse_append, List.reverse_cons, List.append_assoc, List.singleton_append]
  obtain ⟨gap, hgap, hspace⟩ := exists_trimEnd_append b.reverse
  refine ⟨⟨gap, ?_, hspace⟩, endsBare_trimEnd _, ?_, hopen.nested hzero, fun u hu hne => hopen.shortest hu hne⟩
  · rw [htext, ← hgap]
  · rw [← excess_eq_zero_iff, excess_reverse, hzero]

/-- The block itself is a suffix with as many opening as closing braces. -/
theorem TrailingBlock.suffix (h : TrailingBlock t before inner) :
    '\x7b' :: inner ++ ['\x7d'] <:+ t ∧
      ('\x7b' :: inner ++ ['\x7d']).count '\x7b' = ('\x7b' :: inner ++ ['\x7d']).count '\x7d' := by
  obtain ⟨gap, ht, -⟩ := h.text
  refine ⟨⟨before ++ gap, ?_⟩, ?_⟩
  · rw [ht, List.append_assoc (before ++ gap)]
  · have hinner : excess inner = 0 := excess_eq_zero_iff.2 h.balanced
    rw [← excess_eq_zero_iff, excess_append, excess_cons_open, excess_cons_close, hinner]
    rfl

/-- What stands before the block is known from the block. -/
theorem TrailingBlock.before_eq (h : TrailingBlock t before inner) (hu : t = u ++ '\x7b' :: inner ++ ['\x7d']) :
    before = trimEnd u := by
  obtain ⟨gap, ht, hgap⟩ := h.text
  have hfront : u = before ++ gap := by
    rw [hu, List.append_assoc, List.append_assoc] at ht
    exact List.append_cancel_right ht
  have hnone : trimEnd gap = [] := by
    rw [trimEnd, List.dropWhile_eq_nil_iff.2 fun c hc => hgap c (List.mem_reverse.1 hc)]
    rfl
  rw [hfront, trimEnd_append h.bare, hnone, List.append_nil]

/-- A text has at most one such block. -/
theorem TrailingBlock.unique {before' inner' : Text} (h : TrailingBlock t before inner)
    (h' : TrailingBlock t before' inner') : before = before' ∧ inner = inner' := by
  obtain ⟨hsuffix, hequal⟩ := h.suffix
  obtain ⟨hsuffix', hequal'⟩ := h'.suffix
  have hle := h'.shortest _ hsuffix (List.cons_ne_nil _ _) hequal
  have hge := h.shortest _ hsuffix' (List.cons_ne_nil _ _) hequal'
  have hblock : '\x7b' :: inner' ++ ['\x7d'] = '\x7b' :: inner ++ ['\x7d'] := hle.eq_of_length_le hge.length_le
  have hinner : inner = inner' := (List.cons.inj (List.append_cancel_right hblock)).2.symm
  obtain ⟨gap, ht, -⟩ := h.text
  refine ⟨?_, hinner⟩
  rw [h.before_eq ht, h'.before_eq (hinner ▸ ht)]

theorem TrailingBlock.closes (h : TrailingBlock t before inner) : t.getLast? = some '\x7d' := by
  obtain ⟨gap, ht, -⟩ := h.text
  rw [ht]
  exact List.getLast?_concat

/-! ### Splitting it off -/

theorem splitTrailing?_of_closing (h : trimEnd s = r.reverse ++ ['\x7d']) :
    splitTrailing? s = (lastGroup 1 r).map fun (a, b) => (trimEnd b.reverse, a.reverse) := by
  have hreverse : (trimEnd s).reverse = '\x7d' :: r := by
    rw [h, List.reverse_append, List.reverse_reverse]
    rfl
  rw [splitTrailing?, hreverse]
  rfl

theorem splitTrailing?_of_ne (h : (trimEnd s).getLast? ≠ some '\x7d') : splitTrailing? s = Option.none := by
  unfold splitTrailing?
  split
  · next r hr =>
    rw [List.getLast?_eq_head?_reverse, hr] at h
    exact absurd rfl h
  · rfl

theorem exists_of_getLast? (h : t.getLast? = some '\x7d') : ∃ r : Text, t = r.reverse ++ ['\x7d'] := by
  obtain ⟨front, rfl⟩ := List.getLast?_eq_some_iff.1 h
  exact ⟨front.reverse, by rw [List.reverse_reverse]⟩

theorem trailingBlock_of_splitTrailing? (h : splitTrailing? s = some (before, inner)) :
    TrailingBlock (trimEnd s) before inner := by
  by_cases hlast : (trimEnd s).getLast? = some '\x7d'
  · obtain ⟨r, hr⟩ := exists_of_getLast? hlast
    have hfinds := finds_lastGroup Nat.one_pos r
    rw [splitTrailing?_of_closing hr] at h
    obtain ⟨⟨a, b⟩, hgroup, he⟩ := Option.map_eq_some_iff.1 h
    cases he
    rw [hgroup] at hfinds
    rw [hr]
    exact trailingBlock_of_finds hfinds
  · rw [splitTrailing?_of_ne hlast] at h
    cases h

/-- Without a block the closing braces are in excess behind every place. -/
theorem isSome_splitTrailing? (hlast : (trimEnd s).getLast? = some '\x7d') (hu : u <:+ trimEnd s) (hne : u ≠ [])
    (hequal : u.count '\x7b' = u.count '\x7d') : (splitTrailing? s).isSome := by
  obtain ⟨r, hr⟩ := exists_of_getLast? hlast
  have hfinds := finds_lastGroup Nat.one_pos r
  rw [splitTrailing?_of_closing hr, Option.isSome_map]
  cases hgroup : lastGroup 1 r with
  | some found => rfl
  | none =>
    rw [hgroup] at hfinds
    rw [hr] at hu
    obtain ⟨p, hp, rfl⟩ := exists_of_suffix hu hne
    have hpos : 0 < 1 + excess p := hfinds p hp
    rw [← excess_block, excess_eq_zero_iff.2 hequal] at hpos
    exact absurd hpos (Int.lt_irrefl 0)

/-! ### The scan by byte offsets -/

/-- The characters of a text with the byte offsets that they start at. -/
def offsetsFrom (n : Nat) : Text → List (Nat × Char)
  | [] => []
  | c :: s => (n, c) :: offsetsFrom (n + c.utf8Size) s

/-- Where the group that the counter comes to zero at starts, if there is one. There is no answer
if the counter would go below zero. -/
def groupStart? (depth : Nat) : List (Nat × Char) → Option (Option Nat)
  | [] => some Option.none
  | (i, c) :: rest =>
    if c = '\x7d' then groupStart? (depth + 1) rest
    else if c = '\x7b' then
      match depth with
      | 0 => Option.none
      | 1 => some (some i)
      | depth + 2 => groupStart? (depth + 1) rest
    else groupStart? depth rest

/-- The brace block at the end of a text, cut off at byte offsets. There is no answer if the counter
would go below zero or the text cannot be cut at one of the offsets. -/
def splitByOffsets? (s : Text) : Option (Option (Text × Text)) :=
  let t := trimEnd s
  if t.getLast? = some '\x7d' then
    (groupStart? 0 (offsetsFrom 0 t).reverse).bind fun
      | Option.none => some Option.none
      | some i => do
        let inner ← slice? t (i + 1) (utf8Length t - 1)
        let before ← slice? t 0 i
        return some (trimEnd before, inner)
  else some Option.none

theorem offsetsFrom_concat : ∀ (n : Nat) (s : Text) (c : Char),
    offsetsFrom n (s ++ [c]) = offsetsFrom n s ++ [(n + utf8Length s, c)]
  | _, [], _ => rfl
  | n, d :: s, c => by
    show (n, d) :: offsetsFrom (n + d.utf8Size) (s ++ [c]) = _
    rw [offsetsFrom_concat, Nat.add_assoc]
    rfl

theorem reverse_offsets (c : Char) (r : Text) :
    (offsetsFrom 0 (c :: r).reverse).reverse = (utf8Length r.reverse, c) :: (offsetsFrom 0 r.reverse).reverse := by
  rw [List.reverse_cons, offsetsFrom_concat, List.reverse_append, Nat.zero_add]
  rfl

theorem groupStart?_other (hclose : c ≠ '\x7d') (hopen : c ≠ '\x7b') (depth i : Nat) (rest : List (Nat × Char)) :
    groupStart? depth ((i, c) :: rest) = groupStart? depth rest :=
  (if_neg hclose).trans (if_neg hopen)

/-- The scan by offsets finds the group that the reader finds, and its counter does not go below zero. -/
theorem groupStart?_offsets (hd : 0 < depth) (r : Text) : groupStart? depth (offsetsFrom 0 r.reverse).reverse =
    some ((lastGroup depth r).map fun (_, b) => utf8Length b.reverse) := by
  fun_induction lastGroup depth r with
  | case1 depth => rfl
  | case2 depth r ih =>
    rw [reverse_offsets, Option.map_map]
    exact ih (Nat.succ_pos depth)
  | case3 depth r hle =>
    obtain rfl : depth = 1 := Nat.le_antisymm hle hd
    rw [reverse_offsets]
    rfl
  | case4 depth r hle ih =>
    obtain ⟨k, rfl⟩ : ∃ k, depth = k + 2 := ⟨depth - 2, by omega⟩
    rw [reverse_offsets, Option.map_map]
    exact ih (Nat.succ_pos k)
  | case5 depth c r hclose hopen ih =>
    rw [reverse_offsets, Option.map_map, groupStart?_other hclose hopen]
    exact ih hd

theorem splitByOffsets?_eq (s : Text) : splitByOffsets? s = some (splitTrailing? s) := by
  unfold splitByOffsets?
  by_cases hlast : (trimEnd s).getLast? = some '\x7d'
  · obtain ⟨r, hr⟩ := exists_of_getLast? hlast
    have hfinds := finds_lastGroup Nat.one_pos r
    have hstart := groupStart?_offsets Nat.one_pos r
    have hfirst : groupStart? 0 (offsetsFrom 0 (trimEnd s)).reverse =
        groupStart? 1 (offsetsFrom 0 r.reverse).reverse := by
      rw [hr, ← List.reverse_cons, reverse_offsets]
      rfl
    rw [if_pos hlast, hfirst, hstart, splitTrailing?_of_closing hr]
    cases hgroup : lastGroup 1 r with
    | none => rfl
    | some found =>
      obtain ⟨a, b⟩ := found
      rw [hgroup] at hfinds
      have htext : trimEnd s = b.reverse ++ ['\x7b'] ++ a.reverse ++ ['\x7d'] := by
        rw [hr, hfinds.1]
        simp
      have hstart : utf8Length b.reverse + 1 = utf8Length (b.reverse ++ ['\x7b']) := (utf8Length_concat _ '\x7b').symm
      have hstop : utf8Length (trimEnd s) - 1 = utf8Length (b.reverse ++ ['\x7b'] ++ a.reverse) := by
        rw [htext, utf8Length_concat]
        rfl
      have hinner : slice? (trimEnd s) (utf8Length b.reverse + 1) (utf8Length (trimEnd s) - 1) = some a.reverse := by
        rw [hstart, hstop, htext]
        exact slice?_append _ _ _
      have hbefore : slice? (trimEnd s) 0 (utf8Length b.reverse) = some b.reverse := by
        rw [htext, List.append_assoc, List.append_assoc]
        exact slice?_append [] b.reverse _
      simp only [Option.map_some, Option.bind_some, hinner, hbefore, Option.bind_eq_bind, Option.pure_def]
  · rw [if_neg hlast, splitTrailing?_of_ne hlast]

example : splitByOffsets? "Größe \x7d \x7bx \x7by\x7d\x7d ".toList =
    some (some ("Größe \x7d".toList, "x \x7by\x7d".toList)) := by
  decide +kernel

/-- The block that is split off is the shortest balanced one that ends the text, it is found exactly
where there is one, and the scan by offsets finds the same. -/
theorem trailingBlock_splitTrailing? (s : Text) :
    ((splitTrailing? s).isSome ↔ (trimEnd s).getLast? = some '\x7d' ∧
      ∃ u, u <:+ trimEnd s ∧ u ≠ [] ∧ u.count '\x7b' = u.count '\x7d') ∧
    (∀ before inner, splitTrailing? s = some (before, inner) ↔ TrailingBlock (trimEnd s) before inner) ∧
    splitByOffsets? s = some (splitTrailing? s) := by
  refine ⟨⟨fun h => ?_, ?_⟩, fun before inner => ⟨trailingBlock_of_splitTrailing?, fun h => ?_⟩, splitByOffsets?_eq s⟩
  · obtain ⟨⟨before, inner⟩, hsplit⟩ := Option.isSome_iff_exists.1 h
    have hblock := trailingBlock_of_splitTrailing? hsplit
    obtain ⟨hsuffix, hequal⟩ := hblock.suffix
    exact ⟨hblock.closes, _, hsuffix, List.cons_ne_nil _ _, hequal⟩
  · rintro ⟨hlast, u, hu, hne, hequal⟩
    exact isSome_splitTrailing? hlast hu hne hequal
  · obtain ⟨hsuffix, hequal⟩ := h.suffix
    have hsome := isSome_splitTrailing? h.closes hsuffix (List.cons_ne_nil _ _) hequal
    obtain ⟨⟨before', inner'⟩, hsplit⟩ := Option.isSome_iff_exists.1 hsome
    obtain ⟨rfl, rfl⟩ := h.unique (trailingBlock_of_splitTrailing? hsplit)
    exact hsplit

end QuartoPretext.Attributes
