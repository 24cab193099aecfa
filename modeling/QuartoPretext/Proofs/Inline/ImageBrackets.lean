/-
# Images among brackets

The first bracket of an image opens nothing, but the second one is read as any closing
bracket is. So an image stands as a word does where no bracket is open; and where one is
open, it ends there, and the image's source becomes the target of a link.

Key definitions: `Text.isLetter`, `Link.image`, `Link.LeftAlone`.
Key theorems: `Link.readAt_image`, `Link.readAt_image_link`, `Link.leftAlone_of_pending`,
`Link.not_leftAlone`, `Link.resolve_image`.
-/
import QuartoPretext.Proofs.Inline.LinkReader
import QuartoPretext.Proofs.Text.Cut

namespace QuartoPretext

/-! ### Letters -/

namespace Text

/-- A letter. -/
def isLetter (c : Char) : Bool := if c.toNat < 128 then c.isAlpha else inRanges alphabeticRanges c.toNat

theorem isAlphanumeric_of_isLetter {c : Char} (h : isLetter c = true) : isAlphanumeric c = true := by
  unfold isLetter at h
  unfold isAlphanumeric
  split at h
  · next hascii => rw [if_pos hascii, Char.isAlphanum, h, Bool.true_or]
  · next hwide => rw [if_neg hwide, h, Bool.true_or, Bool.true_or]

end Text

namespace Link

open Text

/-! ### Words and images -/

/-- An image with an alternative text and a source. -/
def image (alt src : Text) : Text := '!' :: '[' :: alt ++ ']' :: '(' :: src ++ [')']

variable {pre before : List Cell} {b : Bracketing} {br : Bracket} {brs : List Bracket} {t alt src : Text}

theorem ne_of_isAlphanumeric {c d : Char} (hc : isAlphanumeric c = true) (hd : isAlphanumeric d = false) : c ≠ d := by
  rintro rfl
  rw [hc] at hd
  cases hd

/-- After a character that is neither an exclamation mark nor a backslash, reading goes on
as it does at the start. -/
theorem readAt_after {c : Char} (hbang : c ≠ '!') (hslash : c ≠ '\\') (seen : List Cell) (b : Bracketing)
    (rest : List Cell) : readAt Cell.isEscaped (seen ++ [.char c]) b rest = read false false b rest := by
  rw [read_after hbang hslash b rest seen, read_eq_readAt]

theorem readAt_push {c : Char} (hopen : c ≠ '[') (hclose : c ≠ ']') (escapes : List Cell → Bool)
    (before : List Cell) (b : Bracketing) (rest : List Cell) :
    readAt escapes before b (.char c :: rest) = readAt escapes (before ++ [.char c]) (b.push (.char c)) rest := by
  rw [readAt, if_neg, if_neg]
  · simp [Cell.isChar, hclose]
  · simp [Cell.isChar, hopen]

/-- Letters and digits are read as they stand. -/
theorem readAt_word (escapes : List Cell → Bool) (more : List Cell) : ∀ {t : Text} (before : List Cell)
    (b : Bracketing), (∀ c ∈ t, isAlphanumeric c = true) → readAt escapes before b (Span.cellsOf t ++ more) =
      readAt escapes (before ++ Span.cellsOf t) (b.pushAll (Span.cellsOf t)) more
  | [], before, b, _ => by
    have hnil : before ++ Span.cellsOf [] = before := List.append_nil before
    rw [hnil]
    rfl
  | c :: t, before, b, h => by
    obtain ⟨hc, ht⟩ := List.forall_mem_cons.1 h
    have hopen : c ≠ '[' := ne_of_isAlphanumeric hc (by decide)
    have hclose : c ≠ ']' := ne_of_isAlphanumeric hc (by decide)
    have hcons : Span.cellsOf (c :: t) = .char c :: Span.cellsOf t := rfl
    rw [hcons, List.cons_append, readAt_push hopen hclose, readAt_word escapes more _ _ ht, List.append_assoc,
      Bracketing.pushAll_cons]
    rfl

/-- An image up to its first closing bracket. -/
def imageStart (alt : Text) : List Cell := Span.cellsOf ('!' :: '[' :: alt)

theorem cellsOf_image (alt src : Text) (more : List Cell) : Span.cellsOf (image alt src) ++ more =
    imageStart alt ++ .char ']' :: (.char '(' :: Span.cellsOf src ++ .char ')' :: more) := by
  simp [image, imageStart, Span.cellsOf]

/-- The first bracket of an image opens nothing. -/
theorem readAt_imageStart (before : List Cell) (b : Bracketing) (halt : ∀ c ∈ alt, isAlphanumeric c = true)
    (more : List Cell) : readAt Cell.isEscaped before b (imageStart alt ++ more) =
      readAt Cell.isEscaped (before ++ imageStart alt) (b.pushAll (imageStart alt)) more := by
  have hcons : imageStart alt = .char '!' :: .char '[' :: Span.cellsOf alt := rfl
  have hbang : (before ++ [Cell.char '!']).getLast?.any (Cell.isChar '!') = true := by
    rw [List.getLast?_concat]
    rfl
  have hopen : ((Cell.char '[').isChar '[' && !Cell.isEscaped (before ++ [.char '!'])) = true := by
    rw [Cell.isEscaped_concat]
    rfl
  rw [hcons, List.cons_append, List.cons_append, readAt_push (by decide) (by decide), readAt, if_pos hopen,
    if_pos hbang, readAt_word _ _ _ _ halt, List.append_assoc, List.append_assoc, Bracketing.pushAll_cons,
    Bracketing.pushAll_cons]
  rfl

/-- Nothing in it escapes the closing bracket. -/
theorem isEscaped_imageStart (before : List Cell) (halt : ∀ c ∈ alt, isAlphanumeric c = true) :
    Cell.isEscaped (before ++ imageStart alt) = false := by
  have hlast : ∃ t c, '!' :: '[' :: alt = t ++ [c] ∧ c ≠ '\\' := by
    rcases List.eq_nil_or_concat' alt with rfl | ⟨t, c, rfl⟩
    · exact ⟨['!'], '[', rfl, by decide⟩
    · exact ⟨'!' :: '[' :: t, c, rfl, ne_of_isAlphanumeric (halt c (by simp)) (by decide)⟩
  obtain ⟨t, c, ht, hc⟩ := hlast
  have hcells : before ++ imageStart alt = before ++ Span.cellsOf t ++ [.char c] := by
    rw [imageStart, ht, Span.cellsOf_append, List.append_assoc]
    rfl
  have hslash : (Cell.char c).isChar '\\' = false := beq_false_of_ne hc
  rw [hcells, Cell.isEscaped_concat, Cell.escapesNext, hslash, Bool.false_and]

/-- So the closing bracket is read as one. -/
theorem readAt_image_close (before : List Cell) (b : Bracketing) (halt : ∀ c ∈ alt, isAlphanumeric c = true)
    (src : Text) (more : List Cell) : readAt Cell.isEscaped before b (Span.cellsOf (image alt src) ++ more) =
      readAt Cell.isEscaped (before ++ imageStart alt) (b.pushAll (imageStart alt))
        (.char ']' :: (.char '(' :: Span.cellsOf src ++ .char ')' :: more)) ∧
      ((Cell.char ']').isChar ']' && !Cell.isEscaped (before ++ imageStart alt)) = true := by
  refine ⟨by rw [cellsOf_image, readAt_imageStart before b halt], ?_⟩
  rw [isEscaped_imageStart before halt]
  rfl

/-- Where no bracket is open an image is read as it stands. -/
theorem readAt_image (before : List Cell) (hp : b.pending = []) (halt : ∀ c ∈ alt, isAlphanumeric c = true)
    (hsrc : ∀ c ∈ src, isAlphanumeric c = true) (more : List Cell) :
    readAt Cell.isEscaped before b (Span.cellsOf (image alt src) ++ more) =
      read false false (b.pushAll (Span.cellsOf (image alt src))) more := by
  obtain ⟨hread, hclose⟩ := readAt_image_close before b halt src more
  have hpending : (b.pushAll (imageStart alt)).pending = [] := hp
  have hshut : (b.pushAll (imageStart alt)).shut = (b.pushAll (imageStart alt)).push (.char ']') := by
    rw [Bracketing.shut, hpending]
  have himage : Span.cellsOf (image alt src) =
      imageStart alt ++ .char ']' :: .char '(' :: Span.cellsOf src ++ [.char ')'] := by
    simpa using cellsOf_image alt src []
  calc readAt Cell.isEscaped before b (Span.cellsOf (image alt src) ++ more)
      = readAt Cell.isEscaped (before ++ imageStart alt ++ [.char ']']) ((b.pushAll (imageStart alt)).push (.char ']'))
          (.char '(' :: Span.cellsOf src ++ .char ')' :: more) := by
        rw [hread, readAt_shut (by simp [Cell.isChar]) hclose (.inl hpending), hshut]
    _ = read false false (((((b.pushAll (imageStart alt)).push (.char ']')).push (.char '(')).pushAll
          (Span.cellsOf src)).push (.char ')')) more := by
        rw [List.cons_append, readAt_push (by decide) (by decide), readAt_word _ _ _ _ hsrc,
          readAt_push (by decide) (by decide), readAt_after (by decide) (by decide)]
    _ = read false false (b.pushAll (Span.cellsOf (image alt src))) more := by
        rw [himage, Bracketing.pushAll_append, Bracketing.pushAll_append, Bracketing.pushAll_cons,
          Bracketing.pushAll_cons, Bracketing.pushAll_cons]
        rfl

theorem inner?_word (more : List Cell) : ∀ {t : Text}, (∀ c ∈ t, isAlphanumeric c = true) →
    inner? 0 (Span.cellsOf t ++ .char ')' :: more) = some (t, more)
  | [], _ => rfl
  | c :: t, h => by
    obtain ⟨hc, ht⟩ := List.forall_mem_cons.1 h
    have hclose : c ≠ ')' := ne_of_isAlphanumeric hc (by decide)
    have hopen : c ≠ '(' := ne_of_isAlphanumeric hc (by decide)
    have hline : c ≠ '\n' := ne_of_isAlphanumeric hc (by decide)
    have hcons : Span.cellsOf (c :: t) = .char c :: Span.cellsOf t := rfl
    rw [hcons, List.cons_append, inner?]
    simp only [beq_iff_eq, hclose, hopen, hline, if_false, inner?_word more ht, Option.map_some]

/-- A word in parentheses is a target. -/
theorem target?_word (hne : src ≠ []) (hsrc : ∀ c ∈ src, isAlphanumeric c = true) (more : List Cell) :
    target? (.char '(' :: Span.cellsOf src ++ .char ')' :: more) = some (src, more) := by
  have hspace : ∀ c ∈ src, isSpace c = false := fun c hc => Bool.eq_false_iff.2 fun h => by
    have hnot := isAlphanumeric_of_isSpace h
    rw [hsrc c hc] at hnot
    cases hnot
  have hwords : words src = [src] := words_eq_singleton hne hspace
  rw [List.cons_append, target?_paren, inner?_word more hsrc, Option.bind_some]
  simp only [hwords, List.head?_cons, Option.map_some]

/-- Where a bracket is open an image makes a link of it. -/
theorem readAt_image_link (before : List Cell) (hp : b.pending = br :: brs)
    (halt : ∀ c ∈ alt, isAlphanumeric c = true) (hne : src ≠ []) (hsrc : ∀ c ∈ src, isAlphanumeric c = true)
    (more : List Cell) : readAt Cell.isEscaped before b (Span.cellsOf (image alt src) ++ more) =
      read false false (close (b.pushAll (imageStart alt)) br brs src) more := by
  obtain ⟨hread, hclose⟩ := readAt_image_close before b halt src more
  have hpending : (b.pushAll (imageStart alt)).pending = br :: brs := hp
  have htarget := target?_word hne hsrc more
  have htake : (.char '(' :: Span.cellsOf src ++ .char ')' :: more).take
      ((.char '(' :: Span.cellsOf src ++ .char ')' :: more).length - more.length) =
        .char '(' :: Span.cellsOf src ++ [.char ')'] := by
    rw [List.append_cons (Cell.char '(' :: Span.cellsOf src), take_used]
  have hseen : before ++ imageStart alt ++ .char ']' :: (.char '(' :: Span.cellsOf src ++ [.char ')']) =
      before ++ imageStart alt ++ .char ']' :: .char '(' :: Span.cellsOf src ++ [.char ')'] := by simp
  rw [hread, readAt_link (by simp [Cell.isChar]) hclose hpending htarget, htake, hseen,
    readAt_after (by decide) (by decide)]

/-! ### Images left alone -/

/-- A word is read as it stands. -/
theorem read_word (n : Nat) (hpre : unclosed 0 pre = 0) (hne : t ≠ []) (ht : ∀ c ∈ t, isAlphanumeric c = true)
    (post : List Cell) : read false false (.start n) (pre ++ Span.cellsOf t ++ post) =
      read false false ((read false false (.start n) pre).pushAll (Span.cellsOf t)) post := by
  have hhead : (Span.cellsOf t ++ post).head? ≠ some (.char '(') := by
    obtain ⟨d, more, rfl⟩ := List.exists_cons_of_ne_nil hne
    have hparen : d ≠ '(' := ne_of_isAlphanumeric (ht d List.mem_cons_self) (by decide)
    simpa [Span.cellsOf] using hparen
  obtain ⟨u, c, hu⟩ := (List.eq_nil_or_concat' t).resolve_left hne
  have hc : isAlphanumeric c = true := ht c (by simp [hu])
  have hlast : pre ++ Span.cellsOf t = pre ++ Span.cellsOf u ++ [.char c] := by
    rw [hu, Span.cellsOf_append, List.append_assoc]
    rfl
  calc read false false (.start n) (pre ++ Span.cellsOf t ++ post)
      = readAt Cell.isEscaped pre (read false false (.start n) pre) (Span.cellsOf t ++ post) := by
        rw [List.append_assoc, read_append n hpre hhead]
    _ = readAt Cell.isEscaped (pre ++ Span.cellsOf t)
          ((read false false (.start n) pre).pushAll (Span.cellsOf t)) post := readAt_word _ _ _ _ ht
    _ = read false false ((read false false (.start n) pre).pushAll (Span.cellsOf t)) post := by
        rw [hlast]
        exact readAt_after (ne_of_isAlphanumeric hc (by decide)) (ne_of_isAlphanumeric hc (by decide)) _ _ _

/-- An image is read from where the cells before it leave the reader. -/
theorem read_image (n : Nat) (hpre : unclosed 0 pre = 0) (alt src : Text) (post : List Cell) :
    read false false (.start n) (pre ++ Span.cellsOf (image alt src) ++ post) =
      readAt Cell.isEscaped pre (read false false (.start n) pre) (Span.cellsOf (image alt src) ++ post) := by
  rw [List.append_assoc, read_append n hpre]
  simp [image, Span.cellsOf]

/-- An image is left alone: reading links treats it as it treats any word of letters in
its place, and it stands in the result where the word does. -/
def LeftAlone (n : Nat) (pre image post : List Cell) : Prop := ∃ p q,
  (resolve n (Span.ofCells (pre ++ image ++ post))).1 = Span.ofCells (p ++ image ++ q) ∧
    ∀ w : Text, w ≠ [] → (∀ c ∈ w, isLetter c = true) →
      (resolve n (Span.ofCells (pre ++ Span.cellsOf w ++ post))).1 = Span.ofCells (p ++ Span.cellsOf w ++ q)

theorem resolve_ofCells (n : Nat) (cs : List Cell) :
    (resolve n (Span.ofCells cs)).1 = Span.ofCells (read false false (.start n) cs).cells := by
  rw [resolve, Span.toCells_ofCells]

theorem ofCells_inj {cs ds : List Cell} (h : Span.ofCells cs = Span.ofCells ds) : cs = ds := by
  rw [← Span.toCells_ofCells cs, h, Span.toCells_ofCells]

/-- Outside of brackets an image is left alone. -/
theorem leftAlone_of_pending {n : Nat} (hb : read false false (.start n) pre = b) (hpre : unclosed 0 pre = 0)
    (halt : ∀ c ∈ alt, isAlphanumeric c = true) (hsrc : ∀ c ∈ src, isAlphanumeric c = true) (hp : b.pending = [])
    (post : List Cell) : LeftAlone n pre (Span.cellsOf (image alt src)) post := by
  refine ⟨b.cells, (read false false (.start b.nextScope) post).cells, ?_, fun w hne hw => ?_⟩
  · rw [resolve_ofCells, read_image n hpre, hb, readAt_image pre hp halt hsrc, cells_read_pushAll hp]
  · have hword : ∀ c ∈ w, isAlphanumeric c = true := fun c hc => isAlphanumeric_of_isLetter (hw c hc)
    rw [resolve_ofCells, read_word n hpre hne hword, hb, cells_read_pushAll hp]

/-- Two lists that differ at one place differ where both are known to. -/
theorem length_eq_of_differ {p q : List Cell} {x y : Cell} {i : Nat} (hne : x ≠ y)
    (hx : (p ++ x :: q)[i]? = some x) (hy : (p ++ y :: q)[i]? = some y) : p.length = i := by
  rcases Nat.lt_trichotomy i p.length with h | h | h
  · rw [List.getElem?_append_left h] at hx hy
    exact absurd (Option.some.inj (hx.symm.trans hy)) hne
  · exact h.symm
  · obtain ⟨k, rfl⟩ := Nat.exists_eq_add_of_lt h
    have hk : p.length + k + 1 - p.length = k + 1 := by omega
    rw [List.getElem?_append_right (by omega), hk, List.getElem?_cons_succ] at hx hy
    exact absurd (Option.some.inj (hx.symm.trans hy)) hne

/-- A letter stands where it is read. -/
theorem getElem?_letter {n : Nat} (hb : read false false (.start n) pre = b) (hpre : unclosed 0 pre = 0) {c : Char}
    (hc : isAlphanumeric c = true) (post : List Cell) :
    (read false false (.start n) (pre ++ Span.cellsOf [c] ++ post)).cells[b.cells.length]? = some (.char c) := by
  rw [read_word n hpre (List.cons_ne_nil c []) (by simpa using hc), hb]
  refine read_keepsPlaces false false _ post _ _ ?_ fun h => ?_
  · rw [Bracketing.cells_pushAll, List.getElem?_append_right (Nat.le_refl _), Nat.sub_self]
    rfl
  · exact ne_of_isAlphanumeric hc (by decide) (Cell.char.inj h)

/-- The link that a bracket becomes stands around what has been read since. -/
theorem cells_close (hp : b.pending = br :: brs) (cs : List Cell) (hne : cs ≠ []) (href : Text) : ∃ inner,
    (close (b.pushAll cs) br brs href).cells = inner ++ [.mark (.linkClose b.nextScope)] ∧
      inner.length = b.cells.length + cs.length ∧ .linkOpen href b.nextScope ∈ Cell.marks inner := by
  have hcurrent : (b.pushAll cs).current.isEmpty = false := by
    rw [List.isEmpty_eq_false_iff]
    simp [Bracketing.pushAll, hne]
  have hpending : (b.pushAll cs).pending = br :: brs := hp
  have hlength := congrArg List.length ((Bracketing.cells_pushAll b cs).symm.trans
    (Bracketing.cells_pending hpending b.nextScope))
  refine ⟨(Bracketing.mk brs br.before b.nextScope).cells ++
    .mark (.linkOpen href b.nextScope) :: (b.pushAll cs).current.reverse, ?_, ?_, ?_⟩
  · rw [close, hcurrent]
    exact Bracketing.cells_enclose _ _ _ _ _
  · simpa using hlength.symm
  · simp

/-- An image within a bracket that is open is not left alone: its closing bracket is the
end of a link. -/
theorem not_leftAlone {n : Nat} (hb : read false false (.start n) pre = b) (hpre : unclosed 0 pre = 0)
    (halt : ∀ c ∈ alt, isAlphanumeric c = true) (hne : src ≠ []) (hsrc : ∀ c ∈ src, isAlphanumeric c = true)
    (hp : b.pending = br :: brs) (post : List Cell) : ¬LeftAlone n pre (Span.cellsOf (image alt src)) post := by
  rintro ⟨p, q, himage, hword⟩
  -- two letters in the place of the image tell where this place is
  have hletter {c : Char} (hc : isLetter c = true) : (p ++ .char c :: q)[b.cells.length]? = some (.char c) := by
    have hcells := hword [c] (List.cons_ne_nil c []) (by simpa using hc)
    have hget := getElem?_letter hb hpre (isAlphanumeric_of_isLetter hc) post
    rw [resolve_ofCells] at hcells
    rw [ofCells_inj hcells] at hget
    simpa [Span.cellsOf] using hget
  have hlength : p.length = b.cells.length :=
    length_eq_of_differ (x := .char 'a') (y := .char 'b') (by decide) (hletter (by decide)) (hletter (by decide))
  -- the place of the image's closing bracket has the end of the link
  obtain ⟨inner, hinner, hinnerLength, -⟩ := cells_close hp (imageStart alt) (List.cons_ne_nil _ _) src
  have hclosed : (close (b.pushAll (imageStart alt)) br brs src).cells[inner.length]? =
      some (.mark (.linkClose b.nextScope)) := by
    rw [hinner, List.getElem?_append_right (Nat.le_refl _), Nat.sub_self]
    rfl
  have hkeeps := read_keepsPlaces false false _ post _ _ hclosed (by simp)
  rw [resolve_ofCells, read_image n hpre, hb, readAt_image_link pre hp halt hne hsrc] at himage
  rw [ofCells_inj himage, List.append_assoc, cellsOf_image, ← List.append_assoc, hinnerLength, ← hlength,
    ← List.length_append, List.getElem?_append_right (Nat.le_refl _), Nat.sub_self] at hkeeps
  cases hkeeps

/-- Its source is the target of the link. -/
theorem mem_marks_image {n : Nat} (hb : read false false (.start n) pre = b) (hpre : unclosed 0 pre = 0)
    (halt : ∀ c ∈ alt, isAlphanumeric c = true) (hne : src ≠ []) (hsrc : ∀ c ∈ src, isAlphanumeric c = true)
    (hp : b.pending = br :: brs) (post : List Cell) : .linkOpen src b.nextScope ∈
      Span.marks (resolve n (Span.ofCells (pre ++ Span.cellsOf (image alt src) ++ post))).1 := by
  obtain ⟨inner, hinner, -, hmem⟩ := cells_close hp (imageStart alt) (List.cons_ne_nil _ _) src
  rw [resolve_ofCells, Span.marks_ofCells, read_image n hpre, hb, readAt_image_link pre hp halt hne hsrc]
  refine (read_marks false false _ post).subset (List.mem_append_left _ ?_)
  rw [hinner, Cell.marks_append]
  exact List.mem_append_left _ hmem

/-- **Which images are left alone.** An image that stands where no bracket is open takes
no part in reading links. One with a source that stands within an open bracket does: its
closing bracket ends that bracket, and its source becomes the target of a link. -/
theorem resolve_image {n : Nat} {pre : List Cell} {b : Bracketing} {alt src : Text}
    (hb : read false false (.start n) pre = b) (hpre : unclosed 0 pre = 0)
    (halt : ∀ c ∈ alt, isAlphanumeric c = true) (hsrc : ∀ c ∈ src, isAlphanumeric c = true) (post : List Cell) :
    (b.pending = [] → LeftAlone n pre (Span.cellsOf (image alt src)) post) ∧
    (src ≠ [] →
      (LeftAlone n pre (Span.cellsOf (image alt src)) post ↔ b.pending = []) ∧
      (b.pending ≠ [] → .linkOpen src b.nextScope ∈
        Span.marks (resolve n (Span.ofCells (pre ++ Span.cellsOf (image alt src) ++ post))).1)) := by
  have halone := fun hp => leftAlone_of_pending hb hpre halt hsrc hp post
  refine ⟨halone, fun hne => ⟨⟨fun h => ?_, halone⟩, fun hp => ?_⟩⟩
  · by_contra hp
    obtain ⟨br, brs, hp⟩ := List.exists_cons_of_ne_nil hp
    exact not_leftAlone hb hpre halt hne hsrc hp post h
  · obtain ⟨br, brs, hp⟩ := List.exists_cons_of_ne_nil hp
    exact mem_marks_image hb hpre halt hne hsrc hp post

/-- An image between links. -/
theorem resolve_image_outside :
    unclosed 0 (Span.cellsOf "[a](u) and ".toList) = 0 ∧
      (∀ c ∈ "b".toList, isAlphanumeric c = true) ∧ (∀ c ∈ "c1".toList, isAlphanumeric c = true) ∧
      LeftAlone 0 (Span.cellsOf "[a](u) and ".toList) (Span.cellsOf (image "b".toList "c1".toList))
        (Span.cellsOf " [d](v)".toList) := by
  have hpre : unclosed 0 (Span.cellsOf "[a](u) and ".toList) = 0 := by decide
  have halt : ∀ c ∈ "b".toList, isAlphanumeric c = true := by decide
  have hsrc : ∀ c ∈ "c1".toList, isAlphanumeric c = true := by decide
  exact ⟨hpre, halt, hsrc, (resolve_image rfl hpre halt hsrc _).1 (by decide +kernel)⟩

/-- An image within a link: the link ends in the image, and has the image's source. -/
theorem image_ends_link :
    let pre := Span.cellsOf "[a ".toList
    let post := Span.cellsOf " d](u)".toList
    image "b".toList "c".toList = "![b](c)".toList ∧ unclosed 0 pre = 0 ∧
      ¬LeftAlone 0 pre (Span.cellsOf "![b](c)".toList) post ∧
      (resolve 0 [.text "[a w d](u)".toList]).1 =
        [.mark (.linkOpen "u".toList 0), .text "a w d".toList, .mark (.linkClose 0)] ∧
      (resolve 0 [.text "[a ![b](c) d](u)".toList]).1 =
        [.mark (.linkOpen "c".toList 0), .text "a ![b".toList, .mark (.linkClose 0), .text " d](u)".toList] := by
  have hp : (read false false (.start 0) (Span.cellsOf "[a ".toList)).pending = [⟨[], false⟩] := by decide +kernel
  have hnot : ¬LeftAlone 0 (Span.cellsOf "[a ".toList) (Span.cellsOf (image "b".toList "c".toList))
      (Span.cellsOf " d](u)".toList) :=
    not_leftAlone rfl (by decide) (by decide) (by decide) (by decide) hp _
  exact ⟨rfl, by decide, hnot, by decide +kernel, by decide +kernel⟩

end Link
end QuartoPretext
