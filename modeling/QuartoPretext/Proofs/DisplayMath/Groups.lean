/-
# Groups of TeX

TeX math is grouped by braces and by environments. It is read character by character:
a backslash escapes what comes after it or starts a command, and the commands `\begin`
and `\end` with a name in braces are the delimiters of an environment. Groups are
nested if each one that is closed is the innermost open one and none stays open. White
space only counts where it is in a name, however much it is, and writing alignment
points as a macro changes no delimiter.

Key definitions: `TeX.Delimiter`, `TeX.Mode.next`, `TeX.read`, `TeX.Nested`,
`TeX.Mode.Restarts`.
Key theorems: `TeX.read_append`, `TeX.nested_of_words`, `TeX.read_alignmentPoints`,
`TeX.remaining_filter`, `TeX.nested_append_iff`, `TeX.read_behind`.
-/
import QuartoPretext.Document.DisplayMath
import QuartoPretext.Proofs.Text.Words

namespace QuartoPretext.TeX

open Text

inductive Group
  | brace
  | environment (name : Text)
  deriving Repr, DecidableEq

inductive Side
  | opening
  | closing
  deriving Repr, DecidableEq

structure Delimiter where
  side : Side
  group : Group
  deriving Repr, DecidableEq

/-- What is read between the backslash and the name of an environment. -/
def Side.keyword : Side → Text
  | opening => "begin\x7b".toList
  | closing => "end\x7b".toList

/-! ### Reading -/

/-- Where a reader is. -/
inductive Mode
  | text
  /-- behind a backslash and letters that a keyword starts with -/
  | command (letters : Text)
  /-- in the name of an environment -/
  | name (side : Side) (letters : Text)
  deriving Repr, DecidableEq

namespace Mode

/-- Whether the next character is escaped, or is the first one of a command. -/
def escapes : Mode → Bool
  | command [] => true
  | _ => false

def isName : Mode → Bool
  | name .. => true
  | _ => false

/-- A character that does not go on with a command or a name. -/
def plain : Char → List Delimiter × Mode
  | '\x7b' => ([⟨.opening, .brace⟩], text)
  | '\x7d' => ([⟨.closing, .brace⟩], text)
  | '\\' => ([], command [])
  | _ => ([], text)

/-- The letters of a name and white space, of which any amount is one space. -/
def spaced (letters : Text) : Text := if letters.getLast? = some ' ' then letters else letters ++ [' ']

/-- What one character delimits, and where it leads. A backslash, a brace or an
ampersand is not in a name: where one comes, the braces are a group as any other. -/
def next : Mode → Char → List Delimiter × Mode
  | text, c => plain c
  | command letters, c =>
    if letters ++ [c] = Side.opening.keyword then ([], name .opening [])
    else if letters ++ [c] = Side.closing.keyword then ([], name .closing [])
    else if letters ++ [c] <+: Side.opening.keyword ∨ letters ++ [c] <+: Side.closing.keyword then
      ([], command (letters ++ [c]))
    else if letters = [] then ([], text)
    else plain c
  | name side letters, c =>
    if c = '\x7d' then ([⟨side, .environment letters⟩], text)
    else if c = '\x7b' ∨ c = '\\' ∨ c = '&' then (⟨.opening, .brace⟩ :: (plain c).1, (plain c).2)
    else ([], name side (if isSpace c then spaced letters else letters ++ [c]))

end Mode

/-- The delimiters of a text, and where a reader is after it. -/
def read : Mode → Text → List Delimiter × Mode
  | m, [] => ([], m)
  | m, c :: s => ((m.next c).1 ++ (read (m.next c).2 s).1, (read (m.next c).2 s).2)

/-- The groups that are still open after some delimiters, innermost first, if none is
closed but the innermost one. -/
def remaining : List Group → List Delimiter → Option (List Group)
  | gs, [] => some gs
  | gs, ⟨.opening, g⟩ :: ds => remaining (g :: gs) ds
  | [], ⟨.closing, _⟩ :: _ => none
  | g' :: gs, ⟨.closing, g⟩ :: ds => if g' = g then remaining gs ds else none

/-- The groups of some kinds are nested, and no name is cut off. -/
structure Nested (kinds : Group → Bool) (s : Text) : Prop where
  whole : (read .text s).2.isName = false
  closed : remaining [] ((read .text s).1.filter fun d => kinds d.group) = some []

instance (kinds : Group → Bool) (s : Text) : Decidable (Nested kinds s) :=
  decidable_of_iff ((read .text s).2.isName = false ∧
    remaining [] ((read .text s).1.filter fun d => kinds d.group) = some []) ⟨fun h => ⟨h.1, h.2⟩, fun h => ⟨h.1, h.2⟩⟩

example : Nested (fun _ => true) "\\begin\x7bcases\x7d \\\x7b a \\\\ b \\end\x7bcases\x7d".toList := by decide

variable {kinds : Group → Bool} {m : Mode} {s t : Text} {c : Char}

@[simp] theorem read_nil (m : Mode) : read m [] = ([], m) := rfl

theorem read_cons (m : Mode) (c : Char) (s : Text) :
    read m (c :: s) = ((m.next c).1 ++ (read (m.next c).2 s).1, (read (m.next c).2 s).2) := rfl

theorem read_append (s t : Text) : ∀ m, read m (s ++ t) =
    ((read m s).1 ++ (read (read m s).2 t).1, (read (read m s).2 t).2) := by
  induction s with
  | nil => exact fun _ => rfl
  | cons c s ih =>
    intro m
    rw [List.cons_append, read_cons, read_cons, ih]
    simp only [List.append_assoc]

theorem nested_congr (hmode : (read .text s).2.isName = (read .text t).2.isName)
    (hremaining : remaining [] ((read .text s).1.filter fun d => kinds d.group) =
      remaining [] ((read .text t).1.filter fun d => kinds d.group)) : Nested kinds s ↔ Nested kinds t :=
  ⟨fun h => ⟨hmode ▸ h.whole, hremaining ▸ h.closed⟩, fun h => ⟨hmode.trans h.whole, hremaining.trans h.closed⟩⟩

theorem nested_nil : Nested kinds [] := ⟨rfl, rfl⟩

/-! ### Single characters -/

/-- A character goes on with the command, and is one of the keywords, or ends it. -/
theorem next_command (letters : Text) (c : Char) :
    (∃ side : Side, (Mode.command letters).next c = ([], .name side []) ∧ letters ++ [c] = side.keyword) ∨
      (∃ side : Side, (Mode.command letters).next c = ([], .command (letters ++ [c])) ∧ letters ++ [c] <+: side.keyword) ∨
      (Mode.command letters).next c = if letters = [] then ([], .text) else Mode.plain c := by
  rw [Mode.next]
  split
  · next h => exact .inl ⟨.opening, rfl, h⟩
  · split
    · next h => exact .inl ⟨.closing, rfl, h⟩
    · split
      · next h =>
        rcases h with h | h
        · exact .inr (.inl ⟨.opening, rfl, h⟩)
        · exact .inr (.inl ⟨.closing, rfl, h⟩)
      · exact .inr (.inr rfl)

theorem next_command_of_not_mem (h : ∀ side : Side, c ∉ side.keyword) (letters : Text) :
    (Mode.command letters).next c = if letters = [] then ([], .text) else Mode.plain c := by
  have hmem : c ∈ letters ++ [c] := List.mem_append_right _ List.mem_cons_self
  rcases next_command letters c with ⟨side, -, hword⟩ | ⟨side, -, hword⟩ | hnext
  · exact absurd (hword ▸ hmem) (h side)
  · exact absurd (hword.subset hmem) (h side)
  · exact hnext

/-- Where a reader is after white space. -/
def Mode.afterSpace : Mode → Mode
  | text | command _ => text
  | name side letters => name side (spaced letters)

theorem getLast?_spaced (letters : Text) : (Mode.spaced letters).getLast? = some ' ' := by
  unfold Mode.spaced
  split
  · next h => exact h
  · exact List.getLast?_concat

theorem spaced_spaced (letters : Text) : Mode.spaced (Mode.spaced letters) = Mode.spaced letters :=
  if_pos (getLast?_spaced letters)

@[simp] theorem afterSpace_afterSpace (m : Mode) : m.afterSpace.afterSpace = m.afterSpace := by
  cases m with
  | text | command _ => rfl
  | name side letters => exact congrArg (Mode.name side) (spaced_spaced letters)

@[simp] theorem isName_afterSpace (m : Mode) : m.afterSpace.isName = m.isName := by
  cases m <;> rfl

theorem isSpace_ne {d : Char} (hc : isSpace c) (hd : isSpace d = false) : c ≠ d := by
  rintro rfl
  rw [hd] at hc
  cases hc

theorem plain_of_isSpace (hc : isSpace c) : Mode.plain c = ([], .text) := by
  unfold Mode.plain
  split
  · exact absurd rfl (isSpace_ne hc (by decide))
  · exact absurd rfl (isSpace_ne hc (by decide))
  · exact absurd rfl (isSpace_ne hc (by decide))
  · rfl

theorem next_of_isSpace (hc : isSpace c) (m : Mode) : m.next c = ([], m.afterSpace) := by
  have hink (side : Side) : c ∉ side.keyword := by
    have hword : ∀ d ∈ side.keyword, isSpace d = false := by cases side <;> decide
    exact fun hmem => isSpace_ne hc (hword c hmem) rfl
  cases m with
  | text => exact plain_of_isSpace hc
  | command letters =>
    rw [next_command_of_not_mem hink, plain_of_isSpace hc, ite_self]
    rfl
  | name side letters =>
    have hclose : c ≠ '\x7d' := isSpace_ne hc (by decide)
    have hspecial : ¬(c = '\x7b' ∨ c = '\\' ∨ c = '&') := by
      rintro (h | h | h) <;> exact isSpace_ne hc (by decide) h
    rw [Mode.next, if_neg hclose, if_neg hspecial, if_pos hc]
    rfl

/-! ### White space -/

/-- After white space, a text is read as its words with one space between them. A
reader that may be in a name has to come from white space already: else the text and its
words differ in the space before the first word. -/
theorem read_joinWith_words (s : Text) : ∀ m : Mode, m.afterSpace = m →
    (read m s).1 = (read m (joinWith [' '] (words s))).1 ∧
      (read m s).2.isName = (read m (joinWith [' '] (words s))).2.isName := by
  induction s using words_induct with
  | nil => exact fun _ _ => ⟨rfl, rfl⟩
  | space c s hc ih =>
    intro m hm
    have hspace : read m (c :: s) = read m s := by
      rw [read_cons, next_of_isSpace hc, hm]
      rfl
    rw [hspace, words_cons_space hc]
    exact ih m hm
  | word w hne hw =>
    intro m _
    rw [words_eq_singleton hne hw, joinWith_singleton]
    exact ⟨rfl, rfl⟩
  | append w c s hne hw hc ih =>
    intro m _
    obtain ⟨hread, hmode⟩ := ih (read m w).2.afterSpace (afterSpace_afterSpace _)
    have hsplit : read m (w ++ c :: s) = ((read m w).1 ++ (read (read m w).2.afterSpace s).1,
        (read (read m w).2.afterSpace s).2) := by
      rw [read_append, read_cons, next_of_isSpace hc]
      rfl
    rw [hsplit, hread, hmode, words_word_append hne hw hc]
    cases words s with
    | nil =>
      have hnil : joinWith [' '] ([] : List Text) = [] := rfl
      rw [joinWith_singleton, hnil, read_nil, List.append_nil, isName_afterSpace]
      exact ⟨rfl, rfl⟩
    | cons v vs =>
      rw [joinWith_cons, List.append_assoc, List.singleton_append, read_append, read_cons, next_of_isSpace (by decide)]
      exact ⟨rfl, rfl⟩

/-- Whether groups are nested depends on the words alone. -/
theorem nested_of_words (h : words s = words t) : Nested kinds s ↔ Nested kinds t := by
  obtain ⟨hs, hs'⟩ := read_joinWith_words s .text rfl
  obtain ⟨ht, ht'⟩ := read_joinWith_words t .text rfl
  rw [h] at hs hs'
  exact nested_congr (hs'.trans ht'.symm) (by rw [hs, ht])

/-! ### Alignment points -/

theorem plain_escapes : (Mode.plain c).2.escapes = (c == '\\') := by
  unfold Mode.plain
  split <;> first | rfl | exact (beq_false_of_ne ‹_›).symm

/-- The next character is escaped exactly behind a backslash that is not. -/
theorem next_escapes (m : Mode) (c : Char) : (m.next c).2.escapes = (c == '\\' && !m.escapes) := by
  have hslash {side : Side} (h : c ∈ side.keyword) : (c == '\\') = false := by
    have hword : ∀ d ∈ side.keyword, (d == '\\') = false := by cases side <;> decide
    exact hword c h
  have hmem {letters : Text} : c ∈ letters ++ [c] := List.mem_append_right _ List.mem_cons_self
  cases m with
  | text => exact plain_escapes.trans (Bool.and_true _).symm
  | command letters =>
    rcases next_command letters c with ⟨side, hnext, hword⟩ | ⟨side, hnext, hword⟩ | hnext
    · rw [hnext, hslash (hword ▸ hmem), Bool.false_and]
      rfl
    · rw [hnext, hslash (hword.subset hmem), Bool.false_and]
      cases letters <;> rfl
    · rw [hnext]
      cases letters with
      | nil => exact (Bool.and_false _).symm
      | cons d letters =>
        rw [if_neg (List.cons_ne_nil d letters), plain_escapes]
        exact (Bool.and_true _).symm
  | name side letters =>
    rw [Mode.next]
    split
    · next h =>
      subst h
      rfl
    · split
      · exact plain_escapes.trans (Bool.and_true _).symm
      · next h =>
        rw [beq_false_of_ne fun hc => h (.inr (.inl hc)), Bool.false_and]
        rfl

theorem special_not_mem_keyword (side : Side) : '\\' ∉ side.keyword ∧ '&' ∉ side.keyword := by
  cases side <;> decide

/-- A backslash that is not escaped starts a command. -/
theorem next_backslash (hname : m.isName = false) (h : m.escapes = false) : m.next '\\' = ([], .command []) := by
  cases m with
  | text => rfl
  | command letters =>
    rw [next_command_of_not_mem fun side => (special_not_mem_keyword side).1]
    cases letters with
    | nil => cases h
    | cons d letters => rfl
  | name side letters => cases hname

/-- An ampersand that is not escaped is read as its macro. -/
theorem read_macro (h : m.escapes = false) : read m "\\amp ".toList = m.next '&' := by
  have hslash : ∃ ds, m.next '\\' = (ds, .command []) ∧ m.next '&' = (ds, .text) := by
    cases m with
    | text => exact ⟨[], rfl, rfl⟩
    | command letters =>
      rw [next_backslash rfl h, next_command_of_not_mem fun side => (special_not_mem_keyword side).2]
      cases letters with
      | nil => cases h
      | cons d letters => exact ⟨[], rfl, rfl⟩
    | name side letters => exact ⟨[⟨.opening, .brace⟩], rfl, rfl⟩
  obtain ⟨ds, hcommand, hpoint⟩ := hslash
  have hrest : read (.command []) "amp ".toList = ([], .text) := by decide
  have hsplit : read m ('\\' :: "amp ".toList) = (ds, .text) := by
    rw [read_cons, hcommand, hrest, List.append_nil]
  exact hsplit.trans hpoint.symm

/-- Macros for alignment points are read as the ampersands they are for. -/
theorem read_alignmentPoints : ∀ (s : Text) (m : Mode), read m (DisplayMath.alignmentPoints m.escapes s) = read m s
  | [], _ => rfl
  | c :: s, m => by
    have hnext := read_alignmentPoints s (m.next c).2
    rw [next_escapes] at hnext
    rw [DisplayMath.alignmentPoints, read_cons m c s, ← hnext]
    split
    · next h =>
      simp only [Bool.and_eq_true, beq_iff_eq, Bool.not_eq_true'] at h
      obtain ⟨rfl, hescapes⟩ := h
      rw [read_append, read_macro hescapes]
    · rfl

theorem nested_alignmentPoints (s : Text) : Nested kinds (DisplayMath.alignmentPoints false s) ↔ Nested kinds s := by
  have h : read .text (DisplayMath.alignmentPoints false s) = read .text s := read_alignmentPoints s .text
  exact nested_congr (by rw [h]) (by rw [h])

/-! ### Starting again -/

/-- Text is read after a mode as by itself, since neither is it in a name nor is its
start escaped or taken for more of a command. -/
structure Mode.Restarts (m : Mode) (s : Text) : Prop where
  unnamed : m.isName = false
  unescaped : m.escapes = false
  head : ∀ c, s.head? = some c → m.next c = text.next c

theorem Mode.restarts_text (s : Text) : text.Restarts s := ⟨rfl, rfl, fun _ _ => rfl⟩

theorem Mode.Restarts.read_eq (h : m.Restarts s) :
    (read m s).1 = (read .text s).1 ∧ (read m s).2.isName = (read .text s).2.isName := by
  cases s with
  | nil => exact ⟨rfl, h.unnamed⟩
  | cons c s =>
    rw [read_cons, h.head c rfl]
    exact ⟨rfl, rfl⟩

/-! ### Open groups -/

theorem remaining_append : ∀ (ds es : List Delimiter) (gs : List Group),
    remaining gs (ds ++ es) = (remaining gs ds).bind fun hs => remaining hs es
  | [], _, _ => rfl
  | ⟨.opening, g⟩ :: ds, es, gs => remaining_append ds es (g :: gs)
  | ⟨.closing, _⟩ :: _, _, [] => rfl
  | ⟨.closing, g⟩ :: ds, es, g' :: gs => by
    rw [List.cons_append, remaining, remaining]
    split
    · exact remaining_append ds es gs
    · rfl

/-- Without the delimiters of the other groups, those of some kinds are left open. -/
theorem remaining_filter (p : Group → Bool) : ∀ (ds : List Delimiter) {gs hs : List Group}, remaining gs ds = some hs →
    remaining (gs.filter p) (ds.filter fun d => p d.group) = some (hs.filter p)
  | [], gs, hs, h => by
    obtain rfl := Option.some.inj h
    rfl
  | ⟨.opening, g⟩ :: ds, gs, hs, h => by
    have hrest : remaining ((g :: gs).filter p) (ds.filter fun d => p d.group) = some (hs.filter p) :=
      remaining_filter p ds h
    by_cases hg : p g
    · simpa [hg, remaining] using hrest
    · simpa [hg] using hrest
  | ⟨.closing, _⟩ :: _, [], _, h => nomatch h
  | ⟨.closing, g⟩ :: ds, g' :: gs, hs, h => by
    rw [remaining] at h
    split at h
    · next heq =>
      subst heq
      have hrest := remaining_filter p ds h
      by_cases hg : p g'
      · simpa [hg, remaining] using hrest
      · simpa [hg] using hrest
    · cases h

/-- What comes after nested groups is read as a text of its own. -/
theorem nested_append_iff (hs : Nested kinds s) (hmode : (read .text s).2 = .text) :
    Nested kinds (s ++ t) ↔ Nested kinds t := by
  have hread : read .text (s ++ t) = ((read .text s).1 ++ (read .text t).1, (read .text t).2) := by
    rw [read_append, hmode]
  have hremaining : remaining [] ((read .text (s ++ t)).1.filter fun d => kinds d.group) =
      remaining [] ((read .text t).1.filter fun d => kinds d.group) := by
    rw [hread, List.filter_append, remaining_append, hs.closed]
    rfl
  exact nested_congr (by rw [hread]) hremaining

/-! ### Where delimiters stand -/

/-- What a reader that is in a command or a name has read last. -/
def Mode.Behind (s : Text) : Mode → Prop
  | text => True
  | command letters => '\\' :: letters <:+ s
  | name side letters => ' ' ∉ letters → '\\' :: (side.keyword ++ letters) <:+ s

/-- An environment with a name without white space stands in a text. -/
def Delimiter.StandsIn (d : Delimiter) (s : Text) : Prop :=
  ∀ letters, d.group = .environment letters → ' ' ∉ letters → '\\' :: (d.side.keyword ++ letters ++ ['\x7d']) <:+: s

theorem plain_behind (s : Text) (c : Char) :
    (Mode.plain c).2.Behind (s ++ [c]) ∧ ∀ d ∈ (Mode.plain c).1, d.group = .brace := by
  unfold Mode.plain
  split
  · exact ⟨trivial, List.forall_mem_singleton.2 rfl⟩
  · exact ⟨trivial, List.forall_mem_singleton.2 rfl⟩
  · exact ⟨List.suffix_append s _, List.forall_mem_nil _⟩
  · exact ⟨trivial, List.forall_mem_nil _⟩

theorem next_behind (h : m.Behind s) (c : Char) :
    (m.next c).2.Behind (s ++ [c]) ∧ ∀ d ∈ (m.next c).1, d.StandsIn (s ++ [c]) := by
  have hbrace {d : Delimiter} (hd : d.group = .brace) : d.StandsIn (s ++ [c]) := fun _ hname => by
    rw [hd] at hname
    cases hname
  have hplain : ∀ d ∈ (Mode.plain c).1, d.StandsIn (s ++ [c]) := fun d hd => hbrace ((plain_behind s c).2 d hd)
  have hmore {letters : Text} (h : letters <:+ s) : letters ++ [c] <:+ s ++ [c] := by
    obtain ⟨before, rfl⟩ := h
    exact ⟨before, (List.append_assoc ..).symm⟩
  cases m with
  | text => exact ⟨(plain_behind s c).1, hplain⟩
  | command letters =>
    rcases next_command letters c with ⟨side, hnext, hword⟩ | ⟨side, hnext, -⟩ | hnext
    · rw [hnext]
      refine ⟨fun _ => ?_, List.forall_mem_nil _⟩
      rw [List.append_nil, ← hword]
      exact hmore h
    · rw [hnext]
      exact ⟨hmore h, List.forall_mem_nil _⟩
    · rw [hnext]
      split
      · exact ⟨trivial, List.forall_mem_nil _⟩
      · exact ⟨(plain_behind s c).1, hplain⟩
  | name side letters =>
    rw [Mode.next]
    split
    · next hclose =>
      subst hclose
      refine ⟨trivial, List.forall_mem_singleton.2 fun name hname hspace => ?_⟩
      obtain rfl := Group.environment.inj hname
      have hsuffix := hmore (h hspace)
      exact hsuffix.isInfix
    · split
      · exact ⟨(plain_behind s c).1, List.forall_mem_cons.2 ⟨hbrace rfl, hplain⟩⟩
      · refine ⟨fun hspace => ?_, List.forall_mem_nil _⟩
        split at hspace
        · -- a name with white space is not kept letter by letter
          exact absurd (List.mem_of_getLast? (getLast?_spaced letters)) hspace
        · next hc =>
          rw [if_neg hc, ← List.append_assoc, ← List.cons_append]
          exact hmore (h fun hmem => hspace (List.mem_append_left _ hmem))

/-- Each environment that is opened or closed stands in the text, letter by letter. -/
theorem read_behind (t : Text) : ∀ {m : Mode} {s : Text}, m.Behind s →
    ∀ d ∈ (read m t).1, d.StandsIn (s ++ t) := by
  induction t with
  | nil => exact fun _ => List.forall_mem_nil _
  | cons c t ih =>
    intro m s h
    obtain ⟨hnext, hnow⟩ := next_behind h c
    have hrest := ih hnext
    have hsplit : s ++ c :: t = s ++ [c] ++ t := (List.append_assoc s [c] t).symm
    rw [read_cons, hsplit]
    refine List.forall_mem_append.2 ⟨fun d hd letters hname hspace => ?_, hrest⟩
    exact (hnow d hd letters hname hspace).trans (List.prefix_append _ t).isInfix

end QuartoPretext.TeX
