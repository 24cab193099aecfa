/-
# Reading blocks divides the lines

The lines that blocks are read from are those of the document, those of a body
and those in the pieces of a block. They are bare, however deep they stand.
Reading one block after the other divides them: every block takes a line or
more, from its own first line on, and no line is passed over or taken twice.

Key definitions: `Piece.Holds`, `Body`, `Cursor.readAll`, `Block.Passes`.
Key theorems: `Body.all`, `Body.bare`, `Reached.lines_body`, `Body.read`, `Body.readAll_divides`.
-/
import QuartoPretext.Proofs.Block.Bare
import QuartoPretext.Proofs.Document.Run
import QuartoPretext.Proofs.Document.Shape

namespace QuartoPretext

/-- Some lines that are still to be read stand in a piece. -/
inductive Piece.Holds (ls : List Line) : Piece → Prop
  | blocks {context : Context} : Holds ls (.blocks context ls)
  | element {tag : Markup.Tag} {content : List Piece} {p : Piece} :
      p ∈ content → Holds ls p → Holds ls (.element tag content)

/-- Lines of a document that blocks are read from, under any settings. -/
inductive Body (text : Text) : List Line → Prop
  | document : Body text (Line.ofText text)
  | rest {l : Line} {following rest : List Line} {b : Block} :
      Body text (l :: following) → Block.read l following = .ok (b, rest) → Body text rest
  | inner {l : Line} {following rest body : List Line} {b : Block} :
      Body text (l :: following) → Block.read l following = .ok (b, rest) → body ∈ b.bodies →
      Body text body
  | piece {l : Line} {following rest ls : List Line} {b : Block} {set : Setting} {context : Context}
      {count : Nat} {p : Piece} :
      Body text (l :: following) → Block.read l following = .ok (b, rest) →
      p ∈ Plan.ofBlock set context count b → p.Holds ls → Body text ls

variable {text : Text}

/-! ### Bodies are bare -/

theorem Piece.holds_all {P : Piece → Prop} {p : Piece} {ls : List Line} (h : p.Holds ls) (hp : p.All P) :
    ∃ context, P (.blocks context ls) := by
  induction h with
  | @blocks context => exact ⟨context, hp⟩
  | @element tag content p hmem _ ih => exact ih ((allIn_iff content).1 hp.2 p hmem)

theorem Div.joinAround_endsBare {before after : Text} (hb : Text.EndsBare before)
    (ha : Text.EndsBare after) : Text.EndsBare (joinAround before after) := by
  unfold joinAround
  split
  · exact hb.append ha
  · next hne =>
    have hafter : after ≠ [] := by
      rintro rfl
      simp at hne
    rw [← List.singleton_append, ← List.append_assoc]
    intro c hc
    rw [List.getLast?_append] at hc
    cases hlast : after.getLast? with
    | none => exact absurd (List.getLast?_eq_none_iff.1 hlast) hafter
    | some d =>
      rw [hlast] at hc
      exact ha c (hlast.trans hc)

theorem Div.strongTitle?_endsBare {s title rest : Text} (h : strongTitle? s = some (title, rest)) :
    Text.EndsBare rest := by
  unfold strongTitle? at h
  split at h
  · cases h
  · simp only at h
    split at h
    · cases h
    · cases h
      exact joinAround_endsBare (Text.endsBare_trimEnd _) (Text.endsBare_trimEnd _)

/-- What is true of the lines of a body, and of a line from which a title is taken,
is true of the lines of an excerpt. -/
theorem Line.Excerpt.all {P : Line → Prop}
    (htitle : ∀ (l : Line) (n : Nat) title rest, Div.strongTitle? l.text = some (title, rest) → P l → P ⟨n, rest⟩)
    {body ls : List Line} (h : Line.Excerpt body ls) (hb : ∀ l ∈ body, P l) : ∀ l ∈ ls, P l := by
  rcases h with hs | ⟨before, l, after, n, title, rest, rfl, ht, rfl⟩
  · exact fun l hl => hb l (hs.subset hl)
  · intro k hk
    rcases List.mem_append.1 hk with hk | hk
    · exact hb k (List.mem_append_left _ hk)
    · rcases List.mem_cons.1 hk with rfl | hk
      · exact htitle l n title rest ht (hb l (List.mem_append_right _ List.mem_cons_self))
      · exact hb k (List.mem_append_right _ (List.mem_cons_of_mem _ hk))

/-- What is true of the lines of a document, of the ends of such lines and of what
is left of them without a title is true of all lines that blocks are read from. -/
theorem Body.all {P : Line → Prop} (hdocument : ∀ l ∈ Line.ofText text, P l)
    (hend : ∀ l l' : Line, l'.EndOf l → P l → P l')
    (htitle : ∀ (l : Line) (n : Nat) title rest, Div.strongTitle? l.text = some (title, rest) → P l → P ⟨n, rest⟩)
    {ls : List Line} (h : Body text ls) : ∀ l ∈ ls, P l := by
  have inner {l : Line} {following rest body : List Line} {b : Block}
      (hl : ∀ k ∈ l :: following, P k) (hr : Block.read l following = .ok (b, rest))
      (hb : body ∈ b.bodies) : ∀ k ∈ body, P k := by
    intro k hk
    obtain ⟨l₀, hl₀, hk₀⟩ := Block.read_body_endOf hr hb k hk
    exact hend l₀ k hk₀ (hl l₀ hl₀)
  induction h with
  | document => exact hdocument
  | rest _ hr ih =>
    intro l hl
    exact ih l (List.mem_cons_of_mem _ ((Block.rest_suffix hr).subset hl))
  | inner _ hr hb ih => exact inner ih hr hb
  | piece _ hr hp hls ih =>
    cases Plan.shape_ofBlock (L := fun ls => ∀ k ∈ ls, P k) (fun _ _ _ => trivial)
        (fun body hb ls hex => hex.all htitle (inner ih hr hb)) _ hp with
    | heading _ _ => cases hls
    | body _ hL =>
      cases hls
      exact hL
    | tame ht =>
      obtain ⟨_, hL⟩ := Piece.holds_all hls ht
      exact hL.2

/-- No line that blocks are read from ends in white space. -/
theorem Body.bare {ls : List Line} (h : Body text ls) : ∀ l ∈ ls, l.Bare :=
  h.all (fun _ hl => Line.bare_ofText hl) (fun _ _ hend hl => hend.bare hl)
    fun _ _ _ _ ht _ => Div.strongTitle?_endsBare ht

/-- All lines that a conversion reads blocks from are lines of this kind. -/
theorem Reached.lines_body {set : Setting} {ctx : Inline.Context} {context : Context} {ls : List Line}
    {s : Session} (h : Reached set ctx (.lines .document (Line.ofText text)) .start (.lines context ls) s) :
    Body text ls := by
  suffices hall : ∀ t s, Reached set ctx (.lines .document (Line.ofText text)) .start t s →
      match t with
      | .piece p => ∀ ls, p.Holds ls → Body text ls
      | .pieces ps => ∀ p ∈ ps, ∀ ls, p.Holds ls → Body text ls
      | .lines _ ls => Body text ls from hall _ _ h
  intro t s h
  induction h with
  | start => exact .document
  | content _ ih => exact fun p hp ls hls => ih ls (.element hp hls)
  | body _ ih => exact ih _ .blocks
  | first _ ih => exact ih _ List.mem_cons_self
  | next _ _ ih => exact fun q hq => ih q (List.mem_cons_of_mem _ hq)
  | block _ hr ih => exact fun p hp ls hls => .piece ih hr hp hls
  | nextBlock _ hr _ ih => exact .rest ih hr

/-! ### Reading all blocks -/

/-- What reading stops with: the blocks, each with the lines that the cursor
passed for it, the fault that stopped it, if any, and where the cursor stands. -/
structure BlockReading where
  blocks : List (List Line × Block)
  fault : Option Fault
  cursor : Cursor

theorem Cursor.read_cons {c c' : Cursor} {l : Line} {following : List Line} {b : Block}
    (hc : c.rest = l :: following) (h : c.read = (.ok b, c')) :
    Block.read l following = .ok (b, c'.rest) := by
  unfold Cursor.read at h
  rw [hc] at h
  simp only at h
  split at h
  · next hr =>
    cases h
    exact hr
  · cases h

/-- Reads blocks up to the end or to the first fault. -/
def Cursor.readAll (c : Cursor) : BlockReading :=
  match _hc : c.rest with
  | [] => ⟨[], none, c⟩
  | l :: following =>
    match _h : c.read with
    | (.error f, _) => ⟨[], some f, c⟩
    | (.ok b, next) =>
      let more := next.readAll
      { more with
        blocks := ((l :: following).take (following.length + 1 - next.rest.length), b) :: more.blocks }
termination_by c.rest.length
decreasing_by
  have := (Block.rest_suffix (Cursor.read_cons _hc _h)).length_le
  rw [_hc, List.length_cons]
  omega

theorem Cursor.readAll_nil {c : Cursor} (hc : c.rest = []) : c.readAll = ⟨[], none, c⟩ := by
  unfold Cursor.readAll
  split
  · rfl
  · next hc' =>
    rw [hc] at hc'
    cases hc'

theorem Cursor.readAll_error {c c' : Cursor} {f : Fault} (hc : c.rest ≠ []) (h : c.read = (.error f, c')) :
    c.readAll = ⟨[], some f, c⟩ := by
  unfold Cursor.readAll
  split
  · next hc' => exact absurd hc' hc
  · rw [h]

theorem Cursor.readAll_ok {c c' : Cursor} {taken : List Line} {b : Block} (hrest : c.rest = taken ++ c'.rest)
    (hc : c.rest ≠ []) (h : c.read = (.ok b, c')) :
    c.readAll = { c'.readAll with blocks := (taken, b) :: c'.readAll.blocks } := by
  rw [Cursor.readAll]
  split
  · next hc' => exact absurd hc' hc
  · next l following hc' =>
    have hlen : following.length + 1 - c'.rest.length = taken.length := by
      have := congrArg List.length (hc'.symm.trans hrest)
      simp only [List.length_cons, List.length_append] at this
      omega
    rw [h]
    simp only [hlen, ← hc', hrest, List.take_left]

/-- Reading blocks from the first lines on comes to the second ones. -/
inductive Block.Passes : List Line → List Line → Prop
  | here {ls : List Line} : Passes ls ls
  | next {l : Line} {following rest ls : List Line} {b : Block} :
      Block.read l following = .ok (b, rest) → Passes rest ls → Passes (l :: following) ls

theorem Block.Passes.suffix {ls ls' : List Line} (h : Passes ls ls') : ls' <:+ ls := by
  induction h with
  | here => exact List.suffix_refl _
  | next hr _ ih => exact ih.trans ((Block.rest_suffix hr).trans (List.suffix_cons _ _))

theorem Cursor.read_of_read {c : Cursor} {l : Line} {following rest : List Line} {b : Block}
    (hc : c.rest = l :: following) (h : Block.read l following = .ok (b, rest)) :
    c.read = (.ok b, { c with rest }) := by
  unfold Cursor.read
  rw [hc]
  simp only [h]

theorem Block.Passes.mem_readAll {ls : List Line} {l : Line} {more rest : List Line} {b : Block}
    (h : Passes ls (l :: more ++ rest)) (hread : Block.read l (more ++ rest) = .ok (b, rest)) (n : Nat) :
    (l :: more, b) ∈ (Cursor.mk ls n).readAll.blocks := by
  generalize hend : l :: more ++ rest = tail at h
  induction h with
  | here =>
    subst hend
    rw [Cursor.readAll_ok rfl (List.cons_ne_nil _ _) (Cursor.read_of_read rfl hread)]
    exact List.mem_cons_self
  | @next l' following rest' tail b' hr _ ih =>
    obtain ⟨more', rfl⟩ := Block.rest_suffix hr
    have hrest : (Cursor.mk (l' :: (more' ++ rest')) n).rest = l' :: more' ++ (Cursor.mk rest' n).rest := rfl
    rw [Cursor.readAll_ok hrest (List.cons_ne_nil _ _) (Cursor.read_of_read rfl hr)]
    exact List.mem_cons_of_mem _ (ih hend)

/-- Reading comes to each block that it gives, and the block is what `Block.read` takes there. -/
theorem Cursor.mem_readAll {c : Cursor} {taken : List Line} {b : Block} (h : (taken, b) ∈ c.readAll.blocks) :
    ∃ l more rest, taken = l :: more ∧ Block.Passes c.rest (l :: more ++ rest) ∧
      Block.read l (more ++ rest) = .ok (b, rest) := by
  induction c using Cursor.readAll.induct with
  | case1 c hc =>
    rw [Cursor.readAll_nil hc] at h
    cases h
  | case2 c l following hc f c' hr =>
    rw [Cursor.readAll_error (by simp [hc]) hr] at h
    cases h
  | case3 c l following hc b' next hr ih =>
    have hread := Cursor.read_cons hc hr
    obtain ⟨more, rfl⟩ := Block.rest_suffix hread
    have hrest : c.rest = l :: more ++ next.rest := hc
    rw [Cursor.readAll_ok hrest (by simp [hc]) hr] at h
    rcases List.mem_cons.1 h with heq | h
    · cases heq
      exact ⟨l, more, next.rest, rfl, hrest ▸ .here, hread⟩
    · obtain ⟨l', more', rest, htaken, hpasses, hread'⟩ := ih h
      exact ⟨l', more', rest, htaken, hc ▸ .next hread hpasses, hread'⟩

/-- A call that reads a block passes the first line, which is the line of the
block, and maybe more; a list starts with an item. -/
theorem Body.read {c c' : Cursor} {b : Block} (hb : Body text c.rest) (hc : c.rest ≠ [])
    (h : c.read = (.ok b, c')) : ∃ l more, c.rest = l :: more ++ c'.rest ∧ b.line = l.number ∧
      (∀ lb, b = .list lb → lb.items.head?.map (·.line) = some l.number) ∧ Body text c'.rest := by
  obtain ⟨l, following, hl⟩ := List.exists_cons_of_ne_nil hc
  have hr := Cursor.read_cons hl h
  obtain ⟨more, hmore⟩ := Block.rest_suffix hr
  rw [hl] at hb ⊢
  refine ⟨l, more, by rw [← hmore]; rfl, Block.read_line hr, ?_, .rest hb hr⟩
  rintro lb rfl
  exact Block.read_list_items (hb.bare l List.mem_cons_self) hr

/-- Reading one block after the other divides the lines of a document or of a body
within it. The lines of the blocks, in order, and what a fault leaves are all the
lines there are, each of them once. A block starts at its own first line. -/
theorem Body.readAll_divides {c : Cursor} (h : Body text c.rest) :
    (∀ l ∈ c.rest, Text.trimEnd l.text = l.text) ∧
    c.readAll.blocks.flatMap (·.1) ++ c.readAll.cursor.rest = c.rest ∧
    (∀ taken b, (taken, b) ∈ c.readAll.blocks → ∃ l more, taken = l :: more ∧ b.line = l.number ∧
      ∀ lb, b = .list lb → lb.items.head?.map (·.line) = some l.number) ∧
    (c.readAll.fault = none → c.readAll.cursor.rest = []) ∧
    ∀ f, c.readAll.fault = some f → c.readAll.cursor.rest ≠ [] ∧ c.readAll.cursor.read.1 = .error f := by
  refine ⟨fun l hl => (Text.endsBare_iff _).1 (h.bare l hl), ?_⟩
  induction c using Cursor.readAll.induct with
  | case1 c hc =>
    rw [Cursor.readAll_nil hc]
    simp [hc]
  | case2 c l following hc f c' hr =>
    have hne : c.rest ≠ [] := by simp [hc]
    rw [Cursor.readAll_error hne hr]
    simp [hne, hr]
  | case3 c l following hc b next hr ih =>
    have hne : c.rest ≠ [] := by simp [hc]
    obtain ⟨l', more, hrest, hline, hitems, hnext⟩ := h.read hne hr
    obtain ⟨hall, hblocks, hdone, hfault⟩ := ih hnext
    rw [Cursor.readAll_ok hrest hne hr]
    refine ⟨?_, ?_, hdone, hfault⟩
    · simp only [List.flatMap_cons, List.append_assoc]
      rw [hall, hrest]
    · intro taken b' hmem
      rcases List.mem_cons.1 hmem with heq | hmem
      · cases heq
        exact ⟨l', more, rfl, hline, hitems⟩
      · exact hblocks taken b' hmem

/-- Blocks that are read from a div of one line start on that line. -/
theorem Body.readAll_divides_list : ∃ c : Cursor, c.rest = [⟨2, ['-', ' ', 'a']⟩] ∧
    Body "::: x\n- a\n:::".toList c.rest ∧
    (∀ l ∈ c.rest, Text.trimEnd l.text = l.text) ∧
    c.readAll.blocks.flatMap (·.1) ++ c.readAll.cursor.rest = c.rest ∧
    ∀ taken b, (taken, b) ∈ c.readAll.blocks → b.line = 2 := by
  have hread : Block.read ⟨1, [':', ':', ':', ' ', 'x']⟩ [⟨2, ['-', ' ', 'a']⟩, ⟨3, [':', ':', ':']⟩] =
      .ok (.div 1 ['x'] ⟨none, [['x']], .ofList []⟩ [⟨2, ['-', ' ', 'a']⟩], []) := rfl
  have hbody : Body "::: x\n- a\n:::".toList [⟨2, ['-', ' ', 'a']⟩] :=
    .inner .document hread List.mem_cons_self
  obtain ⟨hbare, hall, hblocks, _, _⟩ := Body.readAll_divides (c := .ofLines [⟨2, ['-', ' ', 'a']⟩]) hbody
  refine ⟨.ofLines [⟨2, ['-', ' ', 'a']⟩], rfl, hbody, hbare, hall, ?_⟩
  intro taken b hmem
  obtain ⟨l, more, htaken, hline, _⟩ := hblocks taken b hmem
  have hl : l ∈ (Cursor.ofLines [⟨2, ['-', ' ', 'a']⟩]).rest := by
    rw [← hall]
    refine List.mem_append_left _ (List.mem_flatMap.2 ⟨_, hmem, ?_⟩)
    simp [htaken]
  rw [hline, List.mem_singleton.1 hl]

end QuartoPretext
