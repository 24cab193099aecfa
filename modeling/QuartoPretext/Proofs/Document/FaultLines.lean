/-
# Where faults point to

A fault gives the number of a source line that shows what broke: the mark of
the fence, the div or the math that is not closed, the number signs of the
heading, the hyphens of the front matter. However deep it arises, the line that
it was read from is traced to the source line of its number: an end is cut off
for a body, or a strong title is taken out, and then a space may join what
stands around it. So what is found in the line and has no space in it stands in
the source line.

Key definitions: `Fault.marks`, `Fault.ShownBy`, `Line.TracedTo`.
Key theorems: `Plan.all_of_mem_leaves`, `Reached.traced`, `Block.read_fault`, `convert_fault_line`.
-/
import QuartoPretext.Proofs.Document.HeadingLevels
import QuartoPretext.Proofs.Document.Matter

namespace QuartoPretext

/-- The marks of the constructs that a fault can be about; one of them opens or
closes the construct. -/
def Fault.marks : Fault → List Text
  | .openFence .. => [List.replicate 3 '\x60', List.replicate 3 '~']
  | .openDiv .. | .strayDivClose _ => [":::".toList]
  | .openMath _ => [BlockStart.mathMark]
  | .levelSkip _ level => [List.replicate level '#']
  | .frontMatter _ => [BlockStart.yamlOpen]

/-- A fault gives the number of a line, and one of its marks stands there. -/
def Fault.ShownBy (f : Fault) (l : Line) : Prop := f.line = l.number ∧ ∃ m ∈ f.marks, m <:+: l.text

/-- A line goes by the number of one of the given lines, and what stands in it
without a space stands there. -/
def Line.TracedTo (source : List Line) (l : Line) : Prop :=
  ∃ k ∈ source, k.number = l.number ∧ ∀ m, ' ' ∉ m → m <:+: l.text → m <:+: k.text

/-! ### Texts -/

namespace Text

theorem infix_of_trimStart (s : Text) : trimStart s <:+: s := (List.dropWhile_suffix _).isInfix

theorem infix_of_trimEnd (s : Text) : trimEnd s <:+: s := by
  rw [← List.reverse_infix, trimEnd, List.reverse_reverse]
  exact (List.dropWhile_suffix _).isInfix

theorem infix_of_trim (s : Text) : trim s <:+: s := (infix_of_trimEnd _).trans (infix_of_trimStart s)

/-- A text without a space stands on one side of a space. -/
theorem infix_halves {m : Text} (hm : ' ' ∉ m) : ∀ {before after : Text}, m <:+: before ++ ' ' :: after →
    m <:+: before ∨ m <:+: after
  | [], after, h => by
    rcases List.infix_cons_iff.1 h with h | h
    · cases m with
      | nil => exact .inl (List.nil_infix)
      | cons c m =>
        obtain ⟨rest, hrest⟩ := h
        cases hrest
        exact absurd List.mem_cons_self hm
    · exact .inr h
  | c :: before, after, h => by
    rcases List.infix_cons_iff.1 h with h | h
    · -- at the start of both, up to the space at most
      obtain ⟨rest, hrest⟩ := h
      rcases List.append_eq_append_iff.1 (show m ++ rest = (c :: before) ++ ' ' :: after from hrest) with
        ⟨more, hmore, _⟩ | ⟨more, hmore, hrest⟩
      · exact .inl ⟨[], more, hmore.symm⟩
      · cases more with
        | nil => exact .inl ⟨[], [], by simpa using hmore⟩
        | cons d more =>
          cases hrest
          exact absurd (hmore ▸ List.mem_append_right _ List.mem_cons_self) hm
    · exact (infix_halves hm h).imp_left fun h => h.trans (List.suffix_cons c before).isInfix

end Text

open Text

/-! ### Lines are traced to the source -/

theorem Line.TracedTo.of_mem {source : List Line} {l : Line} (h : l ∈ source) : l.TracedTo source :=
  ⟨l, h, rfl, fun _ _ => id⟩

theorem Line.TracedTo.of_endOf {source : List Line} {l l' : Line} (h : l.TracedTo source) (hend : l'.EndOf l) :
    l'.TracedTo source := by
  obtain ⟨k, hk, hnumber, hin⟩ := h
  exact ⟨k, hk, hnumber.trans hend.1.symm, fun m hm h => hin m hm (h.trans hend.2.isInfix)⟩

/-- What is left of a line without its strong title has nothing new but a space. -/
theorem Div.infix_of_strongTitle? {s title rest m : Text} (h : strongTitle? s = some (title, rest)) (hm : ' ' ∉ m)
    (hin : m <:+: rest) : m <:+: s := by
  unfold strongTitle? at h
  split at h
  · cases h
  · next before inner after hs =>
    simp only at h
    split at h
    · cases h
    · cases h
      obtain ⟨strong, rfl⟩ := strong?_eq hs
      have hbefore : before <:+: before ++ '*' :: strong ++ after :=
        (List.prefix_append _ _).isInfix.trans (List.prefix_append _ _).isInfix
      have hafter : after <:+: before ++ '*' :: strong ++ after := (List.suffix_append _ _).isInfix
      have hsides : m <:+: trim before ∨ m <:+: trim after := by
        unfold joinAround at hin
        split at hin
        · next hempty =>
          rcases Bool.or_eq_true_iff.1 hempty with hempty | hempty
          · rw [List.isEmpty_iff.1 hempty] at hin
            exact .inr hin
          · rw [List.isEmpty_iff.1 hempty, List.append_nil] at hin
            exact .inl hin
        · exact infix_halves hm hin
      rcases hsides with h | h
      · exact (h.trans (infix_of_trim _)).trans hbefore
      · exact (h.trans (infix_of_trim _)).trans hafter

theorem Line.TracedTo.of_title {source : List Line} {l : Line} {title rest : Text} (h : l.TracedTo source)
    (ht : Div.strongTitle? l.text = some (title, rest)) : (Line.mk l.number rest).TracedTo source := by
  obtain ⟨k, hk, hnumber, hin⟩ := h
  exact ⟨k, hk, hnumber, fun m hm hrest => hin m hm (Div.infix_of_strongTitle? ht hm hrest)⟩

/-- What holds of a piece and of all within it, holds of its leaves. -/
theorem Piece.of_mem_leaves {P : Piece → Prop} {q : Piece} : ∀ {p : Piece}, All P p → q ∈ p.leaves → P q
  | element .., hp, hq => of_mem_leavesOf hp.2 hq
  | leaf .., hp, hq | empty _, hp, hq | code _, hp, hq | paragraph _, hp, hq | warn .., hp, hq | blocks .., hp, hq
  | heading .., hp, hq | frontMatter .., hp, hq | inclusion _, hp, hq | countExercise, hp, hq =>
    List.mem_singleton.1 hq ▸ hp
where
  of_mem_leavesOf {P : Piece → Prop} {q : Piece} : ∀ {ps : List Piece}, AllIn P ps → q ∈ leavesOf ps → P q
    | [], _, hq => absurd hq List.not_mem_nil
    | _ :: _, hps, hq => (List.mem_append.1 hq).elim (of_mem_leaves hps.1) (of_mem_leavesOf hps.2)

theorem Piece.exists_of_mem_leavesOf {q : Piece} : ∀ {ps : List Piece}, q ∈ leavesOf ps → ∃ p ∈ ps, q ∈ p.leaves
  | p :: ps, h => by
    rcases List.mem_append.1 h with h | h
    · exact ⟨p, List.mem_cons_self, h⟩
    · obtain ⟨p', hp', h⟩ := exists_of_mem_leavesOf h
      exact ⟨p', List.mem_cons_of_mem _ hp', h⟩

theorem Block.numbers_of_mem_bodies {b : Block} {body : List Line} (hlist : ∀ l, b ≠ .list l) (h : body ∈ b.bodies) :
    b.numbers = Line.numbers body := by
  cases b with
  | list l => exact absurd rfl (hlist l)
  | fence _ _ _ | div _ _ _ _ => rw [List.mem_singleton.1 h]; rfl
  | _ => cases h

namespace Plan

variable {set : Setting} {context : Context} {count : Nat} {b : Block} {P : Line → Prop}

/-- What is kept by taking a strong title out of a line is true of the lines of an
item without its title. -/
theorem all_promotedItem
    (htitle : ∀ (l : Line) title rest, Div.strongTitle? l.text = some (title, rest) → P l → P ⟨l.number, rest⟩)
    {i : ListItem} (hi : i.Placed) (h : ∀ l ∈ i.body, P l) : ∀ l ∈ (promotedItem i).2, P l := by
  unfold promotedItem
  split
  · exact List.forall_mem_nil _
  · next first more hbody =>
    rw [hbody] at h
    obtain ⟨hfirst, hmore⟩ := List.forall_mem_cons.1 h
    split
    · next title rest ht =>
      split at ht
      · -- the item goes by the number of its first line
        have hnumber : first.number = i.line := hi first (by rw [hbody]; rfl)
        exact List.forall_mem_cons.2 ⟨hnumber ▸ htitle first title rest ht hfirst, hmore⟩
      · cases ht
    · exact h

/-- What is true of the lines in a block, and kept by taking a strong title out of a
line, is true of the lines that are left in its pieces. -/
theorem all_of_mem_leaves
    (htitle : ∀ (l : Line) title rest, Div.strongTitle? l.text = some (title, rest) → P l → P ⟨l.number, rest⟩)
    (hb : b.Placed) (h : ∀ body ∈ b.bodies, ∀ l ∈ body, P l) {c : Context} {ls : List Line}
    (hls : .blocks c ls ∈ Piece.leavesOf (ofBlock set context count b)) : ∀ l ∈ ls, P l := by
  by_cases hlist : ∃ lb, b = .list lb
  · obtain ⟨lb, rfl⟩ := hlist
    obtain ⟨-, i, hi, rfl⟩ := mem_leaves_list hls
    have hbody : ∀ l ∈ i.body, P l := h i.body (List.mem_map.2 ⟨i, hi, rfl⟩)
    unfold itemBody
    split
    · exact all_promotedItem htitle (hb lb rfl i hi) hbody
    · exact hbody
  · have hexcerpt : ∃ body ∈ b.bodies, Line.Excerpt body ls := by
      obtain ⟨p, hp, hleaf⟩ := Piece.exists_of_mem_leavesOf hls
      have hshape := shape_ofBlock (L := fun ls => ∃ body ∈ b.bodies, Line.Excerpt body ls) (E := True)
        (fun _ _ _ => trivial) (fun body hbody _ hex => ⟨body, hbody, hex⟩) p hp
      cases hshape with
      | heading _ _ => cases List.mem_singleton.1 hleaf
      | body _ hL =>
        cases List.mem_singleton.1 hleaf
        exact hL
      | tame hall => exact (Piece.of_mem_leaves hall hleaf).2
    obtain ⟨body, hbody, hsub | ⟨before, l, after, n, title, rest, rfl, ht, rfl⟩⟩ := hexcerpt
    · exact fun l hl => h body hbody l (hsub.subset hl)
    · -- all numbers of the body are among those of the excerpt, which has as many
      have hnumbers : (Line.numbers (before ++ ⟨n, rest⟩ :: after)).Sublist (Line.numbers (before ++ l :: after)) := by
        rw [← Block.numbers_of_mem_bodies (fun lb hlb => hlist ⟨lb, hlb⟩) hbody]
        exact (Piece.numbers_sublist_numbersIn hls).trans (numbersIn_ofBlock hb)
      have hn : n = l.number := by simpa [Line.numbers] using hnumbers.eq_of_length (by simp [Line.numbers])
      obtain ⟨hbefore, hafter⟩ := List.forall_mem_append.1 (h _ hbody)
      obtain ⟨hl, hafter⟩ := List.forall_mem_cons.1 hafter
      exact List.forall_mem_append.2 ⟨hbefore, List.forall_mem_cons.2 ⟨hn ▸ htitle l title rest ht hl, hafter⟩⟩

/-- A heading that opens a section is the whole of its block. -/
theorem eq_heading_of_mem {n level : Nat} {title : Text} {id : Option Text}
    (h : .heading n level title id ∈ Piece.leavesOf (ofBlock set context count b)) :
    ∃ attrs, b = .heading n level title attrs := by
  obtain ⟨p, hp, hleaf⟩ := Piece.exists_of_mem_leavesOf h
  cases shape_ofBlock (L := fun _ => True) (E := True) (fun _ _ _ => trivial) (fun _ _ _ _ => trivial) p hp with
  | heading hblock _ =>
    cases List.mem_singleton.1 hleaf
    exact ⟨_, hblock⟩
  | body _ _ => cases List.mem_singleton.1 hleaf
  | tame hall => exact (Piece.of_mem_leaves hall hleaf).elim

end Plan

variable {set : Setting} {ctx : Inline.Context} {s : Session} {f : Fault}

/-- All lines that a run comes to are traced to the lines that it started with. -/
theorem Reached.traced {context₀ context : Context} {source ls : List Line} {s₀ : Session}
    (h : Reached set ctx (.lines context₀ source) s₀ (.lines context ls) s) : ∀ l ∈ ls, l.TracedTo source := by
  refine h.lines_induct (P := fun _ ls => ∀ l ∈ ls, l.TracedTo source) (fun l hl => .of_mem hl) ?_ ?_
  · intro _ l following rest b htraced hb k hk
    exact htraced k (List.mem_cons_of_mem l ((Block.rest_suffix hb).subset hk))
  · intro _ l following rest b count c ls htraced hb hls
    refine Plan.all_of_mem_leaves (fun _ _ _ ht hl => hl.of_title ht) (Block.read_placed hb) ?_ hls
    intro body hbody k hk
    obtain ⟨l₀, hl₀, hend⟩ := Block.read_body_endOf hb hbody k hk
    exact (htraced l₀ hl₀).of_endOf hend

/-! ### What a fault is about -/

theorem Text.replicate_prefix_of_takeWhile {c : Char} {n : Nat} {s : Text} (hn : n ≤ (s.takeWhile (· == c)).length) :
    List.replicate n c <+: s := by
  have hrun : s.takeWhile (· == c) = List.replicate (s.takeWhile (· == c)).length c :=
    List.eq_replicate_iff.2 ⟨rfl, fun d hd => by simpa using List.mem_takeWhile_imp hd⟩
  have hprefix := List.takeWhile_prefix (· == c) (l := s)
  rw [hrun, ← Nat.add_sub_cancel' hn, ← List.replicate_append_replicate] at hprefix
  exact (List.prefix_append _ _).trans hprefix

/-- A code fence starts with three backticks or tildes. -/
theorem FenceMark.prefix_of_detect? {s : Text} {mark : FenceMark} (h : detect? s = some mark) :
    List.replicate 3 '\x60' <+: s ∨ List.replicate 3 '~' <+: s := by
  cases s with
  | nil => cases h
  | cons c s =>
    simp only [detect?] at h
    split at h
    · cases h
    · next hc =>
      split at h
      · cases h
      · next hrun =>
        simp only [Bool.or_eq_true, decide_eq_true_eq, not_or, Nat.not_lt] at hrun
        have hlength : 3 ≤ ((c :: s).takeWhile (· == c)).length := by
          rw [List.takeWhile_cons_of_pos (p := (· == c)) (beq_self_eq_true c), List.length_cons]
          omega
        have hprefix := replicate_prefix_of_takeWhile hlength
        simp only [Bool.and_eq_true, bne_iff_ne, not_and_or, not_not] at hc
        rcases hc with rfl | rfl
        · exact .inl hprefix
        · exact .inr hprefix

theorem CodeFence.infix_of_parse? {s : Text} {fence : CodeFence} (h : parse? s = some fence) :
    List.replicate 3 '\x60' <:+: s ∨ List.replicate 3 '~' <:+: s := by
  obtain ⟨mark, hmark, -⟩ := Option.map_eq_some_iff.1 h
  have hprefix := FenceMark.prefix_of_detect? hmark
  exact hprefix.imp (·.isInfix.trans (infix_of_trim s)) (·.isInfix.trans (infix_of_trim s))

/-- A fence of a div starts with three colons. -/
theorem DivFence.infix_of_parse? {s : Text} {fence : DivFence} (h : parse? s = some fence) : ":::".toList <:+: s := by
  unfold parse? at h
  simp only at h
  split at h
  · cases h
  · next hcolons =>
    have hprefix : List.replicate 3 ':' <+: trim s := replicate_prefix_of_takeWhile (Nat.not_lt.1 hcolons)
    exact hprefix.isInfix.trans (infix_of_trim s)

namespace BlockStart

variable {l : Line} {following : List Line}

theorem infix_of_heading {level : Nat} {title : Text} (h : BlockStart.of l following = .heading level title) :
    List.replicate level '#' <:+: l.text := by
  have hheading : heading? (trim l.text) = some (level, title) := by
    unfold BlockStart.of at h
    split at h
    · cases h
    · split at h
      · next hh =>
        cases h
        exact hh
      · split at h
        · cases h
        · unfold ofLine at h
          repeat' split at h
          all_goals cases h
  unfold heading? at hheading
  simp only at hheading
  split at hheading
  · split at hheading
    · cases hheading
      exact (replicate_prefix_of_takeWhile (Nat.le_refl _)).isInfix.trans (infix_of_trim _)
    · cases hheading
  · cases hheading

/-- What the first line of a block that may fail shows. -/
theorem infix_of_ofLine {s : Text} :
    (∀ fence, ofLine s = .fence fence → List.replicate 3 '\x60' <:+: s ∨ List.replicate 3 '~' <:+: s) ∧
    (∀ label attrs, ofLine s = .divOpen label attrs → ":::".toList <:+: s) ∧
    (ofLine s = .divClose → ":::".toList <:+: s) ∧
    ∀ after, ofLine s = .displayMath after → mathMark <:+: s := by
  unfold ofLine
  split
  · next hf => simpa using CodeFence.infix_of_parse? hf
  split
  · next hd => simpa using DivFence.infix_of_parse? hd
  · next hd => simpa using DivFence.infix_of_parse? hd
  split
  · next after hmath =>
    obtain ⟨hdrop, -⟩ := Option.filter_eq_some_iff.1 hmath
    have hprefix : mathMark <+: s := ⟨after, append_eq_of_dropPrefix? hdrop⟩
    simpa using hprefix.isInfix
  repeat' split
  all_goals simp

end BlockStart

/-- A block that cannot be read says which line it starts on, and that line has its
mark. -/
theorem Block.read_fault {l : Line} {following : List Line} (h : read l following = .error f) : f.ShownBy l := by
  have of_line {start : BlockStart} (hstart : BlockStart.of l following = start)
      (hblank : start ≠ .blank) (hheading : ∀ level title, start ≠ .heading level title)
      (hfront : start ≠ .frontMatter) : BlockStart.ofLine (trim l.text) = start := ofLine_of hstart hblank hheading hfront
  obtain ⟨hfence, hopen, hclose, hmath⟩ := BlockStart.infix_of_ofLine (s := trim l.text)
  unfold read at h
  simp only at h
  split at h
  case h_4 fence hstart =>
    split at h
    · cases h
    · cases h
      rcases hfence fence (of_line hstart nofun nofun nofun) with hin | hin
      · exact ⟨rfl, _, List.mem_cons_self, hin.trans (infix_of_trim _)⟩
      · exact ⟨rfl, _, List.mem_cons_of_mem _ List.mem_cons_self, hin.trans (infix_of_trim _)⟩
  case h_5 label attrs hstart =>
    split at h
    · cases h
    · cases h
      exact ⟨rfl, _, List.mem_cons_self, (hopen label attrs (of_line hstart nofun nofun nofun)).trans (infix_of_trim _)⟩
  case h_6 hstart =>
    cases h
    exact ⟨rfl, _, List.mem_cons_self, (hclose (of_line hstart nofun nofun nofun)).trans (infix_of_trim _)⟩
  case h_7 after hstart =>
    have hin := (hmath after (of_line hstart nofun nofun nofun)).trans (infix_of_trim _)
    unfold readMath at h
    repeat' split at h
    all_goals cases h
    exact ⟨rfl, _, List.mem_cons_self, hin⟩
  all_goals cases h

theorem Block.read_heading {l : Line} {following rest : List Line} {n level : Nat} {title : Text} {attrs : Attributes}
    (h : read l following = .ok (.heading n level title attrs, rest)) :
    ∃ raw, BlockStart.of l following = .heading level raw := by
  unfold read at h
  simp only at h
  split at h
  case h_2 raw hstart =>
    cases h
    exact ⟨raw, hstart⟩
  case h_7 =>
    unfold readMath at h
    repeat' split at h
    all_goals cases h
  all_goals
    try split at h
    all_goals cases h

/-- Writing fails for the level of a heading, or for front matter that is no mapping. -/
theorem Session.write_fault {kind : DocumentKind} {p : Piece} (h : s.write ctx kind p = .error f) :
    (∃ n level title id, p = .heading n level title id ∧ f = .levelSkip n level) ∨
      ∃ n yaml, p = .frontMatter n yaml ∧ f = .frontMatter n := by
  cases p with
  | heading n level title id =>
    refine .inl ⟨n, level, title, id, rfl, ?_⟩
    simp only [write, documentHeading] at h
    split at h
    · split at h
      · cases h
      · exact absurd (openSection_eq_error_iff.1 h).1.1 (Nat.lt_irrefl 2)
    · split at h
      · exact (openSection_eq_error_iff.1 h).2
      · split at h
        · exact (openSection_eq_error_iff.1 h).2
        · cases h
  | frontMatter n yaml =>
    refine .inr ⟨n, yaml, rfl, ?_⟩
    simp only [write] at h
    split at h <;> cases h
    rfl
  | _ => cases h

/-! ### Faults of a document -/

theorem Fault.space_not_mem_marks (f : Fault) : ∀ m ∈ f.marks, ' ' ∉ m := by
  cases f with
  | levelSkip n level => simp [marks]
  | _ => simp [marks, BlockStart.mathMark, BlockStart.yamlOpen]

/-- A run that fails has come to a line that shows the fault. -/
theorem exists_line_of_error {input : Text}
    (h : (Task.lines .document (Line.ofText input)).run set ctx .start = .error f) :
    ∃ context l following s, f.ShownBy l ∧
      Reached set ctx (.lines .document (Line.ofText input)) .start (.lines context (l :: following)) s := by
  obtain ⟨t, s, hr, hbreak⟩ := exists_reached_of_error h
  cases hbreak with
  | read hread => exact ⟨_, _, _, _, Block.read_fault hread, hr⟩
  | @write p s hp hw =>
    obtain ⟨context, taken, b, s₁, hmeets, hcarries⟩ := hr.carried hp
    cases hmeets with
    | @intro l more rest _ _ hlines hread =>
      refine ⟨_, _, _, _, ?_, hlines⟩
      rcases Session.write_fault hw with ⟨n, level, title, id, rfl, rfl⟩ | ⟨n, yaml, rfl, rfl⟩
      · obtain ⟨attrs, rfl⟩ := Plan.eq_heading_of_mem hcarries.mem_leaves
        obtain ⟨raw, hstart⟩ := Block.read_heading hread
        exact ⟨Block.read_line hread, _, List.mem_cons_self, BlockStart.infix_of_heading hstart⟩
      · cases Plan.eq_frontMatter_of_mem (Block.read_placed hread) hcarries.mem_leaves
        obtain ⟨-, hopen, -⟩ := hlines.heads_of_frontMatter hread
        exact ⟨Block.read_line hread, _, List.mem_cons_self, hopen ▸ infix_of_trim l.text⟩

theorem Line.getElem?_of_mem_numberFrom : ∀ {ss : List Text} {n : Nat} {l : Line}, l ∈ numberFrom n ss →
    ss[l.number - n]? = some l.text
  | [], _, _, h => absurd h List.not_mem_nil
  | s :: ss, n, l, h => by
    rcases List.mem_cons.1 h with rfl | h
    · simp
    · have hle := le_number_of_mem h
      have hmore := getElem?_of_mem_numberFrom h
      rw [show l.number - n = l.number - (n + 1) + 1 by omega, List.getElem?_cons_succ]
      exact hmore

/-- A conversion that fails points to a source line, in which a mark of the
construct stands: three backticks or tildes of a fence, the colons of a div, the
dollar signs of math, a number sign for each level of a heading, the hyphens of
front matter. -/
theorem convert_fault_line {set : Setting} {input : Text} {f : Fault} (h : convert set input = .error f) :
    1 ≤ f.line ∧ f.line ≤ (lines input).length ∧
      ∃ s, (lines input)[f.line - 1]? = some s ∧ ∃ m ∈ f.marks, m <:+: s := by
  obtain ⟨context, l, following, s, ⟨hline, m, hm, hin⟩, hr⟩ := exists_line_of_error (convert_eq_error_iff.1 h)
  obtain ⟨k, hk, hnumber, hsource⟩ := hr.traced l List.mem_cons_self
  have hk' : f.line = k.number := hline.trans hnumber.symm
  have hget := Line.getElem?_of_mem_numberFrom hk
  rw [← hk', List.getElem?_map, Option.map_eq_some_iff] at hget
  obtain ⟨line, hline', htext⟩ := hget
  have hpos : 1 ≤ f.line := hk' ▸ Line.le_number_of_mem hk
  have hlt : f.line - 1 < (lines input).length := (List.getElem?_eq_some_iff.1 hline').1
  refine ⟨hpos, by omega, line, hline', m, hm, ?_⟩
  exact (htext ▸ hsource m (f.space_not_mem_marks m hm) hin).trans (infix_of_trimEnd line)

/-- A fence that is left of a line when its title is taken out. -/
theorem convert_fault_line_title :
    let set : Setting := ⟨.ofKind .chapter, none⟩
    let input : Text := "::: important\n**T** ```\n:::\n".toList
    convert set input = .error (.openFence 2 "```".toList) ∧
      ∃ s, (lines input)[1]? = some s ∧ ∃ m ∈ [List.replicate 3 '\x60', List.replicate 3 '~'], m <:+: s := by
  intro set input
  have hlines : Line.ofText input = [⟨1, "::: important".toList⟩, ⟨2, "**T** ```".toList⟩, ⟨3, ":::".toList⟩] := rfl
  have hdiv : Block.read ⟨1, "::: important".toList⟩ [⟨2, "**T** ```".toList⟩, ⟨3, ":::".toList⟩] =
      .ok (.div 1 "important".toList ⟨none, ["important".toList], .ofList []⟩ [⟨2, "**T** ```".toList⟩], []) := rfl
  have hfence : Block.read ⟨2, "```".toList⟩ [] = .error (.openFence 2 "```".toList) := rfl
  have hplan : Plan.ofBlock set .document 0
      (.div 1 "important".toList ⟨none, ["important".toList], .ofList []⟩ [⟨2, "**T** ```".toList⟩]) =
      [.element (.withId .assemblage none) [Plan.titleLeaf ['T'], .blocks .container [⟨2, "```".toList⟩]]] := rfl
  have hrun (ctx : Inline.Context) : (Task.lines .document (Line.ofText input)).run set ctx .start =
      .error (.openFence 2 "```".toList) := by
    rw [hlines, Task.run_lines hdiv, show Session.start.exerciseCount = 0 from rfl, hplan, Task.run_pieces,
      Task.run_element, Task.run_pieces, Plan.titleLeaf, Plan.inlineLeaf, Task.run_simple rfl, Session.write,
      Except.bind, Task.run_pieces, Task.run_blocks, Task.run_unread hfence]
    rfl
  have hconvert : convert set input = .error (.openFence 2 "```".toList) := convert_eq_error_iff.2 (hrun _)
  exact ⟨hconvert, (convert_fault_line hconvert).2.2⟩

end QuartoPretext
