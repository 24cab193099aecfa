/-
# Nesting within markup that stands in the source

The tags of an element are kept as they are written, one by one. Whether they are
nested is read off them with a stack of names: a start tag adds its name, an end
tag takes away the name it bears. Escaping changes nothing of that. So a tag that
closes itself is always nested, and an element exactly if its content gives back the
stack that it got. As the content ends at the first end tag of the name, an element
within one of its own name is not nested.

Key definitions: `Fragment.tags`, `Fragment.starts?`, `Fragment.stops?`,
`Fragment.readTags?`, `Fragment.WellNested`.
Key theorems: `Fragment.tags_escape`, `Fragment.readTags?_count`,
`Fragment.wellNested_escape_iff`, `Fragment.protect_nested`.
-/
import QuartoPretext.Inline.Transform
import QuartoPretext.Proofs.Inline.Tagged

namespace QuartoPretext

namespace Text.Division

theorem found_join (d : Division) (m : Text) (e : Division) : (d.join m e).found = d.found ++ m :: e.found := by
  induction d with
  | last t => rfl
  | next t m' more ih => rw [join, found, found, ih, List.cons_append]

end Text.Division

namespace Fragment

open Text Mark

variable {name attrs content s t tag : Text} {d : Division}

/-! ### The tags of a text -/

/-- The tag that a piece is, without its brackets. -/
def Piece.tags : Piece → List Text
  | .char _ => []
  | .tag inside => [inside]

/-- The tags of known names in a text, without their brackets. -/
def tags (s : Text) : List Text := (scan Piece.char tagPiece? s).flatMap Piece.tags

theorem tags_text (hd : d.Leftmost IsTag) : tags d.text = d.found.map inside := by
  rw [tags, Division.scan_text recognises_tagPiece (fun _ => isTag_ne_nil) hd, Division.flatMap_map]
  clear hd
  have hbetween (t : Text) : (t.map Piece.char).flatMap Piece.tags = [] := by simp [List.flatMap_map, Piece.tags]
  induction d with
  | last t => exact hbetween t
  | next t m more ih =>
    rw [Division.map, hbetween, ih]
    rfl

theorem tags_append_tag (ht : IsTag tag) (s t : Text) : tags (s ++ tag ++ t) = tags s ++ inside tag :: tags t := by
  obtain ⟨d, rfl, hd⟩ := Division.exists_leftmost (fun _ => isTag_ne_nil) s
  obtain ⟨e, rfl, he⟩ := Division.exists_leftmost (fun _ => isTag_ne_nil) t
  have hjoin : (d.join tag e).Leftmost IsTag := by
    obtain ⟨inside, rfl, _⟩ := ht.angleless
    exact hd.join (fun _ => isTag_tail) ht he
  rw [← Division.text_join, tags_text hjoin, tags_text hd, tags_text he, Division.found_join, List.map_append,
    List.map_cons]

theorem tags_nil : tags [] = [] := by rw [tags, scan_nil, List.flatMap_nil]

/-- Escaping keeps the tags, with what stands in them escaped. -/
theorem tags_escape (s : Text) : tags (escape s) = (tags s).map Markup.escapeText := by
  obtain ⟨d, rfl, hd⟩ := Division.exists_leftmost (fun _ => isTag_ne_nil) s
  have hescaped : (d.change Markup.escapeText escapeTag).Leftmost IsTag := by
    refine Division.leftmost_of_not_mem (c := '<') (fun _ => isTag_head) ?_ ?_
    · rw [Division.found_change]
      exact List.forall_mem_map.2 fun m hm => isTag_escapeTag (hd.found m hm)
    · rw [Division.between_change]
      exact List.forall_mem_map.2 fun t _ hlt => ((Markup.settled_escapeText t).angleless _ hlt).1 rfl
  rw [escape_text hd, ← Division.text_change, tags_text hescaped, tags_text hd, Division.found_change, List.map_map,
    List.map_map]
  exact List.map_congr_left fun m _ => inside_startTag _

/-! ### Reading tags -/

/-- The name that an end tag bears. -/
def stops? : Text → Option Text
  | '/' :: s => (name? s).map Prod.fst
  | _ => none

/-- The name of a start tag that does not close itself. -/
def starts? (inside : Text) : Option Text :=
  if inside.head? = some '/' ∨ inside.getLast? = some '/' then none else (name? inside).map Prod.fst

/-- The names that are open after a tag, innermost first, where some are open before
it; there are none if it is an end tag of another name. -/
def readTag? (open' : List Text) (inside : Text) : Option (List Text) :=
  match stops? inside, open' with
  | some name, top :: more => if top = name then some more else none
  | some _, [] => none
  | none, _ => some ((starts? inside).toList ++ open')

/-- The names that are open after some tags. -/
def readTags? (open' : List Text) (tags : List Text) : Option (List Text) := tags.foldlM readTag? open'

theorem readTag?_start {inside : Text} (h : stops? inside = none) (open' : List Text) :
    readTag? open' inside = some ((starts? inside).toList ++ open') := by
  unfold readTag?
  rw [h]

theorem readTag?_stop {inside : Text} (h : stops? inside = some name) {open' after : List Text} :
    readTag? open' inside = some after ↔ open' = name :: after := by
  unfold readTag?
  rw [h]
  cases open' with
  | nil => simp
  | cons top more => by_cases htop : top = name <;> simp [htop]

theorem readTags?_append (open' ts us : List Text) :
    readTags? open' (ts ++ us) = (readTags? open' ts).bind (readTags? · us) := List.foldlM_append

theorem readTags?_cons (open' : List Text) (t : Text) (ts : List Text) :
    readTags? open' (t :: ts) = (readTag? open' t).bind (readTags? · ts) := List.foldlM_cons

/-! ### Tags by their parts -/

theorem name?_inside (hn : name ∈ names) (ha : IsTagRest attrs) : name? (name ++ attrs) = some (name, attrs) := by
  refine name?_append hn ?_
  cases ha with
  | bare | slash => rfl
  | spaced hc _ => exact Text.not_alpha_of_isSpace hc

theorem exists_alpha_cons (hn : name ∈ names) : ∃ c more, name = c :: more ∧ c ≠ '/' := by
  cases name with
  | nil => exact absurd hn (by decide)
  | cons c more =>
    refine ⟨c, more, rfl, ?_⟩
    rintro rfl
    exact absurd (name_alpha _ hn '/' List.mem_cons_self) (by decide)

theorem stops?_start (hn : name ∈ names) (attrs : Text) : stops? (name ++ attrs) = none := by
  obtain ⟨c, more, rfl, hc⟩ := exists_alpha_cons hn
  unfold stops?
  split
  · next h => exact absurd (List.cons.inj h).1 hc
  · rfl

theorem stops?_stop (hn : name ∈ names) (ha : IsTagRest attrs) : stops? ('/' :: name ++ attrs) = some name := by
  rw [List.cons_append, stops?, name?_inside hn ha]
  rfl

/-- The last character of a start tag's inside is a slash if that of what follows the
name is. -/
theorem getLast?_inside (hn : name ∈ names) : (name ++ attrs).getLast? = some '/' ↔ attrs.getLast? = some '/' := by
  rw [List.getLast?_append]
  cases hlast : attrs.getLast? with
  | some c => rfl
  | none =>
    rw [Option.none_or]
    refine iff_of_false (fun h => ?_) (by simp)
    exact absurd (name_alpha _ hn '/' (List.mem_of_getLast? h)) (by decide)

theorem starts?_start (hn : name ∈ names) (ha : IsTagRest attrs) :
    starts? (name ++ attrs) = if attrs.getLast? = some '/' then none else some name := by
  have hhead : (name ++ attrs).head? ≠ some '/' := by
    obtain ⟨c, more, rfl, hc⟩ := exists_alpha_cons hn
    simpa using hc
  simp only [starts?, name?_inside hn ha, getLast?_inside hn, hhead, false_or, Option.map_some]

theorem starts?_stop (s : Text) : starts? ('/' :: s) = none := by simp [starts?]

theorem starts?_of_stops? {inside : Text} (h : stops? inside = some name) : starts? inside = none := by
  unfold stops? at h
  split at h
  · exact starts?_stop _
  · cases h

/-- Escaping changes neither kind nor name of a tag. -/
theorem parts_escapeText (h : IsTag tag) :
    starts? (Markup.escapeText (inside tag)) = starts? (inside tag) ∧
      stops? (Markup.escapeText (inside tag)) = stops? (inside tag) := by
  cases h with
  | @start name attrs hn ha =>
    rw [inside_startTag, Markup.escapeText_append_plain (name_plain hn), starts?_start hn ha.escape,
      starts?_start hn ha, stops?_start hn, stops?_start hn]
    exact ⟨by simp only [Markup.getLast?_escapeText], rfl⟩
  | @stop name attrs hn ha =>
    have hinside : Markup.escapeText ('/' :: name ++ attrs) = '/' :: name ++ Markup.escapeText attrs := by
      have h := congrArg inside (escapeTag_stop hn attrs)
      rwa [escapeTag_startTag, inside_startTag, inside_startTag] at h
    rw [inside_startTag, hinside, stops?_stop hn ha.escape, stops?_stop hn ha]
    exact ⟨(starts?_stop _).trans (starts?_stop _).symm, rfl⟩

/-- Escaping a text keeps what its tags leave open. -/
theorem readTags?_escape (open' : List Text) (s : Text) :
    readTags? open' (tags (escape s)) = readTags? open' (tags s) := by
  obtain ⟨d, rfl, hd⟩ := Division.exists_leftmost (fun _ => isTag_ne_nil) s
  rw [tags_escape, tags_text hd]
  have hfound := hd.found
  clear hd
  generalize d.found = ms at hfound
  induction ms generalizing open' with
  | nil => rfl
  | cons m ms ih =>
    obtain ⟨hstarts, hstops⟩ := parts_escapeText (hfound m List.mem_cons_self)
    have htag : readTag? open' (Markup.escapeText (inside m)) = readTag? open' (inside m) := by
      unfold readTag?
      rw [hstarts, hstops]
    rw [List.map_cons, List.map_cons, readTags?_cons, readTags?_cons, htag]
    exact Option.bind_congr fun open'' _ => ih open'' fun m' hm' => hfound m' (List.mem_cons_of_mem m hm')

/-- Tags that are read give back as many of a name as they take. -/
theorem readTags?_count (name : Text) : ∀ {ts open' after : List Text}, readTags? open' ts = some after →
    after.count name + (ts.filterMap stops?).count name = open'.count name + (ts.filterMap starts?).count name
  | [], open', after, h => by
    cases h
    rfl
  | t :: ts, open', after, h => by
    rw [readTags?_cons] at h
    obtain ⟨between, htag, hmore⟩ := Option.bind_eq_some_iff.1 h
    have ih := readTags?_count name hmore
    cases hstops : stops? t with
    | some stopped =>
      rw [readTag?_stop hstops] at htag
      rw [List.filterMap_cons_some hstops, List.filterMap_cons_none (starts?_of_stops? hstops), htag,
        List.count_cons, List.count_cons]
      omega
    | none =>
      rw [readTag?_start hstops] at htag
      cases htag
      rw [List.filterMap_cons_none hstops, ih, List.count_append, List.filterMap_cons]
      cases starts? t with
      | none => simp
      | some started =>
        rw [Option.toList_some, List.count_cons, List.count_cons, List.count_nil]
        omega

/-! ### Elements -/

/-- Text whose tags are nested, and in which nothing else has an angle bracket, and no
ampersand stands for itself. -/
structure WellNested (s : Text) : Prop where
  tagged : IsTagged s
  referenced : Markup.Referenced s
  closed : readTags? [] (tags s) = some []

theorem wellNested_escape_iff : WellNested (escape s) ↔ readTags? [] (tags s) = some [] :=
  ⟨fun h => readTags?_escape [] s ▸ h.closed,
    fun h => ⟨isTagged_escape s, referenced_escape s, (readTags?_escape [] s).trans h⟩⟩

theorem tags_tag (h : IsTag tag) : tags tag = [inside tag] := by
  have htags := tags_append_tag h [] []
  rwa [tags_nil, List.nil_append, List.append_nil] at htags

theorem readTags?_single (hn : name ∈ names) (ha : IsTagRest attrs) (hslash : attrs.getLast? = some '/') :
    readTags? [] (tags (startTag (name ++ attrs))) = some [] := by
  rw [tags_tag (.start hn ha), inside_startTag, readTags?_cons, readTag?_start (stops?_start hn attrs),
    starts?_start hn ha, if_pos hslash]
  rfl

/-- An element's tags are nested if those of its content are, within its name. -/
theorem readTags?_paired (hn : name ∈ names) (ha : IsTagRest attrs) (hslash : attrs.getLast? ≠ some '/')
    (content : Text) :
    readTags? [] (tags (startTag (name ++ attrs) ++ content ++ endTag name)) = some [] ↔
      readTags? [name] (tags content) = some [name] := by
  have htags : tags (startTag (name ++ attrs) ++ content ++ endTag name) =
      (name ++ attrs) :: (tags content ++ ['/' :: name]) := by
    have hend := tags_append_tag (isTag_endTag hn) (startTag (name ++ attrs) ++ content) []
    have hboth := tags_append_tag (.start hn ha) [] content
    rw [List.append_nil, tags_nil] at hend
    rw [List.nil_append, tags_nil, List.nil_append, inside_startTag] at hboth
    rw [hend, hboth]
    exact congrArg (fun t => (name ++ attrs) :: tags content ++ [t]) (inside_startTag ('/' :: name))
  have hstart : readTag? [] (name ++ attrs) = some [name] := by
    rw [readTag?_start (stops?_start hn attrs), starts?_start hn ha, if_neg hslash]
    rfl
  have hstop (open' : List Text) : readTags? open' ['/' :: name] = some [] ↔ open' = [name] := by
    have hstops : stops? ('/' :: name) = some name := by
      have h := stops?_stop hn .bare
      rwa [List.append_nil] at h
    rw [readTags?_cons, Option.bind_eq_some_iff]
    simp [readTag?_stop hstops, readTags?]
  rw [htags, readTags?_cons, hstart, Option.bind_some, readTags?_append, Option.bind_eq_some_iff]
  constructor
  · rintro ⟨open', hcontent, hclosed⟩
    rwa [(hstop open').1 hclosed] at hcontent
  · exact fun hcontent => ⟨[name], hcontent, (hstop [name]).2 rfl⟩

/-- Where a name is started and no tag ends it, it is not open once more in the end. -/
theorem readTags?_ne_of_unstopped {ts : List Text} (hstarts : name ∈ ts.filterMap starts?)
    (hstops : name ∉ ts.filterMap stops?) (open' : List Text) : readTags? open' ts ≠ some open' := by
  intro h
  have hcount := readTags?_count name h
  have hpos := List.count_pos_iff.2 hstarts
  rw [List.count_eq_zero.2 hstops] at hcount
  omega

/-- An element without content, which is nested, or one whose content decides it. -/
inductive NestingDecided : Text → Prop
  | single {name attrs : Text} : name ∈ names → IsTagRest attrs → attrs.getLast? = some '/' →
      WellNested (escape (startTag (name ++ attrs))) → NestingDecided (startTag (name ++ attrs))
  | paired {name attrs content : Text} : name ∈ names → IsTagRest attrs → attrs.getLast? ≠ some '/' →
      ¬endTag name <:+: content →
      (WellNested (escape (startTag (name ++ attrs) ++ content ++ endTag name)) ↔
        readTags? [name] (tags content) = some [name]) →
      (name ∈ (tags content).filterMap starts? → name ∉ (tags content).filterMap stops? →
        ¬WellNested (escape (startTag (name ++ attrs) ++ content ++ endTag name))) →
      NestingDecided (startTag (name ++ attrs) ++ content ++ endTag name)

theorem IsFragment.nestingDecided {f : Text} (h : IsFragment f) : NestingDecided f := by
  cases h with
  | single hn ha hslash => exact .single hn ha hslash (wellNested_escape_iff.2 (readTags?_single hn ha hslash))
  | @paired name attrs content hn ha hslash _ hcontent =>
    have hiff := wellNested_escape_iff.trans (readTags?_paired hn ha hslash content)
    exact .paired hn ha hslash hcontent hiff
      fun hstarts hstops hnested => readTags?_ne_of_unstopped hstarts hstops [name] (hiff.1 hnested)

/-- **Which fragments are nested.** The elements that the rule for markup finds in a
text become marks in which every angle bracket belongs to a tag and every ampersand to
a reference. One whose tag closes itself is well nested. Another one is so exactly if
the tags of its content, read within its own name, are: so it is not if an element of
the same name starts in it and no end tag of the name, written with white space, is
there. -/
theorem protect_nested (s : Text) : ∃ d : Division, d.text = s ∧
    protect s = d.map Span.cellsOf (fun f => [.mark (.fragment (escape f))]) ∧
    ∀ f ∈ d.found, IsTagged (escape f) ∧ Markup.Referenced (escape f) ∧ NestingDecided f := by
  obtain ⟨d, rfl, hd⟩ := Division.exists_leftmost (fun _ => isFragment_ne_nil) s
  refine ⟨d, rfl, Division.scan_text recognises_find (fun _ => isFragment_ne_nil) hd, fun f hf => ?_⟩
  exact ⟨isTagged_escape f, referenced_escape f, (hd.found f hf).nestingDecided⟩

/-- Emphasis within emphasis: the inner start tag has the end tag, and the outer one
has none. -/
theorem protect_unnested :
    let s := "<em>a <em>b</em> c</em>".toList
    let f := "<em>a <em>b</em>".toList
    protect s = .mark (.fragment (escape f)) :: Span.cellsOf " c</em>".toList ∧ ¬WellNested (escape f) ∧
      (Inline.transform ⟨.xref, [], .empty⟩ s).1 = "<em>a <em>b</em> c&lt;/em&gt;".toList := by
  refine ⟨by decide +kernel, ?_, by decide +kernel⟩
  rw [wellNested_escape_iff]
  decide +kernel

end Fragment
end QuartoPretext
