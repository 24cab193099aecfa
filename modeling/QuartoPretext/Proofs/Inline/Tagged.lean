/-
# Escaping markup that stands in the source

Within an element the tags of known names are kept, and what stands between them
and in them is escaped. So escaping an element gives an element again, of the
same tags; and it changes nothing of what it has made.

Key definitions: `Fragment.escapeTag`, `Fragment.IsTagged`.
Key theorems: `Fragment.escape_text`, `Fragment.isFragment_escape`,
`Fragment.escape_eq_iff`, `Fragment.escape_idempotent`.
-/
import QuartoPretext.Proofs.Inline.Fragment
import QuartoPretext.Proofs.Markup.Reference

namespace QuartoPretext.Fragment

open Text Mark

variable {name attrs s t : Text}

/-! ### Escaping between tags -/


/-- A tag with its inside escaped. -/
def escapeTag (tag : Text) : Text := startTag (Markup.escapeText (inside tag))

@[simp] theorem escapeTag_startTag (s : Text) : escapeTag (startTag s) = startTag (Markup.escapeText s) := by
  rw [escapeTag, inside_startTag]

theorem escapePieces_chars (t : Text) (ps : List Piece) : ∀ between : Text,
    escapePieces between (t.map Piece.char ++ ps) = escapePieces (t.reverse ++ between) ps := by
  induction t with
  | nil => exact fun _ => rfl
  | cons c t ih =>
    intro between
    rw [List.map_cons, List.cons_append, escapePieces, ih, List.reverse_cons, List.append_assoc]
    rfl

/-- Escaping a text escapes its tags and the text between them. -/
theorem escape_text {d : Division} (hd : d.Leftmost IsTag) :
    escape d.text = d.map Markup.escapeText escapeTag := by
  have hpieces : escapePieces [] (d.map (List.map Piece.char) fun tag => [Piece.tag (inside tag)]) =
      d.map Markup.escapeText escapeTag := by
    clear hd
    induction d with
    | last t =>
      have h := escapePieces_chars t [] []
      rw [List.append_nil] at h
      rw [Division.map, h, escapePieces, List.append_nil, List.reverse_reverse]
      rfl
    | next t m more ih =>
      rw [Division.map, List.append_assoc, escapePieces_chars, List.singleton_append, escapePieces, ih,
        List.append_nil, List.reverse_reverse, Division.map, escapeTag, startTag]
      simp
  rw [escape, Division.scan_text recognises_tagPiece (fun _ => isTag_ne_nil) hd, hpieces]

/-- Escaping can be done on both sides of a tag on its own. -/
theorem escape_append_tag {tag : Text} (ht : IsTag tag) (s t : Text) :
    escape (s ++ tag ++ t) = escape s ++ escapeTag tag ++ escape t := by
  obtain ⟨d, rfl, hd⟩ := Division.exists_leftmost (fun _ => isTag_ne_nil) s
  obtain ⟨e, rfl, he⟩ := Division.exists_leftmost (fun _ => isTag_ne_nil) t
  have hjoin : (d.join tag e).Leftmost IsTag := by
    obtain ⟨inside, rfl, _⟩ := ht.angleless
    exact hd.join (fun _ => isTag_tail) ht he
  rw [← Division.text_join, escape_text hjoin, Division.map_join, ← escape_text hd, ← escape_text he]

theorem escape_nil : escape [] = [] := by
  have h := escape_text (d := .last []) trivial
  rwa [Division.text_last, Division.map, Markup.escapeText] at h

theorem IsTagRest.escape (h : IsTagRest attrs) : IsTagRest (Markup.escapeText attrs) := by
  cases h with
  | bare =>
    rw [Markup.escapeText]
    exact .bare
  | slash =>
    have h : Markup.Settled ['/'] := ⟨.char (by decide) .nil, by simp [Markup.Angleless]⟩
    rw [h.escapeText_eq]
    exact .slash
  | @spaced c s hc hs =>
    obtain ⟨hlt, hamp, hgt, _⟩ := Markup.isSpace_markup hc
    have he : Markup.escapeText (c :: s) = c :: Markup.escapeText s := by
      rw [Markup.escapeText_char hamp, Markup.contentChar_eq hlt hgt hamp]
      rfl
    rw [he]
    exact .spaced hc (he ▸ (Markup.settled_escapeText (c :: s)).angleless)

theorem escapeTag_start (hn : name ∈ names) (attrs : Text) :
    escapeTag (startTag (name ++ attrs)) = startTag (name ++ Markup.escapeText attrs) := by
  rw [escapeTag_startTag, Markup.escapeText_append_plain (name_plain hn)]

theorem escapeTag_stop (hn : name ∈ names) (attrs : Text) :
    escapeTag (startTag ('/' :: name ++ attrs)) = startTag ('/' :: name ++ Markup.escapeText attrs) := by
  have hplain : ∀ c ∈ '/' :: name, c ≠ '<' ∧ c ≠ '>' ∧ c ≠ '&' := by
    intro c hc
    rcases List.mem_cons.1 hc with rfl | hc
    · decide
    · exact name_plain hn c hc
  rw [escapeTag_startTag, Markup.escapeText_append_plain hplain]

theorem escapeTag_endTag (hn : name ∈ names) : escapeTag (endTag name) = endTag name := by
  have h := escapeTag_stop hn []
  rwa [Markup.escapeText, List.append_nil] at h

theorem isTag_escapeTag {tag : Text} (h : IsTag tag) : IsTag (escapeTag tag) := by
  cases h with
  | start hn ha =>
    rw [escapeTag_start hn]
    exact .start hn ha.escape
  | stop hn ha =>
    rw [escapeTag_stop hn]
    exact .stop hn ha.escape

/-- Escaping adds only the characters of three references. -/
theorem mem_escape {c : Char} (h : c ∈ escape s) : c ∈ s ∨ c ∈ "&ltgamp;".toList := by
  obtain ⟨d, rfl, hd⟩ := Division.exists_leftmost (fun _ => isTag_ne_nil) s
  rw [escape_text hd] at h
  refine Division.map_of_append (Q := fun u => c ∈ u → c ∈ d.text ∨ c ∈ "&ltgamp;".toList) ?_ ?_ ?_ h
  · exact fun hu hv hc => (List.mem_append.1 hc).elim hu hv
  · exact fun t ht hc => (Markup.mem_escapeText hc).imp_left ((Division.infix_of_mem_between ht).subset ·)
  · intro m hm hc
    obtain ⟨inside, rfl, _⟩ := (hd.found m hm).angleless
    have hsub := (Division.infix_of_mem_found hm).subset
    rw [escapeTag_startTag] at hc
    simp only [startTag, List.cons_append, List.mem_cons, List.mem_append, List.not_mem_nil, or_false] at hc hsub
    rcases hc with rfl | hc | rfl
    · exact .inl (hsub (by simp))
    · exact (Markup.mem_escapeText hc).imp_left fun hc => hsub (by simp [hc])
    · exact .inl (hsub (by simp))

/-- In text between tags without angle brackets only a tag looks like one. -/
theorem mem_found_of_infix {d : Division} (hfound : ∀ m ∈ d.found, IsTag m) (hbetween : ∀ t ∈ d.between, '<' ∉ t)
    {within : Text} (hwithin : Markup.Angleless within) (h : startTag within <:+: d.text) :
    startTag within ∈ d.found := by
  induction d with
  | last t =>
    exact absurd (h.subset List.mem_cons_self) (hbetween t List.mem_cons_self)
  | next t m more ih =>
    obtain ⟨inside, rfl, hinside⟩ := (hfound m List.mem_cons_self).angleless
    obtain ⟨a, b, hab⟩ := h
    simp only [Division.text_next, startTag, List.cons_append, List.append_assoc, List.nil_append] at hab
    obtain ⟨a', rfl, hrest⟩ := exists_append_of_not_mem hab (hbetween t List.mem_cons_self)
    cases a' with
    | nil =>
      obtain ⟨rfl, _⟩ := append_cons_inj (List.cons.inj hrest).2 (fun h => (hinside _ h).2 rfl)
        fun h => (hwithin _ h).2 rfl
      exact List.mem_cons_self
    | cons d a' =>
      have hlt : '<' ∉ inside ++ ['>'] := by
        rw [List.mem_append, not_or]
        exact ⟨fun h => (hinside _ h).1 rfl, by decide⟩
      have hrest := (List.cons.inj hrest).2
      rw [← List.singleton_append, ← List.append_assoc] at hrest
      obtain ⟨a'', _, hmore⟩ := exists_append_of_not_mem hrest.symm hlt
      refine List.mem_cons_of_mem _ (ih (fun m hm => hfound m (List.mem_cons_of_mem _ hm))
        (fun t' ht' => hbetween t' (List.mem_cons_of_mem t ht')) ⟨a'', b, ?_⟩)
      rw [hmore]
      simp [startTag]

/-- Escaping makes no end tag and loses none. -/
theorem endTag_infix_escape (hn : name ∈ names) : endTag name <:+: escape s → endTag name <:+: s := by
  obtain ⟨d, rfl, hd⟩ := Division.exists_leftmost (fun _ => isTag_ne_nil) s
  rw [escape_text hd, ← Division.text_change]
  intro h
  have hfound : ∀ m ∈ (d.change Markup.escapeText escapeTag).found, IsTag m := by
    rw [Division.found_change]
    rintro m hm
    obtain ⟨tag, htag, rfl⟩ := List.mem_map.1 hm
    exact isTag_escapeTag (hd.found tag htag)
  have hbetween : ∀ t ∈ (d.change Markup.escapeText escapeTag).between, '<' ∉ t := by
    rw [Division.between_change]
    rintro t ht hlt
    obtain ⟨u, _, rfl⟩ := List.mem_map.1 ht
    exact ((Markup.settled_escapeText u).angleless _ hlt).1 rfl
  have hslash : Markup.Angleless ('/' :: name) := by
    have hone : Markup.Angleless ['/'] := by simp [Markup.Angleless]
    exact hone.append (angleless_of_name hn)
  have hmem := mem_found_of_infix hfound hbetween hslash h
  rw [Division.found_change] at hmem
  obtain ⟨tag, htag, he⟩ := List.mem_map.1 hmem
  obtain ⟨inside, rfl, _⟩ := (hd.found tag htag).angleless
  -- an end tag without attributes has nothing that was escaped
  rw [escapeTag_startTag] at he
  have hinside : Markup.escapeText inside = '/' :: name := by
    have h := congrArg Fragment.inside he
    rwa [inside_startTag, inside_startTag] at h
  have hplain : '&' ∉ Markup.escapeText inside := by
    rw [hinside, List.mem_cons, not_or]
    exact ⟨by decide, fun h => (name_plain hn _ h).2.2 rfl⟩
  rw [Markup.eq_of_escapeText hplain] at hinside
  rw [hinside] at htag
  exact Division.infix_of_mem_found htag

/-- An element is one after escaping, too. -/
theorem isFragment_escape (h : IsFragment s) : IsFragment (escape s) := by
  cases h with
  | @single name attrs hn ha hslash =>
    have h := escape_append_tag (.start hn ha) [] []
    rw [escape_nil, List.nil_append, List.append_nil, List.nil_append, List.append_nil, escapeTag_start hn] at h
    rw [h]
    exact .single hn ha.escape (Markup.getLast?_escapeText.2 hslash)
  | @paired name attrs content hn ha hslash hline hcontent =>
    have hstart := escape_append_tag (.start hn ha) [] (content ++ endTag name)
    have hend := escape_append_tag (isTag_endTag hn) content []
    rw [escape_nil, List.append_nil, List.append_nil, escapeTag_endTag hn] at hend
    rw [escape_nil, List.nil_append, List.nil_append, hend, escapeTag_start hn, ← List.append_assoc,
      ← List.append_assoc] at hstart
    rw [hstart]
    refine .paired hn ha.escape (fun h => hslash (Markup.getLast?_escapeText.1 h)) (fun h => hline ?_)
      fun h => hcontent (endTag_infix_escape hn h)
    exact (mem_escape h).resolve_right (by decide)

/-- Text in which every angle bracket belongs to a tag of a known name. -/
def IsTagged (s : Text) : Prop :=
  ∃ d : Division, d.text = s ∧ (∀ m ∈ d.found, IsTag m) ∧ ∀ t ∈ d.between, Markup.Angleless t

/-- The references of a text that is divided by stretches in angle brackets. -/
theorem referenced_division {d : Division} (hfound : ∀ m ∈ d.found, ∃ within, m = startTag within) :
    Markup.Referenced d.text →
      (∀ t ∈ d.between, Markup.Referenced t) ∧ ∀ m ∈ d.found, Markup.Referenced (inside m) := by
  induction d with
  | last t => exact fun h => ⟨fun t' ht' => List.mem_singleton.1 ht' ▸ h, nofun⟩
  | next t m more ih =>
    intro h
    obtain ⟨within, rfl⟩ := hfound m List.mem_cons_self
    simp only [Division.text_next, startTag, List.cons_append, List.append_assoc, List.nil_append] at h
    obtain ⟨ht, h⟩ := h.split Markup.isOutside_opening
    obtain ⟨hwithin, h⟩ := h.split Markup.isOutside_closing
    obtain ⟨hbetween, hmore⟩ := ih (fun m hm => hfound m (List.mem_cons_of_mem _ hm)) h
    constructor
    · intro t' ht'
      rcases List.mem_cons.1 ht' with rfl | ht'
      · exact ht
      · exact hbetween t' ht'
    · intro m hm
      rcases List.mem_cons.1 hm with rfl | hm
      · rwa [inside_startTag]
      · exact hmore m hm

theorem referenced_startTag (h : Markup.Referenced s) : Markup.Referenced (startTag s) := by
  have hend : Markup.Referenced ['>'] := .char (by decide) .nil
  exact .char (by decide) (h.append hend)

theorem referenced_escape (s : Text) : Markup.Referenced (escape s) := by
  obtain ⟨d, rfl, hd⟩ := Division.exists_leftmost (fun _ => isTag_ne_nil) s
  rw [escape_text hd]
  exact Division.map_of_append Markup.Referenced.append
    (fun t _ => (Markup.settled_escapeText t).referenced)
    fun m _ => referenced_startTag (Markup.settled_escapeText (inside m)).referenced

theorem isTagged_escape (s : Text) : IsTagged (escape s) := by
  obtain ⟨d, rfl, hd⟩ := Division.exists_leftmost (fun _ => isTag_ne_nil) s
  refine ⟨d.change Markup.escapeText escapeTag, ?_, ?_, ?_⟩
  · rw [Division.text_change, escape_text hd]
  · rw [Division.found_change]
    intro m hm
    obtain ⟨tag, htag, rfl⟩ := List.mem_map.1 hm
    exact isTag_escapeTag (hd.found tag htag)
  · rw [Division.between_change]
    intro t ht
    obtain ⟨u, _, rfl⟩ := List.mem_map.1 ht
    exact (Markup.settled_escapeText u).angleless

theorem escape_of_isTagged (h : IsTagged s) (hr : Markup.Referenced s) : escape s = s := by
  obtain ⟨d, rfl, hfound, hbetween⟩ := h
  have hd : d.Leftmost IsTag := Division.leftmost_of_not_mem (fun _ => isTag_head) hfound
    fun t ht hlt => (hbetween t ht _ hlt).1 rfl
  obtain ⟨href, hrefTag⟩ := referenced_division (fun m hm => (hfound m hm).angleless.imp fun _ => And.left) hr
  rw [escape_text hd]
  refine Division.map_congr (fun t ht => Markup.Settled.escapeText_eq ⟨href t ht, hbetween t ht⟩) fun m hm => ?_
  obtain ⟨within, rfl, hwithin⟩ := (hfound m hm).angleless
  have hsettled : Markup.Settled within := ⟨inside_startTag within ▸ hrefTag _ hm, hwithin⟩
  rw [escapeTag_startTag, hsettled.escapeText_eq]
  rfl

/-- Escaping changes nothing of text whose angle brackets belong to tags and whose
ampersands start references, and of no other. -/

theorem escape_eq_iff : escape s = s ↔ IsTagged s ∧ Markup.Referenced s := by
  constructor
  · exact fun h => h ▸ ⟨isTagged_escape s, referenced_escape s⟩
  · exact fun h => escape_of_isTagged h.1 h.2

theorem escape_idempotent (s : Text) : escape (escape s) = escape s :=
  escape_eq_iff.2 ⟨isTagged_escape s, referenced_escape s⟩

end QuartoPretext.Fragment
