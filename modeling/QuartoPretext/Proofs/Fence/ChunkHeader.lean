/-
# The header of a chunk reads back

A chunk header names an engine, a label and options with quoted values. It is
split at its commas, and no comma within quotes counts: an option whose value
holds no double quote is one piece, whatever else the value holds. The quotes
are taken off a value all at once and of either kind, so a value is read back
unless it starts or ends with a single quote of its own.

Key definitions: `ChunkHeader`, `ChunkHeader.Plain`, `ChunkHeader.write`,
`CodeFence.Whole`.
Key theorems: `CodeFence.options_header`, `CodeFence.unquote_eq_self_iff`,
`CodeFence.parse?_write`.
-/
import QuartoPretext.Fence.Open
import QuartoPretext.Proofs.Text.Cut

namespace QuartoPretext

/-- Entries with distinct keys that are inserted one after the other are all found. -/
theorem Assoc.get?_foldl_insert {α β : Type} (f : α → β) (k : Text) : ∀ {es : List (Text × α)} {t : Assoc Text β},
    (es.map (·.1)).Nodup →
    (es.foldl (fun t e => t.insert e.1 (f e.2)) t).get? k = ((es.lookup k).map f).or (t.get? k)
  | [], _, _ => rfl
  | e :: es, t, hnd => by
    obtain ⟨hfresh, hnd⟩ := List.nodup_cons.1 hnd
    rw [List.foldl_cons, Assoc.get?_foldl_insert f k hnd, Assoc.get?_insert, lookup_cons]
    by_cases hk : k = e.1
    · subst hk
      have hnone : es.lookup e.1 = none := List.lookup_eq_none_iff.2 fun e' he' =>
        bne_iff_ne.2 fun heq => hfresh (List.mem_map.2 ⟨e', he', heq.symm⟩)
      simp [hnone]
    · simp [hk]

theorem Assoc.lookup_of_mem {α : Type} : ∀ {es : List (Text × α)}, (es.map (·.1)).Nodup →
    ∀ e ∈ es, es.lookup e.1 = some e.2
  | e :: es, hnd, e', he' => by
    obtain ⟨hfresh, hnd⟩ := List.nodup_cons.1 hnd
    rw [lookup_cons]
    rcases List.mem_cons.1 he' with rfl | he'
    · exact if_pos (beq_self_eq_true e'.1)
    · have hne : e'.1 ≠ e.1 := fun heq => hfresh (List.mem_map.2 ⟨e', he', heq⟩)
      rw [if_neg (by simpa using hne)]
      exact lookup_of_mem hnd e' he'

/-- What the header of an executable chunk says. -/
structure ChunkHeader where
  engine : Text
  label : Text
  /-- the options, each a key and its value -/
  options : List (Text × Text)

namespace ChunkHeader

open Text

/-- A character of a key: a letter, a digit, a full stop, a hyphen or a low line. -/
def isKeyChar (c : Char) : Bool := isAlphanumeric c || c == '.' || c == '-' || c == '_'

/-- ASCII letters, digits and hyphens. -/
def IsName (s : Text) : Prop := s ≠ [] ∧ ∀ c ∈ s, c.isAlphanum = true ∨ c = '-'

/-- A header that can be written out: engine and label are names, and the engine
starts with a letter; the keys are distinct, and no value holds a double quote or a
backtick. -/
structure Plain (h : ChunkHeader) : Prop where
  engine : IsName h.engine
  letter : ∀ c ∈ h.engine.head?, c.isAlpha = true
  label : IsName h.label
  keys : ∀ o ∈ h.options, ∀ c ∈ o.1, isKeyChar c = true
  distinct : (h.options.map (·.1)).Nodup
  values : ∀ o ∈ h.options, '"' ∉ o.2 ∧ '\x60' ∉ o.2

instance (s : Text) : Decidable (IsName s) := inferInstanceAs (Decidable (_ ∧ _))

instance (h : ChunkHeader) : Decidable h.Plain :=
  decidable_of_iff (IsName h.engine ∧ (∀ c ∈ h.engine.head?, c.isAlpha = true) ∧ IsName h.label ∧
      (∀ o ∈ h.options, ∀ c ∈ o.1, isKeyChar c = true) ∧ (h.options.map (·.1)).Nodup ∧
      ∀ o ∈ h.options, '"' ∉ o.2 ∧ '\x60' ∉ o.2)
    ⟨fun ⟨engine, letter, label, keys, distinct, values⟩ => ⟨engine, letter, label, keys, distinct, values⟩,
      fun h => ⟨h.engine, h.letter, h.label, h.keys, h.distinct, h.values⟩⟩

/-- An option as it is written, its value in double quotes. -/
def writeOption (o : Text × Text) : Text := o.1 ++ '=' :: '"' :: (o.2 ++ ['"'])

/-- The inside of the braces: the engine, the label, and the options after commas. -/
def inside (h : ChunkHeader) : Text :=
  h.engine ++ ' ' :: h.label ++ (h.options.map fun o => ' ' :: writeOption o).flatMap (',' :: ·)

/-- The opening line of a chunk with this header. -/
def write (h : ChunkHeader) : Text := ['\x60', '\x60', '\x60'] ++ '\x7b' :: (h.inside ++ ['\x7d'])

variable {c d : Char} {s : Text} {o : Text × Text} {header : ChunkHeader}

/-! ### Characters -/

theorem ne_of_isKeyChar (hc : isKeyChar c = true) (hd : isKeyChar d = false) : c ≠ d :=
  ne_of_apply_ne isKeyChar (by simp [hc, hd])

theorem isSpace_of_isKeyChar (hc : isKeyChar c = true) : isSpace c = false := by
  simp only [isKeyChar, Bool.or_eq_true, beq_iff_eq] at hc
  rcases hc with ((halnum | rfl) | rfl) | rfl
  · exact isSpace_of_isAlphanumeric halnum
  all_goals decide

theorem IsName.isKeyChar (hs : IsName s) : ∀ c ∈ s, isKeyChar c = true := by
  intro c hc
  rcases hs.2 c hc with halnum | rfl
  · simp [ChunkHeader.isKeyChar, isAlphanumeric_of_isAlphanum halnum]
  · simp [ChunkHeader.isKeyChar]

theorem endsBare_of_isKeyChar (hs : ∀ c ∈ s, isKeyChar c = true) : EndsBare s :=
  fun c hc => isSpace_of_isKeyChar (hs c (List.mem_of_getLast? hc))

end ChunkHeader

namespace CodeFence

open Text ChunkHeader

variable {a s v : Text} {c : Char} {o : Text × Text} {header : ChunkHeader}

/-! ### Commas and quotes -/

theorem foldr_extendFirst (a p : Text) (more : List Text) : a.foldr extendFirst (p :: more) = (a ++ p) :: more := by
  induction a with
  | nil => rfl
  | cons c a ih => rw [List.foldr_cons, ih]; rfl

/-- A text that belongs to one option: no quote is open at its end, and each comma in
it stands within quotes. -/
def Whole (a : Text) : Prop := ∀ s, options none (a ++ s) = a.foldr extendFirst (options none s)

theorem Whole.append {b : Text} (ha : Whole a) (hb : Whole b) : Whole (a ++ b) := by
  intro s
  rw [List.append_assoc, ha, hb, List.foldr_append]

theorem whole_of_plain (ha : ∀ c ∈ a, isQuote c = false ∧ c ≠ ',') : Whole a := by
  intro s
  induction a with
  | nil => rfl
  | cons c a ih =>
    obtain ⟨⟨hquote, hcomma⟩, ha⟩ := List.forall_mem_cons.1 ha
    rw [List.cons_append, options, List.foldr_cons, ← ih ha]
    simp [hquote, hcomma]

theorem options_quoted (s : Text) : ∀ {v : Text}, '"' ∉ v →
    options (some '"') (v ++ '"' :: s) = (v ++ ['"']).foldr extendFirst (options none s)
  | [], _ => rfl
  | c :: v, hv => by
    obtain ⟨hc, hv⟩ := not_or.1 (mt List.mem_cons.2 hv)
    have hopen : (c == '"') = false := beq_eq_false_iff_ne.2 (Ne.symm hc)
    rw [List.cons_append, List.cons_append, options, List.foldr_cons, ← options_quoted s hv]
    simp [hopen]

theorem whole_quoted (hv : '"' ∉ v) : Whole ('"' :: (v ++ ['"'])) := by
  intro s
  rw [List.cons_append, List.append_assoc, List.foldr_cons, ← options_quoted s hv]
  rfl

theorem whole_writeOption (hkey : ∀ c ∈ o.1, isKeyChar c = true) (hvalue : '"' ∉ o.2) : Whole (writeOption o) := by
  have hplain : Whole (o.1 ++ ['=']) := by
    refine whole_of_plain (List.forall_mem_append.2 ⟨fun c hc => ?_, by decide⟩)
    have hdouble : c ≠ '"' := ne_of_isKeyChar (hkey c hc) (by decide)
    have hsingle : c ≠ '\'' := ne_of_isKeyChar (hkey c hc) (by decide)
    exact ⟨by simp [isQuote, hdouble, hsingle], ne_of_isKeyChar (hkey c hc) (by decide)⟩
  have hwritten : writeOption o = (o.1 ++ ['=']) ++ '"' :: (o.2 ++ ['"']) := by simp [writeOption]
  rw [hwritten]
  exact hplain.append (whole_quoted hvalue)

/-- A header is split at the commas between its parts. -/
theorem options_commas : ∀ {ps : List Text} {a : Text}, Whole a → (∀ p ∈ ps, Whole p) →
    options none (a ++ ps.flatMap (',' :: ·)) = a :: ps
  | [], a, ha, _ => by
    rw [List.flatMap_nil, ha, options, foldr_extendFirst, List.append_nil]
  | p :: ps, a, ha, hps => by
    obtain ⟨hp, hps⟩ := List.forall_mem_cons.1 hps
    have hcomma : options none (',' :: (p ++ ps.flatMap (',' :: ·))) = [] :: p :: ps := by
      rw [← options_commas hp hps]
      rfl
    rw [List.flatMap_cons, ha, List.cons_append, hcomma, foldr_extendFirst, List.append_nil]

theorem options_header (h : header.Plain) : options none header.inside =
    (header.engine ++ ' ' :: header.label) :: header.options.map fun o => ' ' :: writeOption o := by
  have hname {s : Text} (hs : IsName s) : ∀ c ∈ s, isQuote c = false ∧ c ≠ ',' := fun c hc => by
    have hkey := hs.isKeyChar c hc
    have hdouble : c ≠ '"' := ne_of_isKeyChar hkey (by decide)
    have hsingle : c ≠ '\'' := ne_of_isKeyChar hkey (by decide)
    exact ⟨by simp [isQuote, hdouble, hsingle], ne_of_isKeyChar hkey (by decide)⟩
  apply options_commas
  · refine whole_of_plain (List.forall_mem_append.2 ⟨hname h.engine, ?_⟩)
    exact List.forall_mem_cons.2 ⟨by decide, hname h.label⟩
  · intro p hp
    obtain ⟨o, ho, rfl⟩ := List.mem_map.1 hp
    exact (whole_of_plain (a := [' ']) (by decide)).append (whole_writeOption (h.keys o ho) (h.values o ho).1)

/-! ### Quotes that are taken off -/

theorem unquote_quoted (v : Text) : unquote ('"' :: (v ++ ['"'])) = unquote v := by
  have hopen : ('"' :: (v ++ ['"'])).dropWhile isQuote = (v ++ ['"']).dropWhile isQuote :=
    List.dropWhile_cons_of_pos (by decide)
  rw [unquote, unquote, hopen, List.dropWhile_append]
  by_cases hv : (v.dropWhile isQuote).isEmpty = true
  · rw [if_pos hv, List.isEmpty_iff.1 hv]
    rfl
  · rw [if_neg hv, List.reverse_append]
    exact congrArg List.reverse (List.dropWhile_cons_of_pos (by decide))

/-- A text keeps all its characters exactly if there is no quote at either end. -/
theorem unquote_eq_self_iff : unquote v = v ↔
    (∀ c ∈ v.head?, isQuote c = false) ∧ ∀ c ∈ v.getLast?, isQuote c = false := by
  constructor
  · intro hv
    have hprefix : unquote v <+: v.dropWhile isQuote := by
      have hsuffix := List.dropWhile_suffix isQuote (l := (v.dropWhile isQuote).reverse)
      simpa [unquote] using List.reverse_prefix.2 hsuffix
    refine ⟨fun c hc => ?_, fun c hc => ?_⟩
    · obtain ⟨more, hmore⟩ := hv ▸ hprefix
      obtain ⟨t, rfl⟩ := List.head?_eq_some_iff.1 hc
      have hkept : c ∈ ((c :: t).dropWhile isQuote).head? := by
        rw [← hmore]
        rfl
      exact of_mem_head_dropWhile hkept
    · rw [← hv, unquote, List.getLast?_reverse] at hc
      exact of_mem_head_dropWhile hc
  · rintro ⟨hhead, hlast⟩
    rw [← List.head?_reverse] at hlast
    rw [unquote, dropWhile_of_head hhead, dropWhile_of_head hlast, List.reverse_reverse]

/-- A value without a double quote is read back if no single quote stands at its ends. -/
theorem unquote_eq_self_of_single (hv : '"' ∉ v) :
    unquote v = v ↔ v.head? ≠ some '\'' ∧ v.getLast? ≠ some '\'' := by
  have hquote {c : Char} (hc : c ∈ v) : isQuote c = false ↔ c ≠ '\'' := by
    have hdouble : c ≠ '"' := fun heq => hv (heq ▸ hc)
    simp [isQuote, hdouble]
  rw [unquote_eq_self_iff]
  refine and_congr ⟨fun h hc => ?_, fun h c hc => ?_⟩ ⟨fun h hc => ?_, fun h c hc => ?_⟩
  · exact (hquote (List.mem_of_head? hc)).1 (h _ hc) rfl
  · exact (hquote (List.mem_of_head? hc)).2 fun heq => h (heq ▸ hc)
  · exact (hquote (List.mem_of_getLast? hc)).1 (h _ hc) rfl
  · exact (hquote (List.mem_of_getLast? hc)).2 fun heq => h (heq ▸ hc)

/-! ### Options that are added -/

theorem trim_writeOption (hkey : ∀ c ∈ o.1, isKeyChar c = true) : trim (' ' :: writeOption o) = writeOption o := by
  have hspace : trim (' ' :: writeOption o) = trim (writeOption o) := by
    rw [trim, trimStart, List.dropWhile_cons_of_pos (by decide)]
    rfl
  rw [hspace]
  apply trim_of_bare
  · intro c hc
    obtain ⟨key, value⟩ := o
    cases key with
    | nil =>
      cases hc
      decide
    | cons d key =>
      cases hc
      exact isSpace_of_isKeyChar (hkey c List.mem_cons_self)
  · have hwritten : writeOption o = o.1 ++ '=' :: '"' :: o.2 ++ ['"'] := by simp [writeOption]
    rw [hwritten]
    exact endsBare_concat _ (by decide)

theorem addOption_label (f : CodeFence) (hs : IsName s) (hlabel : f.label = none) :
    f.addOption s = { f with label := some s } := by
  have hcut : cutWhere? (· == '=') s = none := cutWhere?_eq_none fun c hc =>
    beq_eq_false_iff_ne.2 (ne_of_isKeyChar (hs.isKeyChar c hc) (by decide))
  rw [addOption, hcut, hlabel]
  simp [hs.1]

theorem addOption_writeOption (f : CodeFence) (hkey : ∀ c ∈ o.1, isKeyChar c = true) :
    f.addOption (writeOption o) =
      { f with attrs := { f.attrs with values := f.attrs.values.insert o.1 (unquote o.2) } } := by
  have hcut : cutWhere? (· == '=') (writeOption o) = some (o.1, '"' :: (o.2 ++ ['"'])) :=
    cutWhere?_append rfl fun c hc => beq_eq_false_iff_ne.2 (ne_of_isKeyChar (hkey c hc) (by decide))
  have hkeyTrim : trim o.1 = o.1 := trim_of_bare
    (fun c hc => isSpace_of_isKeyChar (hkey c (List.mem_of_head? hc))) (endsBare_of_isKeyChar hkey)
  have hvalueTrim : trim ('"' :: (o.2 ++ ['"'])) = '"' :: (o.2 ++ ['"']) := by
    apply trim_of_bare
    · intro c hc
      cases hc
      decide
    · exact endsBare_concat ('"' :: o.2) (by decide)
  rw [addOption, hcut]
  simp only [hkeyTrim, hvalueTrim, unquote_quoted]

theorem foldl_addOption : ∀ {options : List (Text × Text)} {f : CodeFence},
    (∀ o ∈ options, ∀ c ∈ o.1, isKeyChar c = true) → (options.map writeOption).foldl addOption f =
      { f with attrs := { f.attrs with
          values := options.foldl (fun t o => t.insert o.1 (unquote o.2)) f.attrs.values } }
  | [], _, _ => rfl
  | o :: options, f, h => by
    obtain ⟨ho, h⟩ := List.forall_mem_cons.1 h
    rw [List.map_cons, List.foldl_cons, addOption_writeOption f ho, foldl_addOption h]
    rfl

/-- What a header adds to a fence that says nothing. -/
theorem withHeader_inside (h : header.Plain) (opener : Text) (mark : FenceMark) :
    (bare opener mark).withHeader header.inside = ⟨opener, mark, some header.engine, true, some header.label,
      ⟨none, [], header.options.foldl (fun t o => t.insert o.1 (unquote o.2)) Assoc.empty⟩⟩ := by
  have hspace {s : Text} (hs : IsName s) : ∀ c ∈ s, isSpace c = false :=
    fun c hc => isSpace_of_isKeyChar (hs.isKeyChar c hc)
  have hwords : words (header.engine ++ ' ' :: header.label) = [header.engine, header.label] := by
    rw [words_append (by decide), words_eq_singleton h.engine.1 (hspace h.engine),
      words_eq_singleton h.label.1 (hspace h.label)]
    rfl
  have htrim : (header.options.map fun o => ' ' :: writeOption o).map trim = header.options.map writeOption := by
    rw [List.map_map]
    exact List.map_congr_left fun o ho => trim_writeOption (h.keys o ho)
  rw [withHeader, options_header h]
  simp only [List.headD_cons, List.tail_cons, hwords, List.head?_cons, htrim, List.singleton_append, List.foldl_cons]
  rw [addOption_label _ h.label rfl, foldl_addOption h.keys]
  rfl

/-! ### The opening line -/

theorem endsBare_options : ∀ options : List (Text × Text),
    EndsBare ((options.map fun o => ' ' :: writeOption o).flatMap (',' :: ·))
  | [] => by simp [EndsBare]
  | o :: options => by
    have hwritten : ',' :: ' ' :: writeOption o = ',' :: ' ' :: (o.1 ++ '=' :: '"' :: o.2) ++ ['"'] := by
      simp [writeOption]
    rw [List.map_cons, List.flatMap_cons, hwritten]
    exact (endsBare_concat _ (by decide)).append (endsBare_options options)

theorem trim_inside (h : header.Plain) : trim header.inside = header.inside := by
  obtain ⟨c, engine, hengine⟩ := List.exists_cons_of_ne_nil h.engine.1
  obtain ⟨label, d, hlabel⟩ : ∃ label d, header.label = label ++ [d] :=
    (List.eq_nil_or_concat' header.label).resolve_left h.label.1
  apply trim_of_bare
  · intro e he
    rw [inside, hengine] at he
    cases he
    exact isSpace_of_isKeyChar (h.engine.isKeyChar c (hengine ▸ List.mem_cons_self))
  · have hlast : isSpace d = false := isSpace_of_isKeyChar (h.label.isKeyChar d (by simp [hlabel]))
    have hstart : header.engine ++ ' ' :: header.label = (header.engine ++ ' ' :: label) ++ [d] := by simp [hlabel]
    rw [inside, hstart]
    exact (endsBare_concat _ hlast).append (endsBare_options _)

theorem isAttributeBlock_inside (h : header.Plain) : isAttributeBlock header.inside = false := by
  obtain ⟨c, engine, hengine⟩ := List.exists_cons_of_ne_nil h.engine.1
  have hc : c.isAlpha = true := h.letter c (by rw [hengine]; rfl)
  have hdot : c ≠ '.' := ne_of_apply_ne Char.isAlpha (by rw [hc]; decide)
  have hsign : c ≠ '#' := ne_of_apply_ne Char.isAlpha (by rw [hc]; decide)
  have hequals : c ≠ '=' := ne_of_apply_ne Char.isAlpha (by rw [hc]; decide)
  rw [inside, hengine]
  simp [isAttributeBlock, hdot, hsign, hequals]

theorem backtick_not_mem_inside (h : header.Plain) : '\x60' ∉ header.inside := by
  have hkeys {s : Text} (hs : ∀ c ∈ s, isKeyChar c = true) : '\x60' ∉ s := fun hc =>
    absurd (hs _ hc) (by decide)
  have hoption : ∀ o ∈ header.options, '\x60' ∉ writeOption o := by
    intro o ho
    simp [writeOption, hkeys (h.keys o ho), (h.values o ho).2]
  simp only [inside, List.mem_append, List.mem_cons, List.mem_flatMap, List.mem_map, not_or, not_exists, not_and]
  refine ⟨⟨hkeys h.engine.isKeyChar, by decide, hkeys h.label.isKeyChar⟩, ?_⟩
  rintro _ ⟨o, ho, rfl⟩
  simp [hoption o ho]

theorem detect?_write (h : header.Plain) : FenceMark.detect? header.write = some ⟨'\x60', 3⟩ := by
  have hinfo : '\x60' ∉ '\x7b' :: (header.inside ++ ['\x7d']) := by
    simp [backtick_not_mem_inside h]
  obtain ⟨htake, hdrop⟩ := span_append (s := ['\x60', '\x60']) (t := '\x7b' :: (header.inside ++ ['\x7d']))
    (p := (· == '\x60')) (by decide) (by simp)
  have hwritten : header.write = '\x60' :: (['\x60', '\x60'] ++ '\x7b' :: (header.inside ++ ['\x7d'])) := rfl
  rw [hwritten, FenceMark.detect?, htake, hdrop]
  simp [hinfo]

theorem parse?_write_eq (h : header.Plain) : parse? header.write = some ⟨header.write, ⟨'\x60', 3⟩,
    some header.engine, true, some header.label,
    ⟨none, [], header.options.foldl (fun t o => t.insert o.1 (unquote o.2)) Assoc.empty⟩⟩ := by
  have hline : trim header.write = header.write := by
    have hwritten : header.write = (['\x60', '\x60', '\x60', '\x7b'] ++ header.inside) ++ ['\x7d'] := by simp [write]
    apply trim_of_bare
    · intro c hc
      cases hc
      decide
    · rw [hwritten]
      exact endsBare_concat _ (by decide)
  have hinfo : trim (header.write.drop 3) = ['\x7b'] ++ (header.inside ++ ['\x7d']) := by
    apply trim_of_bare
    · intro c hc
      cases hc
      decide
    · exact endsBare_concat ('\x7b' :: header.inside) (by decide)
  rw [parse?, hline, detect?_write h]
  simp only [Option.map_some, hinfo]
  rw [withInfo, between?_append]
  simp only [trim_inside h, isAttributeBlock_inside h, Bool.false_eq_true, if_false, withHeader_inside h]

/-- **A chunk header reads back if no value has a single quote at an end.** The
opening line that is written for a header is read as an executable chunk of its
engine and label, whatever its values hold besides. Each of its keys has its value
without the single quotes at both ends, and no other key has one. -/
theorem parse?_write (h : header.Plain) : ∃ f, parse? header.write = some f ∧ f.executable = true ∧
    f.language = some header.engine ∧ f.label = some header.label ∧
    (∀ key, f.attrs.get? key = (header.options.lookup key).map unquote) ∧
    ∀ o ∈ header.options, f.attrs.get? o.1 = some o.2 ↔ o.2.head? ≠ some '\'' ∧ o.2.getLast? ≠ some '\'' := by
  have hget (key : Text) : (header.options.foldl (fun t o => t.insert o.1 (unquote o.2)) Assoc.empty).get? key =
      (header.options.lookup key).map unquote :=
    (Assoc.get?_foldl_insert unquote key h.distinct).trans Option.or_none
  refine ⟨_, parse?_write_eq h, rfl, rfl, rfl, hget, fun o ho => ?_⟩
  rw [← unquote_eq_self_of_single (h.values o ho).1]
  refine (iff_of_eq (congrArg (· = some o.2) (hget o.1))).trans ?_
  rw [Assoc.lookup_of_mem h.distinct o ho, Option.map_some, Option.some_inj]

/-- A caption with commas, an equals sign, a brace and quotes within it. -/
def captioned : ChunkHeader := ⟨"r".toList, "fig-age".toList,
  [("fig.cap".toList, "Ages, in 'years' = \x7bn\x7d".toList), ("out.width".toList, "50%".toList)]⟩

theorem parse?_write_captioned : captioned.Plain ∧ ∃ f, parse? captioned.write = some f ∧
    f.attrs.get? "fig.cap".toList = some "Ages, in 'years' = \x7bn\x7d".toList := by
  have hplain : captioned.Plain := by decide +kernel
  obtain ⟨f, hf, -, -, -, -, hvalues⟩ := parse?_write hplain
  exact ⟨hplain, f, hf, (hvalues _ List.mem_cons_self).2 (by decide +kernel)⟩

/-- A single quote that a value starts with is lost. -/
def quoting : ChunkHeader := ⟨"r".toList, "fig-age".toList, [("fig.cap".toList, "'Ages' today".toList)]⟩

theorem parse?_write_quoting : quoting.Plain ∧ quoting.options.lookup "fig.cap".toList = some "'Ages' today".toList ∧
    ∃ f, parse? quoting.write = some f ∧ f.attrs.get? "fig.cap".toList = some "Ages' today".toList := by
  have hplain : quoting.Plain := by decide +kernel
  exact ⟨hplain, by decide +kernel, _, parse?_write_eq hplain, by decide +kernel⟩

end CodeFence
end QuartoPretext
