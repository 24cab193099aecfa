/-
# Attribute blocks read back

An entry that is written out, followed by white space or the end of the block, is
read as itself and nothing after it is touched: a name ends at white space, and a
value at its closing quote, so no character of an entry is taken for the start of
another. Hence a block of written entries is read entry by entry, and from the
entries its identifier, classes and values are known.

Key definitions: `Attribute.Writable`, `Attribute.write`, `Attributes.Written`.
Key theorems: `Attribute.read_write`, `Attributes.list_written`,
`Attributes.parse_written`.
-/
import QuartoPretext.Attributes.Basic
import QuartoPretext.Proofs.Text.Cut

namespace QuartoPretext

namespace Attribute

open Text

/-- Entries that can be written out: names are not empty and hold no white space
and nothing that starts another name; keys are not empty, do not start like a name
and hold no white space and no equals sign; values hold no double quote. -/
def Writable : Attribute → Prop
  | ident name | className name => name ≠ [] ∧ ∀ c ∈ name, isSpace c = false ∧ c ≠ '.' ∧ c ≠ '#'
  | keyed key value => key ≠ [] ∧ (∀ c ∈ key, isSpace c = false ∧ c ≠ '=') ∧
      (∀ c ∈ key.head?, c ≠ '#' ∧ c ≠ '.') ∧ '"' ∉ value

instance : DecidablePred Writable
  | ident name | className name =>
    inferInstanceAs (Decidable (name ≠ [] ∧ ∀ c ∈ name, isSpace c = false ∧ c ≠ '.' ∧ c ≠ '#'))
  | keyed key value => inferInstanceAs (Decidable (key ≠ [] ∧ (∀ c ∈ key, isSpace c = false ∧ c ≠ '=') ∧
      (∀ c ∈ key.head?, c ≠ '#' ∧ c ≠ '.') ∧ '"' ∉ value))

/-- The entry as it stands in a block, its value in double quotes. -/
def write : Attribute → Text
  | ident name => '#' :: name
  | className name => '.' :: name
  | keyed key value => key ++ '=' :: '"' :: (value ++ ['"'])

/-- The name of an identifier. -/
def ident? : Attribute → Option Text
  | ident name => some name
  | _ => Option.none

/-- The name of a class. -/
def className? : Attribute → Option Text
  | className name => some name
  | _ => Option.none

/-- The value that an entry gives to a key. -/
def valueOf? (key : Text) : Attribute → Option Text
  | keyed k value => if key = k then some value else Option.none
  | _ => Option.none

variable {name key value rest : Text}

theorem named_append {make : Text → Attribute} (hne : name ≠ [])
    (hname : ∀ c ∈ name, isSpace c = false ∧ c ≠ '.' ∧ c ≠ '#') (hrest : ∀ c ∈ rest.head?, isSpace c = true) :
    named make (name ++ rest) = (some (make name), rest) := by
  have hchars : ∀ c ∈ name, isNameChar c = true := by
    intro c hc
    obtain ⟨hspace, hdot, hsign⟩ := hname c hc
    simp [isNameChar, hspace, hdot, hsign]
  have hstop : ∀ c ∈ rest.head?, isNameChar c = false := fun c hc => by simp [isNameChar, hrest c hc]
  obtain ⟨htake, hdrop⟩ := span_append hchars hstop
  rw [named, htake, hdrop]
  simp [hne]

theorem trim_key (hkey : ∀ c ∈ key, isSpace c = false ∧ c ≠ '=') : trim key = key := by
  apply trim_of_bare
  · exact fun c hc => (hkey c (List.mem_of_head? hc)).1
  · exact fun c hc => (hkey c (List.mem_of_getLast? hc)).1

theorem isKey_of_writable (h : (keyed key value).Writable) : isKey key = true := by
  obtain ⟨hne, hchars, hhead, -⟩ := h
  obtain ⟨c, key, rfl⟩ := List.exists_cons_of_ne_nil hne
  obtain ⟨hsign, hdot⟩ := hhead c rfl
  have hspace : (c :: key).any isSpace = false := List.any_eq_false.2 fun d hd => by simp [(hchars d hd).1]
  simp [isKey, hspace, hsign, hdot]

/-- The first equals sign is the one after the key, and the first quote after it
the one that closes the value. -/
theorem keyed?_append (h : (keyed key value).Writable) (rest : Text) :
    keyed? (write (keyed key value) ++ rest) = some (keyed key value, rest) := by
  have hcut : cutWhere? (· == '=') (key ++ '=' :: '"' :: (value ++ '"' :: rest)) =
      some (key, '"' :: (value ++ '"' :: rest)) :=
    cutWhere?_append rfl fun c hc => beq_eq_false_iff_ne.2 (h.2.1 c hc).2
  have hvalue : quoted? '"' (value ++ '"' :: rest) = some (value, rest) :=
    cutWhere?_append rfl fun c hc => beq_eq_false_iff_ne.2 fun heq => h.2.2.2 (heq ▸ hc)
  have hwritten : write (keyed key value) ++ rest = key ++ '=' :: '"' :: (value ++ '"' :: rest) := by simp [write]
  rw [hwritten, keyed?, hcut]
  simp only [trim_key h.2.1, isKey_of_writable h, if_true, value?, hvalue, Option.map_some]

theorem read_of_keyed? {a : Attribute} {c : Char} {s : Text} (hsign : c ≠ '#') (hdot : c ≠ '.')
    (h : keyed? (c :: s) = some (a, rest)) : read c s = (some a, rest) := by
  rw [read, if_neg (by simpa using hsign), if_neg (by simpa using hdot), h]

/-- A written entry is read as itself, up to where it ends. -/
theorem read_write {a : Attribute} (h : a.Writable) (hrest : ∀ c ∈ rest.head?, isSpace c = true) :
    ∃ c s, a.write ++ rest = c :: s ∧ isSpace c = false ∧ read c s = (some a, rest) := by
  cases a with
  | ident name =>
    refine ⟨'#', name ++ rest, rfl, rfl, ?_⟩
    rw [read, if_pos (by decide)]
    exact named_append h.1 h.2 hrest
  | className name =>
    refine ⟨'.', name ++ rest, rfl, rfl, ?_⟩
    rw [read, if_neg (by decide), if_pos (by decide)]
    exact named_append h.1 h.2 hrest
  | keyed key value =>
    obtain ⟨c, more, rfl⟩ := List.exists_cons_of_ne_nil h.1
    obtain ⟨hsign, hdot⟩ := h.2.2.1 c rfl
    exact ⟨c, _, rfl, (h.2.1 c List.mem_cons_self).1, read_of_keyed? hsign hdot (keyed?_append h rest)⟩

end Attribute

namespace Attributes

open Text Attribute

/-- A text in which entries are written in order, each two with white space between
them. There may be white space before the first one and after the last one. -/
inductive Written : List Attribute → Text → Prop
  | nil {gap : Text} : (∀ c ∈ gap, isSpace c = true) → Written [] gap
  | cons {gap rest : Text} {a : Attribute} {as : List Attribute} : (∀ c ∈ gap, isSpace c = true) →
      (∀ c ∈ rest.head?, isSpace c = true) → Written as rest → Written (a :: as) (gap ++ (a.write ++ rest))

variable {s : Text} {as : List Attribute}

/-- Entries that are written are read again, in order and with nothing between them. -/
theorem list_written (h : Written as s) (has : ∀ a ∈ as, a.Writable) : list s = as := by
  induction h with
  | nil hgap =>
    have hstart := List.dropWhile_eq_nil_iff.2 hgap
    rw [list]
    split
    · rfl
    · next c rest hc => exact absurd (hstart.symm.trans hc) (List.cons_ne_nil c rest).symm
  | @cons gap rest a as hgap hrest _ ih =>
    obtain ⟨ha, has⟩ := List.forall_mem_cons.1 has
    obtain ⟨c, t, ht, hc, hread⟩ := read_write ha hrest
    have hstart : trimStart (gap ++ (a.write ++ rest)) = c :: t := by
      rw [ht]
      refine (span_append hgap fun d hd => ?_).2
      cases hd
      exact hc
    rw [list]
    split
    · next hnil => exact absurd (hstart.symm.trans hnil) (List.cons_ne_nil c t)
    · next d u hd =>
      cases hstart.symm.trans hd
      rw [hread, ih has]
      rfl

/-! ### What entries say together -/

theorem id_foldl_add (as : List Attribute) (m : Attributes) :
    (as.foldl add m).id = (as.filterMap ident?).getLast?.or m.id := by
  induction as generalizing m with
  | nil => rfl
  | cons a as ih =>
    rw [List.foldl_cons, ih]
    cases a with
    | ident name => simp [ident?, add, List.getLast?_cons, Option.or_some]
    | className name => rfl
    | keyed key value => rfl

theorem classes_foldl_add (as : List Attribute) (m : Attributes) :
    (as.foldl add m).classes = m.classes ++ as.filterMap className? := by
  induction as generalizing m with
  | nil => exact (List.append_nil _).symm
  | cons a as ih =>
    rw [List.foldl_cons, ih]
    cases a with
    | ident name => rfl
    | className name => simp [className?, add]
    | keyed key value => rfl

theorem get?_foldl_add (key : Text) (as : List Attribute) (m : Attributes) :
    (as.foldl add m).get? key = (as.filterMap (valueOf? key)).getLast?.or (m.get? key) := by
  induction as generalizing m with
  | nil => rfl
  | cons a as ih =>
    rw [List.foldl_cons, ih]
    cases a with
    | ident name => rfl
    | className name => rfl
    | keyed k value =>
      have hget : (m.add (keyed k value)).get? key = if key == k then some value else m.get? key :=
        Assoc.get?_insert m.values k key value
      rw [hget]
      by_cases hk : key = k
      · simp [valueOf?, hk, List.getLast?_cons, Option.or_some]
      · simp [valueOf?, hk]

/-- **An attribute block reads back.** Of entries written in any order with white
space between them, the block has the last identifier, the classes in order, and for
each key the last value that is given to it. -/
theorem parse_written (h : Written as s) (has : ∀ a ∈ as, a.Writable) :
    (parse s).id = (as.filterMap ident?).getLast? ∧ (parse s).classes = as.filterMap className? ∧
      ∀ key, (parse s).get? key = (as.filterMap (valueOf? key)).getLast? := by
  rw [parse, list_written h has]
  refine ⟨?_, classes_foldl_add as none, fun key => ?_⟩
  · rw [id_foldl_add]
    exact Option.or_none
  · rw [get?_foldl_add]
    exact Option.or_none

/-- Entries of all kinds, one with a value that looks like other entries. -/
def mixedEntries : List Attribute :=
  [className "b".toList, keyed "k".toList "x #y .z w=1".toList, ident "a".toList, keyed "k".toList [], className "b".toList]

def mixedBlock : Text := ".b k=\"x #y .z w=1\"\t #a k=\"\" .b ".toList

theorem parse_written_mixed : Written mixedEntries mixedBlock ∧ (∀ a ∈ mixedEntries, a.Writable) ∧
    (parse mixedBlock).id = some "a".toList ∧ (parse mixedBlock).classes = ["b".toList, "b".toList] ∧
      (parse mixedBlock).get? "k".toList = some [] ∧ (parse mixedBlock).get? "w".toList = Option.none := by
  have htext : mixedBlock = [] ++ ((className "b".toList).write ++ ([' '] ++
      ((keyed "k".toList "x #y .z w=1".toList).write ++ (['\t', ' '] ++ ((ident "a".toList).write ++ ([' '] ++
        ((keyed "k".toList []).write ++ ([' '] ++ ((className "b".toList).write ++ [' ']))))))))) := by decide +kernel
  have hwritten : Written mixedEntries mixedBlock := by
    rw [htext]
    exact .cons (by decide) (by decide) (.cons (by decide) (by decide) (.cons (by decide) (by decide)
      (.cons (by decide) (by decide) (.cons (by decide) (by decide) (.nil (by decide))))))
  have hwritable : ∀ a ∈ mixedEntries, a.Writable := by decide +kernel
  obtain ⟨hid, hclasses, hvalues⟩ := parse_written hwritten hwritable
  refine ⟨hwritten, hwritable, hid.trans ?_, hclasses.trans ?_, (hvalues _).trans ?_, (hvalues _).trans ?_⟩ <;>
    decide +kernel

end Attributes
end QuartoPretext
