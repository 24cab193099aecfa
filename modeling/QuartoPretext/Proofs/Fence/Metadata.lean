/-
# The metadata of a chunk body in two parts

The lines of a chunk body add pieces to the values of keys. Which pieces these
are depends on the lines before only through the key that a continuation would
extend, so a body that does not start with a continuation adds the same pieces
wherever it stands. The pieces of a value are joined by an operation that is
associative: what is stored for two bodies, one after the other, is what is
stored for both.

Key definitions: `Metadata.stored?`, `Metadata.joined?`, `Metadata.startsAfresh`,
`Metadata.Joins`.
Key theorems: `Metadata.Joins.add`, `Metadata.foldl_adds`,
`Metadata.ofBody_append`.
-/
import QuartoPretext.Fence.Metadata
import QuartoPretext.Proofs.Text.Cut

namespace QuartoPretext.Metadata

open Text

/-- The value of a key, also if it is empty. -/
def stored? (m : Metadata) (key : Text) : Option Text := m.entries.get? key

/-- Two stored values as one: those that are not empty with a space between them.
It is absent only if both are. -/
def joined? : Option Text → Option Text → Option Text
  | none, none => none
  | v, w => some (joinWith [' '] ([v.getD [], w.getD []].filter fun t => !t.isEmpty))

/-- A body that does not start with a continuation: it is empty, or its first line
is code or a directive with a key that is not indented. -/
def startsAfresh : List Line → Bool
  | [] => true
  | l :: _ =>
    match directive? l.text with
    | none => true
    | some content => !isIndented content && (keyed? content).isSome

variable {m m₁ m₂ : Metadata} {body before after : List Line} {key s : Text}

/-! ### Values that are joined -/

theorem joinPieces_assoc (a b c : Text) : joinPieces (joinPieces a b) c = joinPieces a (joinPieces b c) := by
  cases a <;> cases b <;> cases c <;> simp [joinPieces]

theorem joinWith_space (a b : Text) : joinWith [' '] ([a, b].filter fun t => !t.isEmpty) = joinPieces a b := by
  cases a <;> cases b <;> simp [joinWith, joinPieces]

theorem joined?_none (v : Option Text) : joined? v none = v := by
  cases v with
  | none => rfl
  | some v => exact congrArg some (joinWith_space v [])

theorem joined?_some (v : Option Text) (w : Text) : joined? v (some w) = some (joinPieces (v.getD []) w) := by
  cases v with
  | none => exact congrArg some (joinWith_space [] w)
  | some v => exact congrArg some (joinWith_space v w)

theorem getD_joined? (v w : Option Text) : (joined? v w).getD [] = joinPieces (v.getD []) (w.getD []) := by
  cases w with
  | none => rw [joined?_none]; rfl
  | some w => rw [joined?_some]; rfl

/-! ### Pieces that are added -/

theorem stored?_append (m : Metadata) (key piece key' : Text) : (m.append key piece).stored? key' =
    if key' == key then some (joinPieces ((m.stored? key).getD []) piece) else m.stored? key' :=
  Assoc.get?_insert m.entries key key' _

/-- Adds pieces of values, each with its key. -/
def add (m : Metadata) (pieces : List (Text × Text)) : Metadata :=
  pieces.foldl (fun m p => m.append p.1 p.2) m

/-- Everything that is stored is what two others store for it, joined. -/
def Joins (m₁ m₂ m : Metadata) : Prop := ∀ key, m.stored? key = joined? (m₁.stored? key) (m₂.stored? key)

theorem joins_empty (m : Metadata) : Joins m empty m := fun key => (joined?_none (m.stored? key)).symm

theorem Joins.append (h : Joins m₁ m₂ m) (key piece : Text) : Joins m₁ (m₂.append key piece) (m.append key piece) := by
  intro key'
  rw [stored?_append, stored?_append]
  by_cases hkey : key' = key
  · subst hkey
    rw [if_pos (beq_self_eq_true key'), if_pos (beq_self_eq_true key'), joined?_some, h key', getD_joined?,
      joinPieces_assoc]
  · rw [if_neg (by simpa using hkey), if_neg (by simpa using hkey)]
    exact h key'

theorem Joins.add {pieces : List (Text × Text)} (h : Joins m₁ m₂ m) : Joins m₁ (m₂.add pieces) (m.add pieces) := by
  induction pieces generalizing m₂ m with
  | nil => exact h
  | cons p pieces ih => exact ih (h.append p.1 p.2)

/-! ### What the lines of a body add -/

theorem line_code {r : Reading} (h : directive? s = none) : r.line s = { r with key := none } := by
  rw [Reading.line, h]

theorem line_keyed {r : Reading} {content value : Text} (h : directive? s = some content)
    (hkeyed : keyed? content = some (key, value)) (hown : (!isIndented content || r.key.isNone) = true) :
    r.line s = ⟨r.metadata.append key (cleanValue value), some key⟩ := by
  rw [Reading.line, h]
  simp only [hkeyed]
  exact if_pos hown

theorem line_continued {r : Reading} {content : Text} (h : directive? s = some content)
    (hkeyed : (keyed? content).isSome → (!isIndented content || r.key.isNone) = false) :
    r.line s = r.continue content := by
  rw [Reading.line, h]
  cases hkv : keyed? content with
  | none => simp only [hkv]
  | some kv =>
    rw [hkv] at hkeyed
    simp only [hkv, hkeyed rfl, Bool.false_eq_true, if_false]

theorem continue_adds (key : Option Text) (content : Text) : ∃ pieces, ∀ m : Metadata,
    Reading.continue ⟨m, key⟩ content = ⟨m.add pieces, key⟩ := by
  cases key with
  | none => exact ⟨[], fun m => rfl⟩
  | some key => exact ⟨[(key, cleanValue (dropDashes (trim content)))], fun m => rfl⟩

/-- The pieces that a line adds, and the key it leaves, do not depend on the
metadata before it. -/
theorem line_adds (key : Option Text) (s : Text) : ∃ pieces key', ∀ m : Metadata,
    Reading.line ⟨m, key⟩ s = ⟨m.add pieces, key'⟩ := by
  cases hs : directive? s with
  | none => exact ⟨[], none, fun m => line_code hs⟩
  | some content =>
    by_cases hown : (keyed? content).isSome ∧ (!isIndented content || key.isNone) = true
    · obtain ⟨⟨k, value⟩, hkeyed⟩ := Option.isSome_iff_exists.1 hown.1
      exact ⟨[(k, cleanValue value)], some k, fun m => line_keyed hs hkeyed hown.2⟩
    · obtain ⟨pieces, hpieces⟩ := continue_adds key content
      refine ⟨pieces, key, fun m => (line_continued hs fun hkeyed => ?_).trans (hpieces m)⟩
      exact Bool.eq_false_iff.2 fun h => hown ⟨hkeyed, h⟩

/-- The same holds of all lines of a body. -/
theorem foldl_adds : ∀ (body : List Line) (key : Option Text), ∃ pieces key', ∀ m : Metadata,
    body.foldl (fun (r : Reading) l => r.line l.text) ⟨m, key⟩ = ⟨m.add pieces, key'⟩
  | [], key => ⟨[], key, fun _ => rfl⟩
  | l :: body, key => by
    obtain ⟨pieces, key₁, hline⟩ := line_adds key l.text
    obtain ⟨more, key₂, hmore⟩ := foldl_adds body key₁
    refine ⟨pieces ++ more, key₂, fun m => ?_⟩
    rw [List.foldl_cons, hline, hmore, add, add, add, List.foldl_append]

/-- The first line of a body that starts afresh does the same after any key. -/
theorem line_afresh {l : Line} (h : startsAfresh (l :: body)) (key : Option Text) (m : Metadata) :
    Reading.line ⟨m, key⟩ l.text = Reading.line ⟨m, none⟩ l.text := by
  cases hs : directive? l.text with
  | none => rw [line_code hs, line_code hs]
  | some content =>
    simp only [startsAfresh, hs] at h
    obtain ⟨hindent, hkeyed⟩ := Bool.and_eq_true_iff.1 h
    obtain ⟨⟨k, value⟩, hkv⟩ := Option.isSome_iff_exists.1 hkeyed
    have hown (key : Option Text) : (!isIndented content || key.isNone) = true := by rw [hindent, Bool.true_or]
    rw [line_keyed hs hkv (hown _), line_keyed hs hkv (hown _)]

/-- So the whole body adds the same pieces wherever it stands. -/
theorem afresh_adds (h : startsAfresh body) : ∃ pieces, ∀ (m : Metadata) (key : Option Text),
    (body.foldl (fun (r : Reading) l => r.line l.text) ⟨m, key⟩).metadata = m.add pieces := by
  obtain ⟨pieces, key', hpieces⟩ := foldl_adds body none
  refine ⟨pieces, fun m key => ?_⟩
  have hnone : (body.foldl (fun (r : Reading) l => r.line l.text) ⟨m, none⟩).metadata = m.add pieces := by
    rw [hpieces]
  cases body with
  | nil => exact hnone
  | cons l body => rwa [List.foldl_cons, line_afresh h]

theorem joins_ofBody (h : startsAfresh after) : Joins (ofBody before) (ofBody after) (ofBody (before ++ after)) := by
  obtain ⟨pieces, hpieces⟩ := afresh_adds h
  have hafter : ofBody after = empty.add pieces := hpieces empty none
  have hboth : ofBody (before ++ after) = (ofBody before).add pieces := by
    rw [ofBody, List.foldl_append]
    exact hpieces _ _
  rw [hafter, hboth]
  exact (joins_empty _).add

/-! ### Code -/

theorem isNone_directive?_iff {s : Text} : (directive? s).isNone ↔ ¬['#', '|'] <+: trimStart s := by
  rw [directive?, Option.isNone_map, Option.isNone_iff_eq_none, Option.eq_none_iff_forall_not_mem]
  constructor
  · rintro h ⟨content, hcontent⟩
    exact h content (dropPrefix?_eq_some_iff.2 hcontent.symm)
  · intro h content hcontent
    exact h ⟨content, (dropPrefix?_eq_some_iff.1 hcontent).symm⟩

theorem code_eq (body : List Line) : code body = body.filter fun l => ¬['#', '|'] <+: l.trimmed := by
  refine List.filter_congr fun l _ => ?_
  rw [Bool.eq_iff_iff, isNone_directive?_iff, decide_eq_true_iff]
  rfl

/-- **The metadata of two bodies composes.** Of a body after another one, if it does
not start with a continuation, the code follows the code of the other, and what is
stored for each key is what is stored for it in both, with a space between values
that are not empty. The code of a body is its lines that do not start with the
sentinel of a directive. -/
theorem ofBody_append (h : startsAfresh after) : code (before ++ after) = code before ++ code after ∧
    (∀ key, (ofBody (before ++ after)).stored? key =
      joined? ((ofBody before).stored? key) ((ofBody after).stored? key)) ∧
    ∀ body, code body = body.filter fun l => ¬['#', '|'] <+: l.trimmed :=
  ⟨List.filter_append before after, joins_ofBody h, code_eq⟩

/-- A caption over two bodies, the first of which ends in a continuation. -/
theorem ofBody_append_caption :
    startsAfresh [⟨3, "#| fig-cap: by 'year'".toList⟩, ⟨4, "plot(x)".toList⟩] = true ∧
    (ofBody ([⟨1, "#| fig-cap: |".toList⟩, ⟨2, "#|   Ages: sorted".toList⟩] ++
      [⟨3, "#| fig-cap: by 'year'".toList⟩, ⟨4, "plot(x)".toList⟩])).stored? "fig-cap".toList =
        some "Ages: sorted by 'year'".toList := by
  have h : startsAfresh [⟨3, "#| fig-cap: by 'year'".toList⟩, ⟨4, "plot(x)".toList⟩] = true := by decide +kernel
  refine ⟨h, ((ofBody_append h).2.1 _).trans ?_⟩
  decide +kernel

end QuartoPretext.Metadata
