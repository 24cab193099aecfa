/-
# Places that paths lead to

A path leads to the place of a file, whether there is one or not, by the
directories of the tree alone. Reading finds the file at that place, and
writing puts one there, unless it is a directory. So writing files changes
nothing for a path that leads to another place.

Key definitions: `FileTree.place?`, `FileTree.SameDirectories`, `FileWrite`, `FileTree.applyAll`,
`FileTree.Written`.
Key theorems: `FileTree.read_eq_ok_iff`, `FileTree.target_eq_ok_iff`, `FileTree.written_applyAll`,
`FileTree.createAll_keeps`.
-/
import QuartoPretext.Files.Tree
import Mathlib.Data.List.Basic

namespace QuartoPretext

open Text

/-- A text and the place of the file that it is written to. -/
structure FileWrite where
  place : List Text
  text : Text
  deriving Repr, DecidableEq

namespace FileTree

/-- The place of the file that a path leads to, whether there is one or not. -/
def place? (t : FileTree) (directory : List Text) (path : Text) : Option (List Text) :=
  let names := pieces (· == '/') path
  let last := names.getLastD []
  if isDirectoryName last then none
  else (t.enterAll (origin directory path) names.dropLast).toOption.map (· ++ [last])

/-- The same places are directories. -/
def SameDirectories (t t' : FileTree) : Prop := ∀ p, t'.at? p = some .directory ↔ t.at? p = some .directory

def apply (t : FileTree) (e : FileWrite) : FileTree := t.put e.place (.file e.text)

/-- The tree after some files have been written one after the other. -/
def applyAll (t : FileTree) (es : List FileWrite) : FileTree := es.foldl apply t

/-- A tree after some files have been written to another one, in some order: each
place holds the last text written to it, or else what it held. -/
structure Written (before after : FileTree) (es : List FileWrite) : Prop where
  last : ∀ earlier e later, es = earlier ++ e :: later → e.place ∉ later.map (·.place) →
    after.at? e.place = some (.file e.text)
  elsewhere : ∀ p, p ∉ es.map (·.place) → after.at? p = before.at? p

variable {t t' t'' : FileTree} {directory p q : List Text} {path text : Text}

theorem at?_put (hp : p ≠ []) (e : Entry) (q : List Text) : (t.put p e).at? q = if q = p then some e else t.at? q := by
  unfold at? put
  cases q with
  | nil => simp [Ne.symm hp]
  | cons n q => simp [Assoc.get?_insert]

theorem at?_put_self (hp : p ≠ []) (e : Entry) : (t.put p e).at? p = some e := by rw [at?_put hp, if_pos rfl]

theorem at?_put_of_ne (hp : p ≠ []) (e : Entry) (hq : q ≠ p) : (t.put p e).at? q = t.at? q := by
  rw [at?_put hp, if_neg hq]

/-! ### Following paths -/

namespace SameDirectories

theorem refl (t : FileTree) : SameDirectories t t := fun _ => .rfl

theorem trans (h : SameDirectories t t') (h' : SameDirectories t' t'') : SameDirectories t t'' := fun p => (h' p).trans (h p)

theorem put_file (hp : p ≠ []) (h : t.at? p ≠ some .directory) : SameDirectories t (t.put p (.file text)) := by
  intro q
  rw [at?_put hp]
  split
  · next hq => exact iff_of_false (by simp) (hq ▸ h)
  · exact .rfl

/-- Where a name leads depends on the directories alone. -/
theorem toOption_enter (t : FileTree) (place : List Text) (name : Text) : (t.enter place name).toOption =
    if Path.isIdle name then some place
    else if name == ['.', '.'] then some place.dropLast
    else if t.at? (place ++ [name]) = some .directory then some (place ++ [name]) else none := by
  unfold FileTree.enter
  split
  · rfl
  · split
    · rfl
    · rcases t.at? (place ++ [name]) with _ | ⟨text⟩ | _ <;> rfl

theorem enter (h : SameDirectories t t') (place : List Text) (name : Text) :
    (t'.enter place name).toOption = (t.enter place name).toOption := by
  rw [toOption_enter, toOption_enter]
  simp only [h (place ++ [name])]

theorem enterAll (h : SameDirectories t t') : ∀ (names : List Text) (place : List Text),
    (t'.enterAll place names).toOption = (t.enterAll place names).toOption
  | [], _ => rfl
  | n :: rest, place => by
    have hn := h.enter place n
    unfold FileTree.enterAll
    cases ht : t.enter place n with
    | ok next =>
      rw [ht] at hn
      cases ht' : t'.enter place n with
      | ok next' =>
        rw [ht'] at hn
        cases hn
        exact h.enterAll rest next
      | error f =>
        rw [ht'] at hn
        cases hn
    | error f =>
      rw [ht] at hn
      cases ht' : t'.enter place n with
      | ok next' =>
        rw [ht'] at hn
        cases hn
      | error f' => rfl

theorem place? (h : SameDirectories t t') (directory : List Text) (path : Text) :
    t'.place? directory path = t.place? directory path := by
  unfold FileTree.place?
  simp only [h.enterAll]

theorem isDirectory (h : SameDirectories t t') (directory : List Text) (path : Text) :
    t'.isDirectory directory path = t.isDirectory directory path := by
  have hok : ∀ e : Except FileFault (List Text), e.isOk = e.toOption.isSome := fun e => by cases e <;> rfl
  unfold FileTree.isDirectory
  rw [hok, hok, h.enterAll]

end SameDirectories

theorem ne_nil_of_place? (h : t.place? directory path = some p) : p ≠ [] := by
  unfold place? at h
  simp only at h
  split at h
  · cases h
  · obtain ⟨place, _, rfl⟩ := Option.map_eq_some_iff.1 h
    exact List.append_ne_nil_of_right_ne_nil _ (List.cons_ne_nil _ _)

theorem isDirectoryName_nil : isDirectoryName [] := rfl

/-- Reading finds the file at the place that the path leads to. -/
theorem read_eq_ok_iff : t.read directory path = .ok text ↔
    ∃ p, t.place? directory path = some p ∧ t.at? p = some (.file text) := by
  unfold read place?
  simp only
  cases hdir : isDirectoryName ((pieces (· == '/') path).getLastD []) with
  | true =>
    simp only [if_true, reduceCtorEq, false_and, exists_false, iff_false]
    split
    · simp
    · split <;> simp
  | false =>
    have hpath : path.isEmpty = false := by
      rw [Bool.eq_false_iff]
      intro hempty
      rw [List.isEmpty_iff.1 hempty] at hdir
      exact absurd hdir (by decide)
    cases henter : t.enterAll (origin directory path) (pieces (· == '/') path).dropLast with
    | error f => simp [Except.toOption]
    | ok place =>
      simp only [hpath, Bool.false_eq_true, if_false, Except.toOption, Option.map_some, Option.some.injEq,
        exists_eq_left']
      split <;> simp_all

/-- A path with a slash at its end has more names than those that it is followed by. -/
theorem length_named_lt {names : List Text} (h : names.getLastD [] = []) :
    (names.reverse.dropWhile (· == [])).reverse.length < names.length ∨
      (names.reverse.dropWhile (· == [])).reverse.getLastD [] = [] := by
  rcases List.eq_nil_or_concat' names with rfl | ⟨before, last, rfl⟩
  · exact .inr rfl
  · rw [List.getLastD_concat] at h
    have hle := (List.dropWhile_sublist (· == []) (l := before.reverse)).length_le
    rw [List.length_reverse] at hle
    rw [h, List.reverse_append, List.reverse_singleton, List.singleton_append, List.dropWhile_cons_of_pos rfl,
      List.length_reverse, List.length_append, List.length_singleton]
    exact .inl (Nat.lt_succ_of_le hle)

theorem named_eq {names : List Text} (h : names.getLastD [] ≠ []) :
    (names.reverse.dropWhile (· == [])).reverse = names := by
  rcases List.eq_nil_or_concat' names with rfl | ⟨before, last, rfl⟩
  · rfl
  · rw [List.getLastD_concat] at h
    have hlast : ¬(last == []) = true := by simpa using h
    rw [List.reverse_append, List.reverse_singleton, List.singleton_append, List.dropWhile_cons_of_neg (p := (· == [])) hlast,
      List.reverse_cons, List.reverse_reverse]

/-- Writing makes or changes the file at the place that the path leads to. -/
theorem target_eq_ok_iff : t.target directory path = .ok p ↔
    t.place? directory path = some p ∧ t.at? p ≠ some .directory := by
  unfold target place?
  simp only
  generalize hnames : pieces (· == '/') path = names
  by_cases hlast : names.getLastD [] = []
  · -- there is a slash at the end, or nothing at all
    have hslash : (decide ((names.reverse.dropWhile (· == [])).reverse.length < names.length) ||
        isDirectoryName ((names.reverse.dropWhile (· == [])).reverse.getLastD [])) = true := by
      rcases length_named_lt hlast with hlt | hnil
      · rw [decide_eq_true hlt, Bool.true_or]
      · rw [hnil, isDirectoryName_nil, Bool.or_true]
    rw [hlast, if_pos isDirectoryName_nil]
    simp only [hslash, if_true]
    refine iff_of_false ?_ (fun h => nomatch h.1)
    split
    · nofun
    · split <;> nofun
  · have hpath : path.isEmpty = false := by
      rw [Bool.eq_false_iff]
      intro hempty
      rw [List.isEmpty_iff.1 hempty] at hnames
      exact hlast (hnames ▸ rfl)
    rw [named_eq hlast, hpath, decide_eq_false (Nat.lt_irrefl _), Bool.false_or]
    cases t.enterAll (origin directory path) names.dropLast with
    | error f => simp [Except.toOption]
    | ok place =>
      cases isDirectoryName (names.getLastD []) with
      | true => simp
      | false =>
        have hplace : (Except.ok place : Except FileFault _).toOption.map (· ++ [names.getLastD []]) =
            some (place ++ [names.getLastD []]) := rfl
        simp only [Bool.false_eq_true, if_false, beq_iff_eq, hplace, Option.some.injEq]
        split
        · next hat =>
          refine iff_of_false nofun ?_
          rintro ⟨rfl, hne⟩
          exact hne hat
        · next hat =>
          simp only [Except.ok.injEq]
          constructor
          · rintro rfl
            exact ⟨rfl, hat⟩
          · exact fun h => h.1

theorem ne_nil_of_target (h : t.target directory path = .ok p) : p ≠ [] := ne_nil_of_place? (target_eq_ok_iff.1 h).1

theorem SameDirectories.target (h : SameDirectories t t') (directory : List Text) (path : Text) :
    (t'.target directory path).toOption = (t.target directory path).toOption := by
  have hok (e : Except FileFault (List Text)) (p : List Text) : e.toOption = some p ↔ e = .ok p := by
    cases e <;> simp [Except.toOption]
  refine Option.ext fun p => ?_
  rw [hok, hok, target_eq_ok_iff, target_eq_ok_iff, h.place?, ne_eq, not_congr (h p)]

/-- Reading finds the same where the place that the path leads to holds the same. -/
theorem SameDirectories.read (h : SameDirectories t t') {directory : List Text} {path : Text}
    (hp : ∀ p, t.place? directory path = some p → t'.at? p = t.at? p) :
    (t'.read directory path).toOption = (t.read directory path).toOption := by
  have hok (e : Except FileFault Text) (s : Text) : e.toOption = some s ↔ e = .ok s := by
    cases e <;> simp [Except.toOption]
  refine Option.ext fun s => ?_
  rw [hok, hok, read_eq_ok_iff, read_eq_ok_iff, h.place?]
  exact exists_congr fun p => and_congr_right fun hplace => by rw [hp p hplace]

/-! ### Writing files -/

/-- Writing a file is to put it at its place. -/
theorem write_eq (t : FileTree) (directory : List Text) (path text : Text) :
    t.write directory path text = (t.target directory path).map fun place => t.apply ⟨place, text⟩ := rfl

variable {es : List FileWrite}

theorem applyAll_append (t : FileTree) (es es' : List FileWrite) : t.applyAll (es ++ es') = (t.applyAll es).applyAll es' :=
  List.foldl_append

theorem at?_applyAll_of_not_mem (hes : ∀ e ∈ es, e.place ≠ []) (hp : p ∉ es.map (·.place)) :
    (t.applyAll es).at? p = t.at? p := by
  induction es generalizing t with
  | nil => rfl
  | cons e es ih =>
    obtain ⟨he, hes⟩ := List.forall_mem_cons.1 hes
    rw [List.map_cons, List.mem_cons, not_or] at hp
    exact (ih hes hp.2).trans (at?_put_of_ne he _ hp.1)

theorem written_applyAll (t : FileTree) (hes : ∀ e ∈ es, e.place ≠ []) : Written t (t.applyAll es) es where
  last := by
    rintro earlier e later rfl hlater
    obtain ⟨he, hes⟩ := List.forall_mem_cons.1 (List.forall_mem_append.1 hes).2
    rw [applyAll_append]
    exact (at?_applyAll_of_not_mem hes hlater).trans (at?_put_self he _)
  elsewhere := fun _ => at?_applyAll_of_not_mem hes

/-- If no place is written to twice, each text written stays. -/
theorem Written.at?_of_mem (h : Written t t' es) (hnodup : (es.map (·.place)).Nodup) {e : FileWrite} (he : e ∈ es) :
    t'.at? e.place = some (.file e.text) := by
  obtain ⟨before, after, rfl⟩ := List.append_of_mem he
  rw [List.map_append, List.map_cons] at hnodup
  exact h.last before e after rfl (List.nodup_cons.1 (List.nodup_append.1 hnodup).2.1).1

/-- Directories that are there need not be made. -/
theorem createAll_of_enterAll : ∀ {names : List Text} {place q : List Text}, t.enterAll place names = .ok q →
    t.createAll place names = .ok t
  | [], _, _, _ => rfl
  | n :: rest, place, q, h => by
    unfold enterAll at h
    split at h
    · next next hn =>
      unfold createAll
      rw [hn]
      exact createAll_of_enterAll h
    · cases h

theorem createDirectories_of_isDirectory (h : t.isDirectory directory path) : t.createDirectories directory path = .ok t := by
  unfold isDirectory at h
  rw [Bool.and_eq_true] at h
  cases henter : t.enterAll (origin directory path) (pieces (· == '/') path) with
  | ok q => exact createAll_of_enterAll henter
  | error f =>
    rw [henter] at h
    exact absurd h.2 (by simp [Except.isOk, Except.toBool])

theorem at?_of_enter_notFound {place : List Text} {name : Text} (h : t.enter place name = .error .notFound) :
    t.at? (place ++ [name]) = none := by
  unfold enter at h
  split at h
  · cases h
  split at h
  · cases h
  split at h
  · cases h
  · cases h
  · assumption

/-- Making directories keeps all that is there. -/
theorem createAll_keeps : ∀ {names : List Text} {t t' : FileTree} {place : List Text}, t.createAll place names = .ok t' →
    ∀ {p : List Text} {e : Entry}, t.at? p = some e → t'.at? p = some e
  | [], _, _, _, h, _, _, hp => by
    cases h
    exact hp
  | n :: rest, t, t', place, h, p, e, hp => by
    unfold createAll at h
    split at h
    · exact createAll_keeps h hp
    · next hn =>
      refine createAll_keeps h ?_
      rw [at?_put_of_ne (List.append_ne_nil_of_right_ne_nil _ (List.cons_ne_nil _ _)), hp]
      rintro rfl
      rw [at?_of_enter_notFound hn] at hp
      cases hp
    · cases h

/-- Making directories makes no file. -/
theorem createAll_makes_no_file : ∀ {names : List Text} {t t' : FileTree} {place : List Text}, t.createAll place names = .ok t' →
    ∀ {p : List Text} {s : Text}, t'.at? p = some (.file s) → t.at? p = some (.file s)
  | [], _, _, _, h, _, _, hp => by
    cases h
    exact hp
  | n :: rest, t, t', place, h, p, s, hp => by
    unfold createAll at h
    split at h
    · exact createAll_makes_no_file h hp
    · have hput := createAll_makes_no_file h hp
      rw [at?_put (List.append_ne_nil_of_right_ne_nil _ (List.cons_ne_nil _ _))] at hput
      split at hput
      · cases hput
      · exact hput
    · cases h

end FileTree
end QuartoPretext
