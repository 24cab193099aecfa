/-
# The keys of references

A reference is made for a key of a citation, or for one that is found in the text. The
two are recognised differently: one is divided at its first hyphen, the other is
read as one of the kinds, a hyphen and a name. Where no kind has a hyphen both
recognise the same keys, as far as they are made of the characters of a name.

Key definition: `CrossReference.IsKey`.
Key theorems: `CrossReference.isTarget_iff`, `CrossReference.key?_eq_append`,
`CrossReference.key?_self_iff`, `CrossReference.keys_bracketed`,
`CrossReference.keys_bare`, `Citation.keys_resolve`.
-/
import QuartoPretext.Block.Size
import QuartoPretext.Inline.Citation
import QuartoPretext.Inline.CrossReference
import QuartoPretext.Proofs.Inline.Fragment

namespace QuartoPretext

namespace CrossReference

open Text

/-- A key of a target: one of the kinds, a hyphen and a name. -/
def IsKey (kinds : List Text) (key : Text) : Prop := ∃ kind ∈ kinds, ∃ name, name ≠ [] ∧ key = kind ++ '-' :: name

variable {kinds : List Text} {key s rest : Text}

/-! ### Keys that are divided -/

theorem isKey_of_isTarget (h : isTarget kinds key) : IsKey kinds key := by
  unfold isTarget at h
  split at h
  · next kind name hcut =>
    obtain ⟨hname, hkind⟩ := Bool.and_eq_true_iff.1 h
    obtain ⟨c, hc, rfl⟩ := append_of_cutWhere? hcut
    rw [beq_iff_eq.1 hc]
    exact ⟨kind, List.contains_iff_mem.1 hkind, name, by simpa using hname, rfl⟩
  · cases h

/-- Where no kind has a hyphen, a key is one of a target exactly if it has the form of one. -/
theorem isTarget_iff (hkinds : ∀ kind ∈ kinds, '-' ∉ kind) : isTarget kinds key ↔ IsKey kinds key := by
  refine ⟨isKey_of_isTarget, ?_⟩
  rintro ⟨kind, hkind, name, hname, rfl⟩
  have hcut : cutWhere? (· == '-') (kind ++ '-' :: name) = some (kind, name) :=
    cutWhere?_append rfl fun c hc => beq_false_of_ne fun he => hkinds kind hkind (he ▸ hc)
  rw [isTarget, hcut]
  simp [hname, hkind]

/-! ### Keys that are read -/

theorem nameOf_prefix_takeWhile (s : Text) : nameOf s <+: s.takeWhile isNameChar := by
  rw [← List.reverse_suffix, nameOf, List.reverse_reverse]
  exact List.dropWhile_suffix _

/-- A key that is read is a kind with the name after its hyphen. -/
theorem key?_found (h : key? kinds s = some (key, rest)) : ∃ kind ∈ kinds, ∃ after, s = kind ++ '-' :: after ∧
    nameOf after ≠ [] ∧ key = kind ++ '-' :: nameOf after ∧ rest = after.drop (nameOf after).length := by
  obtain ⟨kind, hkind, hfound⟩ := List.exists_of_findSome?_eq_some h
  split at hfound
  · cases hfound
  · next after hafter =>
    simp only at hfound
    split at hfound
    · cases hfound
    · next hname =>
      cases hfound
      refine ⟨kind, hkind, after, ?_, by simpa using hname, rfl, rfl⟩
      rw [← append_eq_of_dropPrefix? hafter, List.append_assoc]
      rfl

/-- What is read is a key of a target at the start of the text. -/
theorem key?_eq_append (h : key? kinds s = some (key, rest)) : IsKey kinds key ∧ s = key ++ rest := by
  obtain ⟨kind, hkind, after, rfl, hname, rfl, rfl⟩ := key?_found h
  refine ⟨⟨kind, hkind, nameOf after, hname, rfl⟩, ?_⟩
  have hafter := List.prefix_iff_eq_append.1 ((nameOf_prefix_takeWhile after).trans (List.takeWhile_prefix _))
  rw [List.append_assoc, List.cons_append, hafter]

theorem isKey_of_closedKey? (h : closedKey? kinds s = some (key, rest)) : IsKey kinds key := by
  obtain ⟨kind, hkind, hfound⟩ := List.exists_of_findSome?_eq_some h
  split at hfound
  · next hkey =>
    cases hfound
    obtain ⟨⟨kind', hkind', hname⟩, -⟩ := key?_eq_append hkey
    obtain rfl := List.mem_singleton.1 hkind'
    exact ⟨kind', hkind, hname⟩
  · cases hfound

theorem isKey_of_reference? {r : Reference} (h : reference? kinds s = some (r, rest)) : IsKey kinds r.key := by
  unfold reference? at h
  simp only at h
  split at h
  · obtain ⟨⟨key, after⟩, hkey, he⟩ := Option.map_eq_some_iff.1 h
    cases he
    exact (key?_eq_append hkey).1
  · cases h

/-! ### One kind of keys -/

/-- The last character of a name is one of a word. -/
theorem isWord_of_nameOf {c : Char} (h : c ∈ (nameOf s).getLast?) : isWord c = true := by
  rw [nameOf, List.getLast?_reverse] at h
  simpa using of_mem_head_dropWhile h

theorem nameOf_self (hname : ∀ c ∈ s, isNameChar c = true) (hlast : ∀ c ∈ s.getLast?, isWord c = true) : nameOf s = s := by
  have htake : s.takeWhile isNameChar = s := List.takeWhile_eq_self_iff.2 hname
  have hdrop : s.reverse.dropWhile (fun c => !isWord c) = s.reverse := by
    cases hs : s.reverse with
    | nil => rfl
    | cons c more =>
      refine List.dropWhile_cons_of_neg ?_
      rw [hlast c (by rw [Option.mem_def, List.getLast?_eq_head?_reverse, hs]; rfl)]
      exact Bool.noConfusion
  rw [nameOf, htake, hdrop, List.reverse_reverse]

theorem isNameChar_of_isWord {c : Char} (h : isWord c = true) : isNameChar c = true := by simp [isNameChar, h]

theorem getLast?_key {kind name : Text} (h : name ≠ []) : (kind ++ '-' :: name).getLast? = name.getLast? := by
  obtain ⟨c, more, rfl⟩ := List.exists_cons_of_ne_nil h
  simp [List.getLast?_append, List.getLast?_cons]

/-- Where the kinds are words, the keys that are read whole are those of targets that
are made of the characters of a name and end in a word character. -/
theorem key?_self_iff (hkinds : ∀ kind ∈ kinds, ∀ c ∈ kind, isWord c = true) : key? kinds key = some (key, []) ↔
    isTarget kinds key ∧ (∀ c ∈ key, isNameChar c = true) ∧ ∀ c ∈ key.getLast?, isWord c = true := by
  have hhyphen : ∀ kind ∈ kinds, '-' ∉ kind := fun kind hkind h => absurd (hkinds kind hkind _ h) (by decide)
  constructor
  · intro h
    obtain ⟨kind, hkind, after, -, hne, hkey, -⟩ := key?_found h
    refine ⟨(isTarget_iff hhyphen).2 (key?_eq_append h).1, ?_, ?_⟩
    · rw [hkey]
      refine List.forall_mem_append.2 ⟨fun c hc => isNameChar_of_isWord (hkinds kind hkind c hc), ?_⟩
      exact List.forall_mem_cons.2 ⟨by decide, fun c hc => List.mem_takeWhile_imp ((nameOf_prefix_takeWhile after).subset hc)⟩
    · rw [hkey, getLast?_key hne]
      exact fun c hc => isWord_of_nameOf hc
  · rintro ⟨htarget, hname, hlast⟩
    obtain ⟨kind, hkind, name, hne, rfl⟩ := isKey_of_isTarget htarget
    rw [getLast?_key hne] at hlast
    have hself : nameOf name = name := nameOf_self (fun c hc => hname c (by simp [hc])) hlast
    have hread : (key? kinds (kind ++ '-' :: name)).isSome := by
      refine List.findSome?_isSome_iff.2 ⟨kind, hkind, ?_⟩
      have hdrop : dropPrefix? (kind ++ ['-']) (kind ++ '-' :: name) = some name := by
        have hsplit : kind ++ '-' :: name = (kind ++ ['-']) ++ name := List.append_cons _ _ _
        rw [hsplit, dropPrefix?_append]
      simp [hdrop, hself, hne]
    obtain ⟨⟨key, rest⟩, hkey⟩ := Option.isSome_iff_exists.1 hread
    -- The hyphen after a kind is the first one, so no other kind is read.
    obtain ⟨kind', hkind', after, hafter, -, rfl, rfl⟩ := key?_found hkey
    obtain ⟨rfl, rfl⟩ := append_cons_inj hafter (hhyphen kind hkind) (hhyphen kind' hkind')
    rw [hkey, hself, List.drop_length]

/-! ### The marks of references -/

theorem keys_bracketed (kinds : List Text) (s : Text) : ∀ m ∈ Cell.marks (scan Cell.char (bracketed? kinds) s),
    ∃ refs, m = .references refs ∧ ∀ r ∈ refs, IsKey kinds r.key := by
  refine marks_scan ?_ s
  intro t xs rest h m hm
  unfold bracketed? at h
  split at h
  · simp only at h
    split at h
    · obtain ⟨⟨key, after⟩, hkey, he⟩ := Option.map_eq_some_iff.1 h
      obtain ⟨suppressed, hxs⟩ : ∃ suppressed, Cell.marks xs = [.references [⟨key, suppressed⟩]] := by
        simp only at he
        split at he <;> cases he <;> exact ⟨_, by rw [Cell.marks_append, Span.marks_cellsOf]; rfl⟩
      rw [hxs] at hm
      refine ⟨_, List.mem_singleton.1 hm, fun r hr => ?_⟩
      obtain rfl := List.mem_singleton.1 hr
      exact isKey_of_closedKey? hkey
    · cases h
  · cases h

theorem keys_bare (kinds : List Text) (s : Text) : ∀ m ∈ Cell.marks (bare kinds s),
    ∃ refs, m = .references refs ∧ ∀ r ∈ refs, IsKey kinds r.key := by
  have hone {t rest : Text} {r : Reference} (h : reference? kinds t = some (r, rest)) : ∀ r' ∈ [r], IsKey kinds r'.key :=
    fun r' hr => List.mem_singleton.1 hr ▸ isKey_of_reference? h
  have hscan : ∀ s, ∀ m ∈ Cell.marks (scan Cell.char (bare? kinds) s),
      ∃ refs, m = .references refs ∧ ∀ r ∈ refs, IsKey kinds r.key := by
    refine marks_scan ?_
    intro t xs rest h m hm
    unfold bare? at h
    split at h
    · cases h
    · split at h
      · cases h
      · obtain ⟨⟨r, after⟩, hr, he⟩ := Option.map_eq_some_iff.1 h
        cases he
        exact ⟨[r], List.mem_singleton.1 hm, hone hr⟩
  unfold bare
  split
  · next r after hr =>
    intro m hm
    rcases List.mem_cons.1 hm with rfl | hm
    · exact ⟨[r], rfl, hone hr⟩
    · exact hscan _ m hm
  · exact hscan s

end CrossReference

/-- A citation has a mark for the keys in it that the policy keeps. -/
theorem Citation.keys_resolve (policy : CitationPolicy) (isTarget : Text → Bool) (s : Text) :
    ∀ m ∈ Cell.marks (resolve policy isTarget s),
      ∃ refs, m = .references refs ∧ ∀ r ∈ refs, isTarget r.key ∨ policy = .xref := by
  refine Text.marks_scan ?_ s
  intro t xs rest h m hm
  split at h
  · cases h
  · simp only at h
    split at h
    · cases h
      cases hm
    · split at h
      · cases h
        refine ⟨_, List.mem_singleton.1 hm, fun r hr => ?_⟩
        have := (List.mem_filter.1 hr).2
        rwa [Bool.or_eq_true, beq_iff_eq] at this
      · cases h

end QuartoPretext
