/-
# Entity references in text

Escaping keeps the entity references of a text and leaves no other ampersand
and no angle bracket. So it changes nothing of text that it has made; text that
it changes nothing of is text of this kind.

Key definitions: `Referenced`, `Settled`.
Key theorems: `settled_escapeText`, `escapeText_eq_iff`, `Referenced.split`.
-/
import QuartoPretext.Inline.Span
import QuartoPretext.Proofs.Text.Cut

namespace QuartoPretext

namespace Markup

open Text

/-- Text in which every ampersand starts an entity reference. -/
inductive Referenced : Text → Prop
  | nil : Referenced []
  | char {c : Char} {s : Text} : c ≠ '&' → Referenced s → Referenced (c :: s)
  | reference {name s : Text} : isEntityName name → Referenced s → Referenced ('&' :: name ++ ';' :: s)

/-- Neither of the two angle brackets. -/
def Angleless (s : Text) : Prop := ∀ c ∈ s, c ≠ '<' ∧ c ≠ '>'

/-- Text that is escaped already. -/
structure Settled (s : Text) : Prop where
  referenced : Referenced s
  angleless : Angleless s

variable {s t name : Text}

/-! ### Names -/

theorem isHexDigit_alphanum {c : Char} (h : isHexDigit c) : c.isAlphanum := by
  have hclass : c.isAlphanum = (decide (c.val ≥ 'A'.val ∧ c.val ≤ 'Z'.val) ||
      decide (c.val ≥ 'a'.val) && decide (c.val ≤ 'z'.val) || c.isDigit) := rfl
  simp only [isHexDigit, Bool.or_eq_true, Bool.and_eq_true, decide_eq_true_eq] at h
  simp only [hclass, Bool.or_eq_true, Bool.and_eq_true, decide_eq_true_eq]
  rcases h with (h | h) | h
  · exact .inr h
  · exact .inl (.inr ⟨h.1, Char.le_trans h.2 (by decide)⟩)
  · exact .inl (.inl ⟨h.1, Char.le_trans h.2 (by decide)⟩)

/-- The names of entities are made of letters, digits and number signs. -/
theorem isEntityName_char (h : isEntityName name) : ∀ c ∈ name, c = '#' ∨ c.isAlphanum := by
  have digits {s : Text} {p : Char → Bool} (hp : ∀ c, p c → c.isAlphanum) (hs : s.all p) :
      ∀ c ∈ s, c = '#' ∨ c.isAlphanum := fun c hc => .inr (hp c (List.all_eq_true.1 hs c hc))
  unfold isEntityName at h
  split at h
  · cases h
  · rw [Bool.and_eq_true] at h
    rintro c (_ | ⟨_, _ | ⟨_, hc⟩⟩)
    · exact .inl rfl
    · exact .inr (by decide)
    · exact digits (fun _ => isHexDigit_alphanum) h.2 c hc
  · rw [Bool.and_eq_true] at h
    rintro c (_ | ⟨_, _ | ⟨_, hc⟩⟩)
    · exact .inl rfl
    · exact .inr (by decide)
    · exact digits (fun _ => isHexDigit_alphanum) h.2 c hc
  · rw [Bool.and_eq_true] at h
    rintro c (_ | ⟨_, hc⟩)
    · exact .inl rfl
    · refine digits (p := Char.isDigit) (fun d hd => ?_) h.2 c hc
      rw [Char.isAlphanum, hd, Bool.or_true]
  · rw [Bool.and_eq_true] at h
    exact digits (fun _ => id) h.2

/-- A character that stands in no entity reference. -/
def IsOutside (c : Char) : Prop := c ≠ '&' ∧ c ≠ ';' ∧ c ≠ '#' ∧ c.isAlphanum = false

theorem isOutside_opening : IsOutside '<' := by
  unfold IsOutside
  decide

theorem isOutside_closing : IsOutside '>' := by
  unfold IsOutside
  decide

theorem IsOutside.not_mem {c : Char} (hc : IsOutside c) (h : isEntityName name) : c ∉ name := by
  intro hmem
  rcases isEntityName_char h c hmem with hh | hh
  · exact hc.2.2.1 hh
  · rw [hc.2.2.2] at hh
    cases hh

theorem semicolon_not_mem (h : isEntityName name) : ';' ∉ name := by
  intro hmem
  rcases isEntityName_char h _ hmem with hh | hh
  · cases hh
  · revert hh
    decide

theorem entity?_reference (h : isEntityName name) (s : Text) : entity? (name ++ ';' :: s) = some (name, s) := by
  have hcut : cutWhere? (· == ';') (name ++ ';' :: s) = some (name, s) :=
    cutWhere?_append rfl fun c hc => beq_false_of_ne fun he => semicolon_not_mem h (he ▸ hc)
  rw [entity?, hcut]
  simp [h]

theorem entity?_eq {rest : Text} (h : entity? s = some (name, rest)) :
    isEntityName name ∧ s = name ++ ';' :: rest := by
  obtain ⟨hcut, hname⟩ := Option.filter_eq_some_iff.1 h
  obtain ⟨c, hc, rfl⟩ := append_of_cutWhere? hcut
  rw [beq_iff_eq.1 hc]
  exact ⟨hname, rfl⟩

/-! ### Escaping -/

theorem escapeText_char {c : Char} (h : c ≠ '&') (s : Text) :
    escapeText (c :: s) = contentChar c ++ escapeText s := by
  rw [escapeText, if_neg (by simpa using h)]

theorem escapeText_reference (h : isEntityName name) (s : Text) :
    escapeText ('&' :: name ++ ';' :: s) = '&' :: name ++ ';' :: escapeText s := by
  rw [List.cons_append, escapeText, if_pos (beq_self_eq_true '&')]
  split
  · next name' rest he =>
    rw [entity?_reference h] at he
    cases he
    rfl
  · next he =>
    rw [entity?_reference h] at he
    cases he

theorem contentChar_eq {c : Char} (hlt : c ≠ '<') (hgt : c ≠ '>') (hamp : c ≠ '&') : contentChar c = [c] := by
  simp [contentChar, hlt, hgt, hamp]

/-- Text without markup characters before other text stays as it is. -/
theorem escapeText_append_plain : ∀ {s : Text}, (∀ c ∈ s, c ≠ '<' ∧ c ≠ '>' ∧ c ≠ '&') →
    ∀ t, escapeText (s ++ t) = s ++ escapeText t
  | [], _, _ => rfl
  | c :: s, h, t => by
    obtain ⟨hlt, hgt, hamp⟩ := h c List.mem_cons_self
    rw [List.cons_append, escapeText_char hamp, contentChar_eq hlt hgt hamp,
      escapeText_append_plain fun d hd => h d (List.mem_cons_of_mem c hd)]
    rfl

theorem contentChar_ne_nil (c : Char) : contentChar c ≠ [] := by
  unfold contentChar
  split
  · decide
  · split
    · decide
    · split
      · decide
      · exact List.cons_ne_nil _ _

theorem escapeText_eq_nil_iff : escapeText s = [] ↔ s = [] := by
  constructor
  · intro h
    fun_induction escapeText s with
    | case1 => rfl
    | case2 => cases h
    | case3 c s _ _ ih | case4 c s _ ih => exact absurd (List.append_eq_nil_iff.1 h).1 (contentChar_ne_nil c)
  · rintro rfl
    rw [escapeText]

theorem mem_contentChar {c d : Char} (h : c ∈ contentChar d) : c = d ∨ c ∈ "&ltgamp;".toList := by
  unfold contentChar at h
  split at h
  · right
    revert c
    decide
  · split at h
    · right
      revert c
      decide
    · split at h
      · right
        revert c
        decide
      · exact .inl (List.mem_singleton.1 h)

/-- Escaping adds only the characters of three references. -/
theorem mem_escapeText {c : Char} (h : c ∈ escapeText s) : c ∈ s ∨ c ∈ "&ltgamp;".toList := by
  fun_induction escapeText s with
  | case1 => cases h
  | case2 d s hd name rest he ih =>
    obtain ⟨_, rfl⟩ := entity?_eq he
    obtain rfl : d = '&' := beq_iff_eq.1 hd
    simp only [List.cons_append, List.mem_cons, List.mem_append] at h ⊢
    rcases h with h | h | h | h
    · exact .inl (.inl h)
    · exact .inl (.inr (.inl h))
    · exact .inl (.inr (.inr (.inl h)))
    · exact (ih h).imp (fun h => .inr (.inr (.inr h))) id
  | case3 d s _ _ ih | case4 d s _ ih =>
    rcases List.mem_append.1 h with h | h
    · exact (mem_contentChar h).imp (fun he => List.mem_cons.2 (.inl he)) id
    · exact (ih h).imp (List.mem_cons_of_mem d) id

theorem getLast?_contentChar (c : Char) : ∃ d, (contentChar c).getLast? = some d ∧ (d = '/' ↔ c = '/') := by
  unfold contentChar
  split
  · next h =>
    obtain rfl := beq_iff_eq.1 h
    exact ⟨';', rfl, by decide⟩
  · split
    · next h =>
      obtain rfl := beq_iff_eq.1 h
      exact ⟨';', rfl, by decide⟩
    · split
      · next h =>
        obtain rfl := beq_iff_eq.1 h
        exact ⟨';', rfl, by decide⟩
      · exact ⟨c, rfl, Iff.rfl⟩

/-- Text ends with a slash after escaping if it does before. -/
theorem getLast?_escapeText : (escapeText s).getLast? = some '/' ↔ s.getLast? = some '/' := by
  have last {s : Text} {d d' : Char} (ih : (escapeText s).getLast? = some '/' ↔ s.getLast? = some '/')
      (hd : d' = '/' ↔ d = '/') :
      (escapeText s).getLast?.or (some d') = some '/' ↔ s.getLast?.or (some d) = some '/' := by
    rcases hs : s.getLast? with _ | c
    · rw [List.getLast?_eq_none_iff] at hs
      subst hs
      simpa [escapeText] using hd
    · rcases hs' : (escapeText s).getLast? with _ | c'
      · rw [List.getLast?_eq_none_iff, escapeText_eq_nil_iff] at hs'
        subst hs'
        cases hs
      · rw [hs, hs'] at ih
        exact ih
  fun_induction escapeText s with
  | case1 => rfl
  | case2 c s _ name rest he ih =>
    obtain ⟨_, rfl⟩ := entity?_eq he
    have h := @last rest ';' ';' ih Iff.rfl
    simpa [List.getLast?_append, List.getLast?_cons] using h
  | case3 c s _ _ ih | case4 c s _ ih =>
    obtain ⟨d, hlast, hd⟩ := getLast?_contentChar c
    rw [List.getLast?_append, hlast]
    have h := last ih hd
    simpa [List.getLast?_cons] using h

theorem Angleless.append (hs : Angleless s) (ht : Angleless t) : Angleless (s ++ t) := by
  intro c hc
  rcases List.mem_append.1 hc with hc | hc
  · exact hs c hc
  · exact ht c hc

theorem angleless_name (h : isEntityName name) : Angleless name := by
  intro c hc
  constructor <;>
  · rintro rfl
    rcases isEntityName_char h _ hc with hh | hh
    · cases hh
    · revert hh
      decide

theorem Referenced.append (hs : Referenced s) (ht : Referenced t) : Referenced (s ++ t) := by
  induction hs with
  | nil => exact ht
  | char hc _ ih => exact .char hc ih
  | reference hn _ ih =>
    rw [List.cons_append, List.cons_append, List.append_assoc]
    exact .reference hn ih

/-- Text without ampersands. -/
theorem Referenced.of_plain : ∀ {s : Text}, '&' ∉ s → Referenced s
  | [], _ => .nil
  | _ :: _, h => .char (fun hc => h (hc ▸ List.mem_cons_self)) (of_plain fun hm => h (List.mem_cons_of_mem _ hm))

/-- No reference reaches across a character that stands in none. -/
theorem Referenced.split {c : Char} (hc : IsOutside c) (h : Referenced (s ++ c :: t)) :
    Referenced s ∧ Referenced t := by
  generalize hu : s ++ c :: t = u at h
  induction h generalizing s with
  | nil => simp at hu
  | @char d u hd hr ih =>
    cases s with
    | nil =>
      cases hu
      exact ⟨.nil, hr⟩
    | cons e s =>
      cases hu
      obtain ⟨hs, ht⟩ := ih rfl
      exact ⟨.char hd hs, ht⟩
  | @reference name u hn _ ih =>
    cases s with
    | nil =>
      cases hu
      exact absurd rfl hc.1
    | cons e s =>
      simp only [List.cons_append, List.cons.injEq] at hu
      obtain ⟨rfl, hu⟩ := hu
      rcases List.append_eq_append_iff.1 hu with ⟨more, hname, hmore⟩ | ⟨more, hsplit, hmore⟩
      · -- the character would stand in the reference
        cases more with
        | nil => exact absurd (List.cons.inj hmore).1 hc.2.1
        | cons d more =>
          cases hmore
          exact absurd (hname ▸ List.mem_append_right s List.mem_cons_self) (hc.not_mem hn)
      · cases more with
        | nil => exact absurd (List.cons.inj hmore).1.symm hc.2.1
        | cons d more =>
          simp only [List.cons_append, List.cons.injEq] at hmore
          obtain ⟨rfl, rfl⟩ := hmore
          obtain ⟨hs, ht⟩ := ih rfl
          rw [hsplit]
          exact ⟨.reference hn hs, ht⟩

theorem Settled.append (hs : Settled s) (ht : Settled t) : Settled (s ++ t) :=
  ⟨hs.1.append ht.1, hs.2.append ht.2⟩

theorem settled_nil : Settled [] := ⟨.nil, nofun⟩

theorem settled_reference (h : isEntityName name) : Settled ('&' :: name ++ [';']) := by
  refine ⟨.reference h .nil, ?_⟩
  have hamp : Angleless ['&'] := by simp [Angleless]
  have hend : Angleless [';'] := by simp [Angleless]
  exact (hamp.append (angleless_name h)).append hend

theorem settled_contentChar (c : Char) : Settled (contentChar c) := by
  unfold contentChar
  split
  · exact @settled_reference "lt".toList (by decide)
  · next hlt =>
    split
    · exact @settled_reference "gt".toList (by decide)
    · next hgt =>
      split
      · exact @settled_reference "amp".toList (by decide)
      · next hamp =>
        simp only [beq_iff_eq] at hlt hgt hamp
        exact ⟨.char hamp .nil, by simp [Angleless, hlt, hgt]⟩

theorem settled_escapeText (s : Text) : Settled (escapeText s) := by
  fun_induction escapeText s with
  | case1 => exact settled_nil
  | case2 c s hc name rest he ih =>
    have hs := (settled_reference (entity?_eq he).1).append ih
    simpa using hs
  | case3 c s _ _ ih => exact (settled_contentChar c).append ih
  | case4 c s _ ih => exact (settled_contentChar c).append ih

theorem Settled.escapeText_eq (h : Settled s) : escapeText s = s := by
  obtain ⟨hr, ha⟩ := h
  induction hr with
  | nil => rw [escapeText]
  | @char c s hc _ ih =>
    obtain ⟨hlt, hgt⟩ := ha c List.mem_cons_self
    rw [escapeText_char hc, contentChar_eq hlt hgt hc, ih fun d hd => ha d (List.mem_cons_of_mem c hd)]
    rfl
  | @reference name s hn _ ih =>
    rw [escapeText_reference hn, ih]
    exact fun c hc => ha c (List.mem_append_right _ (List.mem_cons_of_mem ';' hc))

/-- Escaping changes nothing of text that is escaped already, and of no other. -/
theorem escapeText_eq_iff : escapeText s = s ↔ Settled s :=
  ⟨fun h => h ▸ settled_escapeText s, Settled.escapeText_eq⟩

/-- What comes without an ampersand out of escaping was not escaped. -/
theorem eq_of_escapeText (h : '&' ∉ escapeText s) : escapeText s = s := by
  have hchar {c : Char} (hc : '&' ∉ contentChar c) : contentChar c = [c] := by
    refine contentChar_eq ?_ ?_ ?_ <;>
    · rintro rfl
      exact hc (by decide)
  fun_induction escapeText s with
  | case1 => rfl
  | case2 => exact absurd List.mem_cons_self h
  | case3 c s _ _ ih | case4 c s _ ih =>
    rw [List.mem_append, not_or] at h
    rw [hchar h.1, ih h.2]
    rfl

end Markup
end QuartoPretext
