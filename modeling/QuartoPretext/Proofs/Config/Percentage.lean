/-
# Percentages

A percentage is a numeral of ASCII digits and a percent sign. The widths that
settings and documents give may have a plus sign besides; settings ask for a
number from 1 to 100, and a figure for one that fits in 32 bits.

Key definitions: `Text.Percent`, `Text.SignedPercent`, `Text.IsWidth`.
Key theorems: `Config.percentage?_eq_some_iff`, `Plan.isPercentage_iff`,
`Text.SignedPercent.isWidth_iff`, `Config.signedPercent_of_load`.
-/
import QuartoPretext.Config.Load
import QuartoPretext.Document.Plan
import QuartoPretext.Proofs.Text.Cut

namespace QuartoPretext

namespace Text

open Markup

/-- A numeral of ASCII digits for a number, and a percent sign. -/
def Percent (n : Nat) (s : Text) : Prop := ∃ numeral, toNat? numeral = some n ∧ s = numeral ++ ['%']

/-- A percentage, or one with a plus sign before it. -/
def SignedPercent (n : Nat) (s : Text) : Prop := Percent n s ∨ ∃ t, s = '+' :: t ∧ Percent n t

/-- A percentage from 1 to 100. -/
def IsWidth (s : Text) : Prop := ∃ n, 1 ≤ n ∧ n ≤ 100 ∧ Percent n s

variable {s t mark : Text} {n m : Nat}

theorem isDigit_of_toNat? (h : toNat? s = some n) : s ≠ [] ∧ ∀ c ∈ s, c.isDigit := by
  unfold toNat? at h
  split at h
  · next hs => rwa [Bool.and_eq_true, Bool.not_eq_true', List.isEmpty_eq_false_iff, List.all_eq_true] at hs
  · cases h

/-- A percentage starts with a digit. -/
theorem Percent.head? (h : Percent n s) : s.head? ≠ some '+' := by
  obtain ⟨numeral, hn, rfl⟩ := h
  obtain ⟨hne, hdigits⟩ := isDigit_of_toNat? hn
  cases numeral with
  | nil => exact absurd rfl hne
  | cons c numeral =>
    rintro ⟨⟩
    exact absurd (hdigits '+' List.mem_cons_self) (by decide)

theorem Percent.eq (h : Percent n s) (h' : Percent m s) : n = m := by
  obtain ⟨numeral, hn, rfl⟩ := h
  obtain ⟨numeral', hm, heq⟩ := h'
  rw [List.append_cancel_right heq] at hn
  exact Option.some.inj (hn.symm.trans hm)

theorem percent_append : Percent n (t ++ ['%']) ↔ toNat? t = some n := by
  constructor
  · rintro ⟨numeral, hn, heq⟩
    rwa [List.append_cancel_right heq]
  · exact fun h => ⟨t, h, rfl⟩

/-- What is read before a percent sign, after a plus sign if there is one. -/
theorem signedPercent_append : SignedPercent n (t ++ ['%']) ↔ toNat? ((dropPrefix? ['+'] t).getD t) = some n := by
  cases hsign : dropPrefix? ['+'] t with
  | none =>
    rw [Option.getD_none, ← percent_append]
    refine ⟨fun h => h.resolve_right ?_, .inl⟩
    rintro ⟨u, hu, numeral, -, rfl⟩
    have ht : t = '+' :: numeral := List.append_cancel_right hu
    rw [ht] at hsign
    cases hsign
  | some u =>
    obtain rfl := dropPrefix?_eq_some_iff.1 hsign
    rw [Option.getD_some, ← percent_append]
    refine ⟨?_, fun h => .inr ⟨_, rfl, h⟩⟩
    rintro (h | ⟨v, hv, h⟩)
    · exact absurd rfl h.head?
    · cases hv
      exact h

theorem SignedPercent.exists_append (h : SignedPercent n s) : ∃ t, s = t ++ ['%'] := by
  obtain ⟨numeral, -, rfl⟩ | ⟨-, rfl, numeral, -, rfl⟩ := h
  · exact ⟨_, rfl⟩
  · exact ⟨'+' :: numeral, rfl⟩

theorem signedPercent_iff : SignedPercent n s ↔
    ∃ t, dropSuffix? ['%'] s = some t ∧ toNat? ((dropPrefix? ['+'] t).getD t) = some n := by
  simp only [dropSuffix?_eq_some_iff]
  constructor
  · intro h
    obtain ⟨t, rfl⟩ := h.exists_append
    exact ⟨t, rfl, signedPercent_append.1 h⟩
  · rintro ⟨t, rfl, hn⟩
    exact signedPercent_append.2 hn

theorem SignedPercent.eq (h : SignedPercent n s) (h' : SignedPercent m s) : n = m := by
  obtain ⟨t, ht, hn⟩ := signedPercent_iff.1 h
  obtain ⟨u, hu, hm⟩ := signedPercent_iff.1 h'
  cases ht.symm.trans hu
  exact Option.some.inj (hn.symm.trans hm)

/-- A percentage is a width if it has no sign and a number from 1 to 100. -/
theorem SignedPercent.isWidth_iff (h : SignedPercent n s) : s.IsWidth ↔ s.head? ≠ some '+' ∧ 1 ≤ n ∧ n ≤ 100 := by
  constructor
  · rintro ⟨m, hone, hhundred, hm⟩
    rcases h with h | ⟨t, rfl, -⟩
    · cases h.eq hm
      exact ⟨hm.head?, hone, hhundred⟩
    · exact absurd rfl hm.head?
  · rintro ⟨hsign, hone, hhundred⟩
    rcases h with h | ⟨t, rfl, -⟩
    · exact ⟨n, hone, hhundred, h⟩
    · exact absurd rfl hsign

theorem escapeAttribute_of_plain (h : ∀ c ∈ s, attributeChar c = [c]) : escapeAttribute s = s := by
  unfold escapeAttribute
  induction s with
  | nil => rfl
  | cons c s ih =>
    have hs := ih fun d hd => h d (List.mem_cons_of_mem c hd)
    rw [List.flatMap_cons, h c List.mem_cons_self, hs, List.singleton_append]

theorem attributeChar_digit {c : Char} (h : c.isDigit) : attributeChar c = [c] := by
  have hne (d : Char) (hd : d.isDigit = false) : (c == d) = false := beq_false_of_ne fun he => by simp [he, hd] at h
  simp [attributeChar, contentChar, hne]

/-- The characters of a percentage stand for themselves in markup. -/
theorem SignedPercent.escapeAttribute_eq (h : SignedPercent n s) : escapeAttribute s = s := by
  have hnumeral {numeral : Text} (hn : toNat? numeral = some n) : ∀ c ∈ numeral, attributeChar c = [c] :=
    fun c hc => attributeChar_digit ((isDigit_of_toNat? hn).2 c hc)
  refine escapeAttribute_of_plain ?_
  obtain ⟨numeral, hn, rfl⟩ | ⟨-, rfl, numeral, hn, rfl⟩ := h
  · simpa [or_imp, forall_and] using ⟨hnumeral hn, rfl⟩
  · simpa [or_imp, forall_and] using ⟨rfl, hnumeral hn, rfl⟩

end Text

open Text

variable {s : Text} {n : Nat}

/-- Figures accept the percentages that fit in 32 bits, with a sign or without. -/
theorem Plan.isPercentage_iff : isPercentage s ↔ ∃ n < 0x100000000, SignedPercent n s := by
  simp only [signedPercent_iff]
  unfold isPercentage
  cases dropSuffix? ['%'] s with
  | none => simp
  | some t => simp [Option.any_eq_true, and_comm]

namespace Config

/-- Settings accept the percentages from 1 to 100, with a sign or without. -/
theorem percentage?_eq_some_iff : percentage? s = some n ↔ 1 ≤ n ∧ n ≤ 100 ∧ SignedPercent n s := by
  simp only [signedPercent_iff]
  unfold percentage?
  cases dropSuffix? ['%'] s with
  | none => simp
  | some t => simp [Option.filter_eq_some_iff, and_comm, and_assoc]

/-- The width in settings without a problem is a percentage. -/
theorem signedPercent_of_problem? {c : Config} (h : c.problem? = none) :
    ∃ n, 1 ≤ n ∧ n ≤ 100 ∧ SignedPercent n c.figureWidth := by
  simp only [problem?, Option.or_eq_none_iff] at h
  obtain ⟨-, hwidth, -⟩ := h
  unfold notPercentage? at hwidth
  simp only [← percentage?_eq_some_iff]
  cases hp : percentage? c.figureWidth with
  | some n => exact ⟨n, rfl⟩
  | none =>
    rw [hp] at hwidth
    cases hwidth

end Config

/-! ### Settings that are loaded have no problem -/

/-- An action whose answers are of a kind, wherever it is run. -/
def Workspace.Answers {α : Type} (P : α → Prop) (x : StateM Workspace α) : Prop := ∀ w, P (x w).1

theorem Workspace.Answers.after {α β : Type} {P : β → Prop} (x : StateM Workspace α) {f : α → StateM Workspace β}
    (hf : ∀ a, Answers P (f a)) : Answers P (x >>= f) := fun w => hf (x w).1 (x w).2

theorem Workspace.Answers.bind {α β : Type} {P : α → Prop} {Q : β → Prop} {x : StateM Workspace α}
    {f : α → StateM Workspace β} (hx : Answers P x) (hf : ∀ a, P a → Answers Q (f a)) : Answers Q (x >>= f) := fun w => hf (x w).1 (hx w) (x w).2

theorem Workspace.Answers.pure {α : Type} {P : α → Prop} {a : α} (h : P a) : Answers P (pure a) := fun _ => h

namespace Config

open Workspace

/-- Settings that have no problem, or a fault in place of settings. -/
def Sound (res : Except ConfigFault Config) : Prop := ∀ c, res = .ok c → c.problem? = none

def SoundFile (res : Except ConfigFault Loaded) : Prop := ∀ l, res = .ok l → l.config.problem? = none

theorem sound_validate (c : Config) : Sound c.validate := by
  unfold validate
  cases hproblem : c.problem? with
  | some p => exact nofun
  | none =>
    rintro c ⟨⟩
    exact hproblem

theorem sound_ofText (s : Text) : Answers Sound (ofText s) := by
  unfold ofText
  split
  · exact .pure nofun
  · next c _ =>
    refine .after _ fun values => .pure ?_
    cases c.expand fun name => (values.lookup name).join with
    | error f => exact nofun
    | ok c => exact sound_validate c

theorem sound_ofFile (path : Text) (text : Except FileFault Text) : Answers SoundFile (ofFile path text) := by
  unfold ofFile
  split
  · next s =>
    refine (sound_ofText s).bind fun res hres => .pure ?_
    cases res with
    | error f => exact nofun
    | ok c =>
      rintro l ⟨⟩
      exact hres c rfl
  · exact .pure nofun

theorem sound_ofPath (path : Text) : Answers SoundFile (ofPath path) := by
  unfold ofPath
  refine .after _ fun text => ?_
  split
  · exact .pure nofun
  · exact .pure nofun
  · exact sound_ofFile path text

theorem sound_discover : Answers SoundFile discover := by
  unfold discover
  refine .after _ fun here => .after _ fun found => ?_
  split
  · exact sound_ofFile _ _
  · refine .pure ?_
    rintro l ⟨⟩
    decide

theorem SoundFile.override {res : Except ConfigFault Loaded} (h : SoundFile res) (o : Overrides) :
    SoundFile (res.bind fun l => (l.config.override o).validate.map fun c => { l with config := c }) := by
  cases res with
  | error f => exact nofun
  | ok l =>
    have hvalid := sound_validate (l.config.override o)
    show SoundFile ((l.config.override o).validate.map fun c => { l with config := c })
    cases hres : (l.config.override o).validate with
    | error f => exact nofun
    | ok c =>
      rintro l ⟨⟩
      exact hvalid c hres

/-- Settings have no problem after they are loaded, wherever they come from. -/
theorem sound_load (path : Option Text) (overrides : Option Overrides) : Answers SoundFile (load path overrides) := by
  unfold load
  cases path with
  | none =>
    cases overrides with
    | none => exact sound_discover.bind fun _ h => .pure h
    | some o => exact sound_discover.bind fun _ h => .pure (h.override o)
  | some p =>
    cases overrides with
    | none => exact (sound_ofPath p).bind fun _ h => .pure h
    | some o => exact (sound_ofPath p).bind fun _ h => .pure (h.override o)

/-- The width in settings that are loaded is a percentage from 1 to 100, with a sign or without. -/
theorem signedPercent_of_load {w : Workspace} {path : Option Text} {overrides : Option Overrides} {l : Loaded}
    (h : ((load path overrides : StateM Workspace _) w).1 = .ok l) :
    ∃ n, 1 ≤ n ∧ n ≤ 100 ∧ SignedPercent n l.config.figureWidth :=
  signedPercent_of_problem? (sound_load path overrides w l h)

end Config
end QuartoPretext
