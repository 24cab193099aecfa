/-
# Nested tags

Tags are nested if each end tag ends the element that was started last, of its
name and of its character. A tag also knows how many delimiters were left of its
run when it was made: a pair makes strong emphasis exactly if two were left at
both its ends. Scopes nest with the tags where they count.

Key definitions: `width`, `Tag`, `Enclosure`, `Tag.Opens`, `Tag.Closes`,
`Nested`, `entered`, `openScopes`.
Key theorems: `Nested.trans`, `Nested.of_append`, `Nested.extend`,
`Nested.unique`, `Nested.opened_or`, `Nested.closed_or`,
`Nested.inner_of_same_scope`, `Nested.elements`, `Nested.countP`.
-/
import QuartoPretext.Inline.Emphasis
import Mathlib.Data.List.Nodup

namespace QuartoPretext.Emphasis

/-- The delimiters that an element takes at each of its ends. -/
def width : Emphasis → Nat
  | em => 1
  | alert | term => 2

/-- The delimiters that some elements take. -/
def widths : List Emphasis → Nat
  | [] => 0
  | e :: es => width e + widths es

@[simp] theorem widths_nil : widths [] = 0 := rfl

@[simp] theorem widths_cons (e : Emphasis) (es : List Emphasis) : widths (e :: es) = width e + widths es := rfl

@[simp] theorem widths_append (es es' : List Emphasis) : widths (es ++ es') = widths es + widths es' := by
  induction es with
  | nil => simp
  | cons e es ih => rw [List.cons_append, widths_cons, widths_cons, ih, Nat.add_assoc]

theorem width_pos (e : Emphasis) : 0 < width e := by cases e <;> decide

theorem width_le (e : Emphasis) : width e ≤ 2 := by cases e <;> decide

theorem eq_nil_of_widths {es : List Emphasis} (h : widths es = 0) : es = [] := by
  cases es with
  | nil => rfl
  | cons e es =>
    have := width_pos e
    rw [widths_cons] at h
    omega

/-- An edge of a scope, or a tag in a run of a character, with the delimiters
that were left of the run when the tag was made. -/
inductive Tag
  | enter (scope : Nat)
  | leave (scope : Nat)
  | start (char : Char) (e : Emphasis) (left : Nat)
  | stop (char : Char) (e : Emphasis) (left : Nat)
  deriving Repr, DecidableEq

/-- What is open at a place: a scope, or an element with the delimiters that were
left of its opening run. -/
inductive Enclosure
  | scope (n : Nat)
  | element (char : Char) (e : Emphasis) (left : Nat)
  deriving Repr, DecidableEq

namespace Tag

/-- What a tag opens. -/
inductive Opens : Tag → Enclosure → Prop
  | enter (n : Nat) : Opens (.enter n) (.scope n)
  | start (c : Char) (e : Emphasis) (left : Nat) : Opens (.start c e left) (.element c e left)

/-- What a tag can close: its scope, or an element of its character and name,
which is strong exactly if two delimiters were left at both its ends. -/
inductive Closes : Tag → Enclosure → Prop
  | leave (n : Nat) : Closes (.leave n) (.scope n)
  | stop {c : Char} {e : Emphasis} {left left' : Nat} (strong : width e = 2 ↔ 2 ≤ left ∧ 2 ≤ left') :
      Closes (.stop c e left') (.element c e left)

theorem Opens.unique {t : Tag} {x y : Enclosure} (h : t.Opens x) (h' : t.Opens y) : x = y := by
  cases h <;> cases h' <;> rfl

theorem Opens.not_closes {t : Tag} {x y : Enclosure} (h : t.Opens x) : ¬t.Closes y := by
  cases h <;> nofun

end Tag

/-- `Nested σ ts τ`: the tags lead from where `σ` is open to where `τ` is open,
innermost first, and each tag that closes something closes what is innermost. -/
inductive Nested : List Enclosure → List Tag → List Enclosure → Prop
  | nil {σ : List Enclosure} : Nested σ [] σ
  | opening {t : Tag} {x : Enclosure} {σ τ : List Enclosure} {ts : List Tag} : t.Opens x → Nested (x :: σ) ts τ →
      Nested σ (t :: ts) τ
  | closing {t : Tag} {x : Enclosure} {σ τ : List Enclosure} {ts : List Tag} : t.Closes x → Nested σ ts τ →
      Nested (x :: σ) (t :: ts) τ

variable {σ τ υ ρ : List Enclosure} {ts us : List Tag} {t : Tag} {x : Enclosure}

namespace Nested

theorem trans (h : Nested σ ts τ) (h' : Nested τ us υ) : Nested σ (ts ++ us) υ := by
  induction h with
  | nil => exact h'
  | opening ht _ ih => exact .opening ht (ih h')
  | closing ht _ ih => exact .closing ht (ih h')

/-- What is open around the tags stays open. -/
theorem extend (h : Nested σ ts τ) (ρ : List Enclosure) : Nested (σ ++ ρ) ts (τ ++ ρ) := by
  induction h with
  | nil => exact .nil
  | opening ht _ ih => exact .opening ht ih
  | closing ht _ ih => exact .closing ht ih

theorem of_append : ∀ {ts : List Tag} {σ : List Enclosure}, Nested σ (ts ++ us) τ →
    ∃ υ, Nested σ ts υ ∧ Nested υ us τ
  | [], σ, h => ⟨σ, .nil, h⟩
  | _ :: _, _, .opening ht h =>
    let ⟨υ, h₁, h₂⟩ := of_append h
    ⟨υ, .opening ht h₁, h₂⟩
  | _ :: _, _, .closing ht h =>
    let ⟨υ, h₁, h₂⟩ := of_append h
    ⟨υ, .closing ht h₁, h₂⟩

/-- Tags lead to one place only. -/
theorem unique (h : Nested σ ts τ) (h' : Nested σ ts υ) : τ = υ := by
  induction h with
  | nil =>
    cases h'
    rfl
  | opening ht _ ih =>
    cases h' with
    | opening ht' h' => exact ih (ht.unique ht' ▸ h')
    | closing ht' _ => exact absurd ht' ht.not_closes
  | closing ht _ ih =>
    cases h' with
    | opening ht' _ => exact absurd ht ht'.not_closes
    | closing _ h' => exact ih h'

/-- What is open at first stays open, or one of the tags closes it. -/
theorem closed_or (h : Nested (υ ++ x :: ρ) ts τ) : (∃ υ', Nested υ ts υ' ∧ τ = υ' ++ x :: ρ) ∨
    ∃ ts₁ t ts₂, ts = ts₁ ++ t :: ts₂ ∧ Nested υ ts₁ [] ∧ t.Closes x ∧ Nested ρ ts₂ τ := by
  generalize hσ : υ ++ x :: ρ = σ at h
  induction h generalizing υ with
  | nil => exact .inl ⟨υ, .nil, hσ.symm⟩
  | @opening t y σ _ _ ht _ ih =>
    rcases ih (υ := y :: υ) (congrArg _ hσ) with ⟨υ', hin, hτ⟩ | ⟨ts₁, t', ts₂, rfl, hin, hx, hout⟩
    · exact .inl ⟨υ', .opening ht hin, hτ⟩
    · exact .inr ⟨t :: ts₁, t', ts₂, rfl, .opening ht hin, hx, hout⟩
  | @closing t y σ _ _ ht h ih =>
    cases υ with
    | nil =>
      cases hσ
      exact .inr ⟨[], t, _, rfl, .nil, ht, h⟩
    | cons z υ =>
      cases hσ
      rcases ih rfl with ⟨υ', hin, hτ⟩ | ⟨ts₁, t', ts₂, rfl, hin, hx, hout⟩
      · exact .inl ⟨υ', .closing ht hin, hτ⟩
      · exact .inr ⟨t :: ts₁, t', ts₂, rfl, .closing ht hin, hx, hout⟩

/-- What is open at last was open before, or one of the tags opened it. -/
theorem opened_or (h : Nested σ ts (x :: τ)) : (∃ υ, σ = υ ++ x :: τ ∧ Nested υ ts []) ∨
    ∃ ts₁ t ts₂, ts = ts₁ ++ t :: ts₂ ∧ Nested σ ts₁ τ ∧ t.Opens x ∧ Nested [] ts₂ [] := by
  obtain ⟨ρ, hρ⟩ : ∃ ρ, ρ = x :: τ := ⟨_, rfl⟩
  rw [← hρ] at h
  induction h with
  | nil => exact .inl ⟨[], hρ, .nil⟩
  | @opening t y σ _ ts ht _ ih =>
    rcases ih hρ with ⟨υ, hσ, hin⟩ | ⟨ts₁, t', ts₂, rfl, hout, hx, hin⟩
    · cases υ with
      | nil =>
        cases hσ
        exact .inr ⟨[], t, ts, rfl, .nil, ht, hin⟩
      | cons z υ =>
        cases hσ
        exact .inl ⟨υ, rfl, .opening ht hin⟩
    · exact .inr ⟨t :: ts₁, t', ts₂, rfl, .opening ht hout, hx, hin⟩
  | @closing t y σ _ _ ht _ ih =>
    rcases ih hρ with ⟨υ, rfl, hin⟩ | ⟨ts₁, t', ts₂, rfl, hout, hx, hin⟩
    · exact .inl ⟨y :: υ, rfl, .closing ht hin⟩
    · exact .inr ⟨t :: ts₁, t', ts₂, rfl, .closing ht hout, hx, hin⟩

end Nested

/-! ### Scopes -/

def Tag.entered? : Tag → Option Nat
  | enter n => some n
  | _ => none

def Enclosure.scope? : Enclosure → Option Nat
  | scope n => some n
  | element _ _ _ => none

/-- The scopes that some tags enter. -/
def entered (ts : List Tag) : List Nat := ts.filterMap Tag.entered?

@[simp] theorem entered_nil : entered [] = [] := rfl

@[simp] theorem entered_append (ts us : List Tag) : entered (ts ++ us) = entered ts ++ entered us :=
  List.filterMap_append

/-- The scopes among what is open. -/
def openScopes (σ : List Enclosure) : List Nat := σ.filterMap Enclosure.scope?

@[simp] theorem openScopes_scope (n : Nat) (σ : List Enclosure) : openScopes (.scope n :: σ) = n :: openScopes σ :=
  rfl

/-- Only scopes are open. -/
def OnlyScopes (σ : List Enclosure) : Prop := ∀ x ∈ σ, ∃ n, x = .scope n

theorem OnlyScopes.tail (h : OnlyScopes (x :: σ)) : OnlyScopes σ := fun y hy => h y (List.mem_cons_of_mem x hy)

theorem OnlyScopes.cons (h : OnlyScopes σ) (n : Nat) : OnlyScopes (.scope n :: σ) :=
  List.forall_mem_cons.2 ⟨⟨n, rfl⟩, h⟩

theorem not_onlyScopes_element {c : Char} {e : Emphasis} {left : Nat} :
    ¬OnlyScopes (υ ++ .element c e left :: ρ) := fun h => by
  obtain ⟨n, hn⟩ := h _ (List.mem_append_right υ List.mem_cons_self)
  cases hn

namespace Nested

/-- The scopes that are open were open before, or the tags have entered them. -/
theorem scopes (h : Nested σ ts τ) : (openScopes τ).Sublist ((entered ts).reverse ++ openScopes σ) := by
  induction h with
  | nil => exact .refl _
  | @opening t x σ τ ts ht _ ih =>
    cases ht with
    | enter n =>
      have hts : entered (.enter n :: ts) = n :: entered ts := rfl
      rw [hts, List.reverse_cons, List.append_assoc]
      exact ih
    | start c e left => exact ih
  | closing ht _ ih =>
    cases ht with
    | leave n => exact ih.trans ((List.sublist_cons_self _ _).append_left _)
    | stop _ => exact ih

/-- Where only scopes are open at both ends, and the innermost is the same, the
tags between are nested on their own. -/
theorem inner_of_same_scope (h : Nested σ ts τ) (hσ : OnlyScopes σ) (hτ : OnlyScopes τ)
    (hhead : (openScopes σ).head? = (openScopes τ).head?) (hnodup : (entered ts ++ openScopes σ).Nodup) :
    Nested [] ts [] ∧ τ = σ := by
  cases σ with
  | nil =>
    cases τ with
    | nil => exact ⟨h, rfl⟩
    | cons x τ =>
      obtain ⟨n, rfl⟩ := hτ x List.mem_cons_self
      cases hhead
  | cons x ρ =>
    obtain ⟨n, rfl⟩ := hσ x List.mem_cons_self
    obtain ⟨_, hopen, hapart⟩ := List.nodup_append.1 hnodup
    have hfresh : n ∉ entered ts := fun hmem => hapart n hmem n List.mem_cons_self rfl
    have hbelow : n ∉ openScopes ρ := (List.nodup_cons.1 hopen).1
    have hmem : n ∈ openScopes τ := List.mem_of_mem_head? (by rw [← hhead]; rfl)
    rcases closed_or (υ := []) h with ⟨υ, hin, rfl⟩ | ⟨ts₁, t, ts₂, rfl, -, -, hout⟩
    · cases υ with
      | nil => exact ⟨hin, rfl⟩
      | cons y υ =>
        -- another scope has been entered within, but it would be the innermost one
        obtain ⟨m, rfl⟩ := hτ y List.mem_cons_self
        cases hhead
        have := hin.scopes.subset List.mem_cons_self
        simp [openScopes, hfresh] at this
    · rcases List.mem_append.1 (hout.scopes.subset hmem) with hin | hin
      · rw [← List.singleton_append, entered_append, entered_append] at hfresh
        exact absurd (List.mem_append_right _ (List.mem_append_right _ (List.mem_reverse.1 hin))) hfresh
      · exact absurd hin hbelow

end Nested

/-! ### Elements -/

namespace Tag

def isStart : Tag → Bool
  | start _ _ _ => true
  | _ => false

def isStop : Tag → Bool
  | stop _ _ _ => true
  | _ => false

def isElement (t : Tag) : Bool := t.isStart || t.isStop

end Tag

def Enclosure.isElement : Enclosure → Bool
  | element _ _ _ => true
  | scope _ => false

theorem entered_of_isElement (h : ∀ t ∈ ts, t.isElement) : entered ts = [] := by
  refine List.filterMap_eq_nil_iff.2 fun t ht => ?_
  have helement := h t ht
  cases t with
  | enter n => cases helement
  | leave n | start c e left | stop c e left => rfl

/-- Nested tags stay nested where scopes do not count. -/
theorem Nested.elements (h : Nested σ ts τ) :
    Nested (σ.filter Enclosure.isElement) (ts.filter Tag.isElement) (τ.filter Enclosure.isElement) := by
  induction h with
  | nil => exact .nil
  | opening ht _ ih =>
    cases ht with
    | enter n => exact ih
    | start c e left => exact .opening (.start c e left) ih
  | closing ht _ ih =>
    cases ht with
    | leave n => exact ih
    | stop strong => exact .closing (.stop strong) ih

/-- As many elements are open as have been started and not ended. -/
theorem Nested.countP (h : Nested σ ts τ) : τ.countP Enclosure.isElement + ts.countP Tag.isStop =
    σ.countP Enclosure.isElement + ts.countP Tag.isStart := by
  have hpos {α : Type} {p : α → Bool} {a : α} (h : p a = true) (as : List α) :
      (a :: as).countP p = as.countP p + 1 := List.countP_cons_of_pos h
  have hneg {α : Type} {p : α → Bool} {a : α} (h : p a = false) (as : List α) :
      (a :: as).countP p = as.countP p := List.countP_cons_of_neg (Bool.eq_false_iff.1 h)
  induction h with
  | nil => rfl
  | opening ht _ ih =>
    cases ht with
    | enter n =>
      rw [hneg (p := Enclosure.isElement) rfl] at ih
      rw [hneg (p := Tag.isStop) rfl, hneg (p := Tag.isStart) rfl, ih]
    | start c e left =>
      rw [hpos (p := Enclosure.isElement) rfl] at ih
      rw [hneg (p := Tag.isStop) rfl, hpos (p := Tag.isStart) rfl]
      omega
  | closing ht _ ih =>
    cases ht with
    | leave n =>
      rw [hneg (p := Enclosure.isElement) rfl, hneg (p := Tag.isStop) rfl, hneg (p := Tag.isStart) rfl, ih]
    | stop _ =>
      rw [hpos (p := Enclosure.isElement) rfl, hpos (p := Tag.isStop) rfl, hneg (p := Tag.isStart) rfl]
      omega

end QuartoPretext.Emphasis
