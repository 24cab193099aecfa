/-
# Code spans

A run of backticks opens a code span that the next run of the same length closes;
a run that is never closed is text. The rule for code reads a text in this way.
Text between two dollar signs that no code span reaches may be taken out of the
text: the code spans before it and after it stay what they are.

Key definitions: `Code.HasRun`, `Code.IsContent`, `Code.Divides`.
Key theorems: `Code.hasRun_iff`, `Code.protect_divides`, `Code.Divides.split`.
-/
import QuartoPretext.Proofs.Inline.Shield
import QuartoPretext.Proofs.Text.Division
import Mathlib.Data.List.Basic

namespace QuartoPretext

/-! ### Runs of backticks -/

namespace Code

open Text

def ticks (n : Nat) : Text := List.replicate n '\x60'

/-- Somewhere in a text stands a run of exactly `n` backticks. -/
def HasRun (n : Nat) (s : Text) : Prop :=
  ∃ a b, s = a ++ ticks n ++ b ∧ a.getLast? ≠ some '\x60' ∧ b.head? ≠ some '\x60'

/-- What may stand between two runs of `n` backticks as code. -/
structure IsContent (n : Nat) (content : Text) : Prop where
  pos : 0 < n
  ne_nil : content ≠ []
  head : content.head? ≠ some '\x60'
  last : content.getLast? ≠ some '\x60'
  noRun : ¬HasRun n content

/-- How the code spans of a text divide it, from left to right: a run of backticks
opens a span that the next run of its length closes, or it is text. -/
inductive Divides : Text → Division → Prop
  | nil : Divides [] (.last [])
  | char {c : Char} {s : Text} {d : Division} : c ≠ '\x60' → Divides s d → Divides (c :: s) (d.prepend [c])
  | span {n : Nat} {content rest : Text} {d : Division} : IsContent n content → rest.head? ≠ some '\x60' →
      Divides rest d →
      Divides (ticks n ++ content ++ ticks n ++ rest) (.next [] (ticks n ++ content ++ ticks n) d)
  | unclosed {n : Nat} {rest : Text} {d : Division} : 0 < n → rest.head? ≠ some '\x60' → ¬HasRun n rest →
      Divides rest d → Divides (ticks n ++ rest) (d.prepend (ticks n))

/-- What stands between the backticks of a code span. -/
def contentOf (span : Text) : Text := ((span.dropWhile isTick).reverse.dropWhile isTick).reverse

variable {n : Nat} {s t content rest : Text}

theorem Divides.chars {d : Division} (h : Divides s d) : ∀ {t : Text}, '\x60' ∉ t → Divides (t ++ s) (d.prepend t)
  | [], _ => by
    cases d <;> exact h
  | c :: t, ht => by
    have hc : c ≠ '\x60' := fun he => ht (he ▸ List.mem_cons_self)
    have hmore := Divides.char hc (h.chars fun hmem => ht (List.mem_cons_of_mem c hmem))
    cases d <;> exact hmore

theorem isTick_ticks : ∀ c ∈ ticks n, isTick c = true := by
  intro c hc
  rw [List.eq_of_mem_replicate hc]
  rfl

theorem takeWhile_of_head (h : s.head? ≠ some '\x60') : s.takeWhile isTick = [] ∧ s.dropWhile isTick = s := by
  cases s with
  | nil => exact ⟨rfl, rfl⟩
  | cons c s =>
    have hc : isTick c = false := beq_false_of_ne fun he => h (by rw [he]; rfl)
    exact ⟨List.takeWhile_cons_of_neg (by simp [hc]), List.dropWhile_cons_of_neg (by simp [hc])⟩

/-- A run ends where the backticks end. -/
theorem takeWhile_ticks (h : s.head? ≠ some '\x60') :
    (ticks n ++ s).takeWhile isTick = ticks n ∧ (ticks n ++ s).dropWhile isTick = s := by
  obtain ⟨htake, hdrop⟩ := takeWhile_of_head h
  rw [List.takeWhile_append_of_pos isTick_ticks, List.dropWhile_append_of_pos isTick_ticks, htake, hdrop,
    List.append_nil]
  exact ⟨rfl, rfl⟩

theorem contentOf_span (h : IsContent n content) : contentOf (ticks n ++ content ++ ticks n) = content := by
  have hhead : (content ++ ticks n).head? ≠ some '\x60' := by
    rw [List.head?_append_of_ne_nil _ h.ne_nil]
    exact h.head
  have hlast : content.reverse.head? ≠ some '\x60' := by
    rw [List.head?_reverse]
    exact h.last
  have hreverse : (content ++ ticks n).reverse = ticks n ++ content.reverse := by
    rw [List.reverse_append, ticks, List.reverse_replicate]
  rw [contentOf, List.append_assoc, (takeWhile_ticks hhead).2, hreverse, (takeWhile_ticks hlast).2,
    List.reverse_reverse]

theorem head?_dropWhile_ticks (s : Text) : (s.dropWhile isTick).head? ≠ some '\x60' := by
  intro h
  obtain ⟨t, ht⟩ := List.head?_eq_some_iff.1 h
  have hnot := List.head?_dropWhile_not isTick s
  rw [ht] at hnot
  exact Bool.noConfusion hnot

/-- Every text is a run of backticks, which may be empty, and text after it. -/
theorem exists_ticks (s : Text) : ∃ n t, s = ticks n ++ t ∧ t.head? ≠ some '\x60' := by
  refine ⟨(s.takeWhile isTick).length, s.dropWhile isTick, ?_, head?_dropWhile_ticks s⟩
  rw [ticks, ← eq_replicate fun c hc => List.mem_takeWhile_imp hc, List.takeWhile_append_dropWhile]

theorem getLast?_cons_ne {c : Char} (hc : c ≠ '\x60') (h : s.getLast? ≠ some '\x60') :
    (c :: s).getLast? ≠ some '\x60' := by
  cases s with
  | nil => exact fun he => hc (Option.some.inj he)
  | cons d s => rwa [List.getLast?_cons_cons]

theorem ne_nil_of_ticks (hn : 0 < n) (h : (s ++ ticks n ++ t).head? ≠ some '\x60') : s ≠ [] := by
  rintro rfl
  obtain ⟨m, rfl⟩ := Nat.exists_eq_succ_of_ne_zero hn.ne'
  exact h rfl

theorem getLast?_ticks (hn : 0 < n) (s : Text) : (s ++ ticks n).getLast? = some '\x60' := by
  rw [List.getLast?_append, ticks, List.getLast?_replicate, if_neg hn.ne']
  rfl

theorem HasRun.cons {c : Char} (hc : c ≠ '\x60') (h : HasRun n s) : HasRun n (c :: s) := by
  obtain ⟨a, b, rfl, ha, hb⟩ := h
  exact ⟨c :: a, b, rfl, getLast?_cons_ne hc ha, hb⟩

/-- A run within text that follows another run. -/
theorem HasRun.ticks_append (hn : 0 < n) (ht : t.head? ≠ some '\x60') (h : HasRun n t) (k : Nat) :
    HasRun n (ticks k ++ t) := by
  obtain ⟨a, b, rfl, ha, hb⟩ := h
  refine ⟨ticks k ++ a, b, by simp only [List.append_assoc], ?_, hb⟩
  rwa [List.getLast?_append_of_ne_nil _ (ne_nil_of_ticks hn ht)]

/-- A run within text that other text follows. -/
theorem HasRun.append (hs : s.head? ≠ some '\x60') (h : HasRun n t) : HasRun n (t ++ s) := by
  obtain ⟨a, b, rfl, ha, hb⟩ := h
  refine ⟨a, b ++ s, by simp only [List.append_assoc], ha, ?_⟩
  cases b with
  | nil => exact hs
  | cons c b => exact hb

/-- The first run of a length. -/
theorem HasRun.exists_first (hn : 0 < n) {s : Text} (h : HasRun n s) : ∃ a b, s = a ++ ticks n ++ b ∧
    a.getLast? ≠ some '\x60' ∧ b.head? ≠ some '\x60' ∧ ¬HasRun n a := by
  obtain ⟨a, b, hs, ha, hb⟩ := h
  by_cases hrun : HasRun n a
  · have hlen : a.length < s.length := by
      rw [hs, List.length_append, List.length_append, ticks, List.length_replicate]
      omega
    obtain ⟨a', b', ha', hlast, hhead, hfirst⟩ := exists_first hn hrun
    have hne : b' ≠ [] := by
      rintro rfl
      rw [List.append_nil] at ha'
      exact ha (ha' ▸ getLast?_ticks hn a')
    refine ⟨a', b' ++ ticks n ++ b, ?_, hlast, ?_, hfirst⟩
    · rw [hs, ha']
      simp only [List.append_assoc]
    · rwa [List.append_assoc, List.head?_append_of_ne_nil _ hne]
  · exact ⟨a, b, hs, ha, hb, hrun⟩
termination_by s.length

/-! ### Reading code spans -/

theorem closing?_ticks {k : Nat} (hs : s.head? ≠ some '\x60') : closing? n (ticks (k + 1) ++ s) =
    if k + 1 = n then some ([], s)
    else (closing? n s).map fun (content, rest) => (ticks (k + 1) ++ content, rest) := by
  obtain ⟨htake, hdrop⟩ := takeWhile_ticks (n := k) hs
  have hlength : ('\x60' :: ticks k).length = k + 1 := by simp [ticks]
  have htick : isTick '\x60' = true := rfl
  show closing? n ('\x60' :: (ticks k ++ s)) = _
  rw [closing?, if_pos htick, htake, hdrop]
  simp only [hlength]
  rfl

/-- The reader finds the first run of a length. -/
theorem closing?_of_noRun (hn : 0 < n) (hrest : rest.head? ≠ some '\x60') : ∀ {content : Text},
    content.getLast? ≠ some '\x60' → ¬HasRun n content →
      closing? n (content ++ ticks n ++ rest) = some (content, rest)
  | [], _, _ => by
    obtain ⟨m, rfl⟩ := Nat.exists_eq_succ_of_ne_zero hn.ne'
    rw [List.nil_append, closing?_ticks hrest, if_pos rfl]
  | c :: t, hlast, hrun => by
    by_cases hc : c = '\x60'
    · obtain ⟨k, u, ht, hu⟩ := exists_ticks t
      have hcontent : c :: t = ticks (k + 1) ++ u := by
        rw [hc, ht]
        rfl
      rw [hcontent] at hlast hrun ⊢
      have hne : u ≠ [] := by
        rintro rfl
        rw [List.append_nil] at hlast
        exact hlast (getLast?_ticks (Nat.succ_pos k) [])
      have hlength : k + 1 ≠ n := by
        rintro rfl
        exact hrun ⟨[], u, rfl, nofun, hu⟩
      have ih : closing? n (u ++ ticks n ++ rest) = some (u, rest) := by
        refine closing?_of_noRun hn hrest ?_ fun h => hrun (h.ticks_append hn hu (k + 1))
        rwa [List.getLast?_append_of_ne_nil _ hne] at hlast
      have hhead : (u ++ ticks n ++ rest).head? ≠ some '\x60' := by
        rwa [List.append_assoc, List.head?_append_of_ne_nil _ hne]
      rw [List.append_assoc, List.append_assoc, ← List.append_assoc u, closing?_ticks hhead, if_neg hlength, ih]
      rfl
    · have hlast' : t.getLast? ≠ some '\x60' := by
        cases t with
        | nil => exact nofun
        | cons d t => rwa [List.getLast?_cons_cons] at hlast
      have htick : isTick c = false := beq_false_of_ne hc
      rw [List.cons_append, List.cons_append, closing?, if_neg (by simp [htick]),
        closing?_of_noRun hn hrest hlast' fun h => hrun (h.cons hc)]
      rfl
termination_by content => content.length
decreasing_by
  · rw [ht, List.length_cons, List.length_append]
    omega
  · simp

/-- What the reader finds is a run of its own. -/
theorem closing?_ends (hn : 0 < n) : ∀ {s content rest : Text}, closing? n s = some (content, rest) →
    content.getLast? ≠ some '\x60' ∧ rest.head? ≠ some '\x60'
  | [], _, _, h => by simp [closing?] at h
  | c :: s, content, rest, h => by
    have hdrop := head?_dropWhile_ticks s
    unfold closing? at h
    simp only at h
    split at h
    · split at h
      · cases h
        exact ⟨by simp, hdrop⟩
      · obtain ⟨⟨inner, r⟩, hf, he⟩ := Option.map_eq_some_iff.1 h
        cases he
        obtain ⟨hlast, hhead⟩ := closing?_ends hn hf
        refine ⟨?_, hhead⟩
        rw [closing?_eq n hf] at hdrop
        rwa [List.getLast?_append_of_ne_nil _ (ne_nil_of_ticks hn hdrop)]
    · next htick =>
      obtain ⟨⟨inner, r⟩, hf, he⟩ := Option.map_eq_some_iff.1 h
      cases he
      obtain ⟨hlast, hhead⟩ := closing?_ends hn hf
      exact ⟨getLast?_cons_ne (fun he => htick (by rw [he]; rfl)) hlast, hhead⟩
termination_by s => s.length
decreasing_by
  all_goals
    have := (List.dropWhile_sublist isTick (l := s)).length_le
    simp only [List.length_cons]
    omega

/-- The reader finds a run exactly where there is one. -/
theorem hasRun_iff (hn : 0 < n) : HasRun n s ↔ (closing? n s).isSome := by
  constructor
  · intro h
    obtain ⟨a, b, rfl, ha, hb, hfirst⟩ := h.exists_first hn
    rw [closing?_of_noRun hn hb ha hfirst]
    rfl
  · intro h
    obtain ⟨⟨content, rest⟩, hf⟩ := Option.isSome_iff_exists.1 h
    exact ⟨content, rest, closing?_eq n hf, closing?_ends hn hf⟩

theorem isContent_iff : IsContent n content ↔ 0 < n ∧ content ≠ [] ∧ content.head? ≠ some '\x60' ∧
    content.getLast? ≠ some '\x60' ∧ closing? n content = none := by
  constructor
  · rintro ⟨hn, hne, hhead, hlast, hrun⟩
    rw [hasRun_iff hn, Bool.not_eq_true, Option.isSome_eq_false_iff, Option.isNone_iff_eq_none] at hrun
    exact ⟨hn, hne, hhead, hlast, hrun⟩
  · rintro ⟨hn, hne, hhead, hlast, hnone⟩
    refine ⟨hn, hne, hhead, hlast, ?_⟩
    rw [hasRun_iff hn, hnone]
    exact nofun

instance (n : Nat) (content : Text) : Decidable (IsContent n content) := decidable_of_iff _ isContent_iff.symm

/-- The mark of a code span. -/
def markOf (span : Text) : Mark := .code (unpad (contentOf span))

/-- The markup of a code span: what stands between its backticks, escaped, without
one space at each end. -/
def shown (span : Text) : Text := Mark.element "c".toList (Markup.escapeContent (unpad (contentOf span)))

theorem find?_ticks (hn : 0 < n) (hs : s.head? ≠ some '\x60') : find? (ticks n ++ s) =
    match closing? n s with
    | some (content, after) => some ([.mark (.code (unpad content))], after)
    | none => some (Span.cellsOf (ticks n), s) := by
  obtain ⟨htake, hdrop⟩ := takeWhile_ticks (n := n) hs
  have hlength : (ticks n).length = n := List.length_replicate
  have hne : (ticks n).isEmpty = false := by
    rw [List.isEmpty_eq_false_iff, ← List.length_pos_iff, hlength]
    exact hn
  rw [find?, htake, hdrop, hlength]
  exact if_neg (by rw [hne]; exact Bool.false_ne_true)

theorem length_lt_ticks (hn : 0 < n) (h : t.length ≤ s.length) : t.length < (ticks n ++ s).length := by
  rw [List.length_append, ticks, List.length_replicate]
  omega

/-- The rule for code makes marks of the code spans and leaves the text between them. -/
theorem protect_divides {d : Division} (h : Divides s d) :
    protect s = d.map Span.cellsOf fun span => [.mark (markOf span)] := by
  induction h with
  | nil => exact scan_nil
  | @char c s d hc _ ih =>
    have htick : isTick c = false := beq_false_of_ne hc
    have hnone : find? (c :: s) = none := by simp [find?, htick]
    rw [protect, scan_none hnone, Division.map_prepend Span.cellsOf_append, ← ih]
    rfl
  | @span n content rest d hcontent hrest _ ih =>
    have hhead : (content ++ ticks n ++ rest).head? ≠ some '\x60' := by
      rw [List.append_assoc, List.head?_append_of_ne_nil _ hcontent.ne_nil]
      exact hcontent.head
    have hfind := find?_ticks hcontent.pos hhead
    rw [closing?_of_noRun hcontent.pos hrest hcontent.last hcontent.noRun] at hfind
    have htext : ticks n ++ content ++ ticks n ++ rest = ticks n ++ (content ++ ticks n ++ rest) := by
      simp only [List.append_assoc]
    have hlength := length_lt_ticks hcontent.pos (List.suffix_append (content ++ ticks n) rest).length_le
    rw [protect, htext, scan_found hfind hlength, Division.map, markOf, contentOf_span hcontent, ← ih]
    rfl
  | @unclosed n rest d hn hrest hrun _ ih =>
    have hfind := find?_ticks hn hrest
    have hnone : closing? n rest = none := by
      rwa [hasRun_iff hn, Bool.not_eq_true, Option.isSome_eq_false_iff, Option.isNone_iff_eq_none] at hrun
    rw [hnone] at hfind
    rw [protect, scan_found hfind (length_lt_ticks hn (Nat.le_refl _)), Division.map_prepend Span.cellsOf_append, ← ih]
    rfl

/-- Every text is divided by its code spans. -/
theorem exists_divides (s : Text) : ∃ d, Divides s d := by
  cases s with
  | nil => exact ⟨_, .nil⟩
  | cons c s =>
    by_cases hc : c = '\x60'
    · obtain ⟨k, rest, hs, hrest⟩ := exists_ticks s
      have htext : c :: s = ticks (k + 1) ++ rest := by
        rw [hc, hs]
        rfl
      have hn : 0 < k + 1 := Nat.succ_pos k
      rw [htext]
      by_cases hrun : HasRun (k + 1) rest
      · obtain ⟨content, after, hafter, hlast, hhead, hfirst⟩ := hrun.exists_first hn
        have hne : content ≠ [] := ne_nil_of_ticks hn (hafter ▸ hrest)
        have hcontent : IsContent (k + 1) content := by
          refine ⟨hn, hne, ?_, hlast, hfirst⟩
          rwa [hafter, List.append_assoc, List.head?_append_of_ne_nil _ hne] at hrest
        obtain ⟨d, hd⟩ := exists_divides after
        rw [hafter, ← List.append_assoc, ← List.append_assoc]
        exact ⟨_, .span hcontent hhead hd⟩
      · obtain ⟨d, hd⟩ := exists_divides rest
        exact ⟨_, .unclosed hn hrest hrun hd⟩
    · obtain ⟨d, hd⟩ := exists_divides s
      exact ⟨_, .char hc hd⟩
termination_by s.length
decreasing_by
  · rw [hs, hafter]
    simp only [List.length_cons, List.length_append]
    omega
  · rw [hs, List.length_cons, List.length_append]
    omega
  · simp

/-! ### Code spans beside a stretch of text -/

/-- No stretch found in a text with `n` characters before it has a character in
common with what stands from `start` to `stop`. -/
def Avoids (start stop n : Nat) (d : Division) : Prop := ∀ q ∈ d.places n, stop ≤ q.1 ∨ q.2 ≤ start

theorem length_ticks (n : Nat) : (ticks n).length = n := List.length_replicate

/-- A run at the start of a text lies within what stands first there, if that ends
with another character. -/
theorem exists_ticks_append {m : Text} (hlast : m.getLast? ≠ some '\x60') (hne : m ≠ [])
    (h : m ++ s = ticks n ++ rest) : ∃ m', m = ticks n ++ m' ∧ m' ≠ [] ∧ rest = m' ++ s := by
  have hmem : ∀ a, ticks n = m ++ a → False := by
    intro a ha
    rw [List.getLast?_eq_some_getLast hne] at hlast
    have hin : m.getLast hne ∈ ticks n := ha ▸ List.mem_append_left a (List.getLast_mem hne)
    exact hlast (congrArg some (List.eq_of_mem_replicate hin))
  rcases List.append_eq_append_iff.1 h with ⟨a, ha, _⟩ | ⟨m', hm', hrest⟩
  · exact (hmem a ha).elim
  · refine ⟨m', hm', ?_, hrest⟩
    rintro rfl
    exact hmem [] (by rw [hm', List.append_nil, List.append_nil])

/-- Text that no code span reaches can be left out at the front. -/
theorem Divides.skip {m : Text} {e : Division} {k : Nat} (h : Divides (m ++ s) e) (hlast : m.getLast? ≠ some '\x60')
    (havoid : Avoids k (k + m.length) k e) :
    ∃ e', Divides s e' ∧ e'.found = e.found ∧ e'.places (k + m.length) = e.places k := by
  by_cases hne : m = []
  · subst hne
    exact ⟨e, h, rfl, rfl⟩
  generalize hu : m ++ s = u at h
  induction h generalizing m k with
  | nil => exact absurd (List.append_eq_nil_iff.1 hu).1 hne
  | @char c u d hc hd ih =>
    cases m with
    | nil => exact absurd rfl hne
    | cons c' m =>
      obtain ⟨rfl, rfl⟩ := List.cons.inj hu
      rw [Division.found_prepend, Division.places_prepend, List.length_singleton, List.length_cons,
        Nat.add_comm m.length, ← Nat.add_assoc]
      by_cases hm : m = []
      · subst hm
        exact ⟨d, hd, rfl, rfl⟩
      · have hlast' : m.getLast? ≠ some '\x60' := by
          rwa [← List.singleton_append, List.getLast?_append_of_ne_nil _ hm] at hlast
        refine ih hlast' (fun q hq => ?_) hm rfl
        have := havoid q (by rwa [Division.places_prepend])
        rw [List.length_cons] at this
        omega
  | @span n content rest d hcontent hrest hd _ =>
    have hplace := havoid _ List.mem_cons_self
    have hpos := hcontent.pos
    have hlength := List.length_pos_iff.2 hne
    simp only [List.length_nil, List.length_append, length_ticks] at hplace
    omega
  | @unclosed n rest d hn hrest hrun hd ih =>
    obtain ⟨m', rfl, hne', rfl⟩ := exists_ticks_append hlast hne hu
    rw [List.getLast?_append_of_ne_nil _ hne'] at hlast
    rw [Division.found_prepend, Division.places_prepend, List.length_append, length_ticks, ← Nat.add_assoc]
    refine ih hlast (fun q hq => ?_) hne' rfl
    have := havoid q (by rwa [Division.places_prepend, length_ticks])
    rw [List.length_append, length_ticks] at this
    omega

/-- A code span that starts in a text and does not reach what follows it stands in
the text. -/
theorem exists_span_append {span : Text} (h : t ++ s = span ++ rest) (hlength : span.length ≤ t.length) :
    ∃ t', t = span ++ t' ∧ rest = t' ++ s := by
  rcases List.append_eq_append_iff.1 h with ⟨a, rfl, hs⟩ | ⟨t', rfl, hrest⟩
  · have ha : a = [] := List.length_eq_zero_iff.1 (by rw [List.length_append] at hlength; omega)
    subst ha
    exact ⟨[], by simp, by simpa using hs.symm⟩
  · exact ⟨t', rfl, hrest⟩

/-- Text between dollar signs that no code span reaches parts the code spans into
those before it and those after it. -/
theorem Divides.split {m : Text} {e : Division} {k : Nat} (h : Divides (t ++ (m ++ s)) e) (hhead : m.head? = some '$')
    (hlast : m.getLast? = some '$') (havoid : Avoids (k + t.length) (k + t.length + m.length) k e) :
    ∃ e₁ e₂, Divides t e₁ ∧ Divides s e₂ ∧ e.found = e₁.found ++ e₂.found ∧
      e₂.places (k + t.length + m.length) ⊆ e.places k := by
  have hms : (m ++ s).head? ≠ some '\x60' := by
    rw [List.head?_append, hhead]
    exact fun he => absurd (Option.some.inj he) (by decide)
  have front {e : Division} {k : Nat} (h : Divides (m ++ s) e) (havoid : Avoids k (k + m.length) k e) :
      ∃ e₁ e₂, Divides [] e₁ ∧ Divides s e₂ ∧ e.found = e₁.found ++ e₂.found ∧
        e₂.places (k + m.length) ⊆ e.places k := by
    obtain ⟨e₂, he₂, hfound, hplaces⟩ := h.skip (by rw [hlast]; decide) havoid
    exact ⟨.last [], e₂, .nil, he₂, hfound.symm, hplaces ▸ List.Subset.refl _⟩
  -- a text before other text ends a run as the other text does
  have before {t : Text} (h : (t ++ (m ++ s)).head? ≠ some '\x60') : t.head? ≠ some '\x60' := by
    cases t with
    | nil => exact nofun
    | cons c t => exact h
  generalize hu : t ++ (m ++ s) = u at h
  induction h generalizing t k with
  | nil =>
    rw [(List.append_eq_nil_iff.1 (List.append_eq_nil_iff.1 hu).2).1] at hhead
    cases hhead
  | @char c u d hc hd ih =>
    cases t with
    | nil => exact front (hu ▸ .char hc hd) havoid
    | cons c' t =>
      obtain ⟨rfl, rfl⟩ := List.cons.inj hu
      have hk : k + (c' :: t).length = k + 1 + t.length := by
        rw [List.length_cons]
        omega
      rw [hk] at havoid ⊢
      obtain ⟨e₁, e₂, he₁, he₂, hfound, hplaces⟩ := ih (fun q hq => havoid q (by rwa [Division.places_prepend])) rfl
      refine ⟨e₁.prepend [c'], e₂, .char hc he₁, he₂, by simpa using hfound, ?_⟩
      rwa [Division.places_prepend]
  | @span n content rest d hcontent hrest hd ih =>
    by_cases hne : t = []
    · subst hne
      exact front (hu ▸ .span hcontent hrest hd) havoid
    · have hplace := havoid _ List.mem_cons_self
      have hpos := hcontent.pos
      have hlength := List.length_pos_iff.2 hne
      have hmlength : 0 < m.length := List.length_pos_iff.2 (by rintro rfl; cases hhead)
      have hle : (ticks n ++ content ++ ticks n).length ≤ t.length := by
        simp only [List.length_nil] at hplace
        omega
      obtain ⟨t', rfl, rfl⟩ := exists_span_append hu hle
      obtain ⟨e₁, e₂, he₁, he₂, hfound, hplaces⟩ := ih (t := t') (k := k + (ticks n ++ content ++ ticks n).length)
        (fun q hq => by
          have := havoid q (List.mem_cons_of_mem _ (by simpa using hq))
          rw [List.length_append] at this
          omega) rfl
      refine ⟨.next [] (ticks n ++ content ++ ticks n) e₁, e₂, .span hcontent (before hrest) he₁, he₂, ?_, ?_⟩
      · rw [Division.found, Division.found, hfound]
        rfl
      · rw [List.length_append, ← Nat.add_assoc, Division.places]
        exact fun q hq => List.mem_cons_of_mem _ (by simpa using hplaces hq)
  | @unclosed n rest d hn hrest hrun hd ih =>
    by_cases hne : t = []
    · subst hne
      exact front (hu ▸ .unclosed hn hrest hrun hd) havoid
    · have hparts : ∃ t', t = ticks n ++ t' ∧ rest = t' ++ (m ++ s) := by
        rcases List.append_eq_append_iff.1 hu with ⟨a, ha, hma⟩ | ⟨t', rfl, hrest'⟩
        · cases a with
          | nil => exact ⟨[], by simpa using ha.symm, by simpa using hma.symm⟩
          | cons c a =>
            have hc : c = '\x60' := List.eq_of_mem_replicate (ha ▸ by simp : c ∈ ticks n)
            exact absurd (by rw [hma, hc]; rfl) hms
        · exact ⟨t', rfl, hrest'⟩
      obtain ⟨t', rfl, rfl⟩ := hparts
      obtain ⟨e₁, e₂, he₁, he₂, hfound, hplaces⟩ := ih (t := t') (k := k + n)
        (fun q hq => by
          have := havoid q (by rwa [Division.places_prepend, length_ticks])
          rw [List.length_append, length_ticks] at this
          omega) rfl
      refine ⟨e₁.prepend (ticks n), e₂, .unclosed hn (before hrest) (fun hr => hrun (hr.append hms)) he₁, he₂, ?_, ?_⟩
      · rwa [Division.found_prepend, Division.found_prepend]
      · rwa [Division.places_prepend, List.length_append, length_ticks, ← Nat.add_assoc]

end Code
end QuartoPretext
