/-
# Texts divided by the matches of a pattern

A scan takes the leftmost match of a pattern, goes on after it, and leaves the
text between the matches. So what it gives is known from how the matches divide
the text, and every text is divided in that way.

Key definitions: `Recognises`, `Division`, `Division.Leftmost`, `Division.Apart`.
Key theorems: `Division.scan_text`, `Division.exists_leftmost`.
-/
import QuartoPretext.Text.Scan

namespace QuartoPretext.Text

/-! ### Scans step by step -/

section Scan

variable {α : Type} {literal : Char → α} {find : Text → Option (List α × Text)} {s rest : Text} {c : Char}

@[simp] theorem scan_nil : scan literal find [] = [] := by rw [scan]

theorem scan_none (h : find (c :: s) = none) :
    scan literal find (c :: s) = literal c :: scan literal find s := by
  rw [scan, h]

theorem scan_found {found : List α} (h : find s = some (found, rest)) (hlen : rest.length < s.length) :
    scan literal find s = found ++ scan literal find rest := by
  cases s with
  | nil => cases hlen
  | cons c s =>
    rw [scan, h]
    exact if_pos (Nat.le_of_lt_succ hlen)

/-- A scan that finds nothing gives the characters. -/
theorem scan_eq_map : ∀ {s : Text}, (∀ t, t <:+ s → find t = none) → scan literal find s = s.map literal
  | [], _ => scan_nil
  | c :: s, h => by
    rw [scan_none (h _ (List.suffix_refl _)), scan_eq_map fun t ht => h t (ht.trans (List.suffix_cons c s))]
    rfl

end Scan

/-! ### Matches of a pattern -/

variable {α β : Type} {P : Text → Prop} {s t rest : Text} {c : Char}

/-- A recogniser takes exactly the matches of a pattern, and makes the same of a
match wherever it stands. -/
def Recognises (P : Text → Prop) (make : Text → List α) (find : Text → Option (List α × Text)) : Prop :=
  ∀ s xs rest, find s = some (xs, rest) ↔ ∃ m, P m ∧ s = m ++ rest ∧ xs = make m

/-- No match starts within a text where another one follows it. -/
def Unmatched (P : Text → Prop) : Text → Text → Prop
  | [], _ => True
  | c :: t, rest => (∀ m, P m → ¬m <+: c :: t ++ rest) ∧ Unmatched P t rest

instance decidableUnmatched [h : ∀ s, Decidable (∀ m, P m → ¬m <+: s)] :
    ∀ t rest, Decidable (Unmatched P t rest)
  | [], _ => isTrue trivial
  | c :: t, rest => @instDecidableAnd _ _ (h (c :: t ++ rest)) (decidableUnmatched t rest)

/-- Matches that start with a character do not start in text without it. -/
theorem unmatched_of_not_mem (hP : ∀ m, P m → m.head? = some c) : ∀ {t : Text}, c ∉ t → Unmatched P t rest
  | [], _ => trivial
  | d :: t, h => by
    refine ⟨?_, unmatched_of_not_mem hP fun hc => h (List.mem_cons_of_mem d hc)⟩
    rintro m hm ⟨more, hmore⟩
    cases m with
    | nil => cases hP [] hm
    | cons e m =>
      have he : e = d := (List.cons.inj hmore).1
      exact h (he ▸ Option.some.inj (hP _ hm) ▸ List.mem_cons_self)

/-- Where a character stands at the start of matches only, no match reaches it
from before. -/
theorem Unmatched.append (hP : ∀ m, P m → c ∉ m.tail) : ∀ {t rest : Text}, Unmatched P t rest →
    ∀ more, Unmatched P t (rest ++ c :: more)
  | [], _, _, _ => trivial
  | d :: t, rest, h, more => by
    refine ⟨?_, h.2.append hP more⟩
    rintro m hm ⟨after, hafter⟩
    rw [← List.append_assoc] at hafter
    rcases List.append_eq_append_iff.1 hafter with ⟨between, hpre, _⟩ | ⟨reached, rfl, hreached⟩
    · exact h.1 m hm ⟨between, hpre.symm⟩
    · cases reached with
      | nil => exact h.1 _ hm (by simp)
      | cons e reached =>
        cases (List.cons.inj hreached).1
        exact hP _ hm (by simp)

theorem Unmatched.not_prefix {m u : Text} (h : Unmatched P (s ++ c :: u) rest) (hm : P m) :
    ¬m <+: c :: u ++ rest := by
  induction s with
  | nil => exact h.1 m hm
  | cons d s ih => exact ih h.2

/-- Text before a character reaches over text without it. -/
theorem exists_append_of_not_mem {a b t u : Text} (h : a ++ c :: b = t ++ u) (hc : c ∉ t) :
    ∃ a', a = t ++ a' ∧ u = a' ++ c :: b := by
  rcases List.append_eq_append_iff.1 h with ⟨reached, rfl, hreached⟩ | ⟨a', rfl, hu⟩
  · cases reached with
    | nil => exact ⟨[], by simp, by simpa using hreached.symm⟩
    | cons d reached =>
      obtain rfl := (List.cons.inj hreached).1
      exact absurd (List.mem_append_right a List.mem_cons_self) hc
  · exact ⟨a', rfl, hu⟩

/-- The first place of a character divides a text in one way. -/
theorem append_cons_inj {a b a' b' : Text} (h : a ++ c :: b = a' ++ c :: b') (ha : c ∉ a) (ha' : c ∉ a') :
    a = a' ∧ b = b' := by
  obtain ⟨more, rfl, hmore⟩ := exists_append_of_not_mem h ha'
  cases more with
  | nil => exact ⟨List.append_nil a', (List.cons.inj hmore).2.symm⟩
  | cons d more =>
    obtain rfl := (List.cons.inj hmore).1
    exact absurd (List.mem_append_right a' List.mem_cons_self) ha

/-! ### Divisions -/

/-- A text divided by some of its stretches: what stands before the first one, and
so on. -/
inductive Division
  | last (between : Text)
  | next (between found : Text) (more : Division)
  deriving Repr, DecidableEq

namespace Division

/-- The texts that both kinds of stretches become, one after the other. -/
def map (onBetween onFound : Text → List β) : Division → List β
  | last t => onBetween t
  | next t m more => onBetween t ++ onFound m ++ map onBetween onFound more

/-- The text that is divided. -/
def text : Division → Text := map id id

def between : Division → List Text
  | last t => [t]
  | next t _ more => t :: between more

def found : Division → List Text
  | last _ => []
  | next _ m more => m :: found more

/-- The stretches found are the leftmost matches of a pattern. -/
def Leftmost (P : Text → Prop) : Division → Prop
  | last t => Unmatched P t []
  | next t m more => Unmatched P t (m ++ more.text) ∧ P m ∧ Leftmost P more

instance decidableLeftmost [DecidablePred P] [∀ s, Decidable (∀ m, P m → ¬m <+: s)] :
    ∀ d : Division, Decidable (d.Leftmost P)
  | last t => decidableUnmatched t []
  | next t m more =>
    @instDecidableAnd _ _ (decidableUnmatched t (m ++ more.text))
      (@instDecidableAnd _ _ inferInstance (decidableLeftmost more))

@[simp] theorem text_last (t : Text) : (last t).text = t := rfl

@[simp] theorem text_next (t m : Text) (more : Division) : (next t m more).text = t ++ m ++ more.text := rfl

theorem Leftmost.found {d : Division} : d.Leftmost P → ∀ m ∈ d.found, P m := by
  induction d with
  | last t => exact fun _ _ hm => absurd hm List.not_mem_nil
  | next t m more ih =>
    rintro ⟨_, hm, hmore⟩ m' hm'
    rcases List.mem_cons.1 hm' with rfl | hm'
    · exact hm
    · exact ih hmore m' hm'

/-- Where the text between holds no character that all matches start with, the
matches are the leftmost ones. -/
theorem leftmost_of_not_mem (hP : ∀ m, P m → m.head? = some c) {d : Division} (hfound : ∀ m ∈ d.found, P m)
    (h : ∀ t ∈ d.between, c ∉ t) : d.Leftmost P := by
  induction d with
  | last t => exact unmatched_of_not_mem hP (h t List.mem_cons_self)
  | next t m more ih =>
    exact ⟨unmatched_of_not_mem hP (h t List.mem_cons_self), hfound m List.mem_cons_self,
      ih (fun m' hm' => hfound m' (List.mem_cons_of_mem m hm')) fun t' ht' => h t' (List.mem_cons_of_mem t ht')⟩

theorem infix_of_mem_between {d : Division} (h : t ∈ d.between) : t <:+: d.text := by
  induction d with
  | last t' =>
    obtain rfl := List.mem_singleton.1 h
    exact List.infix_refl _
  | next t' m more ih =>
    rcases List.mem_cons.1 h with rfl | h
    · exact ⟨[], m ++ more.text, by rw [List.nil_append, text_next, List.append_assoc]⟩
    · exact (ih h).trans (List.suffix_append (t' ++ m) more.text).isInfix

theorem infix_of_mem_found {m : Text} {d : Division} (h : m ∈ d.found) : m <:+: d.text := by
  induction d with
  | last t => cases h
  | next t m' more ih =>
    rcases List.mem_cons.1 h with rfl | h
    · exact ⟨t, more.text, rfl⟩
    · exact (ih h).trans (List.suffix_append (t ++ m') more.text).isInfix

/-! ### What a scan gives -/

theorem scan_unmatched {literal : Char → α} {make : Text → List α} {find : Text → Option (List α × Text)}
    (hfind : Recognises P make find) : ∀ {t : Text}, Unmatched P t rest →
    scan literal find (t ++ rest) = t.map literal ++ scan literal find rest
  | [], _ => rfl
  | c :: t, h => by
    have hnone : find (c :: t ++ rest) = none := by
      refine Option.eq_none_iff_forall_not_mem.2 fun ⟨xs, after⟩ hx => ?_
      obtain ⟨m, hm, hs, _⟩ := (hfind _ _ _).1 hx
      exact h.1 m hm ⟨after, hs.symm⟩
    rw [List.cons_append] at hnone ⊢
    rw [scan_none hnone, scan_unmatched hfind h.2]
    rfl

/-- A scan gives the characters between the matches and what it makes of them. -/
theorem scan_text {literal : Char → α} {make : Text → List α} {find : Text → Option (List α × Text)}
    (hfind : Recognises P make find) (hP : ∀ m, P m → m ≠ []) {d : Division} (hd : d.Leftmost P) :
    scan literal find d.text = d.map (List.map literal) make := by
  induction d with
  | last t =>
    have h : scan literal find (t ++ []) = t.map literal ++ scan literal find [] := scan_unmatched hfind hd
    rwa [scan_nil, List.append_nil, List.append_nil] at h
  | next t m more ih =>
    obtain ⟨ht, hm, hmore⟩ := hd
    have hfound : find (m ++ more.text) = some (make m, more.text) := (hfind _ _ _).2 ⟨m, hm, rfl, rfl⟩
    have hlen : more.text.length < (m ++ more.text).length := by
      rw [List.length_append]
      exact Nat.lt_add_of_pos_left (List.length_pos_iff.2 (hP m hm))
    rw [text_next, List.append_assoc, scan_unmatched hfind ht, scan_found hfound hlen, ih hmore, map,
      List.append_assoc]

/-! ### Every text is divided -/

/-- A division of a text with more text before it. -/
def prepend (u : Text) : Division → Division
  | last t => last (u ++ t)
  | next t m more => next (u ++ t) m more

theorem map_prepend {f g : Text → List β} (happend : ∀ s t, f (s ++ t) = f s ++ f t) (u : Text) (d : Division) :
    (d.prepend u).map f g = f u ++ d.map f g := by
  cases d with
  | last t => exact happend u t
  | next t m more => simp only [prepend, map, happend, List.append_assoc]

@[simp] theorem text_prepend (u : Text) (d : Division) : (d.prepend u).text = u ++ d.text :=
  map_prepend (fun _ _ => rfl) u d

@[simp] theorem found_prepend (u : Text) (d : Division) : (d.prepend u).found = d.found := by
  cases d <;> rfl

theorem Leftmost.prepend {d : Division} (hd : d.Leftmost P) (h : ∀ m, P m → ¬m <+: c :: d.text) :
    (d.prepend [c]).Leftmost P := by
  cases d with
  | last t =>
    refine ⟨fun m hm => ?_, hd⟩
    rw [List.append_nil]
    exact h m hm
  | next t m more =>
    refine ⟨⟨fun m' hm' => ?_, hd.1⟩, hd.2⟩
    have h := h m' hm'
    rwa [text_next, List.append_assoc] at h

theorem exists_leftmost (hP : ∀ m, P m → m ≠ []) (s : Text) : ∃ d : Division, d.text = s ∧ d.Leftmost P := by
  cases s with
  | nil => exact ⟨last [], rfl, trivial⟩
  | cons c s =>
    by_cases h : ∃ m, P m ∧ m <+: c :: s
    · obtain ⟨m, hm, after, hafter⟩ := h
      have hlen : after.length < (c :: s).length := by
        rw [← hafter, List.length_append]
        exact Nat.lt_add_of_pos_left (List.length_pos_iff.2 (hP m hm))
      obtain ⟨d, rfl, hd⟩ := exists_leftmost hP after
      exact ⟨next [] m d, hafter, trivial, hm, hd⟩
    · obtain ⟨d, rfl, hd⟩ := exists_leftmost hP s
      exact ⟨d.prepend [c], text_prepend [c] d, hd.prepend fun m hm hpre => h ⟨m, hm, hpre⟩⟩
termination_by s.length
decreasing_by
  · exact hlen
  · exact Nat.lt_succ_self s.length

/-! ### Places -/

/-- Where the stretches found start and stop, where `n` characters stand before
the text. -/
def places (n : Nat) : Division → List (Nat × Nat)
  | last _ => []
  | next t m more => (n + t.length, n + t.length + m.length) :: places (n + t.length + m.length) more

@[simp] theorem places_prepend (n : Nat) (u : Text) (d : Division) :
    (d.prepend u).places n = d.places (n + u.length) := by
  cases d with
  | last t => rfl
  | next t m more => simp only [prepend, places, List.length_append, Nat.add_assoc]

/-- Two divisions of a text have no character of their stretches in common. -/
def Apart (d e : Division) : Prop :=
  ∀ p ∈ d.places 0, ∀ q ∈ e.places 0, p.2 ≤ q.1 ∨ q.2 ≤ p.1

/-! ### Joining and changing divisions -/

/-- A division, a stretch after it, and another division. -/
def join : Division → Text → Division → Division
  | last t, m, e => next t m e
  | next t m' more, m, e => next t m' (more.join m e)

theorem map_join (f g : Text → List β) (d : Division) (m : Text) (e : Division) :
    (d.join m e).map f g = d.map f g ++ g m ++ e.map f g := by
  induction d with
  | last t => rfl
  | next t m' more ih => simp only [join, map, ih, List.append_assoc]

@[simp] theorem text_join (d : Division) (m : Text) (e : Division) :
    (d.join m e).text = d.text ++ m ++ e.text := map_join id id d m e

theorem Leftmost.join (hP : ∀ m, P m → c ∉ m.tail) {d e : Division} {m : Text} (hd : d.Leftmost P)
    (hm : P (c :: m)) (he : e.Leftmost P) : (d.join (c :: m) e).Leftmost P := by
  induction d with
  | last t => exact ⟨hd.append hP (m ++ e.text), hm, he⟩
  | next t m' more ih =>
    refine ⟨?_, hd.2.1, ih hd.2.2⟩
    have h := hd.1.append hP (m ++ e.text)
    rw [text_join]
    simpa only [List.append_assoc, List.cons_append] using h

/-- Both kinds of stretches changed. -/
def change (f g : Text → Text) : Division → Division
  | last t => last (f t)
  | next t m more => next (f t) (g m) (more.change f g)

variable {f g : Text → Text}

theorem map_change (f' g' : Text → List β) (d : Division) :
    (d.change f g).map f' g' = d.map (fun t => f' (f t)) fun m => g' (g m) := by
  induction d with
  | last t => rfl
  | next t m more ih => simp only [change, map, ih]

theorem text_change (d : Division) : (d.change f g).text = d.map f g := map_change id id d

theorem between_change (d : Division) : (d.change f g).between = d.between.map f := by
  induction d with
  | last t => rfl
  | next t m more ih => simp only [change, between, ih, List.map_cons]

theorem found_change (d : Division) : (d.change f g).found = d.found.map g := by
  induction d with
  | last t => rfl
  | next t m more ih => simp only [change, found, ih, List.map_cons]

/-- What is made of the text that the stretches become. -/
theorem flatMap_map {γ : Type} (h : β → List γ) (f g : Text → List β) (d : Division) :
    (d.map f g).flatMap h = d.map (fun t => (f t).flatMap h) fun m => (g m).flatMap h := by
  induction d with
  | last t => rfl
  | next t m more ih => simp only [map, List.flatMap_append, ih]

theorem map_congr {f g f' g' : Text → List β} {d : Division} (hf : ∀ t ∈ d.between, f t = f' t)
    (hg : ∀ m ∈ d.found, g m = g' m) : d.map f g = d.map f' g' := by
  induction d with
  | last t => exact hf t List.mem_cons_self
  | next t m more ih =>
    rw [map, map, hf t List.mem_cons_self, hg m List.mem_cons_self,
      ih (fun t' ht' => hf t' (List.mem_cons_of_mem t ht')) fun m' hm' => hg m' (List.mem_cons_of_mem m hm')]

/-- A property that joins over texts holds of the text that stretches with the
property become. -/
theorem map_of_append {Q : List β → Prop} (happend : ∀ {s t}, Q s → Q t → Q (s ++ t)) {f g : Text → List β}
    {d : Division} (hf : ∀ t ∈ d.between, Q (f t)) (hg : ∀ m ∈ d.found, Q (g m)) : Q (d.map f g) := by
  induction d with
  | last t => exact hf t List.mem_cons_self
  | next t m more ih =>
    exact happend (happend (hf t List.mem_cons_self) (hg m List.mem_cons_self))
      (ih (fun t' ht' => hf t' (List.mem_cons_of_mem t ht')) fun m' hm' => hg m' (List.mem_cons_of_mem m hm'))

end Division
end QuartoPretext.Text
