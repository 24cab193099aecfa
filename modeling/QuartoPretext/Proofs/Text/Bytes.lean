/-
# A text by its bytes

A text may be scanned byte by byte and cut at byte offsets. An ASCII character is one
byte, and no byte of another character is an ASCII character. So the bytes of a
character say alike whether it is one of an ASCII class, and a scan that looks for
such characters passes over all others, also if it starts within one. A slice between
two offsets exists where both are boundaries.

Key definitions: `Text.utf8`, `Text.stands`, `Text.PassesOver`, `Text.slice?`,
`Text.IsBoundary`.
Key theorems: `Text.stands_utf8`, `Text.PassesOver.behind`, `Text.slice?_eq_some_iff`,
`Text.isBoundary_iff`.
-/
import QuartoPretext.Text.Basic
import Mathlib.Data.Nat.Init

namespace QuartoPretext.Text

variable {p : Char → Bool} {s t u before after rest : Text} {c : Char} {b : UInt8} {i j n k : Nat}

/-! ### Bytes -/

/-- The bytes of a text in UTF-8. -/
def utf8 (s : Text) : List UInt8 := s.flatMap String.utf8EncodeChar

/-- Whether a byte is an ASCII character of a class. -/
def byteIs (p : Char → Bool) (b : UInt8) : Bool := decide (b < 128) && p (Char.ofNat b.toNat)

/-- Whether an ASCII character of a class stands at a byte offset. -/
def stands (p : Char → Bool) (bytes : List UInt8) (i : Nat) : Bool := bytes[i]?.any (byteIs p)

/-- A class of ASCII characters. -/
def IsAscii (p : Char → Bool) : Prop := ∀ c, p c → c.toNat < 128

theorem isAscii_eq {d : Char} (hd : d.toNat < 128) : IsAscii (· == d) := fun c hc => by
  rw [beq_iff_eq.1 hc]
  exact hd

theorem utf8EncodeChar_of_ascii (hc : c.toNat < 128) : String.utf8EncodeChar c = [UInt8.ofNat c.toNat] :=
  if_pos (Nat.le_of_lt_succ hc)

/-- No byte of a character beyond ASCII is an ASCII character. -/
theorem le_of_mem_utf8EncodeChar (hc : 128 ≤ c.toNat) (hb : b ∈ String.utf8EncodeChar c) : 128 ≤ b.toNat := by
  have hbyte {n : Nat} (h : 128 ≤ n) (hn : n < 256) : 128 ≤ (UInt8.ofNat n).toNat := by
    rwa [UInt8.toNat_ofNat', Nat.mod_eq_of_lt hn]
  have hc : ¬c.val.toNat ≤ 0x7f := Nat.not_le.2 hc
  unfold String.utf8EncodeChar at hb
  simp only [if_neg hc] at hb
  split at hb
  · simp only [List.mem_cons, List.not_mem_nil, or_false] at hb
    rcases hb with rfl | rfl <;> exact hbyte (by omega) (by omega)
  split at hb
  · simp only [List.mem_cons, List.not_mem_nil, or_false] at hb
    rcases hb with rfl | rfl | rfl <;> exact hbyte (by omega) (by omega)
  · simp only [List.mem_cons, List.not_mem_nil, or_false] at hb
    rcases hb with rfl | rfl | rfl | rfl <;> exact hbyte (by omega) (by omega)

/-- Every byte of a character says whether the character is of an ASCII class. -/
theorem byteIs_of_mem (hp : IsAscii p) (hb : b ∈ String.utf8EncodeChar c) : byteIs p b = p c := by
  unfold byteIs
  by_cases hc : c.toNat < 128
  · rw [utf8EncodeChar_of_ascii hc, List.mem_singleton] at hb
    have hval : b.toNat = c.toNat := by
      rw [hb, UInt8.toNat_ofNat', Nat.mod_eq_of_lt (by omega)]
    have hlt : b < 128 := by
      rw [UInt8.lt_iff_toNat_lt, hval]
      exact hc
    rw [hval, Char.ofNat_toNat, decide_eq_true hlt, Bool.true_and]
  · have hle := le_of_mem_utf8EncodeChar (Nat.not_lt.1 hc) hb
    have hnot : ¬b < 128 := by
      rw [UInt8.lt_iff_toNat_lt]
      exact Nat.not_lt.2 hle
    have hpc : p c = false := Bool.eq_false_iff.2 fun h => hc (hp c h)
    rw [decide_eq_false hnot, Bool.false_and, hpc]

theorem utf8_append (s t : Text) : utf8 (s ++ t) = utf8 s ++ utf8 t := List.flatMap_append

theorem length_utf8 : ∀ s : Text, (utf8 s).length = utf8Length s
  | [] => rfl
  | c :: s => by
    show (String.utf8EncodeChar c ++ utf8 s).length = _
    rw [List.length_append, String.length_utf8EncodeChar, length_utf8 s]
    rfl

theorem utf8Length_append (s t : Text) : utf8Length (s ++ t) = utf8Length s + utf8Length t := by
  induction s with
  | nil => exact (Nat.zero_add _).symm
  | cons c s ih =>
    show c.utf8Size + utf8Length (s ++ t) = c.utf8Size + utf8Length s + utf8Length t
    rw [ih, Nat.add_assoc]

theorem utf8Length_concat (s : Text) (c : Char) : utf8Length (s ++ [c]) = utf8Length s + c.utf8Size :=
  utf8Length_append s [c]

theorem utf8Length_pos (hs : s ≠ []) : 0 < utf8Length s := by
  obtain ⟨c, t, rfl⟩ := List.exists_cons_of_ne_nil hs
  exact Nat.add_pos_left c.utf8Size_pos _

theorem utf8Size_of_ascii (hc : c.toNat < 128) : c.utf8Size = 1 := by
  rw [← String.length_utf8EncodeChar, utf8EncodeChar_of_ascii hc, List.length_singleton]

/-! ### What stands at a place -/

/-- Each byte of a character is of the class that the character is of. -/
theorem stands_utf8 (hp : IsAscii p) (before rest : Text) (hk : k < c.utf8Size) :
    stands p (utf8 (before ++ c :: rest)) (utf8Length before + k) = p c := by
  have hlt : k < (String.utf8EncodeChar c).length := by rwa [String.length_utf8EncodeChar]
  have hget : (utf8 (before ++ c :: rest))[utf8Length before + k]? = some (String.utf8EncodeChar c)[k] := by
    rw [utf8_append, ← length_utf8, List.getElem?_append_right (Nat.le_add_right _ _), Nat.add_sub_cancel_left]
    exact (List.getElem?_append_left hlt).trans (List.getElem?_eq_getElem hlt)
  rw [stands, hget, Option.any_some, byteIs_of_mem hp (List.getElem_mem hlt)]

theorem stands_of_le {bytes : List UInt8} (h : bytes.length ≤ i) : stands p bytes i = false := by
  rw [stands, List.getElem?_eq_none h, Option.any_none]

theorem lt_of_stands {bytes : List UInt8} (h : stands p bytes i = true) : i < bytes.length := by
  refine Nat.lt_of_not_le fun hle => ?_
  rw [stands_of_le hle] at h
  cases h

theorem stands_or (p q : Char → Bool) (bytes : List UInt8) (i : Nat) :
    stands (fun c => p c || q c) bytes i = (stands p bytes i || stands q bytes i) := by
  unfold stands
  cases bytes[i]? with
  | none => rfl
  | some b => exact Bool.and_or_distrib_left _ _ _

theorem stands_head (hp : IsAscii p) (before rest : Text) :
    stands p (utf8 (before ++ rest)) (utf8Length before) = rest.head?.any p := by
  cases rest with
  | nil => exact stands_of_le (Nat.le_of_eq (by rw [List.append_nil, length_utf8]))
  | cons c rest => exact stands_utf8 hp before rest c.utf8Size_pos

theorem stands_last (hp : IsAscii p) (before rest : Text) (c : Char) :
    stands p (utf8 (before ++ [c] ++ rest)) (utf8Length (before ++ [c]) - 1) = p c := by
  have hpos := c.utf8Size_pos
  have hplace : utf8Length (before ++ [c]) - 1 = utf8Length before + (c.utf8Size - 1) := by
    rw [utf8Length_concat]
    omega
  rw [hplace, List.append_assoc]
  exact stands_utf8 hp before rest (by omega)

/-- What a scan gives from a place does not change from one byte to the next, unless a
character of a class stands there. -/
def PassesOver {α : Type} (p : Char → Bool) (bytes : List UInt8) (f : Nat → α) : Prop :=
  ∀ i, stands p bytes i = false → f i = f (i + 1)

/-- A scan that stops within a character goes on behind it, and so does one that stops before
a character that it passes over. -/
theorem PassesOver.behind {α : Type} {f : Nat → α} (h : PassesOver p (utf8 (before ++ c :: rest)) f)
    (hp : IsAscii p) (hk : k ≤ c.utf8Size) (hc : p c = true → k = 1) :
    f (utf8Length before + k) = f (utf8Length (before ++ [c])) := by
  rw [utf8Length_concat]
  by_cases hpc : p c = true
  · rw [hc hpc, utf8Size_of_ascii (hp c hpc)]
  · induction hk using Nat.decreasingInduction with
    | self => rfl
    | of_succ k hk ih =>
      have hstands := stands_utf8 hp before rest hk
      rw [← ih fun hpc' => absurd hpc' hpc]
      exact h _ (by rw [hstands]; simpa using hpc)

/-! ### Slices -/

/-- A text divided after so many bytes, if a character ends there. -/
def splitBytes? : Nat → Text → Option (Text × Text)
  | 0, s => some ([], s)
  | _ + 1, [] => none
  | n + 1, c :: s =>
    if c.utf8Size ≤ n + 1 then (splitBytes? (n + 1 - c.utf8Size) s).map fun (a, b) => (c :: a, b) else none

/-- The text between two byte offsets. There is none unless characters start or the text ends at
both, and the first is not behind the second. -/
def slice? (s : Text) (start stop : Nat) : Option Text :=
  if start ≤ stop then
    (splitBytes? start s).bind fun (_, rest) => (splitBytes? (stop - start) rest).map Prod.fst
  else none

/-- A byte offset where a character starts or the text ends. -/
def IsBoundary (s : Text) (i : Nat) : Prop := String.Pos.Raw.IsValid (String.ofList s) ⟨i⟩

theorem splitBytes?_eq_some_iff : splitBytes? n s = some (t, u) ↔ s = t ++ u ∧ utf8Length t = n := by
  fun_induction splitBytes? n s generalizing t with
  | case1 s =>
    constructor
    · intro h
      cases h
      exact ⟨rfl, rfl⟩
    · rintro ⟨rfl, h⟩
      cases t with
      | nil => rfl
      | cons c t =>
        have hpos := c.utf8Size_pos
        have : c.utf8Size + utf8Length t = 0 := h
        omega
  | case2 n =>
    refine iff_of_false nofun ?_
    rintro ⟨h, hn⟩
    rw [(List.append_eq_nil_iff.1 h.symm).1] at hn
    cases hn
  | case3 n c s hc ih =>
    rw [Option.map_eq_some_iff]
    constructor
    · rintro ⟨⟨a, b⟩, hsplit, he⟩
      cases he
      obtain ⟨rfl, hlen⟩ := ih.1 hsplit
      refine ⟨rfl, ?_⟩
      show c.utf8Size + utf8Length a = n + 1
      omega
    · rintro ⟨hs, hn⟩
      cases t with
      | nil => cases hn
      | cons d t =>
        obtain ⟨rfl, rfl⟩ := List.cons.inj hs
        have hn : c.utf8Size + utf8Length t = n + 1 := hn
        exact ⟨(t, u), ih.2 ⟨rfl, by omega⟩, rfl⟩
  | case4 n c s hc =>
    refine iff_of_false nofun ?_
    rintro ⟨hs, hn⟩
    cases t with
    | nil => cases hn
    | cons d t =>
      obtain ⟨rfl, rfl⟩ := List.cons.inj hs
      have hn : c.utf8Size + utf8Length t = n + 1 := hn
      omega

theorem slice?_eq_some_iff : slice? s i j = some t ↔
    ∃ before after, s = before ++ t ++ after ∧ utf8Length before = i ∧ utf8Length (before ++ t) = j := by
  unfold slice?
  constructor
  · intro h
    split at h
    · next hle =>
      obtain ⟨⟨before, rest⟩, hstart, h⟩ := Option.bind_eq_some_iff.1 h
      obtain ⟨⟨_, after⟩, hstop, rfl⟩ := Option.map_eq_some_iff.1 h
      obtain ⟨rfl, rfl⟩ := splitBytes?_eq_some_iff.1 hstart
      obtain ⟨rfl, hlen⟩ := splitBytes?_eq_some_iff.1 hstop
      refine ⟨before, after, (List.append_assoc _ _ _).symm, rfl, ?_⟩
      rw [utf8Length_append, hlen, Nat.add_sub_cancel' hle]
    · cases h
  · rintro ⟨before, after, rfl, rfl, rfl⟩
    have hstart : splitBytes? (utf8Length before) (before ++ t ++ after) = some (before, t ++ after) :=
      splitBytes?_eq_some_iff.2 ⟨List.append_assoc _ _ _, rfl⟩
    have hstop : splitBytes? (utf8Length t) (t ++ after) = some (t, after) := splitBytes?_eq_some_iff.2 ⟨rfl, rfl⟩
    rw [utf8Length_append, if_pos (Nat.le_add_right _ _), Nat.add_sub_cancel_left, hstart]
    show (splitBytes? (utf8Length t) (t ++ after)).map Prod.fst = some t
    rw [hstop, Option.map_some]

theorem slice?_append (before t after : Text) :
    slice? (before ++ t ++ after) (utf8Length before) (utf8Length (before ++ t)) = some t :=
  slice?_eq_some_iff.2 ⟨before, after, rfl, rfl, rfl⟩

theorem utf8ByteSize_ofList : ∀ s : Text, (String.ofList s).utf8ByteSize = utf8Length s
  | [] => rfl
  | c :: s => by
    rw [← List.singleton_append, String.ofList_append, String.utf8ByteSize_append, utf8ByteSize_ofList s]
    rw [← String.singleton_eq_ofList, String.utf8ByteSize_singleton]
    rfl

theorem isBoundary_iff : IsBoundary s n ↔ ∃ before after, s = before ++ after ∧ utf8Length before = n := by
  rw [IsBoundary, String.Pos.Raw.isValid_iff_exists_append]
  constructor
  · rintro ⟨before, after, hs, hn⟩
    refine ⟨before.toList, after.toList, ?_, ?_⟩
    · rw [← String.toList_append, ← hs, String.toList_ofList]
    · rw [← utf8ByteSize_ofList, String.ofList_toList]
      exact (congrArg String.Pos.Raw.byteIdx hn).symm
  · rintro ⟨before, after, rfl, rfl⟩
    refine ⟨String.ofList before, String.ofList after, String.ofList_append, ?_⟩
    rw [← utf8ByteSize_ofList]
    rfl

/-- A slice is between boundaries. -/
theorem isBoundary_of_slice? (h : slice? s i j = some t) : IsBoundary s i ∧ IsBoundary s j := by
  obtain ⟨before, after, rfl, rfl, rfl⟩ := slice?_eq_some_iff.1 h
  have hstart : IsBoundary (before ++ t ++ after) (utf8Length before) :=
    isBoundary_iff.2 ⟨before, t ++ after, List.append_assoc _ _ _, rfl⟩
  have hstop : IsBoundary (before ++ t ++ after) (utf8Length (before ++ t)) :=
    isBoundary_iff.2 ⟨before ++ t, after, rfl, rfl⟩
  exact ⟨hstart, hstop⟩

end QuartoPretext.Text
