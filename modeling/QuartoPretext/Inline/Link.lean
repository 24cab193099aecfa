/-
# Links

A bracket with a target in parentheses directly after it is a link. The target
is the first word in the parentheses and holds no mark. Images are no links.

Key definitions: `Link.target?`, `Link.read`, `Link.resolve`.
-/
import QuartoPretext.Inline.Bracket

namespace QuartoPretext.Link

open Text

/-- The text up to the parenthesis that closes a target, and the cells after it;
`depth` parentheses are open within it. -/
def inner? (depth : Nat) : List Cell → Option (Text × List Cell)
  | [] => none
  | .mark _ :: _ => none
  | .char c :: rest =>
    let keep := fun (found : Option (Text × List Cell)) => found.map fun (s, after) => (c :: s, after)
    if c == ')' then if depth = 0 then some ([], rest) else keep (inner? (depth - 1) rest)
    else if c == '(' then keep (inner? (depth + 1) rest)
    else if c == '\n' then none
    else keep (inner? depth rest)

/-- The target at the start of some cells, and the cells after it. -/
def target? (cells : List Cell) : Option (Text × List Cell) :=
  match cells with
  | .char '(' :: rest =>
    match inner? 0 rest with
    | some (s, after) => (words s).head?.map fun href => (href, after)
    | none => none
  | _ => none

theorem length_inner? : ∀ {cells after : List Cell} {depth : Nat} {s : Text},
    inner? depth cells = some (s, after) → after.length < cells.length
  | [], _, _, _, h => by simp [inner?] at h
  | .mark _ :: _, _, _, _, h => by simp [inner?] at h
  | .char c :: rest, after, depth, s, h => by
    unfold inner? at h
    simp only [List.length_cons]
    split at h
    · split at h
      · simp only [Option.some.injEq, Prod.mk.injEq] at h
        rw [← h.2]
        exact Nat.lt_succ_self _
      · obtain ⟨⟨s', a⟩, h', e⟩ := Option.map_eq_some_iff.1 h
        have := length_inner? h'
        simp only [Prod.mk.injEq] at e
        rw [← e.2]
        omega
    · split at h
      · obtain ⟨⟨s', a⟩, h', e⟩ := Option.map_eq_some_iff.1 h
        have := length_inner? h'
        simp only [Prod.mk.injEq] at e
        rw [← e.2]
        omega
      · split at h
        · simp at h
        · obtain ⟨⟨s', a⟩, h', e⟩ := Option.map_eq_some_iff.1 h
          have := length_inner? h'
          simp only [Prod.mk.injEq] at e
          rw [← e.2]
          omega

theorem length_target? {cells after : List Cell} {href : Text} (h : target? cells = some (href, after)) :
    after.length < cells.length := by
  unfold target? at h
  split at h
  · split at h
    · next hi =>
      obtain ⟨_, _, e⟩ := Option.map_eq_some_iff.1 h
      have := length_inner? hi
      simp only [Prod.mk.injEq] at e
      rw [← e.2]
      simp only [List.length_cons]
      omega
    · simp at h
  · simp at h

/-- Closes the innermost bracket as a link. -/
def close (b : Bracketing) (br : Bracket) (more : List Bracket) (href : Text) : Bracketing :=
  if b.current.isEmpty then { b with pending := more, current := .mark (.bareLink href) :: br.before }
  else b.enclose br.before more (.linkOpen href) .linkClose

/-- Reads cells. `bang` and `escaped` tell whether an exclamation mark or an
unescaped backslash stands directly before them. -/
def read (bang escaped : Bool) (b : Bracketing) : List Cell → Bracketing
  | [] => b
  | c :: rest =>
    if c.isChar '[' && !escaped then
      read false false (if bang then b.push c else b.openBracket false) rest
    else if c.isChar ']' && !escaped then
      match b.pending with
      | [] => read false false b.shut rest
      | br :: more =>
        match _h : target? rest with
        | some (href, after) => read false false (close b br more href) after
        | none => read false false b.shut rest
    else read (c.isChar '!') (c.escapesNext escaped) (b.push c) rest
termination_by cells => cells.length
decreasing_by
  all_goals simp only [List.length_cons]
  all_goals try omega
  have := length_target? _h
  omega

/-- Resolves the links, and gives the next free scope number. -/
def resolve (nextScope : Nat) (spans : List Span) : List Span × Nat :=
  let b := read false false (.start nextScope) (Span.toCells spans)
  (Span.ofCells b.cells, b.nextScope)

end QuartoPretext.Link
