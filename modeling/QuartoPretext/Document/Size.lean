/-
# The bodies in a plan are smaller than the block

Every body among the pieces of a block is a part of a body of the block, or
such a part with a title taken out of one of its lines. So it is no larger.

Key theorems: `Plan.weightOf_ofBlock`.
-/
import QuartoPretext.Block.Size
import QuartoPretext.Document.Plan

namespace QuartoPretext

open Text Line

namespace Div

theorem splitTop?_eq {accepts : Line → Option DivFence → Bool} :
    ∀ {ls before after : List Line} {l : Line} {depth : Nat} {fence : Option FenceMark},
      splitTop? accepts depth fence ls = some (before, l, after) → ls = before ++ l :: after
  | [], _, _, _, _, _, h => by simp [splitTop?] at h
  | x :: ls, before, after, l, depth, fence, h => by
    have keep {found : Option (List Line × Line × List Line)}
        (ih : ∀ {b m a}, found = some (b, m, a) → ls = b ++ m :: a)
        (h : (found.map fun p => (x :: p.1, p.2)) = some (before, l, after)) :
        x :: ls = before ++ l :: after := by
      obtain ⟨⟨b, m, a⟩, h', e⟩ := Option.map_eq_some_iff.1 h
      have := ih h'
      simp only [Prod.mk.injEq] at e
      simp [← e.1, ← e.2.1, ← e.2.2, this]
    unfold splitTop? at h
    simp only at h
    split at h
    · exact keep splitTop?_eq h
    · split at h
      · simp only [Option.some.injEq, Prod.mk.injEq] at h
        simp [← h.1, ← h.2.1, ← h.2.2]
      · split at h <;> exact keep splitTop?_eq h

theorem leadingHeading?_suffix {ls rest : List Line} {title : Text}
    (h : leadingHeading? ls = some (title, rest)) : rest <:+ ls := by
  unfold leadingHeading? at h
  split at h
  · simp at h
  · next l more hd =>
    obtain ⟨_, _, e⟩ := Option.map_eq_some_iff.1 h
    simp only [Prod.mk.injEq] at e
    rw [← e.2]
    have hs : l :: more <:+ ls := hd ▸ List.dropWhile_suffix Line.isBlank
    exact (List.suffix_cons l more).trans hs

theorem withoutSolutionHeading_suffix (ls : List Line) : withoutSolutionHeading ls <:+ ls := by
  unfold withoutSolutionHeading
  split
  · next h =>
    split
    · exact leadingHeading?_suffix h
    · exact List.suffix_refl _
  · exact List.suffix_refl _

theorem length_strongRest? {s inner rest : Text} (h : strongRest? s = some (inner, rest)) :
    rest.length < s.length := by
  have hl := Attribute.length_dropWhile_le (· != '*') s
  unfold strongRest? at h
  simp only at h
  split at h
  all_goals
    try
      next hd =>
        rw [hd] at hl
        simp only [List.length_cons] at hl
        split at h
        · simp at h
        · simp only [Option.some.injEq, Prod.mk.injEq] at h
          rw [← h.2]
          omega
  simp at h

theorem length_strong? : ∀ {s before inner after : Text},
    strong? s = some (before, inner, after) → before.length + after.length + 1 < s.length
  | [], _, _, _, h => by simp [strong?] at h
  | c :: s, before, inner, after, h => by
    unfold strong? at h
    split at h
    · next hb =>
      obtain ⟨r, h1, h2⟩ := Option.bind_eq_some_iff.1 hb
      have e1 := congrArg List.length (append_eq_of_dropPrefix? h1)
      have e2 := length_strongRest? h2
      simp only [Option.some.injEq, Prod.mk.injEq] at h
      simp only [List.length_append, List.length_cons, List.length_nil] at e1
      rw [← h.1, ← h.2.2, List.length_cons, List.length_nil]
      omega
    · obtain ⟨⟨b, f⟩, h', e⟩ := Option.map_eq_some_iff.1 h
      simp only [Prod.mk.injEq] at e
      have ih := length_strong? (s := s) (show _ = some (b, inner, after) by rw [h', ← e.2])
      rw [← e.1, List.length_cons, List.length_cons]
      omega

theorem length_trim (s : Text) : (trim s).length ≤ s.length := by
  unfold trim trimEnd
  have h1 := Attribute.length_dropWhile_le isSpace (trimStart s).reverse
  have h2 := Attribute.length_dropWhile_le isSpace s
  simp only [List.length_reverse] at h1 ⊢
  exact Nat.le_trans h1 h2

theorem length_joinAround (a b : Text) : (joinAround a b).length ≤ a.length + b.length + 1 := by
  unfold joinAround
  split <;> simp only [List.length_append, List.length_cons] <;> omega

theorem length_strongTitle? {s title rest : Text} (h : strongTitle? s = some (title, rest)) :
    rest.length < s.length := by
  unfold strongTitle? at h
  split at h
  · simp at h
  · next before inner after hs =>
    simp only at h
    split at h
    · simp at h
    · simp only [Option.some.injEq, Prod.mk.injEq] at h
      have h1 := length_strong? hs
      have h2 := length_joinAround (trim before) (trim after)
      have h3 := length_trim before
      have h4 := length_trim after
      rw [← h.2]
      omega

theorem totalSize_promoteTitle? : ∀ {ls rest : List Line} {title : Text},
    promoteTitle? ls = some (title, rest) → totalSize rest ≤ totalSize ls
  | [], _, _, h => by simp [promoteTitle?] at h
  | l :: ls, rest, title, h => by
    unfold promoteTitle? at h
    split at h
    · obtain ⟨⟨t, r⟩, h', e⟩ := Option.map_eq_some_iff.1 h
      have := totalSize_promoteTitle? h'
      simp only [Prod.mk.injEq] at e
      rw [← e.2, totalSize_cons, totalSize_cons]
      omega
    · obtain ⟨⟨t, s⟩, h', e⟩ := Option.map_eq_some_iff.1 h
      have := length_strongTitle? h'
      simp only [Prod.mk.injEq] at e
      rw [← e.2, totalSize_cons, totalSize_cons]
      simp only
      omega

end Div

namespace Piece

theorem weightOf_append (as bs : List Piece) :
    weightOf (as ++ bs) = max (weightOf as) (weightOf bs) := by
  induction as with
  | nil => simp [weightOf]
  | cons a as ih => simp [weightOf, ih, Nat.max_assoc]

theorem weightOf_map_le {α : Type} {f : α → Piece} {n : Nat} :
    ∀ as : List α, (∀ a ∈ as, (f a).weight ≤ n) → weightOf (as.map f) ≤ n
  | [], _ => by simp [weightOf]
  | a :: as, h => by
    have h1 := h a (List.mem_cons_self)
    have h2 := weightOf_map_le as fun b hb => h b (List.mem_cons_of_mem a hb)
    simp only [List.map_cons, weightOf]
    omega

end Piece

namespace Plan

open Piece

theorem weight_figure (id : Option Text) (caption source width : Text) (alt : Option Text) :
    (figure id caption source width alt).weight = 0 := by
  unfold figure image inlineLeaf
  cases alt <;> simp [weight, weightOf]

theorem weight_program (language : Option Text) (code : List Line) : (program language code).weight = 0 := by
  simp [program, weight, weightOf]

theorem weightOf_ofFence (p : Profile) (f : CodeFence) (body : List Line) :
    weightOf (ofFence p f body) = 0 := by
  unfold ofFence ofChunk chunkFigure
  split
  · simp [weightOf, weight_program]
  · simp only
    split
    · split
      · simp [weightOf, weight_figure]
      · split <;> simp [weightOf, weight_program]
    · simp [weightOf]

theorem weightOf_ofMath (rows : List Text) (id : Option Text) : weightOf (ofMath rows id) = 0 := by
  unfold ofMath plainElement
  split
  · simp [weightOf]
  · simp [weightOf, weight]
  · next rs _ =>
    have := weightOf_map_le (f := fun r =>
      Piece.leaf (.plain .mrow) (.markup (Markup.escapeContent r))) (n := 0) rs
      (fun a _ => by simp [weight])
    simp only [weightOf, weight]
    omega

theorem weightOf_interruption (l : ListBlock) : weightOf (interruption l) = 0 := by
  unfold interruption
  cases l.interruptedAt <;> simp [weightOf, weight]

theorem weightOf_part_le {n : Nat} (e : Markup.Element) (chunks : List (List Line))
    (h : ∀ c ∈ chunks, totalSize c ≤ n) : weightOf (part e chunks) ≤ n := by
  unfold part plainElement
  split
  · simp [weightOf]
  · have := weightOf_map_le (f := Piece.blocks .container) (n := n) chunks
      (fun c hc => by simpa [weight] using h c hc)
    simp only [weightOf, weight]
    omega

theorem titled_le (body : List Line) :
    weightOf (titled body).1 = 0 ∧ totalSize (titled body).2 ≤ totalSize body := by
  unfold titled titleLeaf inlineLeaf
  split
  · next h =>
    exact ⟨by simp [weightOf, weight], totalSize_le_of_sublist (Div.leadingHeading?_suffix h).sublist⟩
  · exact ⟨by simp [weightOf], Nat.le_refl _⟩

theorem weight_callout_le (attrs : Attributes) (body : List Line) :
    (callout attrs body).weight ≤ totalSize body := by
  unfold callout
  split
  next title rest h =>
    split at h
    · obtain ⟨rfl, rfl⟩ := Prod.mk.inj h
      simp [weight, weightOf, titleLeaf, inlineLeaf]
    · have ht := titled_le body
      rw [h] at ht
      simp only [weight, weightOf, weightOf_append]
      simp only at ht
      omega

theorem weight_important_le (attrs : Attributes) (body : List Line) :
    (important attrs body).weight ≤ totalSize body := by
  unfold important
  split
  · next h =>
    have := Div.totalSize_promoteTitle? h
    simpa [weight, weightOf, titleLeaf, inlineLeaf] using this
  · simp [weight, weightOf]

theorem splitTop?_le {accepts : Line → Option DivFence → Bool} {ls before after : List Line} {l : Line}
    {depth : Nat} {fence : Option FenceMark}
    (h : Div.splitTop? accepts depth fence ls = some (before, l, after)) :
    totalSize before ≤ totalSize ls ∧ totalSize after ≤ totalSize ls := by
  rw [Div.splitTop?_eq h, totalSize_append, totalSize_cons]
  omega

theorem withoutSolutionHeading_le (ls : List Line) :
    totalSize (Div.withoutSolutionHeading ls) ≤ totalSize ls :=
  totalSize_le_of_sublist (Div.withoutSolutionHeading_suffix ls).sublist

theorem weight_workedExample_le (attrs : Attributes) (body : List Line) :
    (workedExample attrs body).weight ≤ totalSize body := by
  unfold workedExample
  have ht := titled_le body
  simp only [weight, weightOf_append]
  split
  · next before l after h =>
    have hs := splitTop?_le h
    have hw := withoutSolutionHeading_le after
    have h1 := weightOf_part_le (n := totalSize body) .statement [before]
      (by simp only [List.mem_singleton, forall_eq]; omega)
    have h2 := weightOf_part_le (n := totalSize body) .solution [Div.withoutSolutionHeading after] (by simp only [List.mem_singleton, forall_eq]; omega)
    simp only [weightOf_append]
    omega
  · simp only [weightOf, weight]
    omega

theorem weightOf_exerciseParts_le (body : List Line) :
    weightOf (exerciseParts body) ≤ totalSize body := by
  unfold exerciseParts
  split
  · next before l rest h =>
    have hs := splitTop?_le h
    have h1 := weightOf_part_le (n := totalSize body) .statement [before]
      (by simp only [List.mem_singleton, forall_eq]; omega)
    split
    next inside after hi =>
      have hb : totalSize inside ≤ totalSize body ∧ totalSize after ≤ totalSize body := by
        split at hi
        · next hc =>
          have := splitTop?_le hc
          obtain ⟨rfl, rfl⟩ := Prod.mk.inj hi
          omega
        · obtain ⟨rfl, rfl⟩ := Prod.mk.inj hi
          rw [totalSize_nil]
          omega
      have hw := withoutSolutionHeading_le inside
      have h2 := weightOf_part_le (n := totalSize body) .solution [Div.withoutSolutionHeading inside, after] (by
          intro c hc
          simp only [List.mem_cons, List.not_mem_nil, or_false] at hc
          rcases hc with rfl | rfl <;> omega)
      rw [weightOf_append]
      omega
  · split
    · next before l after h =>
      have hs := splitTop?_le h
      have h1 := weightOf_part_le (n := totalSize body) .statement [before]
        (by simp only [List.mem_singleton, forall_eq]; omega)
      have h2 := weightOf_part_le (n := totalSize body) .solution [after]
        (by simp only [List.mem_singleton, forall_eq]; omega)
      rw [weightOf_append]
      omega
    · exact weightOf_part_le _ _ (by simp)

theorem weight_exercise_le (attrs : Attributes) (body : List Line) :
    (exercise attrs body).weight ≤ totalSize body := by
  unfold exercise
  split
  next title rest h =>
    have hb : weightOf title = 0 ∧ totalSize rest ≤ totalSize body := by
      split at h
      · next hl =>
        have := totalSize_le_of_sublist (Div.leadingHeading?_suffix hl).sublist
        split at h <;> obtain ⟨rfl, rfl⟩ := Prod.mk.inj h
        · exact ⟨by simp [weightOf], Nat.le_refl _⟩
        · exact ⟨by simp [weightOf, weight, titleLeaf, inlineLeaf], this⟩
      · obtain ⟨rfl, rfl⟩ := Prod.mk.inj h
        exact ⟨by simp [weightOf], Nat.le_refl _⟩
    have := weightOf_exerciseParts_le rest
    simp only [weight, weightOf_append]
    omega

theorem weightOf_ofDiv_le (p : Profile) (context : Context) (line : Nat) (label : Text)
    (attrs : Attributes) (body : List Line) :
    weightOf (ofDiv p context line label attrs body) ≤ totalSize body := by
  unfold ofDiv
  split
  · simp [weightOf]
  · simp [weightOf, weight]
  · simp [weightOf, weight]
  · simp [weightOf, weight]
  · simp [weightOf, weight]
  · simpa [weightOf] using weight_callout_le attrs body
  · simpa [weightOf] using weight_important_le attrs body
  · simpa [weightOf] using weight_workedExample_le attrs body
  · simpa [weightOf] using weight_exercise_le attrs body

theorem weightOf_ofList_le {l : ListBlock} {n : Nat} (h : ∀ i ∈ l.items, totalSize i.body ≤ n) :
    weightOf (ofList l) ≤ n := by
  unfold ofList plainElement
  have h1 := weightOf_interruption l
  have h2 := weightOf_map_le (f := fun i : ListItem =>
    Piece.element (.plain .li) [.blocks .container i.body]) (n := n) l.items
    (fun i hi => by simpa [weight, weightOf] using h i hi)
  simp only [weightOf_append, weightOf, weight]
  omega

theorem weight_solution (text : Text) : (solution text).weight = 0 := by
  unfold solution plainElement inlineLeaf
  simp only [weight]
  split
  · next parts _ =>
    have := weightOf_map_le (f := fun part =>
      Piece.element (.plain .li) [.leaf (.plain .p) (.inline part)]) (n := 0) parts
      (fun a _ => by simp [weight, weightOf])
    simp only [weightOf, weight]
    omega
  · simp [weightOf, weight]

theorem weightOf_solutionOf (book : Option SolutionBook) (number line : Nat) :
    weightOf (solutionOf book number line) = 0 := by
  unfold solutionOf
  split
  · simp [weightOf]
  · split
    · simp [weightOf, weight_solution]
    · split <;> simp [weightOf, weight]

theorem promotedItem_le (i : ListItem) :
    weightOf (promotedItem i).1 = 0 ∧ totalSize (promotedItem i).2 ≤ totalSize i.body := by
  unfold promotedItem titleLeaf inlineLeaf
  split
  · next h => simp [weightOf, h]
  · next first more h =>
    split
    · next title rest ht =>
      split at ht
      · have := Div.length_strongTitle? ht
        refine ⟨by simp [weightOf, weight], ?_⟩
        rw [h, totalSize_cons, totalSize_cons]
        simp only
        omega
      · simp at ht
    · simp [weightOf, h]

theorem weightOf_exerciseItems_le (book : Option SolutionBook) {n : Nat} :
    ∀ {items : List ListItem} (count : Nat), (∀ i ∈ items, totalSize i.body ≤ n) →
      weightOf (exerciseItems book count items) ≤ n
  | [], _, _ => by simp [exerciseItems, weightOf]
  | i :: items, count, h => by
    have ih := weightOf_exerciseItems_le book (count + 1)
      fun j hj => h j (List.mem_cons_of_mem i hj)
    have hi := h i List.mem_cons_self
    have hp := promotedItem_le i
    have h1 := weightOf_part_le (n := n) .statement [(promotedItem i).2]
      (by simp only [List.mem_singleton, forall_eq]; omega)
    have h2 := weightOf_solutionOf book (count + 1) i.line
    simp only [exerciseItems, exerciseItem, plainElement, weightOf_append, weightOf, weight]
    omega

theorem weightOf_ofExercises_le {book : Option SolutionBook} {count : Nat} {l : ListBlock} {n : Nat}
    (h : ∀ i ∈ l.items, totalSize i.body ≤ n) : weightOf (ofExercises book count l) ≤ n := by
  unfold ofExercises
  split
  · have h1 := weightOf_interruption l
    have h2 := weightOf_exerciseItems_le book count h
    rw [weightOf_append]
    omega
  · exact weightOf_ofList_le h

/-- The bodies among the pieces of a block are no larger than those of the block. -/
theorem weightOf_ofBlock {s : Setting} {context : Context} {count n : Nat} {b : Block}
    (h : ∀ body ∈ b.bodies, totalSize body ≤ n) : weightOf (ofBlock s context count b) ≤ n := by
  unfold ofBlock
  split
  · split <;> simp [weightOf, weight]
  · simp [weightOf, weight]
  · rw [weightOf_ofFence]
    exact Nat.zero_le n
  · next body =>
    exact Nat.le_trans (weightOf_ofDiv_le ..) (h body (by simp [Block.bodies]))
  · next rows id trailing =>
    have := weightOf_ofMath rows id
    rw [weightOf_append]
    cases trailing <;> simp [weightOf, weight, this]
  · simp [weightOf, weight]
  · simp [weightOf, weight_figure]
  · next l =>
    have h' : ∀ i ∈ l.items, totalSize i.body ≤ n := fun i hi =>
      h i.body (by simpa [Block.bodies] using ⟨i, hi, rfl⟩)
    split
    · exact weightOf_ofExercises_le h'
    · exact weightOf_ofList_le h'
  · simp [weightOf, weight]
  · simp [weightOf]

end Plan
end QuartoPretext
