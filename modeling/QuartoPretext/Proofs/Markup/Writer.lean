/-
# What a writer writes is nested

Every event is read with the elements that are open before it and leaves those
that are open after it, however deep it stands. So the text of a writer's
events leaves open what is on its stack.

Key definitions: `Event.Nests`, `Writer.Sound`.
Key theorems: `render_append`, `Writer.Sound.add`, `Writer.Sound.openTag`,
`Writer.Sound.close`, `Writer.Sound.finish`.
-/
import QuartoPretext.Proofs.Markup.Nested

namespace QuartoPretext.Markup

theorem isName_element (e : Element) : isName e.name.toList := by
  cases e <;> decide

theorem isName_attribute (a : AttributeName) : isName a.name.toList := by
  cases a <;> decide

theorem isAttributes_flatMap : ∀ attrs : List (AttributeName × Text),
    IsAttributes (attrs.flatMap Tag.attributeText)
  | [] => .nil
  | (a, value) :: attrs => by
    have h := IsAttributes.cons (isName_attribute a) (isValue_escapeAttribute value)
      (isAttributes_flatMap attrs)
    simpa [Tag.attributeText] using h

theorem nested_indentation {open₁ open₂ : List Text} {s : Text} (depth : Nat) (h : Nested open₁ s open₂) :
    Nested open₁ (indentation depth ++ s) open₂ := by
  refine Nested.trans (.plain ?_) h
  intro c hc
  rw [List.eq_of_mem_replicate hc]
  decide

variable {open₁ open₂ : List Text} {s : Text}

theorem nested_openText (t : Tag) (h : Nested (t.element.name.toList :: open₁) s open₂) :
    Nested open₁ (t.openText ++ '>' :: s) open₂ :=
  .startTag (isName_element t.element) (isAttributes_flatMap t.attrs) h

theorem nested_emptyText (t : Tag) (h : Nested open₁ s open₂) :
    Nested open₁ (t.openText ++ '/' :: '>' :: s) open₂ :=
  .emptyTag (isName_element t.element) (isAttributes_flatMap t.attrs) h

theorem nested_endText (e : Element) (h : Nested open₁ s open₂) :
    Nested (e.name.toList :: open₁) (Tag.endText e ++ s) open₂ := by
  have hend := Nested.endTag (isName_element e) h
  simpa [Tag.endText] using hend

theorem nested_newline (h : Nested open₁ s open₂) : Nested open₁ ('\n' :: s) open₂ :=
  .char (by decide) (by decide) h

/-! ### Events -/

/-- An event is read with some elements open, and leaves some open. -/
def Event.Nests (e : Event) (before after : List Element) : Prop :=
  ∀ depth, Nested (before.map (·.name.toList)) (e.text depth) (after.map (·.name.toList))

theorem Event.nests_startTag (t : Tag) (stack : List Element) :
    (startTag t).Nests stack (t.element :: stack) := by
  intro depth
  simp only [Event.text, List.append_assoc]
  exact nested_indentation depth (nested_openText t (nested_newline .nil))

theorem Event.nests_endTag (e : Element) (stack : List Element) : (endTag e).Nests (e :: stack) stack := by
  intro depth
  simp only [Event.text, List.append_assoc]
  exact nested_indentation _ (nested_endText e (nested_newline .nil))

theorem Event.nests_leaf (t : Tag) {content : Text} (h : Balanced content) (stack : List Element) :
    (leaf t content).Nests stack stack := by
  intro depth
  simp only [Event.text, List.append_assoc, List.cons_append, List.nil_append]
  refine nested_indentation depth (nested_openText t ?_)
  exact (h.of_balanced _).trans (nested_endText t.element (nested_newline .nil))

theorem Event.nests_empty (t : Tag) (stack : List Element) : (empty t).Nests stack stack := by
  intro depth
  simp only [Event.text, List.append_assoc]
  exact nested_indentation depth (nested_emptyText t (nested_newline .nil))

theorem nested_lines {open' : List Text} : ∀ lines : List Text,
    Nested open' (lines.flatMap fun l => escapeContent l ++ ['\n']) open'
  | [] => .nil
  | l :: lines => ((nested_escapeContent l).trans (nested_newline .nil)).trans (nested_lines lines)

theorem Event.nests_verbatim (e : Element) (lines : List Text) (stack : List Element) :
    (verbatim e lines).Nests stack stack := by
  intro depth
  simp only [Event.text, List.append_assoc, List.cons_append, List.nil_append]
  refine nested_indentation depth (nested_openText (.plain e) (nested_newline ?_))
  exact (nested_lines lines).trans (nested_indentation depth (nested_endText e (nested_newline .nil)))

theorem render_append : ∀ (es : List Event) (depth : Nat) (es' : List Event),
    render depth (es ++ es') = render depth es ++ render (es.foldl Event.depthAfter depth) es'
  | [], _, _ => rfl
  | e :: es, depth, es' => by
    rw [List.cons_append, render, render, render_append es, List.append_assoc, List.foldl_cons]

/-- One element around events whose text is balanced. -/
theorem wellFormed_root (t : Tag) {es : List Event} (h : Balanced (render 1 es)) :
    WellFormed (Conversion.declaration ++ render 0 (.startTag t :: es ++ [.endTag t.element])) := by
  have hcontent : Balanced ('\n' :: (render 1 es ++ indentation (es.foldl Event.depthAfter 1 - 1))) := by
    have hindent : Balanced (indentation (es.foldl Event.depthAfter 1 - 1) ++ []) := nested_indentation _ .nil
    rw [List.append_nil] at hindent
    exact nested_newline (h.trans hindent)
  refine ⟨_, _, _, isName_element t.element, isAttributes_flatMap t.attrs, hcontent, ?_⟩
  rw [List.cons_append, render, render_append]
  simp [render, Event.text, Event.depthAfter, Tag.openText, Tag.endText, indentation]

/-! ### Writers -/

/-- The text of the events leaves open what is on the stack. -/
def Writer.Sound (w : Writer) : Prop := ∀ depth, Nested [] (render depth w.events) (w.stack.map (·.name.toList))

namespace Writer

theorem sound_empty : Writer.empty.Sound := fun _ => .nil

variable {w : Writer}

theorem Sound.event (h : w.Sound) {e : Event} {stack : List Element} (he : e.Nests w.stack stack) :
    Sound ⟨w.events ++ [e], stack⟩ := by
  intro depth
  show Nested [] (render depth (w.events ++ [e])) _
  rw [render_append, render, render, List.append_nil]
  exact (h depth).trans (he _)

theorem Sound.add (h : w.Sound) {e : Event} (he : e.Nests w.stack w.stack) : (w.add e).Sound := h.event he

theorem Sound.openTag (h : w.Sound) (t : Tag) : (w.openTag t).Sound := h.event (Event.nests_startTag t w.stack)

theorem Sound.close (h : w.Sound) : w.close.Sound := by
  unfold Writer.close
  split
  · exact h
  · next e rest hs =>
    refine h.event ?_
    rw [hs]
    exact Event.nests_endTag e rest

theorem Sound.foldl_close {α : Type} : ∀ (as : List α) {w : Writer}, w.Sound →
    (as.foldl (fun w _ => w.close) w).Sound
  | [], _, h => h
  | _ :: as, _, h => foldl_close as h.close

theorem nested_endTags : ∀ (stack : List Element) (depth : Nat),
    Nested (stack.map (·.name.toList)) (render depth (stack.map .endTag)) []
  | [], _ => .nil
  | e :: stack, depth => ((Event.nests_endTag e stack) depth).trans (nested_endTags stack _)

/-- Once all is closed, nothing is left open. -/
theorem Sound.finish (h : w.Sound) (depth : Nat) : Balanced (render depth w.finish) := by
  unfold Writer.finish
  rw [render_append]
  exact (h depth).trans (nested_endTags w.stack _)

end Writer
end QuartoPretext.Markup
