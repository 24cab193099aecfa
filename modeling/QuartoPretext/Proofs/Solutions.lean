/-
# A book of solutions is in order

Whatever counter commands a file of solutions has, the items it keeps ascend by
number, each number once: an item that comes to a number again replaces the
earlier one.

Key definitions: `Solution.Ascending`.
Key theorems: `SolutionBook.ascending_parse`, `SolutionBook.mem_numbers_iff`,
`SolutionBook.expects_iff`.
-/
import QuartoPretext.Solutions

namespace QuartoPretext

namespace Solution

/-- Solutions whose numbers ascend. -/
def Ascending (es : List (Nat × Text)) : Prop := (es.map (·.1)).Pairwise (· < ·)

variable {n : Nat} {text : Text} {es : List (Nat × Text)} {r : Reading}

theorem fst_put : ∀ {es : List (Nat × Text)} {e : Nat × Text}, e ∈ put n text es → e.1 = n ∨ ∃ e' ∈ es, e'.1 = e.1
  | [], e, h => .inl (List.mem_singleton.1 h ▸ rfl)
  | d :: es, e, h => by
    unfold put at h
    split at h
    · rcases List.mem_cons.1 h with rfl | h
      · exact .inl rfl
      · exact .inr ⟨e, h, rfl⟩
    · split at h
      · rcases List.mem_cons.1 h with rfl | h
        · exact .inl rfl
        · exact .inr ⟨e, List.mem_cons_of_mem d h, rfl⟩
      · rcases List.mem_cons.1 h with rfl | h
        · exact .inr ⟨e, List.mem_cons_self, rfl⟩
        · exact (fst_put h).imp_right fun ⟨e', he', hn⟩ => ⟨e', List.mem_cons_of_mem d he', hn⟩

theorem ascending_cons {e : Nat × Text} : Ascending (e :: es) ↔ (∀ d ∈ es, e.1 < d.1) ∧ Ascending es := by
  rw [Ascending, List.map_cons, List.pairwise_cons, List.forall_mem_map, Ascending]

theorem Ascending.put (n : Nat) (text : Text) : ∀ {es : List (Nat × Text)}, Ascending es → Ascending (put n text es)
  | [], _ => List.pairwise_singleton _ n
  | e :: es, h => by
    obtain ⟨hlt, hes⟩ := ascending_cons.1 h
    unfold Solution.put
    split
    · next hn =>
      refine ascending_cons.2 ⟨fun d hd => ?_, h⟩
      rcases List.mem_cons.1 hd with rfl | hd
      · exact hn
      · exact Nat.lt_trans hn (hlt d hd)
    · split
      · next hn => exact ascending_cons.2 ⟨fun d hd => hn ▸ hlt d hd, hes⟩
      · refine ascending_cons.2 ⟨fun d hd => ?_, hes.put n text⟩
        rcases fst_put hd with hn | ⟨e', he', hn⟩
        · omega
        · exact hn ▸ hlt e' he'

/-! ### Reading a file -/

namespace Reading

theorem ascending_close (h : Ascending r.closed) : Ascending r.close := by
  unfold close
  split
  · exact h.put _ _
  · exact h

theorem ascending_line (h : Ascending r.closed) (s : Text) : Ascending (r.line s).closed := by
  have hcontinue (text : Text) : (r.continue text).closed = r.closed := by
    unfold Reading.continue
    split <;> rfl
  simp only [line]
  split
  · exact ascending_close h
  · rw [hcontinue]
    exact h

theorem ascending_foldl : ∀ (ss : List Text) {r : Reading}, Ascending r.closed → Ascending (ss.foldl line r).closed
  | [], _, h => h
  | s :: ss, _, h => ascending_foldl ss (ascending_line h s)

end Reading
end Solution

namespace SolutionBook

theorem ascending_parse (s : Text) : (parse s).numbers.Pairwise (· < ·) :=
  Solution.Reading.ascending_close (Solution.Reading.ascending_foldl _ List.Pairwise.nil)

/-- A book has the solutions of its numbers. -/
theorem mem_numbers_iff {b : SolutionBook} {n : Nat} : n ∈ b.numbers ↔ (b.get? n).isSome := by
  rw [numbers, get?, List.mem_map, List.lookup_isSome_iff]
  simp only [beq_iff_eq, @eq_comm Nat n]

/-- A book is expected to have the numbers that are odd or even as one that it has. -/
theorem expects_iff {b : SolutionBook} {n : Nat} : b.expects n ↔ ∃ m ∈ b.numbers, m % 2 = n % 2 := by
  simp only [expects, List.any_eq_true, beq_iff_eq]

end SolutionBook
end QuartoPretext
