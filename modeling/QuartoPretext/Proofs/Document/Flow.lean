/-
# The body of a document as one flow of blocks

A transparent or unknown div hands its lines to the body of the document that
it stands in. So the blocks of the body, those in such divs with the others,
are read and carried out one after the other, up to the first one that cannot
be read. A block of the flow that is no heading, and no list of an exercise
set, is carried out as in a container.

Key definitions: `Block.passed`, `Flow.ofLines`, `Plan.own`, `Flow.run`.
Key theorems: `Plan.within_own`, `convertLines_flow`, `convertLines_eq_ok_iff`.
-/
import QuartoPretext.Proofs.Document.Sections

namespace QuartoPretext

/-- The lines in a block that are in the body of the document if the block is:
those of a transparent or an unknown div. -/
def Block.passed (p : Profile) : Block → List Line
  | .div _ _ attrs body =>
    match Div.kind p attrs with
    | .transparent | .unknown => body
    | _ => []
  | _ => []

theorem Block.totalSize_passed {p : Profile} {l : Line} {following rest : List Line} {b : Block}
    (h : Block.read l following = .ok (b, rest)) : Line.totalSize (b.passed p) < Line.totalSize (l :: following) := by
  have hpos : 0 < Line.totalSize (l :: following) := Nat.lt_of_le_of_lt (Nat.zero_le _) (Block.totalSize_rest h)
  unfold passed
  split
  · split
    · exact Block.totalSize_body h (by simp [Block.bodies])
    · exact Block.totalSize_body h (by simp [Block.bodies])
    · exact hpos
  · exact hpos

/-- Blocks in the order in which they are converted, and the fault that stands after them. -/
structure Flow where
  blocks : List Block
  fault : Option Fault
  deriving Repr, DecidableEq

namespace Flow

/-- One flow after another one, which must end without a fault for it. -/
def andThen (a b : Flow) : Flow :=
  match a.fault with
  | some f => ⟨a.blocks, some f⟩
  | none => ⟨a.blocks ++ b.blocks, b.fault⟩

/-- The flow of the blocks of some lines in the body of a document. -/
def ofLines (p : Profile) : List Line → Flow
  | [] => ⟨[], none⟩
  | l :: following =>
    match _h : Block.read l following with
    | .error f => ⟨[], some f⟩
    | .ok (b, rest) => andThen ⟨[b], none⟩ ((ofLines p (b.passed p)).andThen (ofLines p rest))
termination_by ls => Line.totalSize ls
decreasing_by
  · exact Block.totalSize_passed _h
  · exact Block.totalSize_rest _h

end Flow

namespace Plan

/-- The pieces of a block in the body of a document, without the lines that it hands on. -/
def own (set : Setting) (count : Nat) : Block → List Piece
  | .div line label attrs body =>
    match Div.kind set.profile attrs with
    | .transparent => []
    | .unknown => [.warn line (.unknownDiv label)]
    | _ => ofDiv set.profile .document line label attrs body
  | b => ofBlock set .document count b

end Plan

/-- Carries out the blocks of a flow. -/
def Flow.run (set : Setting) (ctx : Inline.Context) : List Block → Session → Except Fault Session
  | [], s => .ok s
  | b :: bs, s => (runPieces set ctx (Plan.own set s.exerciseCount b) { s with line := some b.line }).bind (run set ctx bs)

variable {set : Setting} {ctx : Inline.Context} {s s' : Session} {p : Profile}

/-! ### Reading a flow -/

namespace Flow

theorem ofLines_nil : ofLines p [] = ⟨[], none⟩ := by rw [ofLines]

theorem ofLines_of_error {l : Line} {following : List Line} {f : Fault} (h : Block.read l following = .error f) :
    ofLines p (l :: following) = ⟨[], some f⟩ := by
  rw [ofLines]
  split
  · next hf =>
    rw [h] at hf
    cases hf
    rfl
  · next hok =>
    rw [h] at hok
    cases hok

theorem ofLines_of_read {l : Line} {following rest : List Line} {b : Block}
    (h : Block.read l following = .ok (b, rest)) : ofLines p (l :: following) =
      andThen ⟨[b], none⟩ ((ofLines p (b.passed p)).andThen (ofLines p rest)) := by
  rw [ofLines]
  split
  · next hf =>
    rw [h] at hf
    cases hf
  · next hok =>
    rw [h] at hok
    cases hok
    rfl

theorem mem_andThen {a b : Flow} {x : Block} (h : x ∈ (a.andThen b).blocks) : x ∈ a.blocks ∨ x ∈ b.blocks := by
  unfold andThen at h
  split at h
  · exact .inl h
  · exact List.mem_append.1 h

/-- The blocks of a flow are read. -/
theorem read_of_mem {ls : List Line} {b : Block} (h : b ∈ (ofLines p ls).blocks) :
    ∃ l following rest, Block.read l following = .ok (b, rest) := by
  induction ls using ofLines.induct p with
  | case1 =>
    rw [ofLines_nil] at h
    cases h
  | case2 l following f hread =>
    rw [ofLines_of_error hread] at h
    cases h
  | case3 l following b' rest hread ih₁ ih₂ =>
    rw [ofLines_of_read hread] at h
    rcases mem_andThen h with hb | hmore
    · exact ⟨l, following, rest, List.mem_singleton.1 hb ▸ hread⟩
    · exact (mem_andThen hmore).elim ih₁ ih₂

/-- The fault of a flow is one of reading. -/
theorem read_of_fault {ls : List Line} {f : Fault} (h : (ofLines p ls).fault = some f) :
    ∃ l following, Block.read l following = .error f := by
  induction ls using ofLines.induct p with
  | case1 =>
    rw [ofLines_nil] at h
    cases h
  | case2 l following f' hread =>
    rw [ofLines_of_error hread] at h
    cases h
    exact ⟨l, following, hread⟩
  | case3 l following b rest hread ih₁ ih₂ =>
    rw [ofLines_of_read hread] at h
    unfold andThen at h
    simp only at h
    split at h
    · next hf =>
      cases h
      exact ih₁ hf
    · exact ih₂ h

end Flow

/-! ### The pieces of its blocks -/

/-- A block that is no heading has pieces of its own as in a container, but for the exercises of a set. -/
theorem Plan.within_own {E : Prop} {count : Nat} {b : Block} (hheading : ∀ n level title attrs, b ≠ .heading n level title attrs)
    (hE : set.profile.kind = .exercises → (∃ l, b = .list l ∧ l.style = .ordered) → E) :
    Piece.AllIn (Piece.Within (fun _ => True) E) (own set count b) := by
  have hcontainer : own set count b = ofBlock set .container count b →
      Piece.AllIn (Piece.Within (fun _ => True) E) (own set count b) := fun h =>
    h ▸ (Piece.allIn_iff _).2 (within_ofBlock fun _ _ _ _ => trivial)
  cases b with
  | heading n level title attrs => exact absurd rfl (hheading n level title attrs)
  | div line label attrs body =>
    cases hdiv : Div.kind set.profile attrs with
    | transparent =>
      simp only [own, hdiv]
      trivial
    | unknown =>
      simp only [own, hdiv]
      exact ⟨trivial, trivial⟩
    | _ => exact hcontainer (by simp only [own, ofBlock, ofDiv, hdiv])
  | list l =>
    by_cases hl : set.profile.kind = .exercises ∧ l.style = .ordered
    · obtain rfl : E = True := eq_true (hE hl.1 ⟨l, rfl, hl.2⟩)
      have hown : own set count (.list l) = ofExercises set.solutions count l := by simp [own, ofBlock, hl.1]
      exact hown ▸ tame_ofExercises fun _ _ _ _ => trivial
    · have hown : own set count (.list l) = ofList l := by
        simp only [own, ofBlock, ofExercises]
        split
        · next hkind =>
          exact if_neg fun hstyle => hl ⟨by simpa using hkind, hstyle⟩
        · rfl
      exact hown ▸ within_ofList fun _ _ => trivial
  | _ => exact hcontainer rfl

/-! ### Carrying out a flow -/

/-- What is left to do after the blocks of a flow. -/
def Flow.finish (fault : Option Fault) (s : Session) : Except Fault Session := fault.elim (.ok s) .error

theorem Flow.run_append : ∀ (as bs : List Block) (s : Session),
    run set ctx (as ++ bs) s = (run set ctx as s).bind (run set ctx bs)
  | [], _, _ => rfl
  | a :: as, bs, s => by
    rw [List.cons_append, run, run]
    cases runPieces set ctx (Plan.own set s.exerciseCount a) { s with line := some a.line } with
    | error f => rfl
    | ok s₁ => exact run_append as bs s₁

theorem Flow.run_andThen (a b : Flow) (s : Session) :
    (run set ctx (a.andThen b).blocks s).bind (finish (a.andThen b).fault) =
      ((run set ctx a.blocks s).bind (finish a.fault)).bind fun s => (run set ctx b.blocks s).bind (finish b.fault) := by
  unfold andThen
  cases a.fault with
  | some f =>
    cases run set ctx a.blocks s <;> rfl
  | none =>
    simp only [run_append]
    cases run set ctx a.blocks s <;> rfl

theorem convertLines_nil (context : Context) (s : Session) : convertLines set ctx context [] s = .ok s := by rw [convertLines]

/-- A block in the body of a document is carried out by its own pieces, and then by the lines it hands on. -/
theorem runPieces_ofBlock (count : Nat) (b : Block) (s : Session) :
    runPieces set ctx (Plan.ofBlock set .document count b) s =
      (runPieces set ctx (Plan.own set count b) s).bind (convertLines set ctx .document (b.passed set.profile)) := by
  have hall (ps : List Piece) : runPieces set ctx ps s =
      (runPieces set ctx ps s).bind (convertLines set ctx .document []) := by
    cases runPieces set ctx ps s with
    | error f => rfl
    | ok s₁ => exact (convertLines_nil ..).symm
  cases b with
  | div line label attrs body =>
    cases hdiv : Div.kind set.profile attrs with
    | transparent =>
      simp only [Plan.ofBlock, Plan.ofDiv, Plan.own, Block.passed, hdiv, runPieces_singleton, runPiece, runPieces]
      rfl
    | unknown =>
      simp only [Plan.ofBlock, Plan.ofDiv, Plan.own, Block.passed, hdiv, runPieces_singleton]
      rw [runPieces, runPiece_of_isSimple rfl]
      simp only [Session.write, runPieces_singleton, runPiece]
      rfl
    | _ =>
      simp only [Plan.ofBlock, Plan.own, Block.passed, hdiv]
      exact hall _
  | _ => exact hall _

/-- The body of a document is carried out block after block. -/
theorem convertLines_flow (ls : List Line) (s : Session) : convertLines set ctx .document ls s =
    (Flow.run set ctx (Flow.ofLines set.profile ls).blocks s).bind (Flow.finish (Flow.ofLines set.profile ls).fault) := by
  induction ls using Flow.ofLines.induct set.profile generalizing s with
  | case1 =>
    rw [convertLines_nil, Flow.ofLines_nil]
    rfl
  | case2 l following f hread =>
    rw [convertLines_of_read_error hread, Flow.ofLines_of_error hread]
    rfl
  | case3 l following b rest hread ih₁ ih₂ =>
    rw [convertLines_of_read hread, Flow.ofLines_of_read hread, Flow.run_andThen, runPieces_ofBlock]
    simp only [Flow.run_andThen, ← ih₁, ← ih₂, Flow.run]
    cases runPieces set ctx (Plan.own set s.exerciseCount b) { s with line := some b.line } with
    | error f => rfl
    | ok s₁ =>
      cases hpassed : convertLines set ctx .document (b.passed set.profile) s₁ <;>
        simp only [Except.bind, Flow.finish, Option.elim, hpassed]

/-- Lines are converted if the blocks of their flow are carried out and it ends without a fault. -/
theorem convertLines_eq_ok_iff {ls : List Line} : convertLines set ctx .document ls s = .ok s' ↔
    (Flow.ofLines set.profile ls).fault = none ∧ Flow.run set ctx (Flow.ofLines set.profile ls).blocks s = .ok s' := by
  rw [convertLines_flow]
  cases Flow.run set ctx (Flow.ofLines set.profile ls).blocks s with
  | error f => exact ⟨fun h => (by cases h), fun h => (by cases h.2)⟩
  | ok s₁ =>
    cases (Flow.ofLines set.profile ls).fault with
    | none => exact ⟨fun h => ⟨rfl, h⟩, fun h => h.2⟩
    | some f => exact ⟨fun h => (by cases h), fun h => (by cases h.1)⟩

end QuartoPretext
