/-
# The leaves of plans

The leaves of some pieces are those that hold no other pieces, in the order in
which they are carried out. Among the leaves of a block, what is written comes
first and the bodies come last; these keep the order of the lines of the block.
Only the items of an exercise set come one after the other, and each of them is
like this. Front matter is among the leaves of front matter alone.

Key definitions: `Piece.leaves`, `Piece.isPlain`, `Piece.Leads`, `Piece.Keeps`,
`Block.isExercises`, `Plan.itemBody`.
Key theorems: `Plan.leads_ofBlock`, `Plan.leads_exerciseHead`, `Plan.keeps_ofBlock`,
`Plan.mem_leaves_list`.
-/
import QuartoPretext.Proofs.Block.Numbers
import QuartoPretext.Proofs.Document.ExerciseSolutions
import QuartoPretext.Proofs.Document.WellFormed

namespace QuartoPretext

namespace Piece

mutual

/-- The pieces that hold no other pieces, in order. -/
def leaves : Piece → List Piece
  | element _ content => leavesOf content
  | p => [p]

def leavesOf : List Piece → List Piece
  | [] => []
  | p :: ps => leaves p ++ leavesOf ps

end

/-- The lines that a piece keeps to be read. -/
def lines : Piece → List Line
  | blocks _ ls => ls
  | _ => []

/-- The numbers of the lines in some leaves. -/
def numbersIn (ps : List Piece) : List Nat := ps.flatMap fun p => Line.numbers p.lines

/-- Whether a piece is written at once, says nothing of the root, and warns of nothing
that is found in texts. -/
def isPlain : Piece → Bool
  | element .. | blocks .. | frontMatter .. => false
  | warn _ cause => !cause.isInline
  | _ => true

def isBody : Piece → Bool
  | blocks .. => true
  | _ => false

/-- All that is in some pieces is plain. -/
def Plain (ps : List Piece) : Prop := ∀ p ∈ leavesOf ps, p.isPlain

/-- Some pieces are bodies, of lines with some of the numbers `ns` in order. -/
structure Bodies (ns : List Nat) (ps : List Piece) : Prop where
  body : ∀ p ∈ leavesOf ps, p.isBody
  numbers : (numbersIn (leavesOf ps)).Sublist ns

/-- Plain pieces come first, and bodies last. -/
def Leads (ns : List Nat) (ps : List Piece) : Prop :=
  ∃ front bodies, leavesOf ps = front ++ bodies ∧ (∀ p ∈ front, p.isPlain) ∧ (∀ p ∈ bodies, p.isBody) ∧
    (numbersIn bodies).Sublist ns

/-- Plain pieces and bodies, of lines with some of the numbers `ns` in order. -/
structure Keeps (ns : List Nat) (ps : List Piece) : Prop where
  plain : ∀ p ∈ leavesOf ps, p.isPlain ∨ p.isBody
  numbers : (numbersIn (leavesOf ps)).Sublist ns

variable {ms ns : List Nat} {p : Piece} {ps qs : List Piece}

theorem leavesOf_append : ∀ ps qs : List Piece, leavesOf (ps ++ qs) = leavesOf ps ++ leavesOf qs
  | [], _ => rfl
  | p :: ps, qs => by simp only [List.cons_append, leavesOf, leavesOf_append ps, List.append_assoc]

theorem leavesOf_map {α : Type} (f : α → Piece) : ∀ as : List α, leavesOf (as.map f) = as.flatMap fun a => leaves (f a)
  | [] => rfl
  | a :: as => by simp only [List.map_cons, leavesOf, leavesOf_map f as, List.flatMap_cons]

theorem leavesOf_singleton (p : Piece) : leavesOf [p] = leaves p := List.append_nil _

theorem numbersIn_append (ps qs : List Piece) : numbersIn (ps ++ qs) = numbersIn ps ++ numbersIn qs :=
  List.flatMap_append

theorem numbersIn_of_plain (h : ∀ p ∈ ps, p.isPlain) : numbersIn ps = [] := by
  refine List.flatMap_eq_nil_iff.2 fun p hp => ?_
  have hplain := h p hp
  cases p <;> first | rfl | cases hplain

theorem texts_of_isBody (h : p.isBody) : p.texts = [] := by
  cases p <;> first | rfl | cases h

theorem Plain.append (h : Plain ps) (h' : Plain qs) : Plain (ps ++ qs) := by
  rw [Plain, leavesOf_append]
  exact List.forall_mem_append.2 ⟨h, h'⟩

theorem Plain.leaf (h : p.isPlain) (hp : leaves p = [p]) : Plain [p] := by
  rw [Plain, leavesOf_singleton, hp]
  exact List.forall_mem_singleton.2 h

theorem Bodies.append (h : Bodies ms ps) (h' : Bodies ns qs) : Bodies (ms ++ ns) (ps ++ qs) where
  body := by
    rw [leavesOf_append]
    exact List.forall_mem_append.2 ⟨h.body, h'.body⟩
  numbers := by
    rw [leavesOf_append, numbersIn_append]
    exact h.numbers.append h'.numbers

theorem Bodies.mono (h : Bodies ms ps) (hns : ms.Sublist ns) : Bodies ns ps := ⟨h.body, h.numbers.trans hns⟩

theorem Bodies.blocks (context : Context) (ls : List Line) : Bodies (Line.numbers ls) [.blocks context ls] :=
  ⟨List.forall_mem_singleton.2 rfl, by simp [leavesOf, leaves, numbersIn, lines]⟩

theorem Bodies.leads (h : Bodies ns ps) : Leads ns ps := ⟨[], leavesOf ps, rfl, List.forall_mem_nil _, h.body, h.numbers⟩

theorem Plain.leads (h : Plain ps) (ns : List Nat) : Leads ns ps :=
  ⟨leavesOf ps, [], (List.append_nil _).symm, h, List.forall_mem_nil _, List.nil_sublist _⟩

theorem Leads.after (h : Leads ns qs) (hps : Plain ps) : Leads ns (ps ++ qs) := by
  obtain ⟨front, bodies, hleaves, hfront, hbodies, hns⟩ := h
  refine ⟨leavesOf ps ++ front, bodies, ?_, List.forall_mem_append.2 ⟨hps, hfront⟩, hbodies, hns⟩
  rw [leavesOf_append, hleaves, List.append_assoc]

theorem Leads.element {tag : Markup.Tag} (h : Leads ns ps) : Leads ns [.element tag ps] := by
  rw [Leads, leavesOf_singleton, leaves]
  exact h

theorem Leads.mono (h : Leads ms ps) (hns : ms.Sublist ns) : Leads ns ps := by
  obtain ⟨front, bodies, hleaves, hfront, hbodies, hms⟩ := h
  exact ⟨front, bodies, hleaves, hfront, hbodies, hms.trans hns⟩

theorem Leads.keeps (h : Leads ns ps) : Keeps ns ps := by
  obtain ⟨front, bodies, hleaves, hfront, hbodies, hns⟩ := h
  constructor
  · rw [hleaves]
    exact List.forall_mem_append.2 ⟨fun p hp => .inl (hfront p hp), fun p hp => .inr (hbodies p hp)⟩
  · rw [hleaves, numbersIn_append, numbersIn_of_plain hfront]
    exact hns

theorem Keeps.append (h : Keeps ms ps) (h' : Keeps ns qs) : Keeps (ms ++ ns) (ps ++ qs) where
  plain := by
    rw [leavesOf_append]
    exact List.forall_mem_append.2 ⟨h.plain, h'.plain⟩
  numbers := by
    rw [leavesOf_append, numbersIn_append]
    exact h.numbers.append h'.numbers

/-- No body comes before a text. -/
theorem Leads.numbersIn_before {before after : List Piece} (h : Leads ns ps)
    (hps : leavesOf ps = before ++ p :: after) (ht : p.texts ≠ []) : numbersIn before = [] := by
  obtain ⟨front, bodies, hleaves, hfront, hbodies, _⟩ := h
  refine numbersIn_of_plain fun q hq => ?_
  rcases List.append_eq_append_iff.1 (hleaves.symm.trans hps) with ⟨more, rfl, hmore⟩ | ⟨more, rfl, _⟩
  · exact absurd (texts_of_isBody (hbodies p (hmore ▸ List.mem_append_right _ List.mem_cons_self))) ht
  · exact hfront q (List.mem_append_left _ hq)

end Piece

/-- Whether a block is a list of exercises, in an exercise set. -/
def Block.isExercises (set : Setting) (context : Context) : Block → Bool
  | list l => set.profile.kind = .exercises ∧ context = .document ∧ l.style = .ordered
  | _ => false

namespace Plan

open Piece

/-- The lines of an item that blocks are read from: without its title, if it is
an exercise. -/
def itemBody (set : Setting) (context : Context) (l : ListBlock) (i : ListItem) : List Line :=
  if (Block.list l).isExercises set context then (promotedItem i).2 else i.body

/-! ### Plain pieces -/

theorem plain_leaf (tag : Markup.Tag) (content : Content) : Plain [.leaf tag content] := .leaf rfl rfl

theorem plain_titleLeaf (text : Text) : Plain [titleLeaf text] := plain_leaf _ _

theorem plain_element {tag : Markup.Tag} {content : List Piece} (h : Plain content) :
    Plain [.element tag content] := by
  rw [Plain, leavesOf_singleton, leaves]
  exact h

theorem plain_map {α : Type} {f : α → Piece} {as : List α} (h : ∀ a ∈ as, Plain [f a]) : Plain (as.map f) := by
  rw [Plain, leavesOf_map]
  intro p hp
  obtain ⟨a, ha, hpa⟩ := List.mem_flatMap.1 hp
  exact h a ha p (by rwa [leavesOf_singleton])

theorem plain_nil : Plain [] := List.forall_mem_nil _

theorem plain_image (source width : Text) (alt : Option Text) : Plain [image source width alt] := by
  unfold image
  cases alt with
  | none => exact .leaf rfl rfl
  | some text => exact plain_element (plain_leaf _ _)

theorem plain_figure (id : Option Text) (caption source width : Text) (alt : Option Text) :
    Plain [figure id caption source width alt] :=
  plain_element ((plain_leaf _ _).append (plain_image source width alt))

theorem plain_program (language : Option Text) (code : List Line) : Plain [program language code] :=
  plain_element (.leaf rfl rfl)

theorem plain_ofFence (p : Profile) (f : CodeFence) (body : List Line) : Plain (ofFence p f body) := by
  unfold ofFence ofChunk chunkFigure
  split
  · exact plain_program _ _
  · simp only
    split
    · split
      · exact plain_figure _ _ _ _ _
      · split
        · exact plain_program _ _
        · exact plain_nil
    · exact plain_nil

theorem plain_ofMath (rows : List Text) (id : Option Text) : Plain (ofMath rows id) := by
  unfold ofMath plainElement
  split
  · exact plain_nil
  · exact plain_element (plain_leaf _ _)
  · exact plain_element (plain_element (plain_map fun _ _ => plain_leaf _ _))

theorem plain_interruption (l : ListBlock) : Plain (interruption l) := by
  unfold interruption
  cases l.interruptedAt with
  | none => exact plain_nil
  | some n => exact .leaf rfl rfl

theorem texts_interruption {l : ListBlock} {p : Piece} (h : p ∈ leavesOf (interruption l)) : p.texts = [] := by
  unfold interruption at h
  cases hl : l.interruptedAt with
  | none =>
    rw [hl] at h
    cases h
  | some n =>
    rw [hl] at h
    cases List.mem_singleton.1 h
    rfl

theorem plain_solution (text : Text) : Plain [solution text] := by
  unfold solution plainElement
  refine plain_element ?_
  split
  · exact plain_element (plain_element (plain_map fun _ _ => plain_element (plain_leaf _ _)))
  · exact plain_leaf _ _

theorem plain_solutionOf (book : Option SolutionBook) (number line : Nat) : Plain (solutionOf book number line) := by
  unfold solutionOf
  split
  · exact plain_nil
  · split
    · exact plain_solution _
    · split
      · exact .leaf rfl rfl
      · exact plain_nil

/-! ### Divs -/

theorem bodies_map_blocks : ∀ chunks : List (List Line),
    Bodies (Line.numbers chunks.flatten) (chunks.map (.blocks .container))
  | [] => ⟨List.forall_mem_nil _, List.nil_sublist _⟩
  | c :: chunks => by
    rw [List.flatten_cons, Line.numbers_append]
    exact (Bodies.blocks .container c).append (bodies_map_blocks chunks)

theorem bodies_part (e : Markup.Element) (chunks : List (List Line)) :
    Bodies (Line.numbers chunks.flatten) (part e chunks) := by
  unfold part plainElement
  split
  · exact ⟨List.forall_mem_nil _, List.nil_sublist _⟩
  · have h := bodies_map_blocks chunks
    exact ⟨by rw [leavesOf_singleton, leaves]; exact h.body, by rw [leavesOf_singleton, leaves]; exact h.numbers⟩

theorem titled_leads (body : List Line) : Plain (titled body).1 ∧ (titled body).2.Sublist body := by
  unfold titled
  split
  · next h => exact ⟨plain_titleLeaf _, (Div.leadingHeading?_suffix h).sublist⟩
  · exact ⟨plain_nil, .refl _⟩

theorem leads_container {tag : Markup.Tag} {content : List Piece} (hc : Plain content) (ls : List Line) :
    Leads (Line.numbers ls) [.element tag (content ++ [.blocks .container ls])] :=
  (Leads.after (Bodies.blocks .container ls).leads hc).element

theorem leads_callout (attrs : Attributes) (body : List Line) : Leads (Line.numbers body) [callout attrs body] := by
  unfold callout
  split
  next title rest ht =>
    split at ht
    · obtain ⟨rfl, rfl⟩ := Prod.mk.inj ht
      exact leads_container (plain_titleLeaf _) body
    · have hs := titled_leads body
      rw [ht] at hs
      exact (leads_container hs.1 rest).mono (Line.numbers_sublist hs.2)

theorem numbers_promoteTitle? : ∀ {body rest : List Line} {title : Text},
    Div.promoteTitle? body = some (title, rest) → Line.numbers rest = Line.numbers body
  | [], _, _, h => by simp [Div.promoteTitle?] at h
  | l :: body, rest, title, h => by
    unfold Div.promoteTitle? at h
    split at h
    · obtain ⟨⟨t, r⟩, h', e⟩ := Option.map_eq_some_iff.1 h
      cases e
      exact congrArg (l.number :: ·) (numbers_promoteTitle? h')
    · obtain ⟨⟨t, text⟩, _, e⟩ := Option.map_eq_some_iff.1 h
      cases e
      rfl

theorem leads_important (attrs : Attributes) (body : List Line) : Leads (Line.numbers body) [important attrs body] := by
  unfold important
  split
  · next title rest ht =>
    rw [← numbers_promoteTitle? ht]
    exact leads_container (plain_titleLeaf title) rest
  · exact leads_container plain_nil body

theorem leads_workedExample (attrs : Attributes) (body : List Line) :
    Leads (Line.numbers body) [workedExample attrs body] := by
  unfold workedExample
  have ht := titled_leads body
  simp only
  refine Leads.mono (Leads.element (Leads.after ?_ ht.1)) (Line.numbers_sublist ht.2)
  split
  · next before l after hsplit =>
    refine ((bodies_part .statement [before]).append (bodies_part .solution [_])).leads.mono ?_
    rw [← Line.numbers_append, Div.splitTop?_eq hsplit]
    simp only [List.flatten_cons, List.flatten_nil, List.append_nil]
    have hafter := (Div.withoutSolutionHeading_suffix after).sublist
    exact Line.numbers_sublist ((hafter.cons l).append_left before)
  · exact (Bodies.blocks .container _).leads

theorem bodies_exerciseParts (body : List Line) : Bodies (Line.numbers body) (exerciseParts body) := by
  unfold exerciseParts
  split
  · next before l rest hsplit =>
    split
    next inside after hi =>
      have hrest : (inside ++ after).Sublist rest := by
        split at hi
        · next hc =>
          obtain ⟨rfl, rfl⟩ := Prod.mk.inj hi
          rw [Div.splitTop?_eq hc]
          exact (List.sublist_cons_self _ _).append_left _
        · obtain ⟨rfl, rfl⟩ := Prod.mk.inj hi
          rw [List.append_nil]
      refine ((bodies_part .statement [before]).append (bodies_part .solution [_, after])).mono ?_
      rw [← Line.numbers_append, Div.splitTop?_eq hsplit]
      simp only [List.flatten_cons, List.flatten_nil, List.append_nil]
      have hinside := (Div.withoutSolutionHeading_suffix inside).sublist.append_right after
      exact Line.numbers_sublist (((hinside.trans hrest).cons l).append_left before)
  · split
    · next before l after hsplit =>
      refine ((bodies_part .statement [before]).append (bodies_part .solution [after])).mono ?_
      rw [← Line.numbers_append, Div.splitTop?_eq hsplit]
      simp only [List.flatten_cons, List.flatten_nil, List.append_nil]
      exact Line.numbers_sublist ((List.sublist_cons_self l after).append_left before)
    · have h := bodies_part .statement [body]
      rwa [List.flatten_cons, List.flatten_nil, List.append_nil] at h

theorem leads_exercise (attrs : Attributes) (body : List Line) : Leads (Line.numbers body) [exercise attrs body] := by
  unfold exercise
  split
  next title rest ht =>
    have hr : Plain title ∧ rest.Sublist body := by
      split at ht
      · next hl =>
        split at ht <;> obtain ⟨rfl, rfl⟩ := Prod.mk.inj ht
        · exact ⟨plain_nil, .refl _⟩
        · exact ⟨plain_titleLeaf _, (Div.leadingHeading?_suffix hl).sublist⟩
      · obtain ⟨rfl, rfl⟩ := Prod.mk.inj ht
        exact ⟨plain_nil, .refl _⟩
    exact (((bodies_exerciseParts rest).leads.after hr.1).element).mono (Line.numbers_sublist hr.2)

theorem leads_ofDiv (p : Profile) (context : Context) (line : Nat) (label : Text) (attrs : Attributes)
    (body : List Line) : Leads (Line.numbers body) (ofDiv p context line label attrs body) := by
  have hbody := (Bodies.blocks context body).leads
  unfold ofDiv
  split
  · exact plain_nil.leads _
  · exact hbody
  · exact hbody.after (.leaf rfl rfl)
  · exact leads_container (plain_leaf _ _) body
  · exact leads_container plain_nil body
  · exact leads_callout attrs body
  · exact leads_important attrs body
  · exact leads_workedExample attrs body
  · exact leads_exercise attrs body

/-! ### Lists -/

theorem leaves_ofList (l : ListBlock) : leavesOf (ofList l) =
    leavesOf (interruption l) ++ l.items.map fun i => .blocks .container i.body := by
  have hitems : leavesOf (l.items.map fun i => plainElement .li [.blocks .container i.body]) =
      l.items.map fun i => .blocks .container i.body := by
    rw [leavesOf_map, List.map_eq_flatMap]
    rfl
  rw [ofList, leavesOf_append, ← hitems]
  simp only [plainElement, leavesOf, leaves, List.append_nil]

theorem numbers_promotedItem {i : ListItem} (h : i.Placed) :
    (Line.numbers (promotedItem i).2).Sublist i.numbers := by
  unfold promotedItem
  split
  · exact List.nil_sublist _
  · next first more hbody =>
    split
    · -- the rest of the first line goes by the number of the item
      rw [ListItem.numbers, hbody]
      exact .refl _
    · exact hbody ▸ h.numbers_body

theorem plain_promotedItem (i : ListItem) : Plain (promotedItem i).1 := by
  unfold promotedItem
  split
  · exact plain_nil
  · split
    · exact plain_titleLeaf _
    · exact plain_nil

theorem numbers_itemBody {set : Setting} {context : Context} {l : ListBlock} {i : ListItem} (h : i.Placed) :
    (Line.numbers (itemBody set context l i)).Sublist i.numbers := by
  unfold itemBody
  split
  · exact numbers_promotedItem h
  · exact h.numbers_body

theorem leads_ofList {l : ListBlock} (h : ∀ i ∈ l.items, i.Placed) :
    Leads (l.items.flatMap ListItem.numbers) (ofList l) := by
  refine ⟨leavesOf (interruption l), _, leaves_ofList l, plain_interruption l, ?_, ?_⟩
  · intro p hp
    obtain ⟨i, _, rfl⟩ := List.mem_map.1 hp
    rfl
  · rw [numbersIn, List.flatMap_map]
    generalize l.items = items at h
    induction items with
    | nil => exact List.nil_sublist _
    | cons i items ih =>
      rw [List.flatMap_cons, List.flatMap_cons]
      exact (h i List.mem_cons_self).numbers_body.append (ih fun j hj => h j (List.mem_cons_of_mem _ hj))

theorem leads_exerciseHead {i : ListItem} (h : i.Placed) : Leads i.numbers (exerciseHead i) := by
  refine Leads.after ((bodies_part .statement [(promotedItem i).2]).leads.mono ?_) (plain_promotedItem i)
  rw [List.flatten_cons, List.flatten_nil, List.append_nil]
  exact numbers_promotedItem h

theorem leaves_exerciseItem (book : Option SolutionBook) (number : Nat) (i : ListItem) :
    leavesOf (exerciseItem book number i) =
      .countExercise :: (leavesOf (exerciseHead i) ++ leavesOf (solutionOf book number i.line)) := by
  rw [exerciseItem_eq, plainElement]
  simp only [leavesOf, leaves, leavesOf_append, List.append_nil]
  rfl

theorem keeps_exerciseItem (book : Option SolutionBook) (number : Nat) {i : ListItem} (h : i.Placed) :
    Keeps i.numbers (exerciseItem book number i) := by
  have hhead := (leads_exerciseHead h).keeps
  have hsolution := plain_solutionOf book number i.line
  constructor
  · rw [leaves_exerciseItem]
    refine List.forall_mem_cons.2 ⟨.inl rfl, List.forall_mem_append.2 ⟨hhead.plain, ?_⟩⟩
    exact fun p hp => .inl (hsolution p hp)
  · have hbefore : numbersIn [.countExercise] = [] := rfl
    rw [leaves_exerciseItem, ← List.singleton_append, numbersIn_append, numbersIn_append,
      numbersIn_of_plain hsolution, hbefore, List.append_nil]
    exact hhead.numbers

theorem keeps_exerciseItems (book : Option SolutionBook) : ∀ {items : List ListItem} (count : Nat),
    (∀ i ∈ items, i.Placed) → Keeps (items.flatMap ListItem.numbers) (exerciseItems book count items)
  | [], _, _ => (plain_nil.leads []).keeps
  | i :: items, count, h => by
    rw [exerciseItems, List.flatMap_cons]
    exact (keeps_exerciseItem book (count + 1) (h i List.mem_cons_self)).append
      (keeps_exerciseItems book (count + 1) fun j hj => h j (List.mem_cons_of_mem _ hj))

/-! ### Blocks -/

variable {set : Setting} {context : Context} {count : Nat} {b : Block}

theorem ofBlock_list (l : ListBlock) : ofBlock set context count (.list l) =
    if (Block.list l).isExercises set context then interruption l ++ exerciseItems set.solutions count l.items
    else ofList l := by
  unfold ofBlock ofExercises
  by_cases hkind : set.profile.kind = .exercises ∧ context = .document
  · by_cases hstyle : l.style = .ordered <;> simp [Block.isExercises, hkind, hstyle]
  · have : (Block.list l).isExercises set context = false := by
      simp only [Block.isExercises, decide_eq_false_iff_not]
      exact fun h => hkind ⟨h.1, h.2.1⟩
    simp [this, hkind]

/-- The pieces of a block, but for exercises and front matter: what is written
comes first. -/
theorem leads_ofBlock (hb : b.Placed)
    (hexercises : b.isExercises set context = false) (hmatter : ∀ n yaml, b ≠ .frontMatter n yaml) :
    Leads b.numbers (ofBlock set context count b) := by
  cases b with
  | heading line level title attrs =>
    cases context with
    | document => exact (Plain.leaf rfl rfl).leads _
    | container => exact (plain_leaf _ _).leads _
  | frontMatter n yaml => exact absurd rfl (hmatter n yaml)
  | fence line f body => exact (plain_ofFence _ f body).leads _
  | div line label attrs body => exact leads_ofDiv ..
  | displayMath line rows id trailing =>
    refine Plain.leads (.append (plain_ofMath rows id) ?_) _
    cases trailing with
    | none => exact plain_nil
    | some text => exact .leaf rfl rfl
  | inclusion line path => exact (Plain.leaf rfl rfl).leads _
  | image line caption source attrs => exact (plain_figure _ _ _ _ _).leads _
  | list l =>
    rw [ofBlock_list, hexercises]
    exact leads_ofList (hb l rfl)
  | paragraph line text => exact (Plain.leaf rfl rfl).leads _
  | skipped line kind => exact plain_nil.leads _

theorem keeps_ofBlock (hb : b.Placed) (hmatter : ∀ n yaml, b ≠ .frontMatter n yaml) :
    Keeps b.numbers (ofBlock set context count b) := by
  cases hexercises : b.isExercises set context with
  | false => exact (leads_ofBlock hb hexercises hmatter).keeps
  | true =>
    cases b with
    | list l =>
      rw [ofBlock_list, if_pos hexercises]
      exact ((plain_interruption l).leads []).keeps.append (keeps_exerciseItems _ count (hb l rfl))
    | _ => cases hexercises

/-- Front matter is nowhere but in its own block. -/
theorem eq_frontMatter_of_mem {n : Nat} {yaml : Text} (hb : b.Placed)
    (h : .frontMatter n yaml ∈ leavesOf (ofBlock set context count b)) : b = .frontMatter n yaml := by
  by_cases hmatter : ∃ n yaml, b = .frontMatter n yaml
  · obtain ⟨n', yaml', rfl⟩ := hmatter
    cases List.mem_singleton.1 h
    rfl
  · rcases (keeps_ofBlock hb fun n yaml h => hmatter ⟨n, yaml, h⟩).plain _ h with h | h <;> cases h

theorem numbersIn_ofBlock (hb : b.Placed) :
    (numbersIn (leavesOf (ofBlock set context count b))).Sublist b.numbers := by
  by_cases hmatter : ∃ n yaml, b = .frontMatter n yaml
  · obtain ⟨n, yaml, rfl⟩ := hmatter
    exact List.nil_sublist _
  · exact (keeps_ofBlock hb fun n yaml h => hmatter ⟨n, yaml, h⟩).numbers

theorem mem_leaves_exerciseItems {book : Option SolutionBook} {ls : List Line} {c : Context} :
    ∀ {items : List ListItem} {count : Nat}, .blocks c ls ∈ leavesOf (exerciseItems book count items) →
      c = .container ∧ ∃ i ∈ items, ls = (promotedItem i).2
  | [], _, h => by cases h
  | i :: items, count, h => by
    rw [exerciseItems, leavesOf_append, leaves_exerciseItem] at h
    rcases List.mem_append.1 h with h | h
    · rcases List.mem_cons.1 h with h | h
      · cases h
      · rcases List.mem_append.1 h with h | h
        · rw [exerciseHead, leavesOf_append] at h
          rcases List.mem_append.1 h with h | h
          · cases plain_promotedItem i _ h
          · unfold part plainElement at h
            split at h
            · cases h
            · cases List.mem_singleton.1 h
              exact ⟨rfl, i, List.mem_cons_self, rfl⟩
        · cases plain_solutionOf book _ _ _ h
    · obtain ⟨hc, j, hj, hls⟩ := mem_leaves_exerciseItems h
      exact ⟨hc, j, List.mem_cons_of_mem _ hj, hls⟩

/-- A list has nothing but its items to be read. -/
theorem mem_leaves_list {l : ListBlock} {c : Context} {ls : List Line}
    (h : .blocks c ls ∈ leavesOf (ofBlock set context count (.list l))) :
    c = .container ∧ ∃ i ∈ l.items, ls = itemBody set context l i := by
  rw [ofBlock_list] at h
  unfold itemBody
  split at h
  · next hexercises =>
    simp only [hexercises, if_true]
    rw [leavesOf_append] at h
    rcases List.mem_append.1 h with h | h
    · cases plain_interruption l _ h
    · exact mem_leaves_exerciseItems h
  · next hexercises =>
    simp only [hexercises]
    rw [leaves_ofList] at h
    rcases List.mem_append.1 h with h | h
    · cases plain_interruption l _ h
    · obtain ⟨i, hi, heq⟩ := List.mem_map.1 h
      cases heq
      exact ⟨rfl, i, hi, rfl⟩

end Plan
end QuartoPretext
