/-
# Keyed entries in the order of their first insertion

A key occurs once: inserting it again replaces its value and keeps its place.

Key definitions: `Assoc`, `Assoc.get?`, `Assoc.insert`, `Assoc.ofList`.
Key theorems: `Assoc.get?_insert`.
-/

namespace QuartoPretext

structure Assoc (κ α : Type) where
  entries : List (κ × α)
  deriving Repr, DecidableEq

namespace Assoc

variable {κ α : Type} [BEq κ]

instance : Inhabited (Assoc κ α) := ⟨⟨[]⟩⟩

def empty : Assoc κ α := ⟨[]⟩

/-- The value of a key. -/
def get? (t : Assoc κ α) (k : κ) : Option α := t.entries.lookup k

def contains (t : Assoc κ α) (k : κ) : Bool := (t.get? k).isSome

/-- Gives `k` the value `v` in a list of entries. -/
def put (k : κ) (v : α) : List (κ × α) → List (κ × α)
  | [] => [(k, v)]
  | e :: rest => if k == e.1 then (k, v) :: rest else e :: put k v rest

def insert (t : Assoc κ α) (k : κ) (v : α) : Assoc κ α := ⟨put k v t.entries⟩

/-- Gives `k` the value `v` unless it has one. -/
def insertNew (t : Assoc κ α) (k : κ) (v : α) : Assoc κ α :=
  if t.contains k then t else t.insert k v

/-- The entries of a list, the last one of a key winning. -/
def ofList (es : List (κ × α)) : Assoc κ α := es.foldl (fun t e => t.insert e.1 e.2) empty

def size (t : Assoc κ α) : Nat := t.entries.length

def keys (t : Assoc κ α) : List κ := t.entries.map (·.1)

theorem lookup_cons (k k' : κ) (v : α) (es : List (κ × α)) :
    List.lookup k' ((k, v) :: es) = if k' == k then some v else es.lookup k' := by
  rw [List.lookup_cons]
  cases k' == k <;> rfl

theorem lookup_put [LawfulBEq κ] (k k' : κ) (v : α) : ∀ es : List (κ × α),
    (put k v es).lookup k' = if k' == k then some v else es.lookup k'
  | [] => lookup_cons k k' v []
  | (k₀, v₀) :: rest => by
    have ih := lookup_put k k' v rest
    unfold put
    by_cases h : k = k₀
    · subst h
      by_cases h' : k' = k <;> simp [lookup_cons, h']
    · by_cases h' : k' = k₀
      · have : ¬k₀ = k := fun hc => h hc.symm
        simp [h, h', this]
      · simp [lookup_cons, h, h', ih]

/-- Inserting changes the value of the inserted key and of no other. -/
theorem get?_insert [LawfulBEq κ] (t : Assoc κ α) (k k' : κ) (v : α) :
    (t.insert k v).get? k' = if k' == k then some v else t.get? k' :=
  lookup_put k k' v t.entries

end Assoc
end QuartoPretext
