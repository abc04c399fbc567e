/-!
# Name maps

Finite maps from names, kept in the order of the names.
-/

namespace CartLua

/-- A map from names, as a list of pairs in the order of their names. -/
structure NameMap (α : Type) where
  pairs : List (String × α) := []
deriving Inhabited, Repr

namespace NameMap

variable {α : Type}

def get? (m : NameMap α) (name : String) : Option α := m.pairs.lookup name

def contains (m : NameMap α) (name : String) : Bool := (m.get? name).isSome

def insertPair (name : String) (a : α) : List (String × α) → List (String × α)
  | [] => [(name, a)]
  | (other, b) :: rest =>
    if name = other then (name, a) :: rest
    else if name < other then (name, a) :: (other, b) :: rest
    else (other, b) :: insertPair name a rest

def insert (m : NameMap α) (name : String) (a : α) : NameMap α := ⟨insertPair name a m.pairs⟩

private theorem lookup_insertPair (name other : String) (a : α) (pairs : List (String × α)) :
    (insertPair name a pairs).lookup other = if other = name then some a else pairs.lookup other := by
  induction pairs with
  | nil => by_cases h : other = name <;> simp [insertPair, List.lookup_cons, h, beq_false_of_ne]
  | cons pair rest ih =>
    obtain ⟨key, b⟩ := pair
    unfold insertPair
    by_cases hkey : name = key
    · by_cases h : other = name <;> simp_all [List.lookup_cons, beq_false_of_ne]
    · by_cases h : other = name
      · subst h
        simp only [hkey, if_false, if_true]
        split <;> simp_all [List.lookup_cons, beq_false_of_ne]
      · simp only [hkey, h, if_false]
        split <;> simp_all [List.lookup_cons, beq_false_of_ne]

@[simp] theorem get?_insert (m : NameMap α) (name other : String) (a : α) :
    (m.insert name a).get? other = if other = name then some a else m.get? other :=
  lookup_insertPair name other a m.pairs

end NameMap

end CartLua
