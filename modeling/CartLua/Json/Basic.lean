import CartLua.Number.Shortest
/-!
# JSON values

The values the program writes. Objects keep their fields in the order in which they were put there. Numbers are natural
numbers or doubles; a double that is not finite has no JSON form and is written as null.
-/

namespace CartLua

inductive Json where
  | null
  | bool (value : Bool)
  | nat (value : Nat)
  | double (value : Float)
  | string (value : String)
  | array (items : List Json)
  | object (fields : List (String × Json))
deriving Inhabited

namespace Json

def ofOption {α : Type} (f : α → Json) : Option α → Json
  | some a => f a
  | none => .null

def optional {α : Type} (name : String) (f : α → Json) : Option α → List (String × Json)
  | some a => [(name, f a)]
  | none => []

def ofList {α : Type} (f : α → Json) (items : List α) : Json := .array (items.map f)

def insertField (field : String × Json) : List (String × Json) → List (String × Json)
  | [] => [field]
  | other :: rest => if other.1 < field.1 then other :: insertField field rest else field :: other :: rest

mutual

def sorted : Json → Json
  | .array items => .array (sortedItems items)
  | .object fields => .object (sortedFields fields)
  | other => other

def sortedItems : List Json → List Json
  | [] => []
  | item :: rest => sorted item :: sortedItems rest

def sortedFields : List (String × Json) → List (String × Json)
  | [] => []
  | (name, value) :: rest => insertField (name, sorted value) (sortedFields rest)

end

end Json

end CartLua
