import Std.Data.HashMap
import CartLua.Diagnostic
import CartLua.Text.NameMap
/-!
# Cross references

For every variable, and for every dotted path such as `a.b.c`, an entry lists where it is defined and where it is used.
Scopes form a tree; each maps names to entries. An index by lines finds the entry at a point.
-/

namespace CartLua

abbrev EntryId := Nat

abbrev ScopeId := Nat

/-- The definitions and usages of one variable or path. -/
structure Entry where
  name : String
  definitions : Array Span := #[]
  usages : Array Span := #[]
deriving DecidableEq, Inhabited, Repr

inductive ScopeKind where
  | global
  | function
  | block
  /-- A table constructor, which names its fields but holds no variables. -/
  | table
deriving DecidableEq, Inhabited, Repr

structure Declared where
  entry : EntryId
  isParameter : Bool
  span : Span
deriving DecidableEq, Inhabited, Repr

structure Scope where
  kind : ScopeKind
  /-- The name of the function or table, taken over from the scope around where there is none. -/
  name : Option String := none
  /-- Absent for the global scope, which holds every point. -/
  span : Option Span := none
  parent : Option ScopeId := none
  children : Array ScopeId := #[]
  symbols : NameMap EntryId := {}
  selfAlias : Option String := none
  tableName : Option String := none
  /-- The locals whose use is not settled yet. -/
  declared : List Declared := []
deriving Inhabited, Repr

def Scope.contains (s : Scope) (file : FileId) (line column : Nat) : Bool :=
  s.span.all (·.contains file line column)

/-- The spans that start on a line of a document, with their entries. -/
abbrev LineIndex := Std.HashMap (FileId × Nat) (List (Span × EntryId))

structure CrossReference where
  entries : Array Entry := #[]
  lines : LineIndex := {}
  scopes : Array Scope := #[]
deriving Inhabited

namespace CrossReference

/-- The pair with the shortest span, the first one of several. -/
def narrowest? : List (Span × EntryId) → Option (Span × EntryId)
  | [] => none
  | pair :: rest =>
    match narrowest? rest with
    | none => some pair
    | some other => some (if other.1.length < pair.1.length then other else pair)

variable (x : CrossReference)

/-- The entry at a point: the one with the narrowest span around it, so that a path comes before its base. -/
def lookup? (file : FileId) (line column : Nat) : Option EntryId :=
  (narrowest? ((x.lines.getD (file, line) []).filter (·.1.contains file line column))).map (·.2)

def holds (file : FileId) (line column : Nat) (id : ScopeId) : Bool :=
  match x.scopes[id]? with
  | some s => s.span.any (·.contains file line column)
  | none => false

def scopeBelow (x : CrossReference) (file : FileId) (line column : Nat) : Nat → ScopeId → ScopeId
  | 0, id => id
  | depth + 1, id =>
    match x.scopes[id]?.bind (·.children.toList.find? (x.holds file line column)) with
    | some child => x.scopeBelow file line column depth child
    | none => id

/-- The innermost scope around a point. A chain of scopes is no longer than the list of all. -/
def scopeAt (file : FileId) (line column : Nat) : ScopeId :=
  x.scopeBelow file line column x.scopes.size 0

/-- The symbols of a scope and of the scopes around it, without names that were `seen` further in. -/
def visibleFrom (x : CrossReference) (seen : List String) : Nat → ScopeId → List (String × EntryId)
  | 0, _ => []
  | depth + 1, id =>
    match x.scopes[id]? with
    | none => []
    | some s =>
      let own := s.symbols.pairs.filter (!seen.contains ·.1)
      match s.parent with
      | none => own
      | some parent => own ++ x.visibleFrom (own.map (·.1) ++ seen) depth parent

/-- The symbols visible in a scope, those of inner scopes first, in the order of their names within a scope. -/
def visible (id : ScopeId) : List (String × EntryId) := x.visibleFrom [] (x.scopes.size + 1) id

end CrossReference

end CartLua
