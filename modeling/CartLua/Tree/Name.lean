import CartLua.Tree.Basic
/-!
# Names in trees

A chain is an expression made of a name and members only. A field of a table has a name if it is written as one or its key
is a string.
-/

namespace CartLua

/-- The parts of a chain, each with the span from the start of the chain to its end. -/
def Expr.segments? : Expr → Option (List (String × Span))
  | .name id => some [(id.name, id.span)]
  | .member base _ key span => base.segments?.map (· ++ [(key.name, span)])
  | _ => none

/-- The inner text of a literal in quotes that holds no escape. -/
def innerText? (raw : List Char) : Option (List Char) :=
  match raw with
  | quote :: rest =>
    if (quote = '"' ∨ quote = '\'') ∧ rest.getLast? = some quote ∧ !rest.dropLast.contains '\\' then some rest.dropLast
    else none
  | [] => none

/-- The text of a string expression. Where strings are not decoded the literal itself tells it, unless it holds an
escape. -/
def Expr.stringKey? : Expr → Option String
  | .string (some value) _ _ => some value
  | .string none raw _ => (innerText? raw.toList).map String.ofList
  | _ => none

def Field.name? : Field → Option (String × Span)
  | .named key _ _ => some (key.name, key.span)
  | .keyed key _ _ => key.stringKey?.map (·, key.span)
  | .positional .. => none

def rootName (name : String) : String := String.ofList (name.toList.takeWhile (· != '.'))

def receiver? (name : String) : Option String :=
  let tail := name.toList.reverse.dropWhile (· != '.')
  match tail with
  | [] => none
  | _ :: before => some (String.ofList before.reverse)

end CartLua
