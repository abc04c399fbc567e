/-!
# Message templates

Messages are written as templates with the places `%1` to `%9`.
-/

namespace CartLua.Template

/-- The characters of a filled template. Each place is replaced by its argument, which is not looked at again; a place
without an argument stays as it is written. -/
def fillChars (args : List String) : List Char → List Char
  | [] => []
  | '%' :: d :: rest =>
    if '1' ≤ d ∧ d ≤ '9' then
      match args[d.toNat - '1'.toNat]? with
      | some arg => arg.toList ++ fillChars args rest
      | none => '%' :: d :: fillChars args rest
    else '%' :: fillChars args (d :: rest)
  | c :: rest => c :: fillChars args rest

def fill (template : String) (args : List String) : String :=
  String.ofList (fillChars args template.toList)

end CartLua.Template
