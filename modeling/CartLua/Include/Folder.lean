import CartLua.Include.Store
/-!
# Reading from folders

A path that is given on a command line is followed part by part: every part but the last has to name a folder that is
there, also where a `..` behind it leads out of the folder again.
-/

namespace CartLua

inductive ReadFault where
  | missing
  | denied
  /-- A part of the path is used as a folder and is none. -/
  | notFolder
  | isFolder
  /-- The contents are no UTF-8. -/
  | notText
  | other (reason : String)
deriving DecidableEq, Inhabited, Repr

def ReadFault.message : ReadFault → String
  | .missing => "No such file or directory (os error 2)"
  | .denied => "Permission denied (os error 13)"
  | .notFolder => "Not a directory (os error 20)"
  | .isFolder => "Is a directory (os error 21)"
  | .notText => "stream did not contain valid UTF-8"
  | .other reason => reason

namespace Store

/-- Whether the path leads to the folder the store is used from, or to one above it. -/
def leadsOut (p : Path) : Bool := p.parts.all (· == Path.parent)

/-- Follows the stretches of a path from a folder on, which is given by its parts, the last one first. -/
def follow (store : Store) (absolute : Bool) (here : List (List Char)) :
    List (List Char) → Except ReadFault (List (List Char))
  | [] => .ok here
  | part :: rest =>
    let there := if Path.counts part then Path.fold absolute here part else here
    let p : Path := ⟨absolute, there.reverse⟩
    if rest.isEmpty || leadsOut p || store.isFolder p.toString then store.follow absolute there rest
    else if store.isFile p.toString then .error .notFolder
    else .error .missing

def readPath (store : Store) (text : String) : Except ReadFault String := do
  let absolute := text.toList.head? == some '/'
  let p : Path := ⟨absolute, (← store.follow absolute [] (splitOn '/' text.toList)).reverse⟩
  match store.load? p.toString with
  | some (.ok contents) => .ok contents
  | some (.error reason) => .error (.other reason)
  | none => .error (if leadsOut p || store.isFolder p.toString then .isFolder else .missing)

end Store

end CartLua
