import CartLua.Diagnostic
import CartLua.Include.Path
/-!
# Document stores

A store holds the documents that include lines can name. Everything above a stored document counts as a folder.
-/

namespace CartLua

structure Store where
  /-- Texts by path; a path occurs once. -/
  documents : List (String × String) := []
  /-- Documents that exist and cannot be read, with the reason. They come before the texts. -/
  unreadable : List (String × String) := []
  /-- Folders that hold none of the texts. -/
  folders : List String := []
  /-- Whether the texts lie in a larger tree, so that the paths `..`, `../..` and so on name folders. -/
  anchored : Bool := false
deriving Inhabited, Repr

namespace Store

variable (store : Store)

/-- Stores a text under the normal form of `path`, in place of an older one. -/
def insert (path contents : String) : Store :=
  let key := Path.normalize path
  { store with documents := (key, contents) :: store.documents.filter (·.1 != key) }

/-- Stores a document that cannot be read, and the folders above it. -/
def insertUnreadable (path reason : String) : Store :=
  let p := (Path.ofString path).normal
  let above := (List.range p.parts.length).tail.map fun n => ({ p with parts := p.parts.take n } : Path).toString
  { store with unreadable := (p.toString, reason) :: store.unreadable, folders := above ++ store.folders }

def isFolder (path : String) : Bool :=
  let above := (path.toList.reverse.dropWhile (· == '/')).reverse ++ ['/']
  store.folders.contains path || (store.anchored && Path.climbs path) ||
    store.documents.any fun document => above.isPrefixOf document.1.toList

def isFile (path : String) : Bool :=
  (store.unreadable.lookup path).isSome || (store.documents.lookup path).isSome

def longest : Nat := store.documents.foldr (fun document n => max document.2.length n) 0

def contains (path : String) : Bool := store.isFile path || store.isFolder path

def load? (path : String) : Option (Except String String) :=
  match store.unreadable.lookup path with
  | some reason => some (.error reason)
  | none => (store.documents.lookup path).map .ok

/-- The text that an include line brings in. The target is the name as it is written, `path` what it means. -/
def openInclude (path target : String) : Except Fault String :=
  if !store.contains path then .error (.includeNotFound target)
  else
    match store.load? path with
    | none => .error (.includeNotFile target)
    | some (.error reason) => .error (.includeUnreadable target reason)
    | some (.ok contents) => .ok contents

end Store

end CartLua
