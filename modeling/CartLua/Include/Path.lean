import CartLua.Text.Split
/-!
# Paths

Names of documents. A path is a list of parts between slashes, where empty parts and single dots do not count. Its normal
form folds every `..` into the part before it.
-/

namespace CartLua

structure Path where
  absolute : Bool
  parts : List (List Char)
deriving DecidableEq, Inhabited, Repr

namespace Path

def parent : List Char := ['.', '.']

/-- Whether a stretch between slashes counts as a part. -/
def counts (part : List Char) : Bool := part != [] && part != ['.']

def ofString (text : String) : Path :=
  { absolute := text.toList.head? == some '/', parts := (splitOn '/' text.toList).filter counts }

/-- Adds a part behind folded parts, which are given last one first. Nothing lies above the root. -/
def fold (absolute : Bool) (folded : List (List Char)) (part : List Char) : List (List Char) :=
  if part = parent then
    match folded with
    | last :: rest => if last = parent then part :: folded else rest
    | [] => if absolute then [] else [part]
  else part :: folded

def normal (p : Path) : Path := { p with parts := (p.parts.foldl (fold p.absolute) []).reverse }

def join : List (List Char) → List Char
  | [] => []
  | [part] => part
  | part :: rest => part ++ '/' :: join rest

def toString (p : Path) : String := String.ofList (if p.absolute then '/' :: join p.parts else join p.parts)

/-- The folder of a document. A path without parts has none, and stands for the current folder then. -/
def folder (p : Path) : Path := if p.parts.isEmpty then ⟨false, []⟩ else { p with parts := p.parts.dropLast }

/-- What `target` means in a document whose folder is `base`. -/
def append (base target : Path) : Path := if target.absolute then target else { base with parts := base.parts ++ target.parts }

def climbs (text : String) : Bool :=
  let p := ofString text
  !p.absolute && !p.parts.isEmpty && p.parts.all (· == parent)

def normalize (text : String) : String := (ofString text).normal.toString

def resolve (including target : String) : String :=
  ((ofString including).folder.append (ofString target)).normal.toString

end Path

end CartLua
