import CartLua.Json.Tree
/-!
# Readable trees

The JSON form of a chunk in which every span is a short text. The spans are found in the full form by their shape: objects
of two fields, a start and an end, that hold positions.
-/

namespace CartLua.Readable

def nat? : Json → Option Nat
  | .nat n => some n
  | _ => none

def position? : Json → Option (Nat × Nat × FileId)
  | .object fields => do
    let line ← (← fields.lookup "line") |> nat?
    let column ← (← fields.lookup "column") |> nat?
    let file ← (← fields.lookup "file") |> nat?
    return (line, column, file)
  | _ => none

/-- The short text of a span with the path of its document before it, unless that is the root. -/
def label (files : List String) (file : FileId) (brief : String) : String :=
  if file = 0 then brief else (files[file]?).getD "?" ++ ":" ++ brief

def spanText? (files : List String) (fields : List (String × Json)) : Option String := do
  guard (fields.length = 2)
  let (line, column, file) ← (← fields.lookup "start") |> position?
  let (endLine, endColumn, _) ← (← fields.lookup "end") |> position?
  return label files file s!"{line}:{column}-{endLine}:{endColumn}"

mutual

def collapse (files : List String) : Json → Json
  | .array items => .array (collapseItems files items)
  | .object fields =>
    match spanText? files fields with
    | some text => .string text
    | none => .object (collapseFields files fields)
  | other => other

def collapseItems (files : List String) : List Json → List Json
  | [] => []
  | item :: rest => collapse files item :: collapseItems files rest

def collapseFields (files : List String) : List (String × Json) → List (String × Json)
  | [] => []
  | (name, value) :: rest => (name, collapse files value) :: collapseFields files rest

end

def chunk (c : Chunk) : Json := (collapse c.files (JsonStyle.full.chunk c)).sorted

end CartLua.Readable
