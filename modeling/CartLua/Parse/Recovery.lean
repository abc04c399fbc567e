import CartLua.Parse.Basic
/-!
# Recovery

A fault costs one statement. The block records it, puts the stacks of the session back to where the statement began and
goes on at the next line.
-/

namespace CartLua.Parse

def checkpoint : Parse Checkpoint := look (·.checkpoint)

/-- Goes back to a checkpoint, apart from the tokens. -/
def restore (c : Checkpoint) : Parse Unit := do
  act (fun _ s => s.restoreStacks c) fun _ s => .restore s c
  setNewlines c.newlines

/-- One round of skipping a line: passes a token, or finds that the line or the document ends. Gives `true` there, and
`false` at the end of the program and at a token that closes a block unless nothing was skipped. -/
def skipLineStep (file : FileId) (consumed : Bool) : Parse (Option Bool) := do
  let t ← token
  if t.isNewline || t.span.file != file then return some true
  else if t.isEof || (consumed && t.closesBlock) then return some false
  else
    skipToken
    return none

def skipLineRounds (file : FileId) : Bool → Nat → Parse Bool
  | _, 0 => exhausted
  | consumed, rounds + 1 => do
    match ← skipLineStep file consumed with
    | some goesOn => return goesOn
    | none => skipLineRounds file true rounds

def skipLine (file : FileId) : Parse Bool := do skipLineRounds file false (← settings).rounds

/-- Moves to where the next statement can start. Gives `false` if the block ends here. -/
def recover (c : Checkpoint) : Parse Bool := do
  let t ← token
  let passed := (← previous).span.stop
  if t.closesBlock then return false
  else if t.span.start != c.start && (passed.line < t.span.start.line || passed.file != t.span.file) then return true
  else
    let file ← look (·.window.file)
    let outer ← newlines
    setNewlines true
    let goesOn ← skipLine file
    if (← look (·.window.file)) == file then
      setNewlines outer
      return goesOn
    else return goesOn

def blockStep (statement : Parse (Option Stmt)) : Parse (List Stmt × Bool) := do
  let t ← token
  if t.closesBlock || t.isNewline then return ([], false)
  else
    let c ← checkpoint
    match ← attempt statement with
    | .ok none => return ([], true)
    | .ok (some s@(.ret ..)) => return ([s], false)
    | .ok (some s) => return ([s], true)
    | .error d =>
      report [d]
      restore c
      return ([], ← recover c)

/-- Reads statements up to the end of a block. A return statement is the last one. -/
def block (statement : Parse (Option Stmt)) : Parse Block := collect (blockStep statement)

end CartLua.Parse
