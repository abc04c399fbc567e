import CartLua.Diagnostic
/-!
# Control flow

The labels, gotos and loops of one function body, kept while the body is read. A goto that finds no label yet waits for
one. It can still see the blocks it stands in, so its reach shrinks with every block that closes, and when it has left
the function its label is not visible. A goto forward over a local is allowed only if nothing follows the label in its
block, so it is kept with the block until a statement follows.
-/

namespace CartLua

/-- A goto that waits for its label. -/
structure PendingGoto where
  target : String
  span : Span
  /-- The number of enclosing blocks it can still see. -/
  reach : Nat
  /-- The number of locals of every block around it when it was read, outermost first. -/
  localCounts : List Nat
deriving DecidableEq, Inhabited, Repr

def PendingGoto.seen (g : PendingGoto) (depth : Nat) : Nat := (g.localCounts[depth - 1]?).getD 0

structure FlowScope where
  /-- The labels with the lines they stand on. -/
  labels : List (String × Nat) := []
  locals : List String := []
  /-- Gotos that jump over a local to a label of this block. -/
  deferred : List PendingGoto := []
  isLoop : Bool := false
deriving DecidableEq, Inhabited, Repr

structure Flow where
  /-- The open blocks, innermost first. -/
  scopes : List FlowScope := []
  pending : List PendingGoto := []
  allowVararg : Bool := false
deriving DecidableEq, Inhabited, Repr

namespace Flow

variable (f : Flow)

def depth : Nat := f.scopes.length

def inLoop : Bool := f.scopes.any (·.isLoop)

def pushScope (isLoop : Bool) : Flow := { f with scopes := { isLoop } :: f.scopes }

/-- What becomes of a waiting goto when the block at `depth` closes. -/
def leave (depth : Nat) (g : PendingGoto) : PendingGoto :=
  if g.reach < depth then g else { g with reach := g.reach - 1 }

def isLost (depth : Nat) (g : PendingGoto) : Bool := depth ≤ g.reach && g.reach - 1 == 0

/-- Closes the innermost block and reports the gotos that have left the function. -/
def popScope : List Diagnostic × Flow :=
  let lost := f.pending.filter (isLost f.depth)
  let kept := f.pending.filter (!isLost f.depth ·)
  (lost.map fun g => { fault := .labelNotVisible g.target, span := g.span },
    { f with scopes := f.scopes.tail, pending := kept.map (leave f.depth) })

/-- Drops the blocks above `depth` without reporting, after a statement was given up. -/
def truncate (depth : Nat) : Flow :=
  { f with
    scopes := f.scopes.drop (f.depth - depth)
    pending := f.pending.map fun g => { g with reach := min g.reach depth } }

def addLocal (name : String) : Flow :=
  match f.scopes with
  | [] => f
  | scope :: rest => { f with scopes := { scope with locals := scope.locals ++ [name] } :: rest }

/-- Reads a goto. It waits unless an open block has its label already. -/
def addGoto (target : String) (span : Span) : Flow :=
  if f.scopes.any (·.labels.any (·.1 == target)) then f
  else
    let goto : PendingGoto :=
      { target, span, reach := f.depth, localCounts := f.scopes.reverse.map (·.locals.length) }
    { f with pending := f.pending ++ [goto] }

/-- Reads a label of the innermost block. The gotos that wait for it and can see the block are settled, apart from those
that jump over a local. -/
def addLabel (name : String) (span : Span) : Option Diagnostic × Flow :=
  match f.scopes with
  | [] => (none, f)
  | scope :: rest =>
    match scope.labels.lookup name with
    | some line => (some { fault := .labelDefined name line, span }, f)
    | none =>
      let found := f.pending.filter fun g => f.depth ≤ g.reach && g.target == name
      let waiting := f.pending.filter fun g => !(f.depth ≤ g.reach && g.target == name)
      let jumping := found.filter fun g => g.seen f.depth < scope.locals.length
      let scope :=
        { scope with labels := (name, span.start.line) :: scope.labels, deferred := scope.deferred ++ jumping }
      (none, { f with scopes := scope :: rest, pending := waiting })

/-- Reports the gotos that jump over a local of the innermost block, because a statement follows their label. -/
def raiseDeferred : List Diagnostic × Flow :=
  match f.scopes with
  | [] => ([], f)
  | scope :: rest =>
    (scope.deferred.map fun g =>
        { fault := .jumpIntoLocal g.target ((scope.locals[g.seen f.depth]?).getD "?"), span := g.span },
      { f with scopes := { scope with deferred := [] } :: rest })

end Flow

end CartLua
