import CartLua.Grammar.Expression
/-!
# Grammar of statements

Every parser here is given the parsers of the parts one level down, as a `Grammar`, and the number of syntax levels that
are left.
-/

namespace CartLua.Grammar

open Parse

variable (g : Grammar) (levels : Nat)

def scopedBlock (isLoop : Bool) : Parse Block := do
  openBlock isLoop
  openScope
  let body ← g.block levels
  closeScope
  closeBlock
  return body

/-! ### Include lines -/

def includeLine : Parse Stmt := do
  let t ← token
  passInclude
  return .inclusion t.text t.span

/-! ### Jumps -/

def labelStatement : Parse Stmt := do
  mark
  advance
  let id ← identifier
  expect Symbol.doubleColon
  addLabel id.name id.span
  return .label id (← finish)

def checkBreak (keyword : Span) : Parse Unit := do
  if ← look (·.flow.inLoop) then return ()
  else report [{ fault := .noLoopToBreak (← token).text, span := keyword }]

def breakStatement : Parse Stmt := do
  mark
  let keyword := (← token).span
  advance
  checkBreak keyword
  return .breakLoop (← finish)

def gotoStatement : Parse Stmt := do
  mark
  advance
  let id ← identifier
  addGoto id.name id.span
  return .goto id (← finish)

def returnStatement : Parse Stmt := do
  mark
  advance
  let values ← g.optionalValues levels
  let _ ← consume Symbol.semicolon
  return .ret values (← finish)

/-! ### Loops and blocks -/

def doStatement : Parse Stmt := do
  mark
  advance
  let body ← g.scopedBlock levels false
  expect Keyword.endKw
  return .block body (← finish)

def whileStatement : Parse Stmt := do
  mark
  advance
  let condition ← g.value levels
  expect Keyword.doKw
  let body ← g.scopedBlock levels true
  expect Keyword.endKw
  return .whileLoop condition body (← finish)

/-- A repeat loop. Its condition sees the locals of its body. -/
def repeatStatement : Parse Stmt := do
  mark
  advance
  openBlock true
  openScope
  let body ← g.block levels
  expect Keyword.untilKw
  let condition ← g.value levels
  closeScope
  closeBlock
  return .repeatLoop body condition (← finish)

/-- The body of a for loop up to its end, in a scope that is open already and holds the loop variables. -/
def forBody : Parse Block := do
  let body ← g.block levels
  expect Keyword.endKw
  closeScope
  closeBlock
  return body

def moreNames (name : Parse Identifier) : Parse (List Identifier) := many do
  if ← consume Symbol.comma then return some (← name) else return none

/-- A for loop. Its variables are visible in its body only. -/
def forStatement : Parse Stmt := do
  mark
  advance
  let id ← identifier
  openBlock true
  openScope
  if ← consume Symbol.assign then
    let first ← g.value levels
    expect Symbol.comma
    let last ← g.value levels
    let step ← g.valueBehindComma? levels
    expect Keyword.doKw
    let counter ← declareInFlow id
    let body ← g.forBody levels
    return .forNumeric counter first last step body (← finish)
  else
    let others ← moreNames identifier
    expect Keyword.inKw
    let iterators ← g.values levels
    expect Keyword.doKw
    let names ← (id :: others).mapM declareInFlow
    let body ← g.forBody levels
    return .forGeneric names iterators body (← finish)

/-! ### Branches -/

def elseIfClauses : Parse (List Clause) := many do
  if (← token).isKeyword .elseifKw then
    mark
    advance
    let condition ← g.value levels
    expect Keyword.thenKw
    let body ← g.scopedBlock levels false
    return some (.elseIf condition body (← finish))
  else return none

def elseClause (body : Parse Block) : Parse (List Clause) := do
  if (← token).isKeyword .elseKw then
    mark
    advance
    let body ← body
    return [.otherwise body (← finish)]
  else return []

/-- The body of the last clause on one line. If the line ends right behind the keyword a regular block follows. -/
def oneLineElse : Parse Block := do
  if (← token).isNewline then
    setNewlines false
    let body ← g.scopedBlock levels false
    expect Keyword.endKw
    return body
  else g.scopedBlock levels false

def oneLineIf (condition : Expr) : Parse Stmt := do
  let outer ← newlines
  setNewlines true
  let body ← g.scopedBlock levels false
  let first := Clause.ifThen condition body (← finish)
  let last ← elseClause (g.oneLineElse levels)
  setNewlines outer
  return .branch (first :: last) true (← finish)

def blockIf (condition : Expr) : Parse Stmt := do
  expect Keyword.thenKw
  let body ← g.scopedBlock levels false
  let first := Clause.ifThen condition body (← finish)
  let others ← g.elseIfClauses levels
  let last ← elseClause (g.scopedBlock levels false)
  expect Keyword.endKw
  return .branch (first :: others ++ last) false (← finish)

/-- An if statement. With its condition in parentheses it may go without `then`, and ends with its line. -/
def ifStatement : Parse Stmt := do
  mark
  advance
  markAgain
  let opened := (← token).isSymbol .leftParen
  let condition ← g.value levels
  if opened && (← previous).isSymbol .rightParen && !(← token).isKeyword .thenKw then g.oneLineIf levels condition
  else g.blockIf levels condition

/-! ### Declarations -/

/-- The name of a local variable. Control flow takes note of it at once. -/
def localName : Parse Identifier := do
  let id ← identifier
  addLocal id.name
  return id

def initialValues : Parse (List Expr) := do
  if ← consume Symbol.assign then g.values levels else return []

/-- Local variables. They become visible behind their values. -/
def localVariables : Parse Stmt := do
  let first ← localName
  let others ← moreNames localName
  let values ← g.initialValues levels
  let names ← (first :: others).mapM declare
  return .declare names values (← finish)

def localStatement : Parse Stmt := do
  mark
  advance
  if (← token).isIdentifier then g.localVariables levels
  else if ← consume Keyword.functionKw then
    let id ← declareInFlow (← identifier)
    return .function (.name id) true (← g.functionBody levels false)
  else missing "<name>"

def functionKey (name : Expr) (indexer : Indexer) : Parse Expr := do
  let key ← identifier
  return .member name indexer key ⟨name.span.start, key.span.stop⟩

def functionKeyRounds (name : Expr) : Nat → Parse Expr
  | 0 => exhausted
  | rounds + 1 => do
    if ← consume Symbol.dot then functionKeyRounds (← functionKey name .dot) rounds else return name

def functionKeys (name : Expr) : Parse Expr := do functionKeyRounds name (← settings).rounds

/-- The name of a function: names between points, and at last one behind a colon if it is a method. -/
def functionName : Parse Expr := do
  let id ← reference (← identifier)
  let name ← functionKeys (.name id)
  if ← consume Symbol.colon then functionKey name .colon else return name

def functionStatement : Parse Stmt := do
  mark
  advance
  let name ← functionName
  return .function name false (← g.functionBody levels name.isMethod)

/-! ### Assignments and calls -/

/-- The shorthand for printing, which calls the global `print`. -/
def printStatement : Parse Stmt := do
  mark
  let question := (← token).span
  advance
  let callee ← reference { name := "print", span := question }
  let arguments ← g.optionalValues levels
  let span ← finish
  return .call (.call (.name callee) arguments span) span

inductive Ending where
  /-- With a name, a member or an index. -/
  | assignable
  | parenthesized
  | call
deriving DecidableEq, Inhabited, Repr

def Ending.ofSuffix? (t : Token) : Option Ending :=
  match t.kind with
  | .string _ => some .call
  | .symbol .dot | .symbol .leftBracket => some .assignable
  | .symbol .colon | .symbol .leftParen | .symbol .leftBrace => some .call
  | _ => none

/-- The left side of a statement: its expressions, how the last one ends, and the levels that are left behind it. -/
structure LeftSide where
  targets : List Expr
  ending : Ending
  levels : Nat

def leftSuffixes (g : Grammar) (start : Position) (base : Expr) (ending : Ending) : Nat → Parse LeftSide
  | 0 => do if (Ending.ofSuffix? (← token)).isSome then tooManyLevels else return ⟨[base], ending, 0⟩
  | levels + 1 => do
    match Ending.ofSuffix? (← token) with
    | some ending => g.leftSuffixes start (← g.suffix levels start base) ending levels
    | none => return ⟨[base], ending, levels + 1⟩

def leftExpression : Parse LeftSide := do
  let t ← token
  if t.isIdentifier then
    let id ← reference (← identifier)
    g.leftSuffixes t.span.start (.name id) .assignable levels
  else if t.isSymbol .leftParen then
    let e ← g.parenthesized levels
    g.leftSuffixes t.span.start e .parenthesized levels
  else unexpected

def leftRounds (g : Grammar) (levels : Nat) : Nat → Parse LeftSide
  | 0 => exhausted
  | rounds + 1 => do
    let side ← g.leftExpression levels
    if !(← token).isSymbol .comma then return side
    else if side.ending ≠ .assignable then unexpected
    else
      advance
      let more ← g.leftRounds side.levels rounds
      return { more with targets := side.targets ++ more.targets }

/-- The expressions on the left side, with commas between them. The levels that suffixes spend stay spent up to the end
of the statement. -/
def leftSide : Parse LeftSide := do g.leftRounds levels (← settings).rounds

/-- The values of an assignment. A compound one has one value. -/
def assignedValues (op : AssignOp) : Parse (List Expr) := do
  if op.isCompound then return [← g.value levels] else g.values levels

def assignment (g : Grammar) (side : LeftSide) : Parse Stmt := do
  match AssignOp.ofToken? (← token) with
  | none => missingWord Symbol.assign.text
  | some op =>
    advance
    let values ← g.assignedValues side.levels op
    return .assignment side.targets op values (← finish)

def assignmentOrCall : Parse Stmt := do
  mark
  let side ← g.leftSide levels
  match side.ending, side.targets with
  | .call, [e] => return .call e (← finish)
  | .assignable, _ => g.assignment side
  | _, _ => unexpected

/-! ### All statements -/

/-- A statement that is neither an include line nor a label nor empty. -/
def properStatement : Parse Stmt := do
  match (← token).kind with
  | .keyword .localKw => g.localStatement levels
  | .keyword .ifKw => g.ifStatement levels
  | .keyword .returnKw => g.returnStatement levels
  | .keyword .functionKw => g.functionStatement levels
  | .keyword .whileKw => g.whileStatement levels
  | .keyword .forKw => g.forStatement levels
  | .keyword .repeatKw => g.repeatStatement levels
  | .keyword .breakKw => breakStatement
  | .keyword .doKw => g.doStatement levels
  | .keyword .gotoKw => gotoStatement
  | .symbol .question => g.printStatement levels
  | _ => g.assignmentOrCall levels

/-- A statement. A proper one behind a label makes jumps over a local to the label wrong. -/
def anyStatement : Parse (Option Stmt) :=
  match levels with
  | 0 => tooManyLevels
  | levels + 1 => do
    match (← token).kind with
    | .directive => some <$> includeLine
    | .symbol .doubleColon => some <$> labelStatement
    | .symbol .semicolon =>
      advance
      return none
    | _ =>
      raiseDeferred
      some <$> g.properStatement levels

end CartLua.Grammar
