import CartLua.Parse.Recovery
/-!
# Grammar of expressions

Every parser here is given the parsers of the parts one level down, as a `Grammar`, and the number of syntax levels that
are left. A level is spent on every nested statement or expression, on every name or parenthesis that starts a chain, on
every suffix of a chain and on every operator of a chain but the first. An expression gives back what it has spent when it
is over, also when it becomes the part of a larger one, so a tree may be higher than the number of levels there are.
-/

namespace CartLua

open Parse

/-- Parsers of the parts of a construct, by the number of levels that are left. -/
structure Grammar where
  /-- An expression of operators that bind more tightly than a precedence, if one starts here. -/
  expression : (levels precedence : Nat) → Parse (Option Expr)
  /-- A statement; nothing stands for an empty one. -/
  statement : (levels : Nat) → Parse (Option Stmt)

namespace Grammar

variable (g : Grammar) (levels : Nat)

def block : Parse Block := Parse.block (g.statement levels)

def expected (p : Parse (Option Expr)) : Parse Expr := do
  match ← p with
  | some e => return e
  | none => missing "<expression>"

def value : Parse Expr := expected (g.expression levels 0)

def valueBehindComma? : Parse (Option Expr) := do
  if ← consume Symbol.comma then return some (← g.value levels) else return none

def moreValues : Parse (List Expr) := many (g.valueBehindComma? levels)

def values : Parse (List Expr) := do
  let first ← g.value levels
  return first :: (← g.moreValues levels)

def optionalValues : Parse (List Expr) := do
  match ← g.expression levels 0 with
  | none => return []
  | some first => return first :: (← g.moreValues levels)

/-! ### Tables -/

/-- A field of a table, if one starts here. Its marker is open already. -/
def field? : Parse (Option Field) := do
  if ← consume Symbol.leftBracket then
    let key ← g.value levels
    expect Symbol.rightBracket
    expect Symbol.assign
    let value ← g.value levels
    return some (.keyed key value (← finish))
  else if (← token).isIdentifier && (← lookahead).isSymbol .assign then
    let key ← identifier
    advance
    let value ← g.value levels
    return some (.named key value (← finish))
  else
    match ← g.expression levels 0 with
    | some value => return some (.positional value (← finish))
    | none => return none

/-- One field of a table, if one starts here. A field ends with a comma or a semicolon, which the last one may do
without. -/
def fieldStep : Parse (List Field × Bool) := do
  mark
  match ← g.field? levels with
  | none =>
    unmark
    return ([], false)
  | some field =>
    if ← consume Symbol.comma then return ([field], true)
    else return ([field], ← consume Symbol.semicolon)

def table : Parse Table := do
  mark
  let outer ← openBracket .leftBrace
  let fields ← collect (g.fieldStep levels)
  closeBracket Symbol.rightBrace outer
  return { fields, span := ← finish }

/-! ### Functions -/

def parameterStep : Parse (List Parameter × Bool) := do
  let t ← token
  if t.isIdentifier then
    let id ← declareInFlow (← identifier)
    if ← consume Symbol.comma then return ([.name id], true)
    else
      expect Symbol.rightParen
      return ([.name id], false)
  else if t.kind matches .vararg then
    allowVararg
    advance
    expect Symbol.rightParen
    return ([.vararg t.span], false)
  else missing "<name>"

def parameters : Parse (List Parameter) := do
  expect Symbol.leftParen
  if ← consume Symbol.rightParen then return [] else collect parameterStep

def declareSelf (isMethod : Bool) : Parse Unit := if isMethod then addName "self" else pure ()

/-- The parameters and the body of a function whose marker is open already. Line ends are not shown inside. -/
def functionBody (isMethod : Bool) : Parse FunctionBody := do
  let outer ← newlines
  setNewlines false
  enterFunction
  openBlock false
  openScope
  declareSelf isMethod
  let parameters ← parameters
  let body ← g.block levels
  closeBracket Keyword.endKw outer
  closeScope
  closeBlock
  leaveFunction
  return { parameters, body, span := ← finish }

/-! ### Operands -/

def literal? (t : Token) : Option Expr :=
  match t.kind with
  | .string value => some (.string value t.text t.span)
  | .number value => some (.number value t.text t.span)
  | .boolean value => some (.boolean value t.span)
  | .nil => some (.nil t.span)
  | .vararg => some (.vararg t.span)
  | _ => none

def checkVararg (t : Token) : Parse Unit := do
  if (t.kind matches .vararg) && !(← look (·.flow.allowVararg)) then
    report [{ fault := .varargNotAllowed t.text, span := t.span }]
  else return ()

def primary? : Parse (Option Expr) := do
  let t ← token
  match literal? t with
  | some e =>
    checkVararg t
    advance
    return some e
  | none =>
    if t.isKeyword .functionKw then
      mark
      advance
      return some (.function (← g.functionBody levels false))
    else if t.isSymbol .leftBrace then return some (.table (← g.table levels))
    else return none

def startsSuffix (t : Token) : Bool :=
  match t.kind with
  | .string _ => true
  | .symbol .leftBracket | .symbol .dot | .symbol .colon | .symbol .leftParen | .symbol .leftBrace => true
  | _ => false

/-- The call of `base` with the arguments that follow. A chain that starts at `start` has all its spans from there. -/
def call (start : Position) (base : Expr) : Parse Expr := do
  let t ← token
  if t.isSymbol .leftParen then
    let outer ← openBracket .leftParen
    let arguments ← g.optionalValues levels
    closeBracket Symbol.rightParen outer
    return .call base arguments (← spanFrom start)
  else if t.isSymbol .leftBrace then
    let argument ← g.table levels
    return .tableCall base argument (← spanFrom start)
  else
    match t.kind with
    | .string value =>
      advance
      return .stringCall base (.string value t.text t.span) (← spanFrom start)
    | _ => missing "function arguments"

def suffix (start : Position) (base : Expr) : Parse Expr := do
  if (← token).isSymbol .leftBracket then
    let outer ← openBracket .leftBracket
    let key ← g.value levels
    closeBracket Symbol.rightBracket outer
    return .index base key (← spanFrom start)
  else if ← consume Symbol.dot then
    let key ← identifier
    return .member base .dot key ⟨start, key.span.stop⟩
  else if ← consume Symbol.colon then
    let key ← identifier
    g.call levels start (.member base .colon key ⟨start, key.span.stop⟩)
  else g.call levels start base

def suffixes (g : Grammar) (start : Position) (base : Expr) : Nat → Parse Expr
  | 0 => do if startsSuffix (← token) then tooManyLevels else return base
  | levels + 1 => do
    if startsSuffix (← token) then g.suffixes start (← g.suffix levels start base) levels else return base

def parenthesized : Parse Expr := do
  let outer ← openBracket .leftParen
  let e ← g.value levels
  closeBracket Symbol.rightParen outer
  return e

def chain? (g : Grammar) : Nat → Parse (Option Expr)
  | 0 => tooManyLevels
  | levels + 1 => do
    let t ← token
    if t.isIdentifier then
      let id ← reference (← identifier)
      return some (← g.suffixes t.span.start (.name id) levels)
    else if t.isSymbol .leftParen then
      let e ← g.parenthesized levels
      return some (← g.suffixes t.span.start e levels)
    else return none

def operand? : Parse (Option Expr) := do
  let t ← token
  match UnaryOp.ofToken? t with
  | some op =>
    advance
    let argument ← expected (g.expression levels UnaryOp.operandPrecedence)
    return some (.unary op argument (← spanFrom t.span.start))
  | none =>
    match ← g.primary? levels with
    | some e => return some e
    | none => g.chain? levels

/-! ### Operators -/

def operatorAbove? (precedence : Nat) : Parse (Option DyadicOp) := do
  return (DyadicOp.ofToken? (← token)).filter (precedence < ·.precedence)

def extend (start : Position) (left : Expr) (op : DyadicOp) : Parse Expr := do
  advance
  let right ← expected (g.expression levels op.rightPrecedence)
  return .dyadic op left right (← spanFrom start)

/-- The operators behind the first one of a chain. Each makes the tree higher and so spends a level. -/
def moreOperators (g : Grammar) (precedence : Nat) (start : Position) (left : Expr) : Nat → Parse Expr
  | 0 => do
    match ← operatorAbove? precedence with
    | some _ => tooManyLevels
    | none => return left
  | levels + 1 => do
    match ← operatorAbove? precedence with
    | some op => g.moreOperators precedence start (← g.extend levels start left op) levels
    | none => return left

/-- Operands and the operators between them that bind more tightly than `precedence`, if an operand starts here. -/
def operators? (g : Grammar) (levels precedence : Nat) : Parse (Option Expr) :=
  match levels with
  | 0 => tooManyLevels
  | levels + 1 => do
    let start := (← token).span.start
    match ← g.operand? levels with
    | none => return none
    | some left =>
      match ← operatorAbove? precedence with
      | none => return some left
      | some op => return some (← g.moreOperators precedence start (← g.extend levels start left op) levels)

end Grammar

end CartLua
