import CartLua.Tree.Operator
/-!
# Syntax trees

Statements and expressions. Every node carries the span of text it was read from. Parentheses leave no node of their own.
-/

namespace CartLua

structure Identifier where
  name : String
  isLocal : Bool := false
  span : Span
deriving DecidableEq, Inhabited, Repr

inductive Parameter where
  | name (id : Identifier)
  | vararg (span : Span)
deriving DecidableEq, Inhabited, Repr

def Parameter.display : Parameter → String
  | .name id => id.name
  | .vararg _ => "..."

mutual

inductive Expr where
  | name (id : Identifier)
  /-- The decoded value is absent when strings are not decoded. -/
  | string (value : Option String) (raw : String) (span : Span)
  | number (value : Float) (raw : String) (span : Span)
  | boolean (value : Bool) (span : Span)
  | nil (span : Span)
  | vararg (span : Span)
  | binary (op : BinaryOp) (left right : Expr) (span : Span)
  | logical (op : LogicalOp) (left right : Expr) (span : Span)
  | unary (op : UnaryOp) (argument : Expr) (span : Span)
  | member (base : Expr) (indexer : Indexer) (key : Identifier) (span : Span)
  | index (base key : Expr) (span : Span)
  | call (base : Expr) (arguments : List Expr) (span : Span)
  /-- A call whose only argument is a table written behind the function. -/
  | tableCall (base : Expr) (argument : Table) (span : Span)
  /-- A call whose only argument is a string written behind the function. -/
  | stringCall (base argument : Expr) (span : Span)
  | table (t : Table)
  | function (f : FunctionBody)

inductive Field where
  /-- A field `[key] = value`. -/
  | keyed (key value : Expr) (span : Span)
  /-- A field `key = value`. -/
  | named (key : Identifier) (value : Expr) (span : Span)
  /-- A field `value`. -/
  | positional (value : Expr) (span : Span)

structure Table where
  fields : List Field
  span : Span

/-- The parameters and statements of a function. The span covers the whole function, from its keyword on. -/
structure FunctionBody where
  parameters : List Parameter
  body : List Stmt
  span : Span

inductive Clause where
  | ifThen (condition : Expr) (body : List Stmt) (span : Span)
  | elseIf (condition : Expr) (body : List Stmt) (span : Span)
  | otherwise (body : List Stmt) (span : Span)

inductive Stmt where
  | assignment (targets : List Expr) (op : AssignOp) (values : List Expr) (span : Span)
  | declare (names : List Identifier) (values : List Expr) (span : Span)
  | call (expression : Expr) (span : Span)
  | block (body : List Stmt) (span : Span)
  | whileLoop (condition : Expr) (body : List Stmt) (span : Span)
  | repeatLoop (body : List Stmt) (condition : Expr) (span : Span)
  | branch (clauses : List Clause) (oneLine : Bool) (span : Span)
  | forNumeric (counter : Identifier) (first last : Expr) (step : Option Expr) (body : List Stmt) (span : Span)
  | forGeneric (names : List Identifier) (iterators : List Expr) (body : List Stmt) (span : Span)
  | function (name : Expr) (isLocal : Bool) (f : FunctionBody)
  | ret (values : List Expr) (span : Span)
  | breakLoop (span : Span)
  | goto (label : Identifier) (span : Span)
  | label (label : Identifier) (span : Span)
  | inclusion (target : String) (span : Span)

end

abbrev Block := List Stmt

instance : Inhabited Expr := ⟨.nil default⟩
instance : Inhabited Stmt := ⟨.breakLoop default⟩

namespace Expr

def span : Expr → Span
  | .name id => id.span
  | .string _ _ span | .number _ _ span | .boolean _ span | .nil span | .vararg span => span
  | .binary _ _ _ span | .logical _ _ _ span | .unary _ _ span => span
  | .member _ _ _ span | .index _ _ span | .call _ _ span | .tableCall _ _ span | .stringCall _ _ span => span
  | .table t => t.span
  | .function f => f.span

def dyadic (op : DyadicOp) (left right : Expr) (span : Span) : Expr :=
  match op with
  | .binary op => .binary op left right span
  | .logical op => .logical op left right span

def asName? : Expr → Option Identifier
  | .name id => some id
  | _ => none

/-- The name of an expression made of names and members only, as it is written. -/
def dottedName? : Expr → Option String
  | .name id => some id.name
  | .member base indexer key _ => base.dottedName?.map fun name => (name.push indexer.char) ++ key.name
  | _ => none

def root? : Expr → Option Identifier
  | .name id => some id
  | .member base _ _ _ => base.root?
  | _ => none

def isMethod : Expr → Bool
  | .member _ .colon _ _ => true
  | _ => false

end Expr

namespace Field

def value : Field → Expr
  | .keyed _ value _ | .named _ value _ | .positional value _ => value

def span : Field → Span
  | .keyed _ _ span | .named _ _ span | .positional _ span => span

end Field

namespace Clause

def condition? : Clause → Option Expr
  | .ifThen condition .. | .elseIf condition .. => some condition
  | .otherwise .. => none

def body : Clause → Block
  | .ifThen _ body _ | .elseIf _ body _ | .otherwise body _ => body

def span : Clause → Span
  | .ifThen _ _ span | .elseIf _ _ span | .otherwise _ span => span

end Clause

def FunctionBody.signature (f : FunctionBody) : String :=
  "(" ++ ",".intercalate (f.parameters.map Parameter.display) ++ ")"

def Stmt.span : Stmt → Span
  | .assignment _ _ _ span | .declare _ _ span | .call _ span | .block _ span | .whileLoop _ _ span => span
  | .repeatLoop _ _ span | .branch _ _ span | .forNumeric _ _ _ _ _ span | .forGeneric _ _ _ span => span
  | .function _ _ f => f.span
  | .ret _ span | .breakLoop span | .goto _ span | .label _ span | .inclusion _ span => span

end CartLua
