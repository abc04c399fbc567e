import CartLua.Tree.Name
/-!
# Mentions

Every place of a tree where a variable or a path is named: the names that declare locals, the parts of chains, and the
keys of tables that are bound to a name. The scoping of the language is said here in terms of the tree alone. A name
means the latest of the declarations in sight, and these are a list that grows from statement to statement of a block.
-/

namespace CartLua

/-- A place where a variable or a path is named. -/
inductive Mention where
  /-- A name that declares a local, a local function, a parameter or a loop variable. -/
  | declaration (id : Identifier)
  /-- A name in use, with the nearest declaration of it in sight. -/
  | reference (id : Identifier) (nearest : Option Identifier)
  /-- A member of a chain, with the span from the start of the chain to its end. -/
  | part (span : Span)
  /-- The key of a field of a table that is bound to a name. -/
  | fieldKey (span : Span)
deriving DecidableEq, Repr

def Mention.span : Mention → Span
  | .declaration id | .reference id _ => id.span
  | .part span | .fieldKey span => span

namespace Mention

/-- The span of a name that declares a local. -/
def declaredSpan? : Mention → Option Span
  | .declaration id => some id.span
  | _ => none

/-- The span from the start of a chain to the end of a part of it, which may be the whole chain or just its name. -/
def partSpan? : Mention → Option Span
  | .reference id _ => some id.span
  | .part span => some span
  | _ => none

def keySpan? : Mention → Option Span
  | .fieldKey span => some span
  | _ => none

end Mention

/-- The latest declaration of a name among the locals in sight, which are listed latest first. -/
def nearest? (sight : List Identifier) (name : String) : Option Identifier := sight.find? (·.name == name)

def parameterNames (ps : List Parameter) : List Identifier :=
  ps.filterMap fun
    | .name id => some id
    | .vararg _ => none

def localName? (name : Expr) (isLocal : Bool) : Option Identifier := if isLocal then name.asName? else none

/-- What a statement declares for the statements behind it, latest first. -/
def Stmt.declared : Stmt → List Identifier
  | .declare names _ _ => names.reverse
  | .function name isLocal _ => (localName? name isLocal).toList
  | _ => []

def sightBehind (sight : List Identifier) (body : Block) : List Identifier :=
  body.foldl (fun sight s => s.declared ++ sight) sight

namespace Mention

mutual

/-- The mentions in an expression. What `bound` says of the expression counts only if it is a table. -/
def expression (sight : List Identifier) (bound : Bool) : Expr → List Mention
  | .name id => [.reference id (nearest? sight id.name)]
  | .string .. | .number .. | .boolean .. | .nil _ | .vararg _ => []
  | .binary _ left right _ => expression sight false left ++ expression sight false right
  | .logical _ left right _ => expression sight false left ++ expression sight false right
  | .unary _ argument _ => expression sight false argument
  | .member base _ _ span => expression sight false base ++ if base.segments?.isSome then [.part span] else []
  | .index base key _ => expression sight false base ++ expression sight false key
  | .call base arguments _ => expression sight false base ++ expressions sight arguments
  | .tableCall base argument _ => expression sight false base ++ table sight false argument
  | .stringCall base argument _ => expression sight false base ++ expression sight false argument
  | .table t => table sight bound t
  | .function f => functionBody sight f

def expressions (sight : List Identifier) : List Expr → List Mention
  | [] => []
  | e :: rest => expression sight false e ++ expressions sight rest

def optionalExpression (sight : List Identifier) : Option Expr → List Mention
  | none => []
  | some e => expression sight false e

/-- The mentions in values. The list tells which of them are bound to a name, from the first on. -/
def values (sight : List Identifier) : List Bool → List Expr → List Mention
  | _, [] => []
  | [], e :: rest => expression sight false e ++ values sight [] rest
  | bound :: others, e :: rest => expression sight bound e ++ values sight others rest

def table (sight : List Identifier) (bound : Bool) : Table → List Mention
  | ⟨fs, _⟩ => fields sight bound fs

def fields (sight : List Identifier) (bound : Bool) : List Field → List Mention
  | [] => []
  | f :: rest => field sight bound f ++ fields sight bound rest

/-- The mentions in a field. Where the table is bound, the key of a named field counts, and the value is bound to the
path that the key makes. -/
def field (sight : List Identifier) (bound : Bool) : Field → List Mention
  | .keyed key value _ => (if bound && key.stringKey?.isSome then [.fieldKey key.span] else []) ++ expression sight false key ++
    expression sight (bound && key.stringKey?.isSome) value
  | .named key value _ => (if bound then [.fieldKey key.span] else []) ++ expression sight bound value
  | .positional value _ => expression sight false value

def functionBody (sight : List Identifier) : FunctionBody → List Mention
  | ⟨ps, body, _⟩ => (parameterNames ps).map .declaration ++ statements ((parameterNames ps).reverse ++ sight) body

def statements (sight : List Identifier) : List Stmt → List Mention
  | [] => []
  | s :: rest => statement sight s ++ statements (s.declared ++ sight) rest

def clauses (sight : List Identifier) : List Clause → List Mention
  | [] => []
  | c :: rest => clause sight c ++ clauses sight rest

def clause (sight : List Identifier) : Clause → List Mention
  | .ifThen condition body _ => expression sight false condition ++ statements sight body
  | .elseIf condition body _ => expression sight false condition ++ statements sight body
  | .otherwise body _ => statements sight body

/-- The mentions in a statement. A value is bound to the target or name at its place, if that is a chain. -/
def statement (sight : List Identifier) : Stmt → List Mention
  | .assignment targets _ vs _ =>
    expressions sight targets ++ values sight (targets.map (·.segments?.isSome)) vs
  | .declare names vs _ => values sight (names.map fun _ => true) vs ++ names.map .declaration
  | .call e _ => expression sight false e
  | .block body _ => statements sight body
  | .whileLoop condition body _ => expression sight false condition ++ statements sight body
  | .repeatLoop body condition _ => statements sight body ++ expression (sightBehind sight body) false condition
  | .branch cs _ _ => clauses sight cs
  | .forNumeric counter first last step body _ => expression sight false first ++ expression sight false last ++
    optionalExpression sight step ++ .declaration counter :: statements (counter :: sight) body
  | .forGeneric names iterators body _ => expressions sight iterators ++ names.map .declaration ++
    statements (names.reverse ++ sight) body
  | .function name isLocal f =>
    (match localName? name isLocal with
      | some id => [.declaration id]
      | none => expression sight false name) ++ functionBody ((localName? name isLocal).toList ++ sight) f
  | .ret values _ => expressions sight values
  | .breakLoop _ | .goto .. | .label .. | .inclusion .. => []

end

theorem statement_call (sight : List Identifier) (e : Expr) (span : Span) :
    statement sight (.call e span) = expression sight false e := by
  rw [statement]

end Mention

end CartLua
