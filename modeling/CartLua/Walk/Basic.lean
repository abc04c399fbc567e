import CartLua.Tree.Basic
/-!
# Walks

A walk lists what is met when a tree is visited from left to right: scopes that open and close, and nodes, each with the
chain of nodes and the chain of scopes around it. Analyses are folds over a walk.

Some orders are fixed. An assignment has its first target, its first value, its second target and so on; a value has the
target it is bound to above it. A declaration has its values before its names. A function has its name before its scope,
and in the scope its parameters before its body. A loop has what it runs over before its scope, and in the scope its
variables before its body; the condition of a repeat loop stands in the scope, behind the body.
-/

namespace CartLua

/-- A node above a visited node, or the visited node itself. -/
inductive Node where
  | statement (s : Stmt)
  | expression (e : Expr)
  | identifier (id : Identifier)
  | clause (c : Clause)
  | field (f : Field)
deriving Inhabited

/-- What a node is to the node above it. -/
structure Role where
  /-- It is written by an assignment. -/
  target : Bool := false
  /-- The node below it is the value that is bound to it. -/
  binding : Bool := false
  declaration : Bool := false
  parameter : Bool := false
  fieldValue : Bool := false
deriving DecidableEq, Inhabited, Repr

structure Ancestor where
  node : Node
  role : Role := {}
deriving Inhabited

inductive ScopeNode where
  | chunk (body : Block)
  | function (name : Option Expr) (f : FunctionBody)
  | block (s : Stmt)
  | clause (c : Clause)
  | table (t : Table)
deriving Inhabited

/-- The span of a scope. A chunk has none, since it reaches over several documents. -/
def ScopeNode.span? : ScopeNode → Option Span
  | .chunk _ => none
  | .function _ f => some f.span
  | .block s => some s.span
  | .clause c => some c.span
  | .table t => some t.span

structure Context where
  /-- The nodes around it, innermost first; the visited node is the first. -/
  nodes : List Ancestor := []
  scopes : List ScopeNode := []
deriving Inhabited

namespace Context

def push (ctx : Context) (node : Node) (role : Role := {}) : Context := { ctx with nodes := ⟨node, role⟩ :: ctx.nodes }

def enter (ctx : Context) (scope : ScopeNode) : Context := { ctx with scopes := scope :: ctx.scopes }

def node? (ctx : Context) : Option Node := ctx.nodes.head?.map (·.node)

def role (ctx : Context) : Role := (ctx.nodes.head?.map (·.role)).getD {}

def parent? (ctx : Context) : Option Ancestor := ctx.nodes.tail.head?

/-- What the visited expression is bound to: the field whose value it is, or the target or name above it. -/
def bindingTarget? (ctx : Context) : Option Node :=
  match ctx.parent? with
  | none => none
  | some parent =>
    match parent.node with
    | .field _ => if ctx.role.fieldValue then some parent.node else none
    | node => if parent.role.binding then some node else none

def definitionTarget? (ctx : Context) : Option Node :=
  match ctx.node? with
  | some (.expression (.function _)) | some (.expression (.table _)) => ctx.bindingTarget?
  | _ => none

end Context

inductive Event where
  /-- A scope opens. It is not yet among the open scopes. -/
  | enter (scope : ScopeNode) (ctx : Context)
  /-- A scope closes. It is no longer among the open scopes. -/
  | leave (scope : ScopeNode) (ctx : Context)
  | block (body : Block) (ctx : Context)
  | statement (s : Stmt) (ctx : Context)
  | expression (e : Expr) (ctx : Context)
  | function (name : Option Expr) (f : FunctionBody) (ctx : Context)
  | table (t : Table) (ctx : Context)
  | field (f : Field) (ctx : Context)
  | identifier (id : Identifier) (ctx : Context)
  | label (id : Identifier) (isDefinition : Bool) (ctx : Context)
deriving Inhabited

namespace Walk

def inScope (scope : ScopeNode) (ctx : Context) (contents : Context → List Event) : List Event :=
  .enter scope ctx :: contents (ctx.enter scope) ++ [.leave scope ctx]

/-- The visit of an expression before those of its parts, which are left out where `below` says so. -/
def atExpression (below : Expr → Bool) (ctx : Context) (role : Role) (e : Expr) (parts : Context → List Event) :
    List Event :=
  let ctx := ctx.push (.expression e) role
  .expression e ctx :: if below e then parts ctx else []

def atStatement (ctx : Context) (s : Stmt) (parts : Context → List Event) : List Event :=
  let ctx := ctx.push (.statement s)
  .statement s ctx :: parts ctx

def atField (ctx : Context) (f : Field) (parts : Context → List Event) : List Event :=
  let ctx := ctx.push (.field f)
  .field f ctx :: parts ctx

def name (role : Role) (ctx : Context) (id : Identifier) : List Event :=
  [.identifier id (ctx.push (.identifier id) role)]

def names (ctx : Context) (ids : List Identifier) : List Event := ids.flatMap (name { declaration := true } ctx)

def parameters (ctx : Context) (ps : List Parameter) : List Event :=
  ps.flatMap fun
    | .name id => name { declaration := true, parameter := true } ctx id
    | .vararg _ => []

/-- First of the one, first of the other, second of the one and so on. -/
def interleave : List (List Event) → List (List Event) → List Event
  | [], values => values.flatten
  | targets, [] => targets.flatten
  | target :: targets, value :: values => target ++ value ++ interleave targets values

variable (below : Expr → Bool)

mutual

def expression (ctx : Context) (role : Role) : Expr → List Event
  | e@(.name id) => atExpression below ctx role e fun ctx => [.identifier id ctx]
  | e@(.string ..) => atExpression below ctx role e fun _ => []
  | e@(.number ..) => atExpression below ctx role e fun _ => []
  | e@(.boolean ..) => atExpression below ctx role e fun _ => []
  | e@(.nil _) => atExpression below ctx role e fun _ => []
  | e@(.vararg _) => atExpression below ctx role e fun _ => []
  | e@(.binary _ left right _) => atExpression below ctx role e fun ctx =>
    expression ctx {} left ++ expression ctx {} right
  | e@(.logical _ left right _) => atExpression below ctx role e fun ctx =>
    expression ctx {} left ++ expression ctx {} right
  | e@(.unary _ argument _) => atExpression below ctx role e fun ctx => expression ctx {} argument
  | e@(.member base _ _ _) => atExpression below ctx role e fun ctx => expression ctx {} base
  | e@(.index base key _) => atExpression below ctx role e fun ctx =>
    expression ctx {} base ++ expression ctx {} key
  | e@(.call base arguments _) => atExpression below ctx role e fun ctx =>
    expression ctx {} base ++ expressions ctx arguments
  | e@(.tableCall base argument _) => atExpression below ctx role e fun ctx =>
    expression ctx {} base ++ table ctx argument
  | e@(.stringCall base argument _) => atExpression below ctx role e fun ctx =>
    expression ctx {} base ++ expression ctx {} argument
  | e@(.table t) => atExpression below ctx role e fun ctx => table ctx t
  | e@(.function f) => atExpression below ctx role e fun ctx => .function none f ctx :: functionScope ctx none f

def expressions (ctx : Context) : List Expr → List Event
  | [] => []
  | e :: rest => expression ctx {} e ++ expressions ctx rest

def optionalExpression (ctx : Context) : Option Expr → List Event
  | none => []
  | some e => expression ctx {} e

def targets (ctx : Context) : List Expr → List (List Event)
  | [] => []
  | e :: rest => expression ctx { target := true } e :: targets ctx rest

/-- The visits of values, each below the node it is bound to as long as there are such nodes. -/
def boundValues (ctx : Context) : List Ancestor → List Expr → List (List Event)
  | _, [] => []
  | [], e :: rest => expression ctx {} e :: boundValues ctx [] rest
  | bound :: others, e :: rest =>
    expression { ctx with nodes := bound :: ctx.nodes } {} e :: boundValues ctx others rest

def table (ctx : Context) : Table → List Event
  | t@⟨fs, _⟩ => .table t ctx :: inScope (.table t) ctx fun ctx => fields ctx fs

def fields (ctx : Context) : List Field → List Event
  | [] => []
  | f :: rest => field ctx f ++ fields ctx rest

def field (ctx : Context) : Field → List Event
  | f@(.keyed key value _) => atField ctx f fun ctx =>
    expression ctx {} key ++ expression ctx { fieldValue := true } value
  | f@(.named _ value _) => atField ctx f fun ctx => expression ctx { fieldValue := true } value
  | f@(.positional value _) => atField ctx f fun ctx => expression ctx { fieldValue := true } value

def functionScope (ctx : Context) (fname : Option Expr) : FunctionBody → List Event
  | f@⟨ps, body, _⟩ => inScope (.function fname f) ctx fun ctx =>
    parameters ctx ps ++ .block body ctx :: statements ctx body

def statements (ctx : Context) : List Stmt → List Event
  | [] => []
  | s :: rest => statement ctx s ++ statements ctx rest

def clauses (ctx : Context) : List Clause → List Event
  | [] => []
  | c :: rest => clause (ctx.push (.clause c)) c ++ clauses ctx rest

def clause (ctx : Context) : Clause → List Event
  | c@(.ifThen condition body _) => expression ctx {} condition ++
    inScope (.clause c) ctx fun ctx => .block body ctx :: statements ctx body
  | c@(.elseIf condition body _) => expression ctx {} condition ++
    inScope (.clause c) ctx fun ctx => .block body ctx :: statements ctx body
  | c@(.otherwise body _) => inScope (.clause c) ctx fun ctx => .block body ctx :: statements ctx body

def statement (ctx : Context) : Stmt → List Event
  | s@(.assignment ts _ values _) => atStatement ctx s fun ctx =>
    let bounds := ts.map fun t => ⟨.expression t, { target := true, binding := true }⟩
    interleave (targets ctx ts) (boundValues ctx bounds values)
  | s@(.declare ids values _) => atStatement ctx s fun ctx =>
    let bounds := ids.map fun id => ⟨.identifier id, { declaration := true, binding := true }⟩
    (boundValues ctx bounds values).flatten ++ names ctx ids
  | s@(.call e _) => atStatement ctx s fun ctx => expression ctx {} e
  | s@(.block body _) => atStatement ctx s fun ctx =>
    inScope (.block s) ctx fun ctx => .block body ctx :: statements ctx body
  | s@(.whileLoop condition body _) => atStatement ctx s fun ctx => expression ctx {} condition ++
    inScope (.block s) ctx fun ctx => .block body ctx :: statements ctx body
  | s@(.repeatLoop body condition _) => atStatement ctx s fun ctx => inScope (.block s) ctx fun ctx =>
    .block body ctx :: statements ctx body ++ expression ctx {} condition
  | s@(.branch cs _ _) => atStatement ctx s fun ctx => clauses ctx cs
  | s@(.forNumeric counter first last step body _) => atStatement ctx s fun ctx =>
    expression ctx {} first ++ expression ctx {} last ++ optionalExpression ctx step ++
      inScope (.block s) ctx fun ctx => names ctx [counter] ++ .block body ctx :: statements ctx body
  | s@(.forGeneric ids iterators body _) => atStatement ctx s fun ctx => expressions ctx iterators ++
    inScope (.block s) ctx fun ctx => names ctx ids ++ .block body ctx :: statements ctx body
  | s@(.function fname isLocal f) => atStatement ctx s fun ctx =>
    let role : Role := if isLocal then { declaration := true } else { target := true }
    .function (some fname) f ctx :: expression ctx role fname ++ functionScope ctx (some fname) f
  | s@(.ret values _) => atStatement ctx s fun ctx => expressions ctx values
  | s@(.breakLoop _) => atStatement ctx s fun _ => []
  | s@(.goto id _) => atStatement ctx s fun ctx => [.label id false ctx]
  | s@(.label id _) => atStatement ctx s fun ctx => [.label id true ctx]
  | s@(.inclusion ..) => atStatement ctx s fun _ => []

end

/-- The walk through a whole chunk. What is below an expression is left out where `below` says so. -/
def chunk (body : Block) : List Event :=
  inScope (.chunk body) {} fun ctx => .block body ctx :: statements below ctx body

def full (body : Block) : List Event := chunk (fun _ => true) body

end Walk

end CartLua
