import CartLua.Tree.Name
import CartLua.Walk.Basic
/-!
# Outlines

The outline of a document lists its functions, variables, loop variables and labels as a tree, in the order of the text.
A name is listed once. A function that is bound to a name makes the name a function. The path `a.b` is listed below `a`
if that is a local, and at the top otherwise; in a method `self` stands for the receiver. The keys of a table that is
bound to a name are listed below the name.
-/

namespace CartLua

inductive SymbolKind where
  | function
  | localVariable
  | globalVariable
deriving DecidableEq, Inhabited, Repr

inductive OutlineSymbol where
  | mk (name : String) (detail : Option String) (kind : SymbolKind) (fullSpan selectionSpan : Span)
    (children : List OutlineSymbol)
deriving Inhabited

namespace Outline

structure Entry where
  name : String
  /-- The parameters of a function. -/
  detail : Option String := none
  kind : SymbolKind
  /-- The whole construct that declares the symbol. -/
  fullSpan : Span
  /-- The name in it. -/
  selectionSpan : Span
  path : String
  isLocal : Bool
  children : Array Nat := #[]
deriving DecidableEq, Inhabited, Repr

structure Scope where
  /-- The symbol that new symbols are listed below. -/
  owner : Option Nat := none
  /-- Symbols by their paths, newest first. -/
  names : List (String × Nat) := []
  selfName : Option String := none
deriving DecidableEq, Inhabited, Repr

structure Builder where
  entries : Array Entry := #[]
  roots : Array Nat := #[]
  /-- The symbols of names and fields that values are bound to, by the spans of these, newest first. -/
  targets : List (Span × Nat) := []
  /-- The symbol of the function statement whose scope opens next. -/
  pendingOwner : Option Nat := none
  /-- The open scopes, innermost first. -/
  scopes : List Scope := []
deriving Inhabited

namespace Builder

variable (b : Builder)

def add (entry : Entry) (parent : Option Nat) : Nat × Builder :=
  let id := b.entries.size
  let entries := b.entries.push entry
  match parent with
  | some p => (id, { b with entries := entries.modify p fun e => { e with children := e.children.push id } })
  | none => (id, { b with entries, roots := b.roots.push id })

def owner? : Option Nat := b.scopes.head?.bind (·.owner)

def selfName? : Option String := b.scopes.head?.bind (·.selfName)

/-- The symbol with a path in the innermost scope that has one, and the number of scopes around that scope. -/
def lookupIn (name : String) : List Scope → Option (Nat × Nat)
  | [] => none
  | scope :: rest =>
    match scope.names.lookup name with
    | some id => some (rest.length, id)
    | none => lookupIn name rest

def lookup? (name : String) : Option (Nat × Nat) := lookupIn name b.scopes

/-- Makes a symbol known in the scope that has `depth` scopes around it. -/
def register (depth : Nat) (name : String) (id : Nat) : Builder :=
  { b with scopes := b.scopes.modify (b.scopes.length - 1 - depth) fun s => { s with names := (name, id) :: s.names } }

def innermost : Nat := b.scopes.length - 1

def bindTarget (span : Span) (id : Nat) : Builder := { b with targets := (span, id) :: b.targets }

def makeFunction (id : Nat) (f : FunctionBody) : Builder :=
  { b with entries := b.entries.modify id fun e => { e with kind := .function, detail := some f.signature } }

def isLocal (id : Nat) : Bool := (b.entries[id]?).any (·.isLocal)

/-- The path of a chain with points only, and with `self` before a point replaced by the receiver. -/
def path? (e : Expr) : Option String :=
  e.dottedName?.map fun name =>
    let path := name.toList.map fun c => if c = ':' then '.' else c
    match b.selfName? with
    | some receiver =>
      if "self.".toList.isPrefixOf path then receiver ++ "." ++ String.ofList (path.drop 5) else String.ofList path
    | none => String.ofList path

/-- Lists a path of several parts, below its root if that is a local. -/
def addMember (name path : String) (fullSpan selectionSpan : Span) : Nat × Builder :=
  let root := (b.lookup? (rootName path)).filter fun found => b.isLocal found.2
  let kind : SymbolKind := if root.isSome then .localVariable else .globalVariable
  let (id, b) := b.add { name, kind, fullSpan, selectionSpan, path, isLocal := root.isSome } (root.map (·.2))
  (id, b.register ((root.map (·.1)).getD 0) path id)

def addName (name path : String) (kind : SymbolKind) (isLocal : Bool) (fullSpan selectionSpan : Span) :
    Nat × Builder :=
  let (id, b) := b.add { name, kind, fullSpan, selectionSpan, path, isLocal } b.owner?
  (id, b.register (if isLocal then b.innermost else 0) path id)

def addTarget (span : Span) (target : Expr) : Builder :=
  match b.path? target with
  | none => b
  | some path =>
    match b.lookup? path with
    | some (_, id) => b.bindTarget target.span id
    | none =>
      let (id, b) := match target with
        | .name v =>
          b.addName path path (if v.isLocal then .localVariable else .globalVariable) v.isLocal span v.span
        | _ => b.addMember path path span target.span
      b.bindTarget target.span id

/-- Lists a function statement. A function that is not local may be listed already. -/
def addFunction (fname : Expr) (isLocal : Bool) (f : FunctionBody) : Option Nat × Builder :=
  match fname.dottedName?, b.path? fname with
  | some display, some path =>
    let existing := if isLocal then none else b.lookup? path
    let (id, b) := match existing, fname with
      | some (_, id), _ => (id, b)
      | none, .name v => b.addName display path .function isLocal f.span v.span
      | none, _ => b.addMember display path f.span fname.span
    (some id, b.makeFunction id f)
  | _, _ => (none, b)

def addLeaf (span : Span) (id : Identifier) : Builder :=
  (b.add { name := id.name, kind := .localVariable, fullSpan := span, selectionSpan := id.span, path := id.name,
           isLocal := true } b.owner?).2

def addLocal (span : Span) (id : Identifier) : Builder :=
  let (symbol, b) := b.addName id.name id.name .localVariable true span id.span
  b.bindTarget id.span symbol

def boundSymbol? (ctx : Context) : Option Nat :=
  match ctx.definitionTarget? with
  | some (.expression target) => b.targets.lookup target.span
  | some (.identifier id) => b.targets.lookup id.span
  | some (.field f) => b.targets.lookup f.span
  | _ => none

def addField (owner : Nat) (b : Builder) (f : Field) : Builder :=
  match f.name?, b.entries[owner]? with
  | some (key, span), some table =>
    let kind : SymbolKind := if table.isLocal then .localVariable else .globalVariable
    let entry : Entry :=
      { name := key, kind, fullSpan := f.span, selectionSpan := span, path := table.path ++ "." ++ key,
        isLocal := table.isLocal }
    let entry := match f.value with
      | .function body => { entry with kind := .function, detail := some body.signature }
      | _ => entry
    let (id, b) := b.add entry (some owner)
    b.bindTarget f.span id
  | _, _ => b

def receiverOf? (id : Nat) : Option String := (b.entries[id]?).bind fun e => receiver? e.path

def push (scope : Scope) : Builder := { b with scopes := scope :: b.scopes }

def enter (node : ScopeNode) (ctx : Context) : Builder :=
  match node with
  | .chunk _ => b.push {}
  | .function fname f =>
    let named := b.pendingOwner
    let bound := if fname.isNone then b.boundSymbol? ctx else none
    let b := { b with pendingOwner := none }
    let b := match bound with
      | some id => b.makeFunction id f
      | none => b
    let receiver := match named, bound with
      | some id, _ => if fname.any Expr.isMethod then b.receiverOf? id else bound.bind b.receiverOf?
      | none, bound => bound.bind b.receiverOf?
    b.push { owner := named <|> bound <|> b.owner?, selfName := receiver <|> b.selfName? }
  | .table t =>
    let bound := b.boundSymbol? ctx
    let owner := bound <|> b.owner?
    let selfName := b.selfName?
    let b := match bound with
      | some id => t.fields.foldl (addField id) b
      | none => b
    b.push { owner, selfName }
  | .block _ | .clause _ => b.push { owner := b.owner?, selfName := b.selfName? }

def addStatement : Stmt → Builder
  | .declare names _ span => names.foldl (addLocal · span ·) b
  | .assignment targets .assign _ span => targets.foldl (addTarget · span ·) b
  | .function fname isLocal f =>
    let (id, b) := b.addFunction fname isLocal f
    { b with pendingOwner := id }
  | .forNumeric counter _ _ _ _ span => b.addLeaf span counter
  | .forGeneric names _ _ span => names.foldl (addLeaf · span ·) b
  | .label id span => b.addLeaf span id
  | _ => b

def step : Event → Builder
  | .enter node ctx => b.enter node ctx
  | .leave .. => { b with scopes := b.scopes.tail }
  | .statement s _ => b.addStatement s
  | _ => b

/-- The tree of symbols below a symbol. A symbol comes behind the one it is listed below, so that a chain of them is no
longer than the list of all. -/
def tree (entries : Array Entry) : Nat → Nat → OutlineSymbol
  | 0, _ => default
  | depth + 1, id =>
    match entries[id]? with
    | none => default
    | some e =>
      .mk e.name e.detail e.kind e.fullSpan e.selectionSpan (e.children.toList.map (tree entries depth))

end Builder

def build (body : Block) : List OutlineSymbol :=
  let b := (Walk.full body).foldl Builder.step {}
  b.roots.toList.map (Builder.tree b.entries b.entries.size)

end Outline

end CartLua
