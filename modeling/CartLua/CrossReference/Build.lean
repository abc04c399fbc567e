import CartLua.CrossReference.Basic
import CartLua.CrossReference.Builtin
import CartLua.Tree.Name
import CartLua.Walk.Basic
/-!
# Building cross references

Names are looked up while the tree is walked, in the innermost scope first. What is found nowhere waits to the end, so
that a global may be used before it is defined; then it is looked up among the globals. A path that is still unknown gets
an entry, a builtin too, and a plain name that is unknown is worth a warning. Locals that were never used are reported
when their scope closes.
-/

namespace CartLua.CrossReference

/-- A reference that was not found on the walk. -/
structure EarlyReference where
  name : String
  span : Span
  home : ScopeId
  isPath : Bool
deriving DecidableEq, Inhabited, Repr

structure Builder where
  index : CrossReference := {}
  /-- The open scopes, innermost first. -/
  openScopes : List ScopeId := []
  early : Array EarlyReference := #[]
  warnings : Array Warning := #[]
deriving Inhabited

namespace Builder

/-! ### Entries -/

variable (b : Builder)

def addEntry (name : String) : EntryId × Builder :=
  (b.index.entries.size, { b with index.entries := b.index.entries.push { name } })

/-- Puts a span into the index, once for every entry. -/
def addLine (id : EntryId) (span : Span) : Builder :=
  let key := (span.file, span.start.line)
  let line := b.index.lines.getD key []
  { b with index.lines := if line.contains (span, id) then b.index.lines else b.index.lines.insert key (line ++ [(span, id)]) }

def addUsage (id : EntryId) (span : Span) : Builder :=
  addLine { b with index.entries := b.index.entries.modify id fun e => { e with usages := e.usages.push span } } id span

def addDefinition (id : EntryId) (span : Span) : Builder :=
  addLine { b with index.entries := b.index.entries.modify id fun e => { e with definitions := e.definitions.push span } }
    id span

def modifyScope (id : ScopeId) (f : Scope → Scope) : Builder :=
  { b with index.scopes := b.index.scopes.modify id f }

def addSymbol (scope : ScopeId) (name : String) (id : EntryId) : Builder :=
  b.modifyScope scope fun s => { s with symbols := s.symbols.insert name id }

/-- Makes a new entry with a symbol in a scope. Its first place is a definition and a usage. -/
def define (scope : ScopeId) (name : String) (span : Span) : EntryId × Builder :=
  let (id, b) := b.addEntry name
  (id, ((b.addDefinition id span).addUsage id span).addSymbol scope name id)

def declare (identifier : Identifier) (isParameter : Bool) : Builder :=
  match b.openScopes with
  | [] => b
  | scope :: _ =>
    let (id, b) := b.define scope identifier.name identifier.span
    b.modifyScope scope fun s => { s with declared := s.declared ++ [⟨id, isParameter, identifier.span⟩] }

/-! ### Names -/

def scope? (id : ScopeId) : Option Scope := b.index.scopes[id]?

/-- The innermost open scope with a symbol, and its entry. -/
def find? (name : String) : Option (ScopeId × EntryId) :=
  b.openScopes.findSome? fun id => (b.scope? id).bind fun s => (s.symbols.get? name).map (id, ·)

/-- What `self` stands for. The nearest scope that has an alias or a symbol for it decides, the alias before the
symbol. -/
def selfAlias? : Option String :=
  (b.openScopes.findSome? fun id =>
    (b.scope? id).bind fun s =>
      match s.selfAlias with
      | some path => some (some path)
      | none => if s.symbols.contains "self" then some none else none).join

def pathsFrom (before : String) : List (String × Span) → List (String × Span)
  | [] => []
  | (part, span) :: rest =>
    let path := before ++ "." ++ part
    (path, span) :: pathsFrom path rest

/-- The dotted paths to the parts of a chain, with `self` replaced by what it stands for. -/
def paths? (e : Expr) : Option (List (String × Span)) :=
  e.segments?.map fun
    | [] => []
    | (root, span) :: rest =>
      let first := if root = "self" then b.selfAlias?.getD root else root
      (first, span) :: pathsFrom first rest

def path? (e : Expr) : Option String := (b.paths? e).bind fun paths => paths.getLast?.map (·.1)

def isGlobal (id : ScopeId) : Bool := (b.scope? id).any (·.kind == .global)

/-- Records one part of a chain. A part that is written and not found is defined in the scope of its root; a part that is
only read waits. A write to a local is no definition. -/
def addPart (home : ScopeId) (isRoot writes : Bool) (path : String) (span : Span) : Builder :=
  match b.find? path with
  | some (scope, id) =>
    let b := b.addUsage id span
    if writes && (!isRoot || b.isGlobal scope) then b.addDefinition id span else b
  | none =>
    if writes then (b.define home path span).2
    else { b with early := b.early.push ⟨path, span, home, !isRoot || path.toList.contains '.'⟩ }

def addParts (b : Builder) (home : ScopeId) (isTarget : Bool) : List (String × Span) → Builder
  | [] => b
  | (path, span) :: rest => (b.addPart home false (isTarget && rest.isEmpty) path span).addParts home isTarget rest

/-- Records every part of a chain. Members belong to the scope where the root was found. -/
def addChain (isTarget : Bool) : List (String × Span) → Builder
  | [] => b
  | (root, span) :: rest =>
    let home := ((b.find? root).map (·.1)).getD 0
    (b.addPart 0 true (isTarget && rest.isEmpty) root span).addParts home isTarget rest

/-! ### Scopes -/

def currentTable? : Option String :=
  b.openScopes.head?.bind fun id => (b.scope? id).bind (·.tableName)

def boundPath? (ctx : Context) : Option String :=
  match ctx.definitionTarget? with
  | some (.expression target) => b.path? target
  | some (.identifier id) => some id.name
  | some (.field f) => b.currentTable?.bind fun table => f.name?.map fun key => table ++ "." ++ key.1
  | _ => none

def openScope (scope : Scope) : Builder :=
  let id := b.index.scopes.size
  let parent := b.openScopes.head?
  let b := match parent with
    | some p => b.modifyScope p fun s => { s with children := s.children.push id }
    | none => b
  { b with index.scopes := b.index.scopes.push { scope with parent }, openScopes := id :: b.openScopes }

def inheritedName? : Option String :=
  b.openScopes.head?.bind fun id => (b.scope? id).bind (·.name)

/-- Opens the scope of a node. In a method, and in a function bound to a path, `self` stands for what the path starts
with. -/
def enter (node : ScopeNode) (ctx : Context) : Builder :=
  let span := node.span?
  match node with
  | .chunk _ => b.openScope { kind := .global }
  | .function fname _ =>
    let own := fname.bind b.path?
    let bound := if fname.isNone then b.boundPath? ctx else none
    let receiver := if fname.any Expr.isMethod then own else bound
    b.openScope
      { kind := .function, name := own <|> bound <|> b.inheritedName?, span, selfAlias := receiver.bind receiver? }
  | .table _ =>
    let bound := b.boundPath? ctx
    b.openScope { kind := .table, name := bound <|> b.inheritedName?, span, tableName := bound }
  | .block _ | .clause _ => b.openScope { kind := .block, name := b.inheritedName?, span }

/-- The warning about a local that was used nowhere but where it was declared. Names that start with an underscore are
meant to be unused. -/
def unused? (d : Declared) : Option Warning :=
  match b.index.entries[d.entry]? with
  | none => none
  | some entry =>
    if 1 < entry.usages.size || entry.name.toList.head? == some '_' || entry.name == "self" then none
    else some ⟨if d.isParameter then .unusedParameter entry.name else .unusedLocal entry.name, d.span⟩

def leave : Builder :=
  match b.openScopes with
  | [] => b
  | id :: rest =>
    let b := { b with openScopes := rest }
    match b.scope? id with
    | none => b
    | some s =>
      match s.kind with
      | .global | .table => b
      | .function | .block =>
        let b := { b with warnings := b.warnings ++ s.declared.filterMap b.unused? }
        b.modifyScope id fun s => { s with declared := [] }

/-! ### The walk -/

/-- Records a field of a bound table, which defines a path. -/
def addField (f : Field) : Builder :=
  match b.currentTable?, f.name? with
  | some table, some (key, span) =>
    let path := table ++ "." ++ key
    match b.find? path with
    | some (_, id) => (b.addUsage id span).addDefinition id span
    | none => (b.define (((b.find? (rootName table)).map (·.1)).getD 0) path span).2
  | _, _ => b

def addExpression (e : Expr) (role : Role) : Builder :=
  match e with
  | .name id => if role.declaration then b.declare id false else b.addChain role.target ((b.paths? e).getD [])
  | .member .. => b.addChain role.target ((b.paths? e).getD [])
  | _ => b

def step : Event → Builder
  | .enter node ctx => b.enter node ctx
  | .leave .. => b.leave
  | .expression e ctx => b.addExpression e ctx.role
  | .identifier id ctx =>
    if ctx.role.parameter then b.declare id true else if ctx.role.declaration then b.declare id false else b
  | .field f _ => b.addField f
  | _ => b

/-! ### Early references -/

/-- The entry of a symbol that is no local: a reference that was recorded before a local was declared does not mean the
local. -/
def nonLocal? (scope : ScopeId) (name : String) : Option EntryId :=
  (b.scope? scope).bind fun s =>
    (s.symbols.get? name).filter fun id => !s.declared.any (·.entry == id)

def settle (r : EarlyReference) : Builder :=
  match b.nonLocal? r.home r.name <|> b.nonLocal? 0 r.name with
  | some id => b.addUsage id r.span
  | none =>
    if r.isPath then (b.define r.home r.name r.span).2
    else if isBuiltin r.name then
      let (id, b) := b.addEntry r.name
      (b.addUsage id r.span).addSymbol 0 r.name id
    else { b with warnings := b.warnings.push ⟨.undefinedVariable r.name, r.span⟩ }

end Builder

/-- A walk for names does not go below a chain, which is recorded as a whole. -/
def below (e : Expr) : Bool := e.segments?.isNone

/-- The order in which warnings are listed: by document, then by place. -/
def warningOrder (v w : Warning) : Bool :=
  v.span.start.file < w.span.start.file ||
    (v.span.start.file == w.span.start.file && v.span.start.index ≤ w.span.start.index)

/-- The cross references and the warnings of a program. -/
def build (body : Block) : CrossReference × List Warning :=
  let walked := (Walk.chunk below body).foldl Builder.step {}
  let settled := walked.early.foldl Builder.settle walked
  (settled.index, settled.warnings.toList.mergeSort warningOrder)

end CartLua.CrossReference
