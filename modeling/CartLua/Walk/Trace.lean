import CartLua.Json.Tree
import CartLua.Walk.Basic
/-!
# Traces

A trace writes every event of a walk on a line of its own, with the sizes of both chains, the role of the visited node and
the node above it.
-/

namespace CartLua

def Node.brief : Node → String
  | .statement s => "statement " ++ s.span.brief
  | .expression e => "expression " ++ e.span.brief
  | .identifier id => "identifier " ++ id.span.brief
  | .clause c => "clause " ++ c.span.brief
  | .field f => "field " ++ f.span.brief

def Role.letters (r : Role) : String :=
  String.ofList ([(r.target, 'A'), (r.binding, 'B'), (r.declaration, 'D'), (r.parameter, 'P')].filterMap fun
    | (true, letter) => some letter
    | (false, _) => none)

def ScopeNode.brief (scope : ScopeNode) : String :=
  let kind := match scope with
    | .chunk _ => "chunk"
    | .function .. => "function"
    | .block _ => "block"
    | .clause _ => "clause"
    | .table _ => "table"
  kind ++ " " ++ (scope.span?.map Span.brief).getD "-"

namespace Trace

def orDash (text : Option String) : String := text.getD "-"

def surroundings (ctx : Context) : String :=
  let parent := orDash (ctx.parent?.map fun p => p.node.brief ++ "/" ++ p.role.letters)
  s!"@{ctx.scopes.length},{ctx.nodes.length} [{ctx.role.letters}] ^{parent}"

def line (what : String) (ctx : Context) : String := what ++ " " ++ surroundings ctx

def expression (e : Expr) (ctx : Context) : String :=
  let name := orDash e.dottedName?
  let root := orDash (e.root?.map (·.name))
  let plain := orDash (e.asName?.map (·.name))
  let bound := orDash (ctx.bindingTarget?.map Node.brief)
  s!"expression {e.tag} {e.span.brief} name={name} root={root} plain={plain} bound={bound}"

def isMethod (fname : Option Expr) : Bool := fname.any Expr.isMethod

/-- The lines of a walk. The statements met so far directly in every open scope are counted, innermost scope first. -/
def lines (counts : List Nat) : List Event → List String
  | [] => []
  | .enter scope ctx :: rest =>
    let outer := orDash (ctx.scopes.head?.map ScopeNode.brief)
    line s!"enter {scope.brief} in {outer}" ctx :: lines (0 :: counts) rest
  | .leave scope ctx :: rest =>
    line s!"leave {scope.brief} statements={counts.headD 0}" ctx :: lines counts.tail rest
  | .block body ctx :: rest => line s!"block {body.length}" ctx :: lines counts rest
  | .statement s ctx :: rest =>
    line s!"statement {s.tag} {s.span.brief}" ctx :: lines (counts.modifyHead (· + 1)) rest
  | .expression e ctx :: rest => line (expression e ctx) ctx :: lines counts rest
  | .function fname f ctx :: rest =>
    line s!"function {f.signature} method={isMethod fname}" ctx :: lines counts rest
  | .table t ctx :: rest => line s!"table {t.fields.length}" ctx :: lines counts rest
  | .field f ctx :: rest => line s!"field {f.span.brief}" ctx :: lines counts rest
  | .identifier id ctx :: rest => line s!"identifier {id.name} local={id.isLocal}" ctx :: lines counts rest
  | .label id isDefinition ctx :: rest =>
    line s!"label {id.name} definition={isDefinition}" ctx :: lines counts rest

def ofBlock (body : Block) : List String := lines [] (Walk.full body)

end Trace

def Walk.scopeCount (events : List Event) : Nat :=
  events.countP fun
    | .enter .. => true
    | _ => false

end CartLua
