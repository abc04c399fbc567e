import CartLua.Chunk
import CartLua.Json.Basic
/-!
# Trees as JSON

The JSON form of statements, expressions and all that is derived from them. Spans and doubles are written in one of
several ways, which a style chooses.
-/

namespace CartLua

structure JsonStyle where
  span : Span → Json
  double : Float → Json := .double

/-! ### Names of operators and kinds -/

def BinaryOp.tag : BinaryOp → String
  | .pow => "Pow"
  | .mul => "Mul"
  | .div => "Div"
  | .mod => "Mod"
  | .intDiv => "IntDiv"
  | .add => "Add"
  | .sub => "Sub"
  | .concat => "Concat"
  | .shl => "Shl"
  | .shr => "Shr"
  | .logicalShr => "LogicalShr"
  | .rotateLeft => "RotateLeft"
  | .rotateRight => "RotateRight"
  | .bitAnd => "BitAnd"
  | .bitXor => "BitXor"
  | .bitOr => "BitOr"
  | .eq => "Eq"
  | .ne => "Ne"
  | .lt => "Lt"
  | .le => "Le"
  | .gt => "Gt"
  | .ge => "Ge"

def LogicalOp.tag : LogicalOp → String
  | .and => "And"
  | .or => "Or"

def UnaryOp.tag : UnaryOp → String
  | .neg => "Neg"
  | .len => "Len"
  | .not => "Not"
  | .bitNot => "BitNot"
  | .peek => "Peek"
  | .peek2 => "Peek2"
  | .peek4 => "Peek4"

def Indexer.tag : Indexer → String
  | .dot => "Dot"
  | .colon => "Colon"

def SymbolKind.tag : SymbolKind → String
  | .function => "Function"
  | .localVariable => "LocalVariable"
  | .globalVariable => "GlobalVariable"

def Clause.tag : Clause → String
  | .ifThen .. => "If"
  | .elseIf .. => "ElseIf"
  | .otherwise .. => "Else"

def Expr.tag : Expr → String
  | .name _ => "Identifier"
  | .string .. => "String"
  | .number .. => "Number"
  | .boolean .. => "Boolean"
  | .nil _ => "Nil"
  | .vararg _ => "Vararg"
  | .binary .. => "Binary"
  | .logical .. => "Logical"
  | .unary .. => "Unary"
  | .member .. => "Member"
  | .index .. => "Index"
  | .call .. => "Call"
  | .tableCall .. => "TableCall"
  | .stringCall .. => "StringCall"
  | .table _ => "Table"
  | .function _ => "Function"

def Stmt.tag : Stmt → String
  | .assignment .. => "Assignment"
  | .declare .. => "Local"
  | .call .. => "Call"
  | .block .. => "Do"
  | .whileLoop .. => "While"
  | .repeatLoop .. => "Repeat"
  | .branch .. => "If"
  | .forNumeric .. => "ForNumeric"
  | .forGeneric .. => "ForGeneric"
  | .function .. => "Function"
  | .ret .. => "Return"
  | .breakLoop .. => "Break"
  | .goto .. => "Goto"
  | .label .. => "Label"
  | .inclusion .. => "Include"

namespace JsonStyle

/-! ### Trees -/

def assignOp : AssignOp → Json
  | .assign => .string "Assign"
  | .compound op => .object [("Compound", .string op.tag)]

variable (style : JsonStyle)

def identifierFields (id : Identifier) : List (String × Json) :=
  [("name", .string id.name), ("is_local", .bool id.isLocal), ("loc", style.span id.span)]

def identifier (id : Identifier) : Json := .object (style.identifierFields id)

def parameter : Parameter → Json
  | .name id => .object [("Name", style.identifier id)]
  | .vararg span => .object [("Vararg", style.span span)]

def tagged (tag : String) (fields : List (String × Json)) : Json := .object (("type", .string tag) :: fields)

mutual

def expr : Expr → Json
  | e@(.name id) => tagged e.tag (style.identifierFields id)
  | e@(.string value raw span) =>
    tagged e.tag [("value", .ofOption .string value), ("raw", .string raw), ("loc", style.span span)]
  | e@(.number value raw span) =>
    tagged e.tag [("value", style.double value), ("raw", .string raw), ("loc", style.span span)]
  | e@(.boolean value span) => tagged e.tag [("value", .bool value), ("loc", style.span span)]
  | e@(.nil span) => tagged e.tag [("loc", style.span span)]
  | e@(.vararg span) => tagged e.tag [("loc", style.span span)]
  | e@(.binary op left right span) =>
    tagged e.tag [("operator", .string op.tag), ("left", expr left), ("right", expr right),
      ("loc", style.span span)]
  | e@(.logical op left right span) =>
    tagged e.tag [("operator", .string op.tag), ("left", expr left), ("right", expr right),
      ("loc", style.span span)]
  | e@(.unary op argument span) =>
    tagged e.tag [("operator", .string op.tag), ("argument", expr argument), ("loc", style.span span)]
  | e@(.member base indexer key span) =>
    tagged e.tag [("base", expr base), ("indexer", .string indexer.tag), ("identifier", style.identifier key),
      ("loc", style.span span)]
  | e@(.index base key span) =>
    tagged e.tag [("base", expr base), ("index", expr key), ("loc", style.span span)]
  | e@(.call base arguments span) =>
    tagged e.tag [("base", expr base), ("arguments", .array (exprs arguments)), ("loc", style.span span)]
  | e@(.tableCall base argument span) =>
    tagged e.tag [("base", expr base), ("argument", .object (tableFields argument)),
      ("loc", style.span span)]
  | e@(.stringCall base argument span) =>
    tagged e.tag [("base", expr base), ("argument", expr argument), ("loc", style.span span)]
  | e@(.table t) => tagged e.tag (tableFields t)
  | e@(.function f) => tagged e.tag (("identifier", .null) :: ("is_local", .bool false) :: functionFields f)

def exprs : List Expr → List Json
  | [] => []
  | e :: rest => expr e :: exprs rest

def optionalExpr : Option Expr → Json
  | none => .null
  | some e => expr e

def tableFields : Table → List (String × Json)
  | ⟨fs, span⟩ => [("fields", .array (fields fs)), ("loc", style.span span)]

def fields : List Field → List Json
  | [] => []
  | f :: rest => field f :: fields rest

def field : Field → Json
  | .keyed key value span =>
    .object [("Keyed", .object [("key", expr key), ("value", expr value), ("loc", style.span span)])]
  | .named key value span =>
    .object [("Named", .object [("key", style.identifier key), ("value", expr value), ("loc", style.span span)])]
  | .positional value span =>
    .object [("Positional", .object [("value", expr value), ("loc", style.span span)])]

def functionFields : FunctionBody → List (String × Json)
  | ⟨parameters, body, span⟩ =>
    [("parameters", .ofList style.parameter parameters), ("body", .array (stmts body)), ("loc", style.span span)]

def clauses : List Clause → List Json
  | [] => []
  | c :: rest => clause c :: clauses rest

def clause : Clause → Json
  | c@(.ifThen condition body span) =>
    .object [("kind", .string c.tag), ("condition", expr condition), ("body", .array (stmts body)),
      ("loc", style.span span)]
  | c@(.elseIf condition body span) =>
    .object [("kind", .string c.tag), ("condition", expr condition), ("body", .array (stmts body)),
      ("loc", style.span span)]
  | c@(.otherwise body span) =>
    .object [("kind", .string c.tag), ("condition", .null), ("body", .array (stmts body)),
      ("loc", style.span span)]

def stmts : List Stmt → List Json
  | [] => []
  | s :: rest => stmt s :: stmts rest

def stmt : Stmt → Json
  | s@(.assignment targets op values span) =>
    tagged s.tag [("variables", .array (exprs targets)), ("operator", assignOp op),
      ("init", .array (exprs values)), ("loc", style.span span)]
  | s@(.declare names values span) =>
    tagged s.tag [("variables", .ofList style.identifier names), ("init", .array (exprs values)),
      ("loc", style.span span)]
  | s@(.call e span) => tagged s.tag [("expression", expr e), ("loc", style.span span)]
  | s@(.block body span) => tagged s.tag [("body", .array (stmts body)), ("loc", style.span span)]
  | s@(.whileLoop condition body span) =>
    tagged s.tag [("condition", expr condition), ("body", .array (stmts body)), ("loc", style.span span)]
  | s@(.repeatLoop body condition span) =>
    tagged s.tag [("body", .array (stmts body)), ("condition", expr condition), ("loc", style.span span)]
  | s@(.branch cs oneLine span) =>
    tagged s.tag [("clauses", .array (clauses cs)), ("one_line", .bool oneLine), ("loc", style.span span)]
  | s@(.forNumeric counter first last step body span) =>
    tagged s.tag [("variable", style.identifier counter), ("start", expr first), ("end", expr last),
      ("step", optionalExpr step), ("body", .array (stmts body)), ("loc", style.span span)]
  | s@(.forGeneric names iterators body span) =>
    tagged s.tag [("variables", .ofList style.identifier names), ("iterators", .array (exprs iterators)),
      ("body", .array (stmts body)), ("loc", style.span span)]
  | s@(.function name isLocal f) =>
    tagged s.tag (("identifier", expr name) :: ("is_local", .bool isLocal) :: functionFields f)
  | s@(.ret values span) => tagged s.tag [("arguments", .array (exprs values)), ("loc", style.span span)]
  | s@(.breakLoop span) => tagged s.tag [("loc", style.span span)]
  | s@(.goto id span) => tagged s.tag [("label", style.identifier id), ("loc", style.span span)]
  | s@(.label id span) => tagged s.tag [("label", style.identifier id), ("loc", style.span span)]
  | s@(.inclusion target span) => tagged s.tag [("filename", .string target), ("loc", style.span span)]

end

/-! ### What is derived from a tree -/

mutual

def symbol : OutlineSymbol → Json
  | .mk name detail kind fullSpan selectionSpan children =>
    .object (("name", .string name) :: Json.optional "detail" .string detail ++
      [("kind", .string kind.tag), ("full_span", style.span fullSpan), ("selection_span", style.span selectionSpan),
        ("children", .array (symbols children))])

def symbols : List OutlineSymbol → List Json
  | [] => []
  | s :: rest => symbol s :: symbols rest

end

def includeChain (d : Diagnostic) : List (String × Json) :=
  if d.includeChain.isEmpty then [] else [("include_chain", .ofList .string d.includeChain)]

def error (d : Diagnostic) : Json :=
  .object (("message", .string d.message) :: ("bounds", style.span d.span) :: includeChain d)

def warning (w : Warning) : Json :=
  .object [("message", .string w.message), ("bounds", style.span w.span)]

def chunkFields (c : Chunk) : List (String × Json) :=
  [("body", .array (style.stmts c.body)), ("errors", .ofList style.error c.errors),
    ("warnings", .ofList style.warning c.warnings), ("symbols", .array (style.symbols c.symbols)),
    ("globals", .ofList .string c.globals), ("files", .ofList .string c.files), ("loc", style.span c.span)]

def chunk (c : Chunk) : Json := .object (style.chunkFields c)

/-! ### Spans in full -/

def position (p : Position) : Json :=
  .object [("line", .nat p.line), ("column", .nat p.column), ("index", .nat p.index), ("file", .nat p.file)]

def full : JsonStyle := { span := fun s => .object [("start", position s.start), ("end", position s.stop)] }

end JsonStyle

end CartLua
