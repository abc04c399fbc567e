import CartLua.Proofs.Cues
/-!
# What is wrong with the control flow of a tree

The diagnostics of control flow, said of the whole tree. Every statement is looked at together with the blocks of its
function around it: what stands in them before the statement and what stands behind it. A goto may look at both sides, so
nothing has to wait here.
-/

namespace CartLua

namespace Stmt

/-- The name of the label that the statement is. -/
def label? : Stmt → Option Identifier
  | .label id _ => some id
  | _ => none

/-- The locals that the statement declares in the block it stands in. -/
def locals : Stmt → List String
  | .declare ids _ _ => ids.map (·.name)
  | .function name true _ => (name.root?.map (·.name)).toList
  | _ => []

/-- Whether the statement is no label. An include line is no statement of its own. -/
def isProper : Stmt → Bool
  | .label .. | .inclusion .. => false
  | _ => true

end Stmt

theorem Cues.opening_eq (s : Stmt) : Cues.opening s = if s.isProper then [.proper s] else [] := by
  cases s <;> rfl

theorem Stmt.locals_of_isProper {s : Stmt} (h : s.isProper = false) : s.locals = [] := by
  cases s <;> simp_all [Stmt.isProper, Stmt.locals]

def Parameter.isVararg : Parameter → Bool
  | .vararg _ => true
  | .name _ => false

/-- A block around a statement, without the statement of the block that it is in. -/
structure Frame where
  /-- The statements before it. -/
  before : List Stmt
  /-- The statements behind it. -/
  after : List Stmt
  isLoop : Bool

namespace Flaws

/-- The first label of a name among statements. -/
def labelIn? (name : String) (ss : List Stmt) : Option Identifier := (ss.filterMap Stmt.label?).find? (·.name == name)

/-- The statements before the first label of a name, and those behind it. -/
def landing? (name : String) : List Stmt → Option (List Stmt × List Stmt)
  | [] => none
  | s :: rest =>
    if (labelIn? name [s]).isSome then some ([], rest) else (landing? name rest).map (Prod.map (s :: ·) id)

/-- The locals that statements declare in their own block. -/
def locals (ss : List Stmt) : List String := ss.flatMap Stmt.locals

/-- What is wrong with a jump over the locals `skipped` to a label with `behind` behind it. At the end of a block nothing
can use the locals. -/
def jump (label : String) (span : Span) (skipped : List String) (behind : List Stmt) : List Diagnostic :=
  match skipped with
  | [] => []
  | first :: _ => if behind.any Stmt.isProper then [{ fault := .jumpIntoLocal label first, span }] else []

/-- What is wrong with a goto that has no label before it. It jumps to the next label of the innermost block that has
one behind it. -/
def forward (around : List Frame) (label : String) (span : Span) : List Diagnostic :=
  match around.findSome? fun frame => landing? label frame.after with
  | none => [{ fault := .labelNotVisible label, span }]
  | some (skipped, behind) => jump label span (locals skipped) behind

/-- What is wrong with a goto. A label before it in one of the blocks around it can always be jumped to. -/
def goto (around : List Frame) (label : Identifier) : List Diagnostic :=
  if around.any fun frame => (labelIn? label.name frame.before).isSome then []
  else forward around label.name label.span

/-- What is wrong with a label: another one before it in its block. -/
def label (around : List Frame) (label : Identifier) : List Diagnostic :=
  match around.head?.bind fun frame => labelIn? label.name frame.before with
  | none => []
  | some first => [{ fault := .labelDefined label.name first.span.start.line, span := label.span }]

/-- What is wrong with a break: no loop around it. -/
def breakLoop (ts : List Token) (newlines : Bool) (around : List Frame) (span : Span) : List Diagnostic :=
  if around.any (·.isLoop) then [] else [{ fault := .noLoopToBreak (nearText ts newlines span.stop), span }]

/-- Where a statement stands. -/
structure Place where
  /-- Whether the function has a `...` among its parameters. -/
  varargs : Bool
  /-- Whether line ends are shown. -/
  newlines : Bool
  /-- The blocks of the function around it, innermost first. -/
  around : List Frame := []

def Place.within (place : Place) (frame : Frame) : Place := { place with around := frame :: place.around }

variable (ts : List Token)

mutual

def expression (varargs : Bool) : Expr → List Diagnostic
  | .vararg span => if varargs then [] else [{ fault := .varargNotAllowed "...", span }]
  | .binary _ left right _ => expression varargs left ++ expression varargs right
  | .logical _ left right _ => expression varargs left ++ expression varargs right
  | .unary _ argument _ => expression varargs argument
  | .member base _ _ _ => expression varargs base
  | .index base key _ => expression varargs base ++ expression varargs key
  | .call base arguments _ => expression varargs base ++ expressions varargs arguments
  | .tableCall base argument _ => expression varargs base ++ table varargs argument
  | .stringCall base argument _ => expression varargs base ++ expression varargs argument
  | .table t => table varargs t
  | .function f => function f
  | .name _ => []
  | .string .. => []
  | .number .. => []
  | .boolean .. => []
  | .nil _ => []

def expressions (varargs : Bool) : List Expr → List Diagnostic
  | [] => []
  | e :: rest => expression varargs e ++ expressions varargs rest

def optionalExpression (varargs : Bool) : Option Expr → List Diagnostic
  | none => []
  | some e => expression varargs e

def table (varargs : Bool) : Table → List Diagnostic
  | ⟨fs, _⟩ => fields varargs fs

def fields (varargs : Bool) : List Field → List Diagnostic
  | [] => []
  | f :: rest => field varargs f ++ fields varargs rest

def field (varargs : Bool) : Field → List Diagnostic
  | .keyed key value _ => expression varargs key ++ expression varargs value
  | .named _ value _ => expression varargs value
  | .positional value _ => expression varargs value

/-- What is wrong with a function. It sees no block around it. -/
def function : FunctionBody → List Diagnostic
  | ⟨parameters, body, _⟩ =>
    statements { varargs := parameters.any (·.isVararg), newlines := false } false [] body

/-- What is wrong with the statements of a block behind those of `before`. -/
def statements (place : Place) (isLoop : Bool) (before : List Stmt) : List Stmt → List Diagnostic
  | [] => []
  | s :: rest =>
    statement (place.within ⟨before, rest, isLoop⟩) s ++ statements place isLoop (before ++ [s]) rest

/-- What is wrong with clauses; `later` says whether line ends are shown behind the first one. -/
def clauses (place : Place) (later : Bool) : List Clause → List Diagnostic
  | [] => []
  | c :: rest => clause place c ++ clauses { place with newlines := later } later rest

def clause (place : Place) : Clause → List Diagnostic
  | .ifThen condition body _ => expression place.varargs condition ++ statements place false [] body
  | .elseIf condition body _ => expression place.varargs condition ++ statements place false [] body
  | .otherwise body _ => statements place false [] body

def statement (place : Place) : Stmt → List Diagnostic
  | .assignment targets _ values _ => expressions place.varargs targets ++ expressions place.varargs values
  | .declare _ values _ => expressions place.varargs values
  | .call e _ => expression place.varargs e
  | .block body _ => statements place false [] body
  | .whileLoop condition body _ => expression place.varargs condition ++ statements place true [] body
  | .repeatLoop body condition _ => statements place true [] body ++ expression place.varargs condition
  | .branch cs oneLine _ =>
    if oneLine then clauses { place with newlines := true } (Cues.shownInElse ts cs) cs
    else clauses place place.newlines cs
  | .forNumeric _ first last step body _ =>
    expression place.varargs first ++ expression place.varargs last ++
      optionalExpression place.varargs step ++ statements place true [] body
  | .forGeneric _ iterators body _ => expressions place.varargs iterators ++ statements place true [] body
  | .function name isLocal f => (if isLocal then [] else expression place.varargs name) ++ function f
  | .ret values _ => expressions place.varargs values
  | .breakLoop span => breakLoop ts place.newlines place.around span
  | .goto id _ => goto place.around id
  | .label id _ => label place.around id
  | .inclusion .. => []

end

/-- What is wrong with the control flow of a program. Its text is the body of a function with any number of arguments. -/
def program (body : Block) : List Diagnostic :=
  statements ts { varargs := true, newlines := false } false [] body

end Flaws

end CartLua
