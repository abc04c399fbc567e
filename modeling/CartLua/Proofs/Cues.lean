import CartLua.Parse.Session
import CartLua.Tree.Basic
/-!
# Control flow along a tree

What a syntax tree tells the account of control flow, in the order of the text: blocks that open and close, locals,
labels, gotos, breaks, uses of `...` and names in use. Following these cues from one end of a tree to the other gives
the diagnostics of control flow and the globals. The text behind a `break` is part of one of them, so the cues are taken beside the tokens of the text.
-/

namespace CartLua

/-! ### Places in the text -/

def tokensFrom (ts : List Token) (p : Position) : List Token := ts.dropWhile (·.span.start.index < p.index)

/-- What a message shows behind a place: the next token, or the line end where line ends are shown. -/
def nearText (ts : List Token) (newlines : Bool) (p : Position) : String :=
  match tokensFrom ts p with
  | [] => ""
  | next :: _ => if newlines && p.line < next.span.start.line then "<newline>" else next.text

/-- Whether the keyword behind a place is the last token of its line. -/
def endsLine (ts : List Token) (p : Position) : Bool :=
  match tokensFrom ts p with
  | word :: next :: _ => word.span.stop.line < next.span.start.line
  | _ => false

/-! ### Cues -/

/-- What control flow takes note of. -/
inductive Cue where
  | openBlock (isLoop : Bool)
  | closeBlock
  | addLocal (name : String)
  | goto (label : Identifier)
  | label (label : Identifier)
  /-- A statement that is no label. -/
  | proper (s : Stmt)
  | breakLoop (near : String) (span : Span)
  | vararg (span : Span)
  /-- A name in use. -/
  | reference (id : Identifier)
  | enterFunction
  | allowVararg
  | leaveFunction

/-- The control flow of the open functions, what was found wrong in them, and the globals that were used. -/
@[ext] structure Track where
  flow : Flow
  outer : List Flow
  errors : List Diagnostic
  globals : List String

def Track.follow (t : Track) : Cue → Track
  | .openBlock isLoop => { t with flow := t.flow.pushScope isLoop }
  | .closeBlock => { t with flow := t.flow.popScope.2, errors := t.errors ++ t.flow.popScope.1 }
  | .addLocal name => { t with flow := t.flow.addLocal name }
  | .goto label => { t with flow := t.flow.addGoto label.name label.span }
  | .label label =>
    { t with
      flow := (t.flow.addLabel label.name label.span).2
      errors := t.errors ++ (t.flow.addLabel label.name label.span).1.toList }
  | .proper _ => { t with flow := t.flow.raiseDeferred.2, errors := t.errors ++ t.flow.raiseDeferred.1 }
  | .breakLoop near span =>
    if t.flow.inLoop then t else { t with errors := t.errors ++ [{ fault := .noLoopToBreak near, span }] }
  | .vararg span =>
    if t.flow.allowVararg then t else { t with errors := t.errors ++ [{ fault := .varargNotAllowed "...", span }] }
  | .reference id =>
    if id.isLocal || t.globals.contains id.name then t else { t with globals := t.globals ++ [id.name] }
  | .enterFunction => { t with flow := {}, outer := t.flow :: t.outer }
  | .allowVararg => { t with flow := { t.flow with allowVararg := true } }
  | .leaveFunction =>
    match t.outer with
    | [] => t
    | flow :: outer => { t with flow, outer }

def Track.along (t : Track) (cues : List Cue) : Track := cues.foldl Track.follow t

@[simp] theorem Track.along_nil (t : Track) : t.along [] = t := rfl

@[simp] theorem Track.along_cons (t : Track) (cue : Cue) (cues : List Cue) :
    t.along (cue :: cues) = (t.follow cue).along cues := rfl

@[simp] theorem Track.along_append (t : Track) (cues more : List Cue) :
    t.along (cues ++ more) = (t.along cues).along more :=
  List.foldl_append

/-! ### The cues of a tree -/

namespace Cues

def locals (ids : List Identifier) : List Cue := ids.map fun id => .addLocal id.name

def parameter : Parameter → Cue
  | .name id => .addLocal id.name
  | .vararg _ => .allowVararg

/-- Whether line ends are shown in the last clause of an if statement on one line. They are not when the keyword ends its
line, since a regular block follows then. -/
def shownInElse (ts : List Token) : List Clause → Bool
  | [] => true
  | first :: _ => !endsLine ts first.span.stop

def opening : Stmt → List Cue
  | .label .. => []
  | .inclusion .. => []
  | s => [.proper s]

variable (ts : List Token)

mutual

def expression : Expr → List Cue
  | .vararg span => [.vararg span]
  | .binary _ left right _ => expression left ++ expression right
  | .logical _ left right _ => expression left ++ expression right
  | .unary _ argument _ => expression argument
  | .member base _ _ _ => expression base
  | .index base key _ => expression base ++ expression key
  | .call base arguments _ => expression base ++ expressions arguments
  | .tableCall base argument _ => expression base ++ table argument
  | .stringCall base argument _ => expression base ++ expression argument
  | .table t => table t
  | .function f => function f
  | .name id => [.reference id]
  | .string .. => []
  | .number .. => []
  | .boolean .. => []
  | .nil _ => []

def expressions : List Expr → List Cue
  | [] => []
  | e :: rest => expression e ++ expressions rest

def optionalExpression : Option Expr → List Cue
  | none => []
  | some e => expression e

def table : Table → List Cue
  | ⟨fs, _⟩ => fields fs

def fields : List Field → List Cue
  | [] => []
  | f :: rest => field f ++ fields rest

def field : Field → List Cue
  | .keyed key value _ => expression key ++ expression value
  | .named _ value _ => expression value
  | .positional value _ => expression value

/-- The cues of a function. Line ends are not shown in it. -/
def function : FunctionBody → List Cue
  | ⟨parameters, body, _⟩ =>
    [.enterFunction, .openBlock false] ++ parameters.map parameter ++ statements false body ++
      [.closeBlock, .leaveFunction]

def statements (newlines : Bool) : List Stmt → List Cue
  | [] => []
  | s :: rest => opening s ++ statement newlines s ++ statements newlines rest

/-- The cues of clauses; `later` says whether line ends are shown behind the first one. -/
def clauses (newlines later : Bool) : List Clause → List Cue
  | [] => []
  | c :: rest => clause newlines c ++ clauses later later rest

def clause (newlines : Bool) : Clause → List Cue
  | .ifThen condition body _ =>
    expression condition ++ .openBlock false :: statements newlines body ++ [.closeBlock]
  | .elseIf condition body _ =>
    expression condition ++ .openBlock false :: statements newlines body ++ [.closeBlock]
  | .otherwise body _ => .openBlock false :: statements newlines body ++ [.closeBlock]

def statement (newlines : Bool) : Stmt → List Cue
  | .assignment targets _ values _ => expressions targets ++ expressions values
  | .declare ids values _ => locals ids ++ expressions values
  | .call e _ => expression e
  | .block body _ => .openBlock false :: statements newlines body ++ [.closeBlock]
  | .whileLoop condition body _ =>
    expression condition ++ .openBlock true :: statements newlines body ++ [.closeBlock]
  | .repeatLoop body condition _ =>
    .openBlock true :: statements newlines body ++ expression condition ++ [.closeBlock]
  | .branch cs oneLine _ =>
    if oneLine then clauses true (shownInElse ts cs) cs else clauses newlines newlines cs
  | .forNumeric counter first last step body _ =>
    .openBlock true :: expression first ++ expression last ++ optionalExpression step ++
      .addLocal counter.name :: statements newlines body ++ [.closeBlock]
  | .forGeneric ids iterators body _ =>
    .openBlock true :: expressions iterators ++ locals ids ++ statements newlines body ++ [.closeBlock]
  | .function name isLocal f =>
    (if isLocal then (name.root?.map fun id => Cue.addLocal id.name).toList else expression name) ++
      function f
  | .ret values _ => expressions values
  | .breakLoop span => [.breakLoop (nearText ts newlines span.stop) span]
  | .goto label _ => [.goto label]
  | .label label _ => [.label label]
  | .inclusion .. => []

end

theorem expression_dyadic (op : DyadicOp) (left right : Expr) (span : Span) :
    expression ts (.dyadic op left right span) = expression ts left ++ expression ts right := by
  cases op <;> rw [Expr.dyadic, expression]

theorem expressions_toList (step : Option Expr) :
    expressions ts step.toList = optionalExpression ts step := by
  cases step <;> simp [expressions, optionalExpression]

theorem statements_append (newlines : Bool) (xs ys : List Stmt) :
    statements ts newlines (xs ++ ys) = statements ts newlines xs ++ statements ts newlines ys := by
  induction xs with
  | nil => rfl
  | cons s rest ih => simp [statements, ih]

theorem clauses_append (newlines : Bool) (xs ys : List Clause) :
    clauses ts newlines newlines (xs ++ ys) = clauses ts newlines newlines xs ++ clauses ts newlines newlines ys := by
  induction xs with
  | nil => rfl
  | cons c rest ih => simp [clauses, ih]

end Cues

end CartLua
