import CartLua.Grammar.Statement
import CartLua.Proofs.Spelling
/-!
# Rendering

Every tree that the grammar can give is written down again as a list of tokens: statements stand behind semicolons, and
parentheses stand only where the strength of operators or the base of a chain demands them. `WellFormed` says which trees
the grammar can give, and `Bare` leaves from a tree what is not in its tokens.
-/

namespace CartLua

open List

/-! ### Where parentheses are needed -/

/-- What the left operand has to bind more tightly than. -/
def DyadicOp.leftPrecedence (op : DyadicOp) : Nat :=
  if op.rightPrecedence < op.precedence then op.precedence else op.precedence - 1

namespace Expr

/-- The operator between the parts of an expression. -/
def dyadicOp? : Expr → Option DyadicOp
  | .binary op .. => some (.binary op)
  | .logical op .. => some (.logical op)
  | _ => none

def isUnary : Expr → Bool
  | .unary .. => true
  | _ => false

/-- Whether the operator of the expression does not bind more tightly than `precedence`. -/
def isLooser (e : Expr) (precedence : Nat) : Bool := e.dyadicOp?.any (·.precedence ≤ precedence)

/-- Whether the expression needs parentheses as the left operand of `op`. What a unary operator stands before must not
take `op` with it. -/
def isLooserThan (e : Expr) (op : DyadicOp) : Bool :=
  e.isLooser op.leftPrecedence || (e.isUnary && decide (UnaryOp.operandPrecedence < op.precedence))

/-- Whether a suffix can follow the expression without parentheses. -/
def isPrefix : Expr → Bool
  | .name _ | .member .. | .index .. | .call .. | .tableCall .. | .stringCall .. => true
  | _ => false

def isCall : Expr → Bool
  | .call .. | .tableCall .. | .stringCall .. => true
  | _ => false

/-- Whether something can be assigned to the expression. -/
def isTarget : Expr → Bool
  | .name _ | .member .. | .index .. => true
  | _ => false

def isString : Expr → Bool
  | .string .. => true
  | _ => false

end Expr

def AssignOp.symbol? (op : AssignOp) : Option Symbol := Symbol.all.find? fun s => AssignOp.ofSymbol? s == some op

def Stmt.isReturn : Stmt → Bool
  | .ret .. => true
  | _ => false

/-! ### Rendering -/

namespace Render

def sign (s : Symbol) : Spelling := ⟨.symbol s, s.text⟩

def word (k : Keyword) : Spelling := ⟨.keyword k, k.text⟩

def name (id : Identifier) : Spelling := ⟨.identifier, id.name⟩

def dots : Spelling := ⟨.vararg, "..."⟩

def indexer : Indexer → Spelling
  | .dot => sign .dot
  | .colon => sign .colon

def dyadic : DyadicOp → Spelling
  | .binary op => sign op.symbol
  | .logical op => word op.keyword

def unary : UnaryOp → Spelling
  | .neg => sign .minus
  | .len => sign .hash
  | .not => word .notKw
  | .bitNot => sign .tilde
  | .peek => sign .atSign
  | .peek2 => sign .percent
  | .peek4 => sign .dollar

def assign (op : AssignOp) : Spelling := sign (op.symbol?.getD .assign)

def names : List Identifier → List Spelling
  | [] => []
  | id :: ids => name id :: ids.flatMap fun id => [sign .comma, name id]

def parameter : Parameter → Spelling
  | .name id => name id
  | .vararg _ => dots

def parameters : List Parameter → List Spelling
  | [] => []
  | p :: ps => parameter p :: ps.flatMap fun p => [sign .comma, parameter p]

/-- Puts parentheses around tokens where they are needed. -/
def parens (needed : Bool) (ws : List Spelling) : List Spelling :=
  if needed then sign .leftParen :: ws ++ [sign .rightParen] else ws

mutual

def expression : Expr → List Spelling
  | .name id => [name id]
  | .string value raw _ => [⟨.string value, raw⟩]
  | .number value raw _ => [⟨.number value, raw⟩]
  | .boolean value _ => [⟨.boolean value, if value then "true" else "false"⟩]
  | .nil _ => [⟨.nil, "nil"⟩]
  | .vararg _ => [dots]
  | .binary op left right _ =>
    parens (left.isLooserThan (.binary op)) (expression left) ++ dyadic (.binary op) ::
      parens (right.isLooser (DyadicOp.binary op).rightPrecedence) (expression right)
  | .logical op left right _ =>
    parens (left.isLooserThan (.logical op)) (expression left) ++ dyadic (.logical op) ::
      parens (right.isLooser (DyadicOp.logical op).rightPrecedence) (expression right)
  | .unary op argument _ => unary op :: parens (argument.isLooser UnaryOp.operandPrecedence) (expression argument)
  | .member base indexer key _ => parens (!base.isPrefix) (expression base) ++ [Render.indexer indexer, name key]
  | .index base key _ =>
    parens (!base.isPrefix) (expression base) ++ sign .leftBracket :: expression key ++ [sign .rightBracket]
  | .call base arguments _ =>
    parens (!base.isPrefix) (expression base) ++ sign .leftParen :: expressions arguments ++ [sign .rightParen]
  | .tableCall base argument _ => parens (!base.isPrefix) (expression base) ++ table argument
  | .stringCall base argument _ => parens (!base.isPrefix) (expression base) ++ expression argument
  | .table t => table t
  | .function f => word .functionKw :: functionBody f

def expressions : List Expr → List Spelling
  | [] => []
  | e :: es => expression e ++ moreExpressions es

def moreExpressions : List Expr → List Spelling
  | [] => []
  | e :: es => sign .comma :: expression e ++ moreExpressions es

def field : Field → List Spelling
  | .keyed key value _ =>
    sign .leftBracket :: expression key ++ sign .rightBracket :: sign .assign :: expression value
  | .named key value _ => name key :: sign .assign :: expression value
  | .positional value _ => expression value

def fields : List Field → List Spelling
  | [] => []
  | f :: fs => field f ++ moreFields fs

def moreFields : List Field → List Spelling
  | [] => []
  | f :: fs => sign .comma :: field f ++ moreFields fs

def table : Table → List Spelling
  | ⟨fs, _⟩ => sign .leftBrace :: fields fs ++ [sign .rightBrace]

/-- The parameters and the body of a function up to its end. -/
def functionBody : FunctionBody → List Spelling
  | ⟨ps, body, _⟩ => sign .leftParen :: parameters ps ++ sign .rightParen :: statements body ++ [word .endKw]

def clause : Clause → List Spelling
  | .ifThen condition body _ => word .ifKw :: expression condition ++ word .thenKw :: statements body
  | .elseIf condition body _ => word .elseifKw :: expression condition ++ word .thenKw :: statements body
  | .otherwise body _ => word .elseKw :: statements body

def clauses : List Clause → List Spelling
  | [] => []
  | cl :: cls => clause cl ++ clauses cls

def step : Option Expr → List Spelling
  | none => []
  | some e => sign .comma :: expression e

def statement : Stmt → List Spelling
  | .assignment targets op values _ => expressions targets ++ assign op :: expressions values
  | .declare ids [] _ => word .localKw :: names ids
  | .declare ids (e :: es) _ => word .localKw :: names ids ++ sign .assign :: expressions (e :: es)
  | .call e _ => expression e
  | .block body _ => word .doKw :: statements body ++ [word .endKw]
  | .whileLoop condition body _ =>
    word .whileKw :: expression condition ++ word .doKw :: statements body ++ [word .endKw]
  | .repeatLoop body condition _ => word .repeatKw :: statements body ++ word .untilKw :: expression condition
  | .branch cls _ _ => clauses cls ++ [word .endKw]
  | .forNumeric counter first last byStep body _ =>
    word .forKw :: name counter :: sign .assign :: expression first ++ sign .comma :: expression last ++ step byStep ++
      word .doKw :: statements body ++ [word .endKw]
  | .forGeneric ids iterators body _ =>
    word .forKw :: names ids ++ word .inKw :: expressions iterators ++ word .doKw :: statements body ++ [word .endKw]
  | .function e true f => word .localKw :: word .functionKw :: expression e ++ functionBody f
  | .function e false f => word .functionKw :: expression e ++ functionBody f
  | .ret values _ => word .returnKw :: expressions values
  | .breakLoop _ => [word .breakKw]
  | .goto label _ => [word .gotoKw, name label]
  | .label label _ => [sign .doubleColon, name label, sign .doubleColon]
  | .inclusion .. => []

def statements : List Stmt → List Spelling
  | [] => []
  | s :: rest => statement s ++ moreStatements rest

def moreStatements : List Stmt → List Spelling
  | [] => []
  | s :: rest => sign .semicolon :: statement s ++ moreStatements rest

end

theorem expression_dyadic (op : DyadicOp) (left right : Expr) (span : Span) :
    expression (.dyadic op left right span) =
      parens (left.isLooserThan op) (expression left) ++ dyadic op ::
        parens (right.isLooser op.rightPrecedence) (expression right) := by
  cases op <;> rw [Expr.dyadic, expression]

theorem statement_ret (values : List Expr) (span : Span) :
    statement (.ret values span) = word .returnKw :: expressions values := by
  rw [statement]

theorem moreExpressions_eq (es : List Expr) :
    moreExpressions es = es.flatMap fun e => sign .comma :: expression e := by
  induction es with
  | nil => rfl
  | cons e es ih => rw [moreExpressions, ih, flatMap_cons]

theorem clauses_eq_flatMap (cls : List Clause) : clauses cls = cls.flatMap clause := by
  induction cls with
  | nil => rfl
  | cons cl cls ih => rw [clauses, ih, flatMap_cons]

theorem length_le_statements {stmt : Stmt} {body : Block} (h : stmt ∈ body) : (statement stmt).length ≤ (statements body).length := by
  have hmore : ∀ body : Block, stmt ∈ body → (statement stmt).length ≤ (moreStatements body).length := by
    intro body h
    induction body with
    | nil => cases h
    | cons other body ih =>
      simp only [moreStatements, cons_append, length_cons, length_append]
      obtain rfl | hmem := mem_cons.mp h
      · omega
      · have := ih hmem
        omega
  cases body with
  | nil => cases h
  | cons other body =>
    rw [statements, length_append]
    obtain rfl | hmem := mem_cons.mp h
    · omega
    · have := hmore body hmem
      omega

/-- The text of a block: its tokens with blanks between them. -/
def text (body : Block) : String := Spelling.joined (statements body)

end Render

/-! ### Well-formed trees -/

namespace WellFormed

section

variable (mode : Encoding)

def name (id : Identifier) : Prop := (Render.name id).IsToken mode

def parameters : List Parameter → Prop
  | [] => True
  | .name id :: ps => name mode id ∧ parameters ps
  | .vararg _ :: ps => ps = []

/-- A name, or names with points between them. -/
def dottedName : Expr → Prop
  | .name id => name mode id
  | .member base .dot key _ => dottedName base ∧ name mode key
  | _ => False

/-- The name of a function, at last with a name behind a colon. -/
def functionName : Expr → Prop
  | .member base .colon key _ => dottedName mode base ∧ name mode key
  | e => dottedName mode e

def localName : Expr → Prop
  | .name id => name mode id
  | _ => False

mutual

/-- An expression, where a member behind a colon may stand only as the function that is called. -/
def expression (isCallee : Bool) : Expr → Prop
  | .name id => name mode id
  | .string value raw _ => Spelling.IsToken mode ⟨.string value, raw⟩
  | .number value raw _ => Spelling.IsToken mode ⟨.number value, raw⟩
  | .boolean .. | .nil _ | .vararg _ => True
  | .binary _ left right _ | .logical _ left right _ => expression false left ∧ expression false right
  | .unary _ argument _ => expression false argument
  | .member base indexer key _ => (indexer = .colon → isCallee = true) ∧ expression false base ∧ name mode key
  | .index base key _ => expression false base ∧ expression false key
  | .call base arguments _ => expression true base ∧ expressions arguments
  | .tableCall base argument _ => expression true base ∧ table argument
  | .stringCall base argument _ => expression true base ∧ argument.isString = true ∧ expression false argument
  | .table t => table t
  | .function f => functionBody f

def expressions : List Expr → Prop
  | [] => True
  | e :: es => expression false e ∧ expressions es

def field : Field → Prop
  | .keyed key value _ => expression false key ∧ expression false value
  | .named key value _ => name mode key ∧ expression false value
  | .positional value _ => expression false value

def fields : List Field → Prop
  | [] => True
  | f :: fs => field f ∧ fields fs

def table : Table → Prop
  | ⟨fs, _⟩ => fields fs

def functionBody : FunctionBody → Prop
  | ⟨ps, body, _⟩ => parameters mode ps ∧ statements body

def otherClauses : List Clause → Prop
  | [] => True
  | .ifThen .. :: _ => False
  | .elseIf condition body _ :: cls => expression false condition ∧ statements body ∧ otherClauses cls
  | .otherwise body _ :: cls => statements body ∧ cls = []

def clauses : List Clause → Prop
  | .ifThen condition body _ :: cls => expression false condition ∧ statements body ∧ otherClauses cls
  | _ => False

def step : Option Expr → Prop
  | none => True
  | some e => expression false e

def statement : Stmt → Prop
  | .assignment targets op values _ =>
    (targets ≠ [] ∧ (∀ e ∈ targets, e.isTarget = true) ∧ expressions targets) ∧
      op.symbol?.isSome = true ∧ values ≠ [] ∧ (op.isCompound = true → values.length = 1) ∧ expressions values
  | .declare ids values _ => ids ≠ [] ∧ (∀ id ∈ ids, name mode id) ∧ expressions values
  | .call e _ => e.isCall = true ∧ expression false e
  | .block body _ => statements body
  | .whileLoop condition body _ => expression false condition ∧ statements body
  | .repeatLoop body condition _ => statements body ∧ expression false condition
  | .branch cls oneLine _ => oneLine = false ∧ clauses cls
  | .forNumeric counter first last byStep body _ =>
    name mode counter ∧ expression false first ∧ expression false last ∧ step byStep ∧ statements body
  | .forGeneric ids iterators body _ =>
    (ids ≠ [] ∧ ∀ id ∈ ids, name mode id) ∧ iterators ≠ [] ∧ expressions iterators ∧ statements body
  | .function e true f => localName mode e ∧ functionBody f
  | .function e false f => functionName mode e ∧ functionBody f
  | .ret values _ => expressions values
  | .breakLoop _ => True
  | .goto label _ | .label label _ => name mode label
  | .inclusion .. => False

/-- Statements, of which only the last one may be a return. -/
def statements : List Stmt → Prop
  | [] => True
  | s :: rest => statement s ∧ (s.isReturn = true → rest = []) ∧ statements rest

end

theorem expression_dyadic {isCallee : Bool} {op : DyadicOp} {left right : Expr} {span : Span} :
    expression mode isCallee (.dyadic op left right span) ↔ expression mode false left ∧ expression mode false right := by
  cases op <;> rw [Expr.dyadic, expression]

theorem clauses_iff {cls : List Clause} :
    clauses mode cls ↔ ∃ condition body span others, cls = .ifThen condition body span :: others ∧
      expression mode false condition ∧ statements mode body ∧ otherClauses mode others := by
  constructor
  · intro h
    cases cls with
    | nil =>
      rw [clauses] at h
      · exact h.elim
      · exact nofun
    | cons cl cls =>
      cases cl with
      | ifThen condition body span =>
        exact ⟨condition, body, span, cls, rfl, h⟩
      | elseIf | otherwise =>
        rw [clauses] at h
        · exact h.elim
        · exact nofun
  · rintro ⟨condition, body, span, others, rfl, h⟩
    exact h

end

end WellFormed

/-! ### Bare trees -/

namespace Bare

def name (id : Identifier) : Identifier := { name := id.name, span := default }

def parameter : Parameter → Parameter
  | .name id => .name (name id)
  | .vararg _ => .vararg default

mutual

/-- The tree without the places of its parts and without the note which names are locals. -/
def expression : Expr → Expr
  | .name id => .name (name id)
  | .string value raw _ => .string value raw default
  | .number value raw _ => .number value raw default
  | .boolean value _ => .boolean value default
  | .nil _ => .nil default
  | .vararg _ => .vararg default
  | .binary op left right _ => .binary op (expression left) (expression right) default
  | .logical op left right _ => .logical op (expression left) (expression right) default
  | .unary op argument _ => .unary op (expression argument) default
  | .member base indexer key _ => .member (expression base) indexer (name key) default
  | .index base key _ => .index (expression base) (expression key) default
  | .call base arguments _ => .call (expression base) (expressions arguments) default
  | .tableCall base argument _ => .tableCall (expression base) (table argument) default
  | .stringCall base argument _ => .stringCall (expression base) (expression argument) default
  | .table t => .table (table t)
  | .function f => .function (functionBody f)

def expressions : List Expr → List Expr
  | [] => []
  | e :: es => expression e :: expressions es

def field : Field → Field
  | .keyed key value _ => .keyed (expression key) (expression value) default
  | .named key value _ => .named (name key) (expression value) default
  | .positional value _ => .positional (expression value) default

def fields : List Field → List Field
  | [] => []
  | f :: fs => field f :: fields fs

def table : Table → Table
  | ⟨fs, _⟩ => ⟨fields fs, default⟩

def functionBody : FunctionBody → FunctionBody
  | ⟨ps, body, _⟩ => ⟨ps.map parameter, statements body, default⟩

def clause : Clause → Clause
  | .ifThen condition body _ => .ifThen (expression condition) (statements body) default
  | .elseIf condition body _ => .elseIf (expression condition) (statements body) default
  | .otherwise body _ => .otherwise (statements body) default

def clauses : List Clause → List Clause
  | [] => []
  | cl :: cls => clause cl :: clauses cls

def step : Option Expr → Option Expr
  | none => none
  | some e => some (expression e)

def statement : Stmt → Stmt
  | .assignment targets op values _ => .assignment (expressions targets) op (expressions values) default
  | .declare ids values _ => .declare (ids.map name) (expressions values) default
  | .call e _ => .call (expression e) default
  | .block body _ => .block (statements body) default
  | .whileLoop condition body _ => .whileLoop (expression condition) (statements body) default
  | .repeatLoop body condition _ => .repeatLoop (statements body) (expression condition) default
  | .branch cls oneLine _ => .branch (clauses cls) oneLine default
  | .forNumeric counter first last byStep body _ =>
    .forNumeric (name counter) (expression first) (expression last) (step byStep) (statements body) default
  | .forGeneric ids iterators body _ =>
    .forGeneric (ids.map name) (expressions iterators) (statements body) default
  | .function e isLocal f => .function (expression e) isLocal (functionBody f)
  | .ret values _ => .ret (expressions values) default
  | .breakLoop _ => .breakLoop default
  | .goto label _ => .goto (name label) default
  | .label label _ => .label (name label) default
  | .inclusion target _ => .inclusion target default

def statements : List Stmt → List Stmt
  | [] => []
  | s :: rest => statement s :: statements rest

end

theorem expression_dyadic (op : DyadicOp) (left right : Expr) (span : Span) :
    expression (.dyadic op left right span) = .dyadic op (expression left) (expression right) default := by
  cases op <;> rw [Expr.dyadic, expression, Expr.dyadic]

theorem statement_ret (values : List Expr) (span : Span) : statement (.ret values span) = .ret (expressions values) default := by
  rw [statement]

theorem expressions_eq_map (es : List Expr) : expressions es = es.map expression := by
  induction es with
  | nil => rw [expressions, map_nil]
  | cons e es ih => rw [expressions, ih, map_cons]

theorem clauses_eq_map (cls : List Clause) : clauses cls = cls.map clause := by
  induction cls with
  | nil => rw [clauses, map_nil]
  | cons cl cls ih => rw [clauses, ih, map_cons]

end Bare

/-! ### Rendered tokens are lexemes -/

namespace Render

variable {mode : Encoding} {e : Expr} {ps : List Parameter}

theorem isLexeme_sign (s : Symbol) : (sign s).IsLexeme mode := by
  cases s <;> exact ⟨⟨_, _, rfl, rfl, rfl, rfl⟩, TokenKind.noConfusion⟩

theorem isLexeme_word (k : Keyword) : (word k).IsLexeme mode := by
  cases k <;> exact ⟨⟨_, _, rfl, rfl, rfl, rfl⟩, TokenKind.noConfusion⟩

theorem isLexeme_name {id : Identifier} (h : WellFormed.name mode id) : (name id).IsLexeme mode :=
  h.isLexeme TokenKind.noConfusion

theorem isLexeme_dots : dots.IsLexeme mode := ⟨⟨_, _, rfl, rfl, rfl, rfl⟩, TokenKind.noConfusion⟩

theorem isLexeme_boolean (value : Bool) :
    Spelling.IsLexeme mode ⟨.boolean value, if value then "true" else "false"⟩ := by
  cases value <;> exact ⟨⟨_, _, rfl, rfl, rfl, rfl⟩, TokenKind.noConfusion⟩

theorem isLexeme_nil : Spelling.IsLexeme mode ⟨.nil, "nil"⟩ := ⟨⟨_, _, rfl, rfl, rfl, rfl⟩, TokenKind.noConfusion⟩

theorem isLexeme_dyadic (op : DyadicOp) : (dyadic op).IsLexeme mode := by
  cases op with
  | binary op => exact isLexeme_sign op.symbol
  | logical op => exact isLexeme_word op.keyword

theorem isLexeme_unary (op : UnaryOp) : (unary op).IsLexeme mode := by
  cases op with
  | not => exact isLexeme_word .notKw
  | neg | len | bitNot | peek | peek2 | peek4 => exact isLexeme_sign _

theorem isLexeme_indexer (ix : Indexer) : (indexer ix).IsLexeme mode := by
  cases ix <;> exact isLexeme_sign _

def AreLexemes (mode : Encoding) (ws : List Spelling) : Prop := ∀ w ∈ ws, w.IsLexeme mode

namespace AreLexemes

variable {w : Spelling} {ws vs : List Spelling}

theorem nil : AreLexemes mode [] := fun _ hw => absurd hw not_mem_nil

theorem cons (hw : w.IsLexeme mode) (hws : AreLexemes mode ws) : AreLexemes mode (w :: ws) :=
  forall_mem_cons.mpr ⟨hw, hws⟩

theorem append (hws : AreLexemes mode ws) (hvs : AreLexemes mode vs) : AreLexemes mode (ws ++ vs) :=
  forall_mem_append.mpr ⟨hws, hvs⟩

theorem singleton (hw : w.IsLexeme mode) : AreLexemes mode [w] := cons hw nil

theorem sign (s : Symbol) (hws : AreLexemes mode ws) : AreLexemes mode (sign s :: ws) := cons (isLexeme_sign s) hws

theorem word (k : Keyword) (hws : AreLexemes mode ws) : AreLexemes mode (word k :: ws) := cons (isLexeme_word k) hws

theorem parens (needed : Bool) (hws : AreLexemes mode ws) : AreLexemes mode (parens needed ws) := by
  cases needed with
  | false => exact hws
  | true => exact (hws.sign .leftParen).append (nil.sign .rightParen)

end AreLexemes

theorem lexemes_names {ids : List Identifier} (h : ∀ id ∈ ids, WellFormed.name mode id) :
    AreLexemes mode (names ids) := by
  cases ids with
  | nil => exact .nil
  | cons id =>
    refine .cons (isLexeme_name (h id mem_cons_self)) fun w hw => ?_
    obtain ⟨other, hother, hw⟩ := mem_flatMap.mp hw
    exact AreLexemes.sign .comma (.singleton (isLexeme_name (h other (mem_cons_of_mem _ hother)))) w hw

theorem isLexeme_parameter (h : WellFormed.parameters mode ps) :
    ∀ p ∈ ps, (parameter p).IsLexeme mode := by
  induction ps with
  | nil => exact fun _ hp => absurd hp not_mem_nil
  | cons p ps ih =>
    cases p with
    | name => exact forall_mem_cons.mpr ⟨isLexeme_name h.1, ih h.2⟩
    | vararg =>
      obtain rfl : ps = [] := h
      exact forall_mem_cons.mpr ⟨isLexeme_dots, fun _ hp => absurd hp not_mem_nil⟩

theorem lexemes_parameters (h : WellFormed.parameters mode ps) :
    AreLexemes mode (parameters ps) := by
  have hall := isLexeme_parameter h
  cases ps with
  | nil => exact .nil
  | cons p =>
    refine .cons (hall p mem_cons_self) fun w hw => ?_
    obtain ⟨other, hother, hw⟩ := mem_flatMap.mp hw
    exact AreLexemes.sign .comma (.singleton (hall other (mem_cons_of_mem _ hother))) w hw

theorem lexemes_dottedName (h : WellFormed.dottedName mode e) : AreLexemes mode (expression e) ∧ e.isPrefix = true := by
  fun_induction WellFormed.dottedName mode e with
  | case1 id => exact ⟨.singleton (isLexeme_name h), rfl⟩
  | case2 base key span ih =>
    obtain ⟨hbase, hprefix⟩ := ih h.1
    refine ⟨?_, rfl⟩
    exact (hbase.parens _).append (.cons (isLexeme_indexer _) (.singleton (isLexeme_name h.2)))
  | case3 => exact h.elim

theorem lexemes_functionName (h : WellFormed.functionName mode e) : AreLexemes mode (expression e) := by
  unfold WellFormed.functionName at h
  split at h
  next base key span =>
    exact ((lexemes_dottedName h.1).1.parens _).append
      (.cons (isLexeme_indexer _) (.singleton (isLexeme_name h.2)))
  · exact (lexemes_dottedName h).1

theorem lexemes_localName (h : WellFormed.localName mode e) : AreLexemes mode (expression e) := by
  unfold WellFormed.localName at h
  split at h
  · exact .singleton (isLexeme_name h)
  · exact h.elim

mutual

theorem lexemes_expression {isCallee : Bool} (e : Expr) (h : WellFormed.expression mode isCallee e) :
    AreLexemes mode (expression e) := by
  cases e with
  | name =>
    exact .singleton (isLexeme_name h)
  | string | number =>
    exact .singleton (h.isLexeme TokenKind.noConfusion)
  | boolean value =>
    exact .singleton (isLexeme_boolean value)
  | nil =>
    exact .singleton isLexeme_nil
  | vararg =>
    exact .singleton isLexeme_dots
  | binary op left right | logical op left right =>
    exact ((lexemes_expression left h.1).parens _).append
      (.cons (isLexeme_dyadic _) ((lexemes_expression right h.2).parens _))
  | unary op argument =>
    exact .cons (isLexeme_unary op) ((lexemes_expression argument h).parens _)
  | member base =>
    exact ((lexemes_expression base h.2.1).parens _).append
      (.cons (isLexeme_indexer _) (.singleton (isLexeme_name h.2.2)))
  | index base key =>
    exact (((lexemes_expression base h.1).parens _).append ((lexemes_expression key h.2).sign _)).append (.sign _ .nil)
  | call base arguments =>
    exact (((lexemes_expression base h.1).parens _).append ((lexemes_expressions arguments h.2).1.sign _)).append
      (.sign _ .nil)
  | tableCall base argument =>
    exact ((lexemes_expression base h.1).parens _).append (lexemes_table argument h.2)
  | stringCall base argument =>
    exact ((lexemes_expression base h.1).parens _).append (lexemes_expression argument h.2.2)
  | table t =>
    exact lexemes_table t h
  | function f =>
    exact (lexemes_functionBody f h).word _

theorem lexemes_expressions (es : List Expr) (h : WellFormed.expressions mode es) :
    AreLexemes mode (expressions es) ∧ AreLexemes mode (moreExpressions es) := by
  cases es with
  | nil =>
    exact ⟨.nil, .nil⟩
  | cons e es =>
    have he := lexemes_expression e h.1
    have hes := (lexemes_expressions es h.2).2
    exact ⟨he.append hes, (he.sign _).append hes⟩

theorem lexemes_field (f : Field) (h : WellFormed.field mode f) : AreLexemes mode (field f) := by
  cases f with
  | keyed key value =>
    exact ((lexemes_expression key h.1).sign _).append (((lexemes_expression value h.2).sign _).sign _)
  | named key value =>
    exact .cons (isLexeme_name h.1) ((lexemes_expression value h.2).sign _)
  | positional value =>
    exact lexemes_expression value h

theorem lexemes_fields (fs : List Field) (h : WellFormed.fields mode fs) :
    AreLexemes mode (fields fs) ∧ AreLexemes mode (moreFields fs) := by
  cases fs with
  | nil =>
    exact ⟨.nil, .nil⟩
  | cons f fs =>
    have hf := lexemes_field f h.1
    have hfs := (lexemes_fields fs h.2).2
    exact ⟨hf.append hfs, (hf.sign _).append hfs⟩

theorem lexemes_table (t : Table) (h : WellFormed.table mode t) : AreLexemes mode (table t) := by
  obtain ⟨fs, span⟩ := t
  exact ((lexemes_fields fs h).1.sign _).append (.sign _ .nil)

theorem lexemes_functionBody (f : FunctionBody) (h : WellFormed.functionBody mode f) :
    AreLexemes mode (functionBody f) := by
  obtain ⟨ps, body, span⟩ := f
  exact (((lexemes_parameters h.1).sign _).append ((lexemes_statements body h.2).1.sign _)).append (.word _ .nil)

theorem lexemes_otherClauses (cls : List Clause) (h : WellFormed.otherClauses mode cls) :
    AreLexemes mode (clauses cls) := by
  cases cls with
  | nil =>
    exact .nil
  | cons cl cls =>
    cases cl with
    | ifThen =>
      exact h.elim
    | elseIf condition body =>
      exact (((lexemes_expression condition h.1).word _).append ((lexemes_statements body h.2.1).1.word _)).append
        (lexemes_otherClauses cls h.2.2)
    | otherwise body =>
      obtain ⟨hbody, rfl⟩ := h
      exact ((lexemes_statements body hbody).1.word _).append .nil

theorem lexemes_clauses (cls : List Clause) (h : WellFormed.clauses mode cls) : AreLexemes mode (clauses cls) := by
  have hfirst := (WellFormed.clauses_iff mode).mp h
  cases cls with
  | nil =>
    obtain ⟨_, _, _, _, heq, -⟩ := hfirst
    cases heq
  | cons cl cls =>
    cases cl with
    | ifThen condition body =>
      exact (((lexemes_expression condition h.1).word _).append ((lexemes_statements body h.2.1).1.word _)).append
        (lexemes_otherClauses cls h.2.2)
    | elseIf | otherwise =>
      obtain ⟨_, _, _, _, heq, -⟩ := hfirst
      cases heq

theorem lexemes_statement (s : Stmt) (h : WellFormed.statement mode s) : AreLexemes mode (statement s) := by
  cases s with
  | assignment targets op values =>
    exact (lexemes_expressions targets h.1.2.2).1.append ((lexemes_expressions values h.2.2.2.2).1.sign _)
  | declare ids values =>
    have hids := lexemes_names h.2.1
    have hvalues := (lexemes_expressions values h.2.2).1
    cases values with
    | nil =>
      exact hids.word _
    | cons =>
      exact (hids.word _).append (hvalues.sign _)
  | call e =>
    exact lexemes_expression e h.2
  | block body =>
    exact ((lexemes_statements body h).1.word _).append (.word _ .nil)
  | whileLoop condition body =>
    exact (((lexemes_expression condition h.1).word _).append ((lexemes_statements body h.2).1.word _)).append
      (.word _ .nil)
  | repeatLoop body condition =>
    exact ((lexemes_statements body h.1).1.word _).append ((lexemes_expression condition h.2).word _)
  | branch cls =>
    exact (lexemes_clauses cls h.2).append (.word _ .nil)
  | forNumeric counter first last byStep body =>
    obtain ⟨hcounter, hfirst, hlast, hstep, hbody⟩ := h
    have hstep : AreLexemes mode (step byStep) := by
      cases byStep with
      | none =>
        exact .nil
      | some e =>
        exact (lexemes_expression e hstep).sign _
    exact ((((AreLexemes.cons (isLexeme_name hcounter) ((lexemes_expression first hfirst).sign _)).word _).append
      ((lexemes_expression last hlast).sign _)).append hstep).append ((lexemes_statements body hbody).1.word _) |>.append
        (.word _ .nil)
  | forGeneric ids iterators body =>
    obtain ⟨⟨-, hids⟩, -, hiterators, hbody⟩ := h
    exact ((((lexemes_names hids).word _).append ((lexemes_expressions iterators hiterators).1.word _)).append
      ((lexemes_statements body hbody).1.word _)).append (.word _ .nil)
  | function e isLocal f =>
    cases isLocal with
    | true =>
      exact (((lexemes_localName h.1).word _).word _).append (lexemes_functionBody f h.2)
    | false =>
      exact ((lexemes_functionName h.1).word _).append (lexemes_functionBody f h.2)
  | ret values =>
    exact (lexemes_expressions values h).1.word _
  | breakLoop =>
    exact .word _ .nil
  | goto =>
    exact .word _ (.singleton (isLexeme_name h))
  | label =>
    exact .sign _ (.cons (isLexeme_name h) (.sign _ .nil))
  | inclusion =>
    exact .nil

theorem lexemes_statements (body : List Stmt) (h : WellFormed.statements mode body) :
    AreLexemes mode (statements body) ∧ AreLexemes mode (moreStatements body) := by
  cases body with
  | nil =>
    exact ⟨.nil, .nil⟩
  | cons s rest =>
    have hs := lexemes_statement s h.1
    have hrest := (lexemes_statements rest h.2.2).2
    exact ⟨hs.append hrest, (hs.sign _).append hrest⟩

end

end Render

end CartLua
