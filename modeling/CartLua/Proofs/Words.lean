import CartLua.Parse.Basic
import CartLua.Tree.Basic
/-!
# The words of a program

Names, literals, `...` and operators stand in the text as tokens and in the syntax tree as parts of its nodes. Both are
listed here in the order of the text. What else a text contains is punctuation and keywords, which only show how the
tree is put together.
-/

namespace CartLua

/-- A token that a syntax tree keeps. -/
inductive Word where
  | name (text : String)
  | string (value : Option String) (raw : String)
  | number (value : Float) (raw : String)
  | boolean (value : Bool)
  | nil
  | vararg
  /-- An operator that is written as a symbol. -/
  | operator (sign : Symbol)
  /-- One of the operators that are written as words. -/
  | connective (k : Keyword)
  /-- The operator of a compound assignment. -/
  | compound (op : BinaryOp)

/-- What a symbol is in expressions and compound assignments. Both signs of inequality are the same operator. -/
def Symbol.word? (sign : Symbol) : Option Word :=
  match BinaryOp.ofSymbol? sign, UnaryOp.ofSymbol? sign, AssignOp.ofSymbol? sign with
  | some op, _, _ => some (.operator op.symbol)
  | none, some _, _ => some (.operator sign)
  | none, none, some (.compound op) => some (.compound op)
  | _, _, _ => none

def Keyword.word? (k : Keyword) : Option Word :=
  match k with
  | .andKw | .orKw | .notKw => some (.connective k)
  | _ => none

def Token.word? (t : Token) : Option Word :=
  match t.kind with
  | .identifier => some (.name t.text)
  | .string value => some (.string value t.text)
  | .number value => some (.number value t.text)
  | .boolean value => some (.boolean value)
  | .nil => some .nil
  | .vararg => some .vararg
  | .symbol sign => sign.word?
  | .keyword k => k.word?
  | .eof | .newline | .directive => none

theorem Token.word?_of_isEof {t : Token} (h : t.isEof = true) : t.word? = none := by
  unfold Token.isEof at h
  unfold Token.word?
  split <;> simp_all

def Terminal.word? : Terminal → Option Word
  | .symbol sign => sign.word?
  | .keyword k => k.word?

def Terminal.kind : Terminal → TokenKind
  | .symbol sign => .symbol sign
  | .keyword k => .keyword k

variable {terminal : Terminal}

theorem Token.is_iff_kind {k : Token} : k.is terminal = true ↔ k.kind = terminal.kind := by
  cases terminal <;> cases hkind : k.kind <;> simp [Token.is, Token.isSymbol, Token.isKeyword, Terminal.kind, hkind]

theorem Token.word?_of_is {k : Token} (h : k.is terminal = true) : k.word? = terminal.word? := by
  rw [Token.is_iff_kind] at h
  cases terminal <;> simp [Token.word?, Terminal.word?, Terminal.kind, h]

def Token.words (ts : List Token) : List Word := ts.filterMap Token.word?

theorem Token.words_append (xs ys : List Token) : Token.words (xs ++ ys) = Token.words xs ++ Token.words ys :=
  List.filterMap_append

def UnaryOp.word : UnaryOp → Word
  | .neg => .operator .minus
  | .len => .operator .hash
  | .not => .connective .notKw
  | .bitNot => .operator .tilde
  | .peek => .operator .atSign
  | .peek2 => .operator .percent
  | .peek4 => .operator .dollar

/-- A plain assignment has no operator of its own. -/
def AssignOp.words : AssignOp → List Word
  | .assign => []
  | .compound op => [.compound op]

/-- Whether the name stands in the text. The callee of the shorthand for printing does not. -/
def Identifier.isWritten (id : Identifier) : Bool := id.span.stop.index == id.span.start.index + id.name.length

def Parameter.word : Parameter → Word
  | .name id => .name id.name
  | .vararg _ => .vararg

/-- The word of an operator between two operands. -/
def DyadicOp.word : DyadicOp → Word
  | .binary op => .operator op.symbol
  | .logical op => .connective op.keyword

namespace Words

def names (ids : List Identifier) : List Word := ids.map fun id => .name id.name

mutual

def expression : Expr → List Word
  | .name id => if id.isWritten then [.name id.name] else []
  | .string value raw _ => [.string value raw]
  | .number value raw _ => [.number value raw]
  | .boolean value _ => [.boolean value]
  | .nil _ => [.nil]
  | .vararg _ => [.vararg]
  | .binary op left right _ => expression left ++ .operator op.symbol :: expression right
  | .logical op left right _ => expression left ++ .connective op.keyword :: expression right
  | .unary op argument _ => op.word :: expression argument
  | .member base _ key _ => expression base ++ [.name key.name]
  | .index base key _ => expression base ++ expression key
  | .call base arguments _ => expression base ++ expressions arguments
  | .tableCall base argument _ => expression base ++ table argument
  | .stringCall base argument _ => expression base ++ expression argument
  | .table t => table t
  | .function f => function f

def expressions : List Expr → List Word
  | [] => []
  | e :: rest => expression e ++ expressions rest

def optionalExpression : Option Expr → List Word
  | none => []
  | some e => expression e

def table : Table → List Word
  | ⟨fs, _⟩ => fields fs

def fields : List Field → List Word
  | [] => []
  | f :: rest => field f ++ fields rest

def field : Field → List Word
  | .keyed key value _ => expression key ++ expression value
  | .named key value _ => .name key.name :: expression value
  | .positional value _ => expression value

def function : FunctionBody → List Word
  | ⟨parameters, body, _⟩ => parameters.map Parameter.word ++ statements body

def statements : List Stmt → List Word
  | [] => []
  | s :: rest => statement s ++ statements rest

def clauses : List Clause → List Word
  | [] => []
  | c :: rest => clause c ++ clauses rest

def clause : Clause → List Word
  | .ifThen condition body _ => expression condition ++ statements body
  | .elseIf condition body _ => expression condition ++ statements body
  | .otherwise body _ => statements body

def statement : Stmt → List Word
  | .assignment targets op values _ => expressions targets ++ op.words ++ expressions values
  | .declare ids values _ => names ids ++ expressions values
  | .call e _ => expression e
  | .block body _ => statements body
  | .whileLoop condition body _ => expression condition ++ statements body
  | .repeatLoop body condition _ => statements body ++ expression condition
  | .branch cs _ _ => clauses cs
  | .forNumeric counter first last step body _ =>
    .name counter.name :: expression first ++ expression last ++ optionalExpression step ++ statements body
  | .forGeneric ids iterators body _ => names ids ++ expressions iterators ++ statements body
  | .function name _ f => expression name ++ function f
  | .ret values _ => expressions values
  | .breakLoop _ => []
  | .goto label _ => [.name label.name]
  | .label label _ => [.name label.name]
  | .inclusion .. => []

end

theorem expression_dyadic (op : DyadicOp) (left right : Expr) (span : Span) :
    expression (.dyadic op left right span) = expression left ++ op.word :: expression right := by
  cases op <;> rw [Expr.dyadic, expression, DyadicOp.word]

theorem expressions_toList (step : Option Expr) : expressions step.toList = optionalExpression step := by
  cases step <;> simp [expressions, optionalExpression]

theorem statements_append (xs ys : List Stmt) : statements (xs ++ ys) = statements xs ++ statements ys := by
  induction xs with
  | nil => rfl
  | cons s rest ih => simp [statements, ih]

theorem clauses_append (xs ys : List Clause) : clauses (xs ++ ys) = clauses xs ++ clauses ys := by
  induction xs with
  | nil => rfl
  | cons c rest ih => simp [clauses, ih]

end Words

end CartLua
