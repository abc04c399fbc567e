import CartLua.Token.Basic
/-!
# Operators

The operators of expressions and assignments, the symbols they are written with and how tightly they bind.
-/

namespace CartLua

inductive BinaryOp where
  | pow | mul | div | mod | intDiv | add | sub | concat
  | shl | shr | logicalShr | rotateLeft | rotateRight | bitAnd | bitXor | bitOr
  | eq | ne | lt | le | gt | ge
deriving DecidableEq, Inhabited, Repr

namespace BinaryOp

/-- The operator a symbol stands for. Inequality has two symbols. -/
def ofSymbol? : Symbol → Option BinaryOp
  | .caret => some .pow
  | .star => some .mul
  | .slash => some .div
  | .percent => some .mod
  | .backslash => some .intDiv
  | .plus => some .add
  | .minus => some .sub
  | .concat => some .concat
  | .shl => some .shl
  | .shr => some .shr
  | .ushr => some .logicalShr
  | .rotl => some .rotateLeft
  | .rotr => some .rotateRight
  | .ampersand => some .bitAnd
  | .xor => some .bitXor
  | .bar => some .bitOr
  | .equal => some .eq
  | .tildeEqual | .bangEqual => some .ne
  | .less => some .lt
  | .lessEqual => some .le
  | .greater => some .gt
  | .greaterEqual => some .ge
  | _ => none

def symbol : BinaryOp → Symbol
  | .pow => .caret
  | .mul => .star
  | .div => .slash
  | .mod => .percent
  | .intDiv => .backslash
  | .add => .plus
  | .sub => .minus
  | .concat => .concat
  | .shl => .shl
  | .shr => .shr
  | .logicalShr => .ushr
  | .rotateLeft => .rotl
  | .rotateRight => .rotr
  | .bitAnd => .ampersand
  | .bitXor => .xor
  | .bitOr => .bar
  | .eq => .equal
  | .ne => .tildeEqual
  | .lt => .less
  | .le => .lessEqual
  | .gt => .greater
  | .ge => .greaterEqual

theorem ofSymbol?_symbol (op : BinaryOp) : ofSymbol? op.symbol = some op := by cases op <;> rfl

/-- Binding strength; the stronger operator takes the operand between two. -/
def precedence : BinaryOp → Nat
  | .pow => 12
  | .mul | .div | .mod | .intDiv => 10
  | .add | .sub => 9
  | .concat => 8
  | .shl | .shr | .logicalShr | .rotateLeft | .rotateRight => 7
  | .bitAnd => 6
  | .bitXor => 5
  | .bitOr => 4
  | .eq | .ne | .lt | .le | .gt | .ge => 3

def isRightAssociative : BinaryOp → Bool
  | .pow | .concat => true
  | _ => false

def ofChars? (text : List Char) : Option BinaryOp := (Symbol.ofChars? text).bind ofSymbol?

end BinaryOp

/-- An operator that may leave its right operand alone. -/
inductive LogicalOp where
  | and | or
deriving DecidableEq, Inhabited, Repr

namespace LogicalOp

def ofKeyword? : Keyword → Option LogicalOp
  | .andKw => some .and
  | .orKw => some .or
  | _ => none

def keyword : LogicalOp → Keyword
  | .and => .andKw
  | .or => .orKw

def precedence : LogicalOp → Nat
  | .and => 2
  | .or => 1

end LogicalOp

inductive DyadicOp where
  | binary (op : BinaryOp)
  | logical (op : LogicalOp)
deriving DecidableEq, Inhabited, Repr

namespace DyadicOp

def ofToken? (t : Token) : Option DyadicOp :=
  match t.kind with
  | .symbol s => (BinaryOp.ofSymbol? s).map .binary
  | .keyword k => (LogicalOp.ofKeyword? k).map .logical
  | _ => none

def ofText? (text : String) : Option DyadicOp :=
  (BinaryOp.ofChars? text.toList).map .binary <|> ((Keyword.ofText? text).bind LogicalOp.ofKeyword?).map .logical

def precedence : DyadicOp → Nat
  | .binary op => op.precedence
  | .logical op => op.precedence

/-- What the right operand has to bind more tightly than. -/
def rightPrecedence : DyadicOp → Nat
  | .binary op => if op.isRightAssociative then op.precedence - 1 else op.precedence
  | .logical op => op.precedence

end DyadicOp

inductive UnaryOp where
  | neg | len | not | bitNot | peek | peek2 | peek4
deriving DecidableEq, Inhabited, Repr

namespace UnaryOp

def ofSymbol? : Symbol → Option UnaryOp
  | .minus => some .neg
  | .hash => some .len
  | .tilde => some .bitNot
  | .atSign => some .peek
  | .percent => some .peek2
  | .dollar => some .peek4
  | _ => none

def ofKeyword? : Keyword → Option UnaryOp
  | .notKw => some .not
  | _ => none

def ofToken? (t : Token) : Option UnaryOp :=
  match t.kind with
  | .symbol s => ofSymbol? s
  | .keyword k => ofKeyword? k
  | _ => none

def ofText? (text : String) : Option UnaryOp :=
  (Symbol.ofChars? text.toList).bind ofSymbol? <|> (Keyword.ofText? text).bind ofKeyword?

def text : UnaryOp → String
  | .neg => Symbol.minus.text
  | .len => Symbol.hash.text
  | .not => Keyword.notKw.text
  | .bitNot => Symbol.tilde.text
  | .peek => Symbol.atSign.text
  | .peek2 => Symbol.percent.text
  | .peek4 => Symbol.dollar.text

/-- What the operand has to bind more tightly than; only powers do. -/
def operandPrecedence : Nat := 10

end UnaryOp

inductive AssignOp where
  | assign
  /-- The target is an operand of its own new value. -/
  | compound (op : BinaryOp)
deriving DecidableEq, Inhabited, Repr

namespace AssignOp

def ofSymbol? : Symbol → Option AssignOp
  | .assign => some .assign
  | .caretAssign => some (.compound .pow)
  | .starAssign => some (.compound .mul)
  | .slashAssign => some (.compound .div)
  | .percentAssign => some (.compound .mod)
  | .backslashAssign => some (.compound .intDiv)
  | .plusAssign => some (.compound .add)
  | .minusAssign => some (.compound .sub)
  | .concatAssign => some (.compound .concat)
  | .shlAssign => some (.compound .shl)
  | .shrAssign => some (.compound .shr)
  | .ushrAssign => some (.compound .logicalShr)
  | .rotlAssign => some (.compound .rotateLeft)
  | .rotrAssign => some (.compound .rotateRight)
  | .ampersandAssign => some (.compound .bitAnd)
  | .xorAssign => some (.compound .bitXor)
  | .barAssign => some (.compound .bitOr)
  | _ => none

def ofToken? (t : Token) : Option AssignOp :=
  match t.kind with
  | .symbol s => ofSymbol? s
  | _ => none

/-- The stems that make a comparison with an equal sign. -/
def comparisonStems : List (List Char) := [['='], ['<'], ['>'], ['~'], ['!']]

/-- The operator that is written with these characters: an equal sign alone, or one behind an operator where that is no
comparison. -/
def ofChars? (text : List Char) : Option AssignOp :=
  if text = ['='] then some .assign
  else if text.getLast? = some '=' then
    let stem := text.dropLast
    if comparisonStems.contains stem then none else (BinaryOp.ofChars? stem).map .compound
  else none

theorem ofChars?_chars (s : Symbol) : ofChars? s.chars = ofSymbol? s := by cases s <;> decide

def isCompound : AssignOp → Bool
  | .assign => false
  | .compound _ => true

end AssignOp

inductive Indexer where
  | dot | colon
deriving DecidableEq, Inhabited, Repr

def Indexer.char : Indexer → Char
  | .dot => '.'
  | .colon => ':'

end CartLua
