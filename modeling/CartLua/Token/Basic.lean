import CartLua.Source.Position
import CartLua.Token.Keyword
import CartLua.Token.Symbol
/-!
# Tokens
-/

namespace CartLua

/-- What a token is. Literals carry their value. -/
inductive TokenKind where
  | eof
  /-- The decoded contents, absent when strings are not decoded. -/
  | string (value : Option String)
  | keyword (word : Keyword)
  | identifier
  | number (value : Float)
  | symbol (sign : Symbol)
  | boolean (value : Bool)
  | nil
  | vararg
  /-- The end of a line, shown only where line ends matter. -/
  | newline
  | directive
deriving Inhabited, Repr

def TokenKind.describe : TokenKind → String
  | .eof => "<eof>"
  | .string _ => "string"
  | .keyword _ => "keyword"
  | .identifier => "identifier"
  | .number _ => "number"
  | .symbol _ => "symbol"
  | .boolean _ => "boolean"
  | .nil => "nil"
  | .vararg => "vararg"
  | .newline => "newline"
  | .directive => "directive"

structure Token where
  kind : TokenKind
  /-- The text of the token as it is written; the target of a directive. -/
  text : String
  span : Span
deriving Inhabited, Repr

namespace Token

def eof (p : Position) : Token := ⟨.eof, "<eof>", Span.point p⟩

def newline (p : Position) : Token := ⟨.newline, "<newline>", Span.point p⟩

variable (t : Token)

def isEof : Bool := t.kind matches .eof

def isNewline : Bool := t.kind matches .newline

def isIdentifier : Bool := t.kind matches .identifier

def isString : Bool := t.kind matches .string _

def isSymbol (s : Symbol) : Bool :=
  match t.kind with
  | .symbol s' => s' == s
  | _ => false

def isKeyword (k : Keyword) : Bool :=
  match t.kind with
  | .keyword k' => k' == k
  | _ => false

/-- Whether no statement can start here because the block or the text ends. -/
def closesBlock (t : Token) : Bool :=
  match t.kind with
  | .eof => true
  | .keyword k => k.closesBlock
  | _ => false

def describe : String := s!"{t.kind.describe} '{t.text}'"

end Token

end CartLua
