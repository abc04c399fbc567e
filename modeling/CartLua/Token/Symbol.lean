/-!
# Symbols

Operators, brackets and separators. Where several symbols fit, the longest one is read.
-/

namespace CartLua

inductive Symbol where
  | ushrAssign | rotlAssign | rotrAssign
  | concatAssign | ushr | rotl | rotr | shlAssign | shrAssign | xorAssign
  | concat | doubleColon | equal | tildeEqual | bangEqual | lessEqual | greaterEqual | shl | shr | xor
  | plusAssign | minusAssign | starAssign | slashAssign | backslashAssign | percentAssign | caretAssign | barAssign
  | ampersandAssign
  | plus | minus | star | slash | backslash | percent | caret | hash | ampersand | tilde | bar | less | greater | assign
  | leftParen | rightParen | leftBrace | rightBrace | leftBracket | rightBracket
  | semicolon | colon | comma | dot | atSign | dollar | question
deriving DecidableEq, Inhabited, Repr

namespace Symbol

def chars : Symbol → List Char
  | .ushrAssign => ['>', '>', '>', '=']
  | .rotlAssign => ['<', '<', '>', '=']
  | .rotrAssign => ['>', '>', '<', '=']
  | .concatAssign => ['.', '.', '=']
  | .ushr => ['>', '>', '>']
  | .rotl => ['<', '<', '>']
  | .rotr => ['>', '>', '<']
  | .shlAssign => ['<', '<', '=']
  | .shrAssign => ['>', '>', '=']
  | .xorAssign => ['^', '^', '=']
  | .concat => ['.', '.']
  | .doubleColon => [':', ':']
  | .equal => ['=', '=']
  | .tildeEqual => ['~', '=']
  | .bangEqual => ['!', '=']
  | .lessEqual => ['<', '=']
  | .greaterEqual => ['>', '=']
  | .shl => ['<', '<']
  | .shr => ['>', '>']
  | .xor => ['^', '^']
  | .plusAssign => ['+', '=']
  | .minusAssign => ['-', '=']
  | .starAssign => ['*', '=']
  | .slashAssign => ['/', '=']
  | .backslashAssign => ['\\', '=']
  | .percentAssign => ['%', '=']
  | .caretAssign => ['^', '=']
  | .barAssign => ['|', '=']
  | .ampersandAssign => ['&', '=']
  | .plus => ['+']
  | .minus => ['-']
  | .star => ['*']
  | .slash => ['/']
  | .backslash => ['\\']
  | .percent => ['%']
  | .caret => ['^']
  | .hash => ['#']
  | .ampersand => ['&']
  | .tilde => ['~']
  | .bar => ['|']
  | .less => ['<']
  | .greater => ['>']
  | .assign => ['=']
  | .leftParen => ['(']
  | .rightParen => [')']
  | .leftBrace => ['{']
  | .rightBrace => ['}']
  | .leftBracket => ['[']
  | .rightBracket => [']']
  | .semicolon => [';']
  | .colon => [':']
  | .comma => [',']
  | .dot => ['.']
  | .atSign => ['@']
  | .dollar => ['$']
  | .question => ['?']

def text (s : Symbol) : String := String.ofList s.chars

def all : List Symbol :=
  [.ushrAssign, .rotlAssign, .rotrAssign,
    .concatAssign, .ushr, .rotl, .rotr, .shlAssign, .shrAssign, .xorAssign,
    .concat, .doubleColon, .equal, .tildeEqual, .bangEqual, .lessEqual, .greaterEqual, .shl, .shr, .xor,
    .plusAssign, .minusAssign, .starAssign, .slashAssign, .backslashAssign, .percentAssign, .caretAssign, .barAssign,
    .ampersandAssign,
    .plus, .minus, .star, .slash, .backslash, .percent, .caret, .hash, .ampersand, .tilde, .bar, .less, .greater,
    .assign, .leftParen, .rightParen, .leftBrace, .rightBrace, .leftBracket, .rightBracket, .semicolon, .colon, .comma,
    .dot, .atSign, .dollar, .question]

def read? (text : List Char) : Option Symbol := all.find? (·.chars.isPrefixOf text)

def ofChars? (text : List Char) : Option Symbol := all.find? (·.chars == text)

end Symbol

end CartLua
