import CartLua.Token.Basic
import CartLua.Token.LongBracket
import CartLua.Token.Quoted
/-!
# Lexemes

A lexeme is one token, or one wrong token, at the head of a text. It is read without knowing where the text stands,
apart from the number of its line, which some messages show, and whether the line is blank up to here.
-/

namespace CartLua

/-- One token or one wrong token. It always has a first character, so that reading makes progress. -/
structure Lexeme where
  /-- The number of characters behind the first one. -/
  more : Nat
  outcome : Except Flaw (TokenKind × List Char)
deriving Inhabited

namespace Lexeme

def token (text : List Char) (more : Nat) (kind : TokenKind) : Lexeme := ⟨more, .ok (kind, text.take (more + 1))⟩

/-- A wrong token of `more + 1` characters whose fault covers all of it. -/
def wrong (more : Nat) (fault : Fault) : Lexeme := ⟨more, .error ⟨fault, 0, more + 1⟩⟩

def startsName (c : Char) : Bool := c.isAlpha || c == '_' || 0x80 ≤ c.toNat

def continuesName (c : Char) : Bool := startsName c || c.isDigit

def wordKind (word : List Char) : TokenKind :=
  match String.ofList word with
  | "true" => .boolean true
  | "false" => .boolean false
  | "nil" => .nil
  | text =>
    match Keyword.ofText? text with
    | some k => .keyword k
    | none => .identifier

def decoded (mode : Encoding) (value : List Char) : Option String :=
  if mode.discards then none else some (String.ofList value)

/-- A string in quotes. An unfinished one takes the whole text with it, since nothing sensible follows. -/
def quoted (mode : Encoding) (quote : Char) (rest : List Char) : Lexeme :=
  match Quoted.read mode quote 1 rest with
  | .unfinished offset =>
    ⟨rest.length, .error ⟨.unfinishedString (String.ofList ((quote :: rest).take offset)), 0, offset⟩⟩
  | .closed offset _ (some flaw) => ⟨offset - 1, .error flaw⟩
  | .closed offset value none => token (quote :: rest) (offset - 1) (.string (decoded mode value))

def longString (mode : Encoding) (line level : Nat) (rest : List Char) : Lexeme :=
  match LongBracket.read? level ('[' :: rest) with
  | none => wrong rest.length (.unfinishedLongString line)
  | some (contents, length) =>
    match mode.offending? contents with
    | some c => wrong (length - 1) (.characterNotAllowed c)
    | none => token ('[' :: rest) (length - 1) (.string (decoded mode contents))

def numeral (text : List Char) : Lexeme :=
  match Numeral.read text with
  | (some value, length) => token text (length - 1) (.number value)
  | (none, length) => wrong (length - 1) (.malformedNumber (String.ofList (text.take length)))

/-- The rest of an include line. Its text is the target alone. -/
def directive (rest : List Char) : Lexeme :=
  let line := rest.takeWhile (· != '\n')
  ⟨line.length, .ok (.directive, trimBlanks (line.drop 7))⟩

def word (c : Char) (rest : List Char) : Lexeme :=
  let more := (rest.takeWhile continuesName).length
  token (c :: rest) more (wordKind ((c :: rest).take (more + 1)))

def sign (c : Char) (rest : List Char) : Lexeme :=
  if ['.', '.', '.'].isPrefixOf (c :: rest) then token (c :: rest) 2 .vararg
  else
    match Symbol.read? (c :: rest) with
    | some s => token (c :: rest) (s.chars.length - 1) (.symbol s)
    | none => wrong 0 (.unexpectedCharacter c)

def read (mode : Encoding) (line : Nat) (fresh : Bool) (c : Char) (rest : List Char) : Lexeme :=
  if c = '"' ∨ c = '\'' then quoted mode c rest
  else if c.isDigit || (c == '.' && rest.head?.any Char.isDigit) then numeral (c :: rest)
  else
    match LongBracket.level? (c :: rest) with
    | some level => longString mode line level rest
    | none =>
      if c = '#' ∧ fresh ∧ "include".toList.isPrefixOf rest then directive rest
      else if startsName c then word c rest
      else sign c rest

theorem isLexical_of_read {mode : Encoding} {line : Nat} {fresh : Bool} {c : Char} {rest : List Char} {lexeme : Lexeme} (hread : lexeme = read mode line fresh c rest) {flaw : Flaw}
    (h : lexeme.outcome = .error flaw) : flaw.fault.isLexical = true := by
  unfold read at hread
  split at hread
  · subst hread
    unfold quoted at h
    split at h
    · cases h
      rfl
    next hquoted =>
      cases h
      exact (Quoted.isPartFault_of_read hquoted).isLexical
    · cases h
  split at hread
  · subst hread
    unfold numeral at h
    split at h
    · cases h
    · cases h
      rfl
  split at hread
  · subst hread
    unfold longString at h
    split at h
    · cases h
      rfl
    · split at h
      · cases h
        rfl
      · cases h
  split at hread
  · subst hread
    cases h
  split at hread
  · subst hread
    cases h
  · subst hread
    unfold sign at h
    split at h
    · cases h
    · split at h
      · cases h
      · cases h
        rfl

end Lexeme

end CartLua
