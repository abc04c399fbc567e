import CartLua.Diagnostic
import CartLua.Encoding
import CartLua.Text.Blank
import CartLua.Token.Numeral
/-!
# Escape sequences

The part of a string literal that starts with a backslash. What an escape means does not depend on the encoding: it
stands for bytes, or it is one of the control codes of the console, which keep their backslash.
-/

namespace CartLua

inductive EscapeFlaw where
  | hexDigitExpected
  | decimalTooLarge
  | codePointTooLarge
  | invalid
deriving DecidableEq, Inhabited, Repr

def EscapeFlaw.fault (flaw : EscapeFlaw) (near : String) : Fault :=
  match flaw with
  | .hexDigitExpected => .hexDigitExpected near
  | .decimalTooLarge => .decimalEscapeTooLarge near
  | .codePointTooLarge => .codePointTooLarge near
  | .invalid => .invalidEscape near

inductive Escape where
  | bytes (bs : List UInt8)
  | control (c : Char)
  | wrong (flaw : EscapeFlaw)
deriving DecidableEq, Inhabited, Repr

namespace Escape

/-- The byte of an escape of one letter; a line feed stands for itself. -/
def named? : Char → Option UInt8
  | 'a' => some 0x07
  | 'b' => some 0x08
  | 'f' => some 0x0C
  | 'n' => some 0x0A
  | 'r' => some 0x0D
  | 't' => some 0x09
  | 'v' => some 0x0B
  | '\\' => some 0x5C
  | '"' => some 0x22
  | '\'' => some 0x27
  | '\n' => some 0x0A
  | _ => none

def isControl (c : Char) : Bool :=
  c == '*' || c == '#' || c == '-' || c == '|' || c == '+' || c == '^'

def hexByte (text : List Char) : Escape × Nat :=
  match text.head?.bind (Numeral.digit? 16), (text.drop 1).head?.bind (Numeral.digit? 16) with
  | some hi, some lo => (.bytes [UInt8.ofNat (hi * 16 + lo)], 2)
  | some _, none => (.wrong .hexDigitExpected, 1)
  | none, _ => (.wrong .hexDigitExpected, 0)

def decimalByte (text : List Char) : Escape × Nat :=
  let ds := (Numeral.digits 10 text).take 3
  let value := Numeral.ofDigits 10 ds
  (if value ≤ 255 then .bytes [UInt8.ofNat value] else .wrong .decimalTooLarge, ds.length)

def codePoint (text : List Char) : Escape × Nat :=
  match text with
  | '{' :: rest =>
    let ds := Numeral.digits 16 rest
    let value := Numeral.ofDigits 16 ds
    if ds.isEmpty || (rest.drop ds.length).head? != some '}' then (.wrong .hexDigitExpected, ds.length + 1)
    else if 0x7FFFFFFF < value then (.wrong .codePointTooLarge, ds.length + 2)
    else (.bytes (Encoding.codeUnits value), ds.length + 2)
  | _ => (.wrong .hexDigitExpected, 0)

/-- Reads the escape whose backslash stands right before `text`, with the number of characters that belong to it. A
backslash at the end of the text means nothing; the string is unfinished then. -/
def read : List Char → Escape × Nat
  | [] => (.bytes [], 0)
  | c :: rest =>
    match named? c with
    | some b => (.bytes [b], 1)
    | none =>
      if c = 'z' then (.bytes [], (rest.takeWhile isBlank).length + 1)
      else if c = 'x' then
        let (escape, length) := hexByte rest
        (escape, length + 1)
      else if Numeral.isDigit 10 c then decimalByte (c :: rest)
      else if c = 'u' then
        let (escape, length) := codePoint rest
        (escape, length + 1)
      else if isControl c then (.control c, 1)
      else (.wrong .invalid, 1)

def meaning (mode : Encoding) : Escape → List Char
  | .bytes bs => mode.bytes bs
  | .control c => ['\\', c]
  | .wrong _ => []

end Escape

end CartLua
