import CartLua.Source.Position
import CartLua.Template
/-!
# Diagnostics

What can be wrong with a program. A fault names its cause; its wording is in `Fault.template` and nowhere else.
-/

namespace CartLua

inductive Fault where
  -- Reading the text
  | unexpectedCharacter (c : Char)
  | unfinishedString (raw : String)
  | malformedNumber (raw : String)
  | decimalEscapeTooLarge (near : String)
  | invalidEscape (near : String)
  | hexDigitExpected (near : String)
  | codePointTooLarge (near : String)
  | unfinishedLongString (line : Nat)
  | unfinishedLongComment (line : Nat)
  | characterNotAllowed (c : Char)
  -- Grammar
  | unexpectedToken (kind text near : String)
  | unexpectedEnd
  | wordExpected (word near : String)
  | partExpected (part near : String)
  | tooManyLevels
  -- Control flow
  | noLoopToBreak (near : String)
  | labelDefined (name : String) (line : Nat)
  | labelNotVisible (name : String)
  | jumpIntoLocal (target crossed : String)
  | varargNotAllowed (near : String)
  -- Include lines
  | circularInclude
  | includeNotFound (target : String)
  | includeNotFile (target : String)
  | includeUnreadable (target reason : String)
deriving DecidableEq, Inhabited, Repr

namespace Fault

/-- Whether the fault is one of jumps, labels or `...`, which leaves the syntax in order. -/
def isFlow : Fault → Bool
  | .noLoopToBreak _ | .labelDefined .. | .labelNotVisible _ | .jumpIntoLocal .. | .varargNotAllowed _ => true
  | _ => false

def isInclude : Fault → Bool
  | .circularInclude | .includeNotFound _ | .includeNotFile _ | .includeUnreadable .. => true
  | _ => false

def isLexical : Fault → Bool
  | .unexpectedCharacter _ | .unfinishedString _ | .malformedNumber _ | .decimalEscapeTooLarge _ | .invalidEscape _
  | .hexDigitExpected _ | .codePointTooLarge _ | .unfinishedLongString _ | .unfinishedLongComment _
  | .characterNotAllowed _ => true
  | _ => false

theorem isFlow_of_isLexical {f : Fault} (h : f.isLexical = true) : f.isFlow = false := by
  cases f <;> first | rfl | cases h

theorem isInclude_of_isLexical {f : Fault} (h : f.isLexical = true) : f.isInclude = false := by
  cases f <;> first | rfl | cases h

/-- The number of a character in upper-case hexadecimal, with four digits at least. -/
def characterCode (c : Char) : String :=
  let digits := (Nat.toDigits 16 c.toNat).map Char.toUpper
  String.ofList (List.replicate (4 - digits.length) '0' ++ digits)

def template : Fault → String
  | .unexpectedCharacter _ | .unexpectedToken .. => "unexpected %1 '%2' near '%3'"
  | .unfinishedString _ => "unfinished string near '%1'"
  | .malformedNumber _ => "malformed number near '%1'"
  | .decimalEscapeTooLarge _ => "decimal escape too large near '%1'"
  | .invalidEscape _ => "invalid escape sequence near '%1'"
  | .hexDigitExpected _ => "hexadecimal digit expected near '%1'"
  | .codePointTooLarge _ => "UTF-8 value too large near '%1'"
  | .unfinishedLongString _ => "unfinished long string (starting at line %1) near '%2'"
  | .unfinishedLongComment _ => "unfinished long comment (starting at line %1) near '%2'"
  | .characterNotAllowed _ => "code unit U+%1 is not allowed in the current encoding mode"
  | .unexpectedEnd => "unexpected symbol near '<eof>'"
  | .wordExpected .. => "'%1' expected near '%2'"
  | .partExpected .. => "%1 expected near '%2'"
  | .tooManyLevels => "chunk has too many syntax levels"
  | .noLoopToBreak _ => "no loop to break near '%1'"
  | .labelDefined .. => "label '%1' already defined on line %2"
  | .labelNotVisible _ => "no visible label '%1' for goto"
  | .jumpIntoLocal .. => "<goto %1> jumps into the scope of local '%2'"
  | .varargNotAllowed _ => "cannot use '...' outside a vararg function near '%1'"
  | .circularInclude => "circular #includes"
  | .includeNotFound _ => "#include target '%1' does not exist"
  | .includeNotFile _ => "#include target '%1' is not a file"
  | .includeUnreadable .. => "could not read #include target '%1': %2"

def arguments : Fault → List String
  | .unexpectedCharacter c => ["symbol", c.toString, c.toString]
  | .unexpectedToken kind text near => [kind, text, near]
  | .unfinishedString raw | .malformedNumber raw => [raw]
  | .decimalEscapeTooLarge near | .invalidEscape near | .hexDigitExpected near | .codePointTooLarge near => [near]
  | .unfinishedLongString line | .unfinishedLongComment line => [toString line, "<eof>"]
  | .characterNotAllowed c => [characterCode c]
  | .unexpectedEnd | .tooManyLevels | .circularInclude => []
  | .wordExpected word near => [word, near]
  | .partExpected part near => [part, near]
  | .noLoopToBreak near | .varargNotAllowed near => [near]
  | .labelDefined name line => [name, toString line]
  | .labelNotVisible name => [name]
  | .jumpIntoLocal target crossed => [target, crossed]
  | .includeNotFound target | .includeNotFile target => [target]
  | .includeUnreadable target reason => [target, reason]

def message (fault : Fault) : String := Template.fill fault.template fault.arguments

end Fault

structure Diagnostic where
  fault : Fault
  span : Span
  /-- The including documents, outermost first, of a fault inside nested includes. -/
  includeChain : List String := []
deriving DecidableEq, Inhabited, Repr

def Diagnostic.message (d : Diagnostic) : String := d.fault.message

/-- What a program does that is allowed and yet suspicious. -/
inductive Concern where
  | undefinedVariable (name : String)
  | unusedLocal (name : String)
  | unusedParameter (name : String)
deriving DecidableEq, Inhabited, Repr

def Concern.message : Concern → String
  | .undefinedVariable name => Template.fill "undefined variable: %1" [name]
  | .unusedLocal name => Template.fill "unused local variable: %1" [name]
  | .unusedParameter name => Template.fill "unused function parameter: %1" [name]

structure Warning where
  concern : Concern
  span : Span
deriving DecidableEq, Inhabited, Repr

def Warning.message (w : Warning) : String := w.concern.message

end CartLua
