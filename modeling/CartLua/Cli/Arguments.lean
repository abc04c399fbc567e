import CartLua.Encoding
/-!
# Command lines

A command line names a command and its arguments. Options may stand anywhere; those behind the command win over those
before it, and on either side an option may be given once. Behind `--` everything is an argument.
-/

namespace CartLua.Cli

inductive Format where
  | text
  | json
deriving DecidableEq, Inhabited, Repr

inductive Command where
  | check (files : List String)
  | symbols (file : String)
  | lookup (file : String) (line column : Nat)
  | ast (file : String)
deriving DecidableEq, Inhabited, Repr

structure Request where
  command : Command
  encoding : Encoding := .discard
  maxDepth : Nat := 200
  format : Format := .text
deriving DecidableEq, Inhabited, Repr

/-- Reads a natural number below `2 ^ 64`. A plus sign may stand before it. -/
def natural? (text : String) : Option Nat :=
  let digits := match text.toList with
    | '+' :: rest => rest
    | chars => chars
  if digits.isEmpty || !digits.all Char.isDigit then none
  else
    let n := digits.foldl (fun n c => 10 * n + (c.toNat - '0'.toNat)) 0
    if n < 0x10000000000000000 then some n else none

def Format.ofName? : String → Option Format
  | "text" => some .text
  | "json" => some .json
  | _ => none

structure Given where
  encoding : Option Encoding := none
  maxDepth : Option Nat := none
  format : Option Format := none
deriving DecidableEq, Inhabited, Repr

namespace Given

def once {α : Type} (old new : Option α) : Option (Option α) := if old.isSome || new.isNone then none else some new

def set? (given : Given) (name value : String) : Option Given :=
  match name with
  | "encoding" => (once given.encoding (Encoding.ofName? value)).map fun encoding => { given with encoding }
  | "max-depth" => (once given.maxDepth (natural? value)).map fun maxDepth => { given with maxDepth }
  | "format" => (once given.format (Format.ofName? value)).map fun format => { given with format }
  | _ => none

/-- Both together, with the values of the first one where both have some. -/
def orElse (inner outer : Given) : Given :=
  { encoding := inner.encoding <|> outer.encoding
    maxDepth := inner.maxDepth <|> outer.maxDepth
    format := inner.format <|> outer.format }

def request (given : Given) (command : Command) : Request :=
  { command
    encoding := given.encoding.getD .discard
    maxDepth := given.maxDepth.getD 200
    format := given.format.getD .text }

end Given

inductive Word where
  | plain
  /-- An option, with its value if that is in the same word. -/
  | option (name : String) (value : Option String)
  | terminator
  /-- An option of one letter. There are none. -/
  | short
deriving DecidableEq, Inhabited, Repr

def Word.ofChars : List Char → Word
  | ['-', '-'] => .terminator
  | '-' :: '-' :: rest =>
    let name := rest.takeWhile (· != '=')
    match rest.drop name.length with
    | _ :: value => .option (String.ofList name) (some (String.ofList value))
    | [] => .option (String.ofList name) none
  | '-' :: _ :: _ => .short
  | _ => .plain

def arguments? (given : Given) : List String → Option (List String × Given)
  | [] => some ([], given)
  | word :: rest =>
    match Word.ofChars word.toList with
    | .plain => (arguments? given rest).map fun (words, given) => (word :: words, given)
    | .terminator => some (rest, given)
    | .short => none
    | .option name (some value) => (given.set? name value).bind (arguments? · rest)
    | .option name none =>
      match rest with
      | value :: rest => (given.set? name value).bind (arguments? · rest)
      | [] => none

def Command.ofWords? (name : String) (words : List String) : Option Command :=
  match name, words with
  | "check", files => if files.isEmpty || files.contains "" then none else some (.check files)
  | "symbols", [file] => if file = "" then none else some (.symbols file)
  | "ast", [file] => if file = "" then none else some (.ast file)
  | "lookup", [file, line, column] =>
    if file = "" then none
    else
      match natural? line, natural? column with
      | some line, some column => some (.lookup file line column)
      | _, _ => none
  | _, _ => none

def requestFrom? (given : Given) : List String → Option Request
  | [] => none
  | word :: rest =>
    match Word.ofChars word.toList with
    | .plain => do
      let (words, inner) ← arguments? {} rest
      let command ← Command.ofWords? word words
      return (inner.orElse given).request command
    | .terminator | .short => none
    | .option name (some value) => (given.set? name value).bind (requestFrom? · rest)
    | .option name none =>
      match rest with
      | value :: rest => (given.set? name value).bind (requestFrom? · rest)
      | [] => none

def Request.ofArguments? (args : List String) : Option Request := requestFrom? {} args

def Command.files : Command → List String
  | .check files => files
  | .symbols file | .lookup file _ _ | .ast file => [file]

end CartLua.Cli
