import CartLua.Grammar.Statement
/-!
# Programs

The grammar of all nesting depths, and reading a whole program with it.
-/

namespace CartLua

open Parse

/-- The grammar of constructs that are nested `depth` deep at most. Where that many levels are left at most, the depth is
never the limit: a construct spends a level for every depth it goes down. -/
def grammar : (depth : Nat) → Grammar
  | 0 => { expression := fun _ _ => tooManyLevels, statement := fun _ => tooManyLevels }
  | depth + 1 =>
    { expression := fun levels precedence => (grammar depth).operators? levels precedence
      statement := fun levels => (grammar depth).anyStatement levels }

structure Program where
  body : Block
  errors : List Diagnostic
  /-- Names of globals in order of first appearance. -/
  globals : List String
  /-- Paths of all documents, by their numbers. -/
  files : List String
  span : Span
deriving Inhabited

namespace Program

/-- One round of reading the whole text: a block, and a token behind it that closes no block. -/
def textStep (block : Parse Block) : Parse (List Stmt × Bool) := do
  let body ← block
  if (← token).isEof then return (body, false)
  else
    report [← look (·.unexpectedToken)]
    skipToken
    return (body, true)

/-- Reads the whole text as the body of a function with any number of arguments. A token that closes no block is reported
and skipped. -/
def wholeText (levels : Nat) : Parse Block := do
  openBlock false
  openScope
  let body ← collect (textStep ((grammar (levels + 1)).block levels))
  closeScope
  closeBlock
  return body

def settings (options : Options) (source : String) : Settings :=
  { encoding := options.encoding, store := options.store, rounds := roundsBound source options.store }

def start (options : Options) (source name : String) : Session :=
  let (fault, window) := (Window.ofText options.encoding source 0).start
  { window, files := #[Path.normalize name], errors := fault.toArray }

def run (options : Options) (source name : String) : Outcome Block :=
  (wholeText options.maxDepth).run (settings options source) (start options source name)

def ofSessions (body : Block) (first last : Session) : Program :=
  { body
    errors := last.errors.toList
    globals := last.globals.toList
    files := last.files.toList
    span := ⟨first.window.token.span.start, last.window.token.span.stop⟩ }

/-- Reads the program `source` of the document `name`. The run always gives a body. -/
def parse (options : Options) (source name : String) : Program :=
  let first := start options source name
  match run options source name with
  | .ok body last => ofSessions body first last
  | .fault _ last => ofSessions [] first last
  | .exhausted => ofSessions [] first first

end Program

end CartLua
