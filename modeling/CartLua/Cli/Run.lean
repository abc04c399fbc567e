import CartLua.Cli.Arguments
import CartLua.Include.Folder
import CartLua.Json.Printer
import CartLua.Readable
/-!
# Commands

What the commands write, and the code they end with: zero if all went well, one if a program has errors, if there is
nothing to show or if a document cannot be read, and two if the command line makes no sense.
-/

namespace CartLua.Cli

/-- What a run leaves behind. -/
structure Outcome where
  code : Nat := 0
  output : String := ""
  errors : String := ""
deriving DecidableEq, Inhabited, Repr

def usage : String :=
  "usage: check FILE... | symbols FILE | lookup FILE LINE COLUMN | ast FILE\n" ++
    "options: --encoding identity|private-use|discard, --max-depth N, --format text|json\n"

def lines (texts : List String) : String := texts.foldl (fun all text => all ++ text ++ "\n") ""

def fileOf (c : Chunk) (s : Span) : String := (c.fileName? s.file).getD "?"

/-! ### Checking -/

structure Finding where
  file : String
  severity : String
  message : String
  span : Span
  includeChain : List String
deriving DecidableEq, Inhabited, Repr

def findings (c : Chunk) : List Finding :=
  c.errors.map (fun d => ⟨fileOf c d.span, "error", d.message, d.span, d.includeChain⟩) ++
    c.warnings.map (fun w => ⟨fileOf c w.span, "warning", w.message, w.span, []⟩)

def Finding.text (f : Finding) : List String :=
  s!"{f.file}:{f.span.start.line}:{f.span.start.column}: {f.severity}: {f.message}" ::
    f.includeChain.map ("    included from " ++ ·)

def Finding.json (f : Finding) : Json :=
  .object ([("file", .string f.file), ("severity", .string f.severity), ("message", .string f.message),
    ("bounds", JsonStyle.full.span f.span)] ++
      if f.includeChain.isEmpty then [] else [("include_chain", .ofList .string f.includeChain)])

def report (format : Format) (c : Chunk) : String :=
  match format with
  | .text => lines ((findings c).flatMap Finding.text)
  | .json => lines ((findings c).map (·.json.compact))

/-! ### Outlines -/

mutual

/-- The lines of a symbol and of those below it, which stand two blanks further in. -/
def outlineSymbol (level : Nat) : OutlineSymbol → List String
  | .mk name detail kind fullSpan _ children =>
    let indent := String.ofList (List.replicate (2 * level) ' ')
    let parameters := detail.getD ""
    s!"{indent}{kind.tag} {name}{parameters} [{fullSpan.brief}]" :: outline (level + 1) children

def outline (level : Nat) : List OutlineSymbol → List String
  | [] => []
  | s :: rest => outlineSymbol level s ++ outline level rest

end

def showSymbols (format : Format) (c : Chunk) : String :=
  match format with
  | .text => lines (outline 0 c.symbols)
  | .json => lines [(Json.array (JsonStyle.full.symbols c.symbols)).pretty]

/-! ### Looking up -/

def showEntry (format : Format) (c : Chunk) (e : Entry) : String :=
  match format with
  | .text =>
    let place (word : String) (s : Span) : String := "  " ++ word ++ " " ++ fileOf c s ++ ":" ++ s.brief
    lines (e.name :: e.definitions.toList.map (place "definition") ++ e.usages.toList.map (place "usage     "))
  | .json =>
    lines [(Json.object [("symbol_name", .string e.name), ("definitions", .ofList JsonStyle.full.span e.definitions.toList),
      ("usages", .ofList JsonStyle.full.span e.usages.toList)]).pretty]

/-! ### Trees -/

def showTree (format : Format) (c : Chunk) : String :=
  match format with
  | .text => lines [(Readable.chunk c).pretty]
  | .json => lines [(Readable.chunk c).compact]

/-! ### Running -/

structure Disk where
  read : String → Except ReadFault String
  store : Store

def Disk.ofStore (store : Store) : Disk := { read := store.readPath, store }

def unreadable (path : String) (fault : ReadFault) : Outcome :=
  { code := 1, errors := s!"Error: could not read {path}\n\nCaused by:\n    {fault.message}\n" }

def load (disk : Disk) (r : Request) (path : String) : Except Outcome Chunk :=
  match disk.read path with
  | .ok source => .ok (Chunk.parse { encoding := r.encoding, maxDepth := r.maxDepth, store := disk.store } source path)
  | .error fault => .error (unreadable path fault)

def withChunk (disk : Disk) (r : Request) (path : String) (f : Chunk → Outcome) : Outcome :=
  match load disk r path with
  | .ok c => f c
  | .error outcome => outcome

/-- Checks documents one after the other, up to the first that cannot be read. -/
def checkAll (disk : Disk) (r : Request) : List String → Outcome
  | [] => {}
  | path :: rest => withChunk disk r path fun c =>
    let others := checkAll disk r rest
    { others with
      code := if c.errors.isEmpty then others.code else 1
      output := report r.format c ++ others.output }

def execute (disk : Disk) (r : Request) : Outcome :=
  match r.command with
  | .check files => checkAll disk r files
  | .symbols file => withChunk disk r file fun c => { output := showSymbols r.format c }
  | .lookup file line column => withChunk disk r file fun c =>
    match (c.index.lookup? 0 line column).bind (c.index.entries[·]?) with
    | some e => { output := showEntry r.format c e }
    | none => { code := 1, errors := s!"no symbol at {line}:{column}\n" }
  | .ast file => withChunk disk r file fun c => { output := showTree r.format c }

def run (disk : Disk) (args : List String) : Outcome :=
  match Request.ofArguments? args with
  | some r => execute disk r
  | none => { code := 2, errors := usage }

end CartLua.Cli
