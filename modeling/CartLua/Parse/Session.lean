import CartLua.Flow
import CartLua.Include.Store
import CartLua.Marker
import CartLua.Token.Window
import CartLua.Tree.Basic
/-!
# Parse sessions

The state of one parse: the windows over the open documents and the stacks of open constructs. All that can happen to a
session is here, one function for each; `Session.Act` lists them.
-/

namespace CartLua

structure Options where
  encoding : Encoding := .discard
  /-- The number of syntax levels that may be nested. -/
  maxDepth : Nat := 200
  store : Store := {}
deriving Inhabited, Repr

/-- What stays fixed during a parse. -/
structure Settings where
  encoding : Encoding
  store : Store
  /-- More rounds than any loop over tokens can take. -/
  rounds : Nat
deriving Inhabited, Repr

/-- A bound on the rounds of a loop over the tokens of a program. A text of `n` characters shows at most `2 * n` tokens
and line ends. A document is open once at most, so that each of the stored documents opens one more level at most, and
every include line costs a token of the level below. -/
def roundsBound (source : String) (store : Store) : Nat :=
  (2 * source.length + 1) * Nat.pow (2 * store.longest + 1) store.documents.length

/-- A document that waits for an include line of it to be finished. -/
structure Suspended where
  window : Window
  span : Span
deriving Inhabited

structure Session where
  window : Window
  /-- The documents below it, innermost first. -/
  suspended : List Suspended := []
  /-- The paths of all documents opened so far, by their numbers. -/
  files : Array String
  markers : MarkerStack := {}
  flow : Flow := { allowVararg := true }
  /-- The control flows of the functions around it, innermost first. -/
  outerFlows : List Flow := []
  /-- The names of locals visible in every open scope, innermost scope first. A scope starts with the names of the scope
  around it. -/
  scopes : List (List String) := []
  /-- Names of globals, each once, in order of appearance. -/
  globals : Array String := #[]
  errors : Array Diagnostic := #[]
deriving Inhabited

/-- The heights of the stacks where a statement begins. -/
structure Checkpoint where
  start : Position
  markers : Nat
  scopes : Nat
  outerFlows : Nat
  flowDepth : Nat
  newlines : Bool
deriving DecidableEq, Inhabited, Repr

namespace Session

variable (s : Session)

def report (ds : List Diagnostic) : Session := { s with errors := s.errors ++ ds }

def unexpectedToken : Diagnostic :=
  let t := s.window.token
  { fault := if t.isEof then .unexpectedEnd else .unexpectedToken t.kind.describe t.text s.window.lookahead.text
    span := t.span }

theorem isFlow_unexpectedToken : s.unexpectedToken.fault.isFlow = false := by
  unfold unexpectedToken
  dsimp only
  split <;> rfl

/-! ### Documents -/

/-- Leaves documents that are finished. The token passed last stays the previous one. -/
def unwind (w : Window) : List Suspended → Window × List Suspended
  | [] => (w, [])
  | below :: rest =>
    if w.token.isEof then unwind { below.window with previous := w.previous } rest else (w, below :: rest)

/-- The session with a new window over its document, or over one below when that is finished. -/
def resume (w : Window) : Session :=
  let (window, suspended) := unwind w s.suspended
  { s with window, suspended }

def currentFile : String := (s.files[s.window.file]?).getD ""

/-- The windows over the open documents, the one being read first. -/
def windows : List Window := s.window :: s.suspended.map (·.window)

def openFiles : List String := s.windows.filterMap (s.files[·.file]?)

/-- Where a fault of an include line at `span` is reported: at the include line of the root document that leads to it,
with the paths of the open documents from the root on. -/
def includeDiagnostic (fault : Fault) (span : Span) : Diagnostic :=
  match s.suspended.getLast? with
  | none => { fault, span }
  | some root => { fault, span := root.span, includeChain := s.openFiles.reverse }

/-- Enters the document that `target` names. A document that is open already must not be entered again, and one without
tokens is not entered at all. -/
def openInclude (settings : Settings) (s : Session) (target : String) (span : Span) : Session :=
  let path := Path.resolve s.currentFile target
  let opened := if s.openFiles.contains path then .error .circularInclude else settings.store.openInclude path target
  match opened with
  | .error fault => s.report [s.includeDiagnostic fault span]
  | .ok contents =>
    let (fault, w) := (Window.ofText settings.encoding contents s.files.size).start
    let s := { s with files := s.files.push path }.report fault.toList
    if w.token.isEof then s else { s with window := w, suspended := ⟨s.window, span⟩ :: s.suspended }

/-- Passes the include line that is the current token. The window moves behind the line before the other document is
entered. -/
def passInclude (settings : Settings) (s : Session) : Session :=
  let t := s.window.token
  let (fault, w) := s.window.next
  let s := openInclude settings ({ s with window := w }.report fault.toList) t.text t.span
  s.resume s.window

/-! ### Control flow -/

def enterFunction : Session := { s with flow := {}, outerFlows := s.flow :: s.outerFlows }

def leaveFunction : Session :=
  match s.outerFlows with
  | [] => s
  | outer :: rest => { s with flow := outer, outerFlows := rest }

/-! ### Names -/

def visible : List String := s.scopes.head?.getD []

/-- Opens a scope in which all names of the scope around are visible. -/
def openScope : Session := { s with scopes := s.visible :: s.scopes }

def closeScope : Session := { s with scopes := s.scopes.tail }

def addName (name : String) : Session :=
  match s.scopes with
  | [] => s
  | scope :: rest => { s with scopes := (if scope.contains name then scope else name :: scope) :: rest }

def addGlobal (name : String) : Session :=
  if s.visible.contains name || s.globals.contains name then s else { s with globals := s.globals.push name }

/-! ### Checkpoints -/

def checkpoint : Checkpoint :=
  { start := s.window.token.span.start
    markers := s.markers.depth
    scopes := s.scopes.length
    outerFlows := s.outerFlows.length
    flowDepth := s.flow.depth
    newlines := s.window.newlines }

/-- The control flow, and those around it, when only `height` of the latter are left. -/
def flowsAt (height : Nat) (flow : Flow) : List Flow → Flow × List Flow
  | [] => (flow, [])
  | outer :: rest => if height < (outer :: rest).length then flowsAt height outer rest else (flow, outer :: rest)

/-- Puts the stacks back to their heights. What happened in the parts that stay is kept. -/
def restoreStacks (c : Checkpoint) : Session :=
  let (flow, outerFlows) := flowsAt c.outerFlows s.flow s.outerFlows
  { s with
    markers := s.markers.truncate c.markers
    scopes := s.scopes.drop (s.scopes.length - c.scopes)
    flow := flow.truncate c.flowDepth
    outerFlows }

/-! ### All that can happen -/

/-- One change of a session. A parse is a sequence of these and nothing else. -/
inductive Act (settings : Settings) : Session → Session → Prop where
  | next (s : Session) : Act settings s (s.resume s.window.next.2)
  | newlines (s : Session) (shown : Bool) : Act settings s (s.resume (s.window.setNewlines shown).2)
  | directive (s : Session) (h : s.window.token.kind = .directive) : Act settings s (s.passInclude settings)
  | report (s : Session) (ds : List Diagnostic) : Act settings s (s.report ds)
  | markers (s : Session) (markers : MarkerStack) : Act settings s { s with markers }
  | openBlock (s : Session) (isLoop : Bool) : Act settings s { s with flow := s.flow.pushScope isLoop }
  | closeBlock (s : Session) : Act settings s { s with flow := s.flow.popScope.2 }
  | addLocal (s : Session) (name : String) : Act settings s { s with flow := s.flow.addLocal name }
  | addGoto (s : Session) (target : String) (span : Span) : Act settings s { s with flow := s.flow.addGoto target span }
  | addLabel (s : Session) (name : String) (span : Span) :
    Act settings s { s with flow := (s.flow.addLabel name span).2 }
  | raiseDeferred (s : Session) : Act settings s { s with flow := s.flow.raiseDeferred.2 }
  | allowVararg (s : Session) : Act settings s { s with flow := { s.flow with allowVararg := true } }
  | enterFunction (s : Session) : Act settings s s.enterFunction
  | leaveFunction (s : Session) : Act settings s s.leaveFunction
  | openScope (s : Session) : Act settings s s.openScope
  | closeScope (s : Session) : Act settings s s.closeScope
  | addName (s : Session) (name : String) : Act settings s (s.addName name)
  | addGlobal (s : Session) (name : String) : Act settings s (s.addGlobal name)
  /-- A statement is given up. -/
  | restore (s : Session) (c : Checkpoint) : Act settings s (s.restoreStacks c)

inductive Reaches (settings : Settings) (s : Session) : Session → Prop where
  | refl : Reaches settings s s
  | act {t u : Session} (before : Reaches settings s t) (last : Act settings t u) : Reaches settings s u

namespace Reaches

variable {settings : Settings} {s t u : Session}

theorem single (h : Act settings s t) : Reaches settings s t := refl.act h

theorem trans (hst : Reaches settings s t) (htu : Reaches settings t u) : Reaches settings s u := by
  induction htu with
  | refl => exact hst
  | act _ last ih => exact ih.act last

end Reaches

end Session

end CartLua
