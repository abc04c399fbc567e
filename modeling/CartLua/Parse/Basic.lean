import CartLua.Parse.Session
/-!
# Parsers

A parser reads and changes a session, by acts only, and gives a value or fails with a diagnostic of the syntax. When it
fails, the session stays as it is at the point of failure. Loops over tokens have a number of rounds; a loop that needs more would
end the parse, which no program does.
-/

namespace CartLua

inductive Outcome (α : Type) where
  | ok (a : α) (s : Session)
  | fault (d : Diagnostic) (s : Session)
  /-- A loop has no round left. -/
  | exhausted
deriving Inhabited

namespace Outcome

variable {α β : Type}

@[inline] def andThen (o : Outcome α) (next : α → Session → Outcome β) : Outcome β :=
  match o with
  | .ok a s => next a s
  | .fault d s => .fault d s
  | .exhausted => .exhausted

/-- The session that an outcome leaves can be reached from `s`, and a fault is never one of control flow. -/
def From (settings : Settings) (s : Session) : Outcome α → Prop
  | .ok _ t => s.Reaches settings t
  | .fault d t => s.Reaches settings t ∧ d.fault.isFlow = false
  | .exhausted => True

theorem From.andThen {settings : Settings} {s : Session} {o : Outcome α} {next : α → Session → Outcome β}
    (ho : o.From settings s) (hnext : ∀ a t, (next a t).From settings t) : (o.andThen next).From settings s := by
  cases o with
  | ok a t =>
    have h := hnext a t
    simp only [Outcome.andThen]
    cases hr : next a t with
    | exhausted => trivial
    | ok b u =>
      rw [hr] at h
      exact Session.Reaches.trans ho h
    | fault d u =>
      rw [hr] at h
      exact ⟨Session.Reaches.trans ho h.1, h.2⟩
  | fault d t => exact ho
  | exhausted => trivial

end Outcome

@[ext] structure Parse (α : Type) where
  run : Settings → Session → Outcome α
  /-- The session changes by acts only, and failures are those of the syntax. -/
  byActs : ∀ settings s, (run settings s).From settings s

namespace Parse

variable {α β : Type}

instance : Monad Parse where
  pure a := ⟨fun _ s => .ok a s, fun _ _ => .refl⟩
  bind p f :=
    ⟨fun settings s => (p.run settings s).andThen fun a s => (f a).run settings s,
      fun settings s => (p.byActs settings s).andThen fun a t => (f a).byActs settings t⟩

@[inline] def look (f : Session → α) : Parse α := ⟨fun _ s => .ok (f s) s, fun _ _ => .refl⟩

@[inline] def act (f : Settings → Session → Session) (h : ∀ settings s, Session.Act settings s (f settings s)) : Parse Unit :=
  ⟨fun settings s => .ok () (f settings s), fun settings s => .single (h settings s)⟩

def settings : Parse Settings := ⟨fun settings s => .ok settings s, fun _ _ => .refl⟩

@[inline] def fail (d : Session → Diagnostic) (h : ∀ s, (d s).fault.isFlow = false) : Parse α :=
  ⟨fun _ s => .fault (d s) s, fun _ s => ⟨.refl, h s⟩⟩

def exhausted : Parse α := ⟨fun _ _ => .exhausted, fun _ _ => trivial⟩

def attempt (p : Parse α) : Parse (Except Diagnostic α) where
  run settings s :=
    match p.run settings s with
    | .ok a s => .ok (.ok a) s
    | .fault d s => .ok (.error d) s
    | .exhausted => .exhausted
  byActs settings s := by
    have h := p.byActs settings s
    split
    next hrun => rwa [hrun] at h
    next hrun =>
      rw [hrun] at h
      exact h.1
    next => trivial

def token : Parse Token := look (·.window.token)

def lookahead : Parse Token := look (·.window.lookahead)

def previous : Parse Token := look (·.window.previous)

def newlines : Parse Bool := look (·.window.newlines)

def report (ds : List Diagnostic) : Parse Unit := act (fun _ s => s.report ds) fun _ s => .report s ds

def failAt (fault : Token → Fault) (h : ∀ t, (fault t).isFlow = false) : Parse α :=
  fail (fun s => { fault := fault s.window.token, span := s.window.token.span }) fun s => h s.window.token

def unexpected : Parse α := fail (·.unexpectedToken) (·.isFlow_unexpectedToken)

def missingWord (word : String) : Parse α := failAt (fun t => .wordExpected word t.text) fun _ => rfl

def missing (part : String) : Parse α := failAt (fun t => .partExpected part t.text) fun _ => rfl

def tooManyLevels : Parse α := failAt (fun _ => .tooManyLevels) fun _ => rfl

/-! ### Loops -/

/-- Repeats a step and puts together what it gives. The step says whether it is to be repeated. -/
def collectRounds (step : Parse (List α × Bool)) : Nat → Parse (List α)
  | 0 => exhausted
  | rounds + 1 => do
    let (found, more) ← step
    if more then return found ++ (← collectRounds step rounds) else return found

def collect (step : Parse (List α × Bool)) : Parse (List α) := do collectRounds step (← settings).rounds

def many (step : Parse (Option α)) : Parse (List α) := collect do
  match ← step with
  | none => return ([], false)
  | some a => return ([a], true)

/-! ### Moving over tokens -/

/-- Moves to the next token, leaving finished documents. -/
def advance : Parse Unit where
  run _ s :=
    match s.window.next with
    | (none, w) => .ok () (s.resume w)
    | (some d, w) => .fault d (s.resume w)
  byActs settings s := by
    have h : s.Act settings (s.resume s.window.next.2) := .next s
    split
    next hnext =>
      rw [hnext] at h
      exact .single h
    next hnext =>
      rw [hnext] at h
      exact ⟨.single h, Fault.isFlow_of_isLexical (Window.isLexical_of_next (congrArg Prod.fst hnext))⟩

/-- Moves to the next token and records a fault on the way instead of failing. -/
def skipToken : Parse Unit := do
  match ← attempt advance with
  | .ok _ => return ()
  | .error d => report [d]

def setNewlines (shown : Bool) : Parse Unit where
  run _ s :=
    let (fault, w) := s.window.setNewlines shown
    .ok () ((s.report fault.toList).resume w)
  byActs _ s := (Session.Reaches.single (.report s _)).act (.newlines _ shown)

def passInclude : Parse Unit where
  run settings s :=
    match s.window.token.kind with
    | .directive => .ok () (s.passInclude settings)
    | _ => .ok () s
  byActs settings s := by
    split
    next h => exact .single (.directive s h)
    next => exact .refl

end Parse

/-- A token with only one spelling. -/
inductive Terminal where
  | symbol (s : Symbol)
  | keyword (k : Keyword)
deriving DecidableEq, Inhabited, Repr

instance : Coe Symbol Terminal := ⟨.symbol⟩
instance : Coe Keyword Terminal := ⟨.keyword⟩

def Terminal.text : Terminal → String
  | .symbol s => s.text
  | .keyword k => k.text

def Token.is (t : Token) : Terminal → Bool
  | .symbol s => t.isSymbol s
  | .keyword k => t.isKeyword k

namespace Parse

def consume (terminal : Terminal) : Parse Bool := do
  if (← token).is terminal then
    advance
    return true
  else return false

def expect (terminal : Terminal) : Parse Unit := do
  if ← consume terminal then return () else missingWord terminal.text

/-- Moves over an opening bracket. Line ends are not shown behind it; gives back whether they were before. -/
def openBracket (bracket : Symbol) : Parse Bool := do
  let outer ← newlines
  setNewlines false
  expect bracket
  return outer

/-- Moves over the end of a bracketed part. Line ends are shown again as before it, also right behind the bracket. -/
def closeBracket (bracket : Terminal) (outer : Bool) : Parse Unit := do
  setNewlines outer
  expect bracket

def identifier : Parse Identifier := do
  let t ← token
  if t.isIdentifier then
    advance
    return { name := t.text, span := t.span }
  else missing "<name>"

/-! ### Spans -/

def mark : Parse Unit :=
  act (fun _ s => { s with markers := s.markers.mark s.window.token.span.start }) fun _ s => .markers s _

def markAgain : Parse Unit := act (fun _ s => { s with markers := s.markers.reuse }) fun _ s => .markers s _

def unmark : Parse Unit := act (fun _ s => { s with markers := s.markers.pop.2 }) fun _ s => .markers s _

def finish : Parse Span where
  run _ s :=
    let (span, markers) := s.markers.finish s.window.previous.span.stop
    .ok span { s with markers }
  byActs _ s := .single (.markers s _)

def spanFrom (start : Position) : Parse Span := look fun s => ⟨start, s.window.previous.span.stop⟩

/-! ### Control flow -/

def openBlock (isLoop : Bool) : Parse Unit :=
  act (fun _ s => { s with flow := s.flow.pushScope isLoop }) fun _ s => .openBlock s isLoop

/-- Closes the innermost block of the control flow and reports the gotos that are lost then. -/
def closeBlock : Parse Unit where
  run _ s :=
    let (lost, flow) := s.flow.popScope
    .ok () ({ s with flow }.report lost)
  byActs _ s := (Session.Reaches.single (.closeBlock s)).act (.report _ _)

def addLocal (name : String) : Parse Unit :=
  act (fun _ s => { s with flow := s.flow.addLocal name }) fun _ s => .addLocal s name

def addGoto (target : String) (span : Span) : Parse Unit :=
  act (fun _ s => { s with flow := s.flow.addGoto target span }) fun _ s => .addGoto s target span

def addLabel (name : String) (span : Span) : Parse Unit where
  run _ s :=
    let (fault, flow) := s.flow.addLabel name span
    .ok () ({ s with flow }.report fault.toList)
  byActs _ s := (Session.Reaches.single (.addLabel s name span)).act (.report _ _)

def raiseDeferred : Parse Unit where
  run _ s :=
    let (jumps, flow) := s.flow.raiseDeferred
    .ok () ({ s with flow }.report jumps)
  byActs _ s := (Session.Reaches.single (.raiseDeferred s)).act (.report _ _)

def allowVararg : Parse Unit :=
  act (fun _ s => { s with flow := { s.flow with allowVararg := true } }) fun _ s => .allowVararg s

def enterFunction : Parse Unit := act (fun _ s => s.enterFunction) fun _ s => .enterFunction s

def leaveFunction : Parse Unit := act (fun _ s => s.leaveFunction) fun _ s => .leaveFunction s

/-! ### Names -/

def openScope : Parse Unit := act (fun _ s => s.openScope) fun _ s => .openScope s

def closeScope : Parse Unit := act (fun _ s => s.closeScope) fun _ s => .closeScope s

def addName (name : String) : Parse Unit := act (fun _ s => s.addName name) fun _ s => .addName s name

def declare (id : Identifier) : Parse Identifier := do
  addName id.name
  return { id with isLocal := true }

/-- Declares a local that control flow keeps account of too. -/
def declareInFlow (id : Identifier) : Parse Identifier := do
  addLocal id.name
  declare id

/-- Uses a name. It is a local if one is visible, otherwise a global, which is noted once. -/
def reference (id : Identifier) : Parse Identifier where
  run _ s := .ok { id with isLocal := s.visible.contains id.name } (s.addGlobal id.name)
  byActs _ s := .single (.addGlobal s id.name)

end Parse

end CartLua
