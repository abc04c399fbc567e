import CartLua.Grammar.Program
/-!
# Masks

Two runs of a parser are compared up to what does not matter: where the parts of a program stand, which names are noted
as locals, or how strings are decoded. A mask hides some of that in a tree and in the stacks of a session. What is left
behind a mask is compared by equality.
-/

namespace CartLua

open List

/-- What is left to see of a program. -/
structure Mask where
  /-- Whether places are shown. -/
  places : Bool := false
  /-- Whether it is shown which names are locals. -/
  locals : Bool := true
  /-- Whether the decoded values of strings are shown. -/
  values : Bool := true
deriving DecidableEq, Inhabited, Repr

namespace Mask

variable (m : Mask)

/-! ### Trees -/

def position (p : Position) : Position := if m.places then p else {}

def line (n : Nat) : Nat := if m.places then n else 1

def span (s : Span) : Span := ⟨m.position s.start, m.position s.stop⟩

variable {m} in
theorem position_hidden (h : m.places = false) (p q : Position) : m.position p = m.position q := by
  simp [position, h]

variable {m} in
theorem span_hidden (h : m.places = false) (a b : Span) : m.span a = m.span b := by
  rw [span, span, position_hidden h a.start b.start, position_hidden h a.stop b.stop]

def value (v : Option String) : Option String := if m.values then v else none

def name (id : Identifier) : Identifier :=
  { name := id.name, isLocal := m.locals && id.isLocal, span := m.span id.span }

def parameter : Parameter → Parameter
  | .name id => .name (m.name id)
  | .vararg span => .vararg (m.span span)

mutual

def expression : Expr → Expr
  | .name id => .name (m.name id)
  | .string value raw span => .string (m.value value) raw (m.span span)
  | .number value raw span => .number value raw (m.span span)
  | .boolean value span => .boolean value (m.span span)
  | .nil span => .nil (m.span span)
  | .vararg span => .vararg (m.span span)
  | .binary op left right span => .binary op (expression left) (expression right) (m.span span)
  | .logical op left right span => .logical op (expression left) (expression right) (m.span span)
  | .unary op argument span => .unary op (expression argument) (m.span span)
  | .member base indexer key span => .member (expression base) indexer (m.name key) (m.span span)
  | .index base key span => .index (expression base) (expression key) (m.span span)
  | .call base arguments span => .call (expression base) (expressions arguments) (m.span span)
  | .tableCall base argument span => .tableCall (expression base) (table argument) (m.span span)
  | .stringCall base argument span => .stringCall (expression base) (expression argument) (m.span span)
  | .table t => .table (table t)
  | .function f => .function (functionBody f)

def expressions : List Expr → List Expr
  | [] => []
  | e :: es => expression e :: expressions es

def field : Field → Field
  | .keyed key value span => .keyed (expression key) (expression value) (m.span span)
  | .named key value span => .named (m.name key) (expression value) (m.span span)
  | .positional value span => .positional (expression value) (m.span span)

def fields : List Field → List Field
  | [] => []
  | f :: fs => field f :: fields fs

def table : Table → Table
  | ⟨fs, span⟩ => ⟨fields fs, m.span span⟩

def functionBody : FunctionBody → FunctionBody
  | ⟨ps, body, span⟩ => ⟨ps.map m.parameter, statements body, m.span span⟩

def clause : Clause → Clause
  | .ifThen condition body span => .ifThen (expression condition) (statements body) (m.span span)
  | .elseIf condition body span => .elseIf (expression condition) (statements body) (m.span span)
  | .otherwise body span => .otherwise (statements body) (m.span span)

def clauses : List Clause → List Clause
  | [] => []
  | cl :: cls => clause cl :: clauses cls

def step : Option Expr → Option Expr
  | none => none
  | some e => some (expression e)

def statement : Stmt → Stmt
  | .assignment targets op values span => .assignment (expressions targets) op (expressions values) (m.span span)
  | .declare ids values span => .declare (ids.map m.name) (expressions values) (m.span span)
  | .call e span => .call (expression e) (m.span span)
  | .block body span => .block (statements body) (m.span span)
  | .whileLoop condition body span => .whileLoop (expression condition) (statements body) (m.span span)
  | .repeatLoop body condition span => .repeatLoop (statements body) (expression condition) (m.span span)
  | .branch cls oneLine span => .branch (clauses cls) oneLine (m.span span)
  | .forNumeric counter first last byStep body span =>
    .forNumeric (m.name counter) (expression first) (expression last) (step byStep) (statements body) (m.span span)
  | .forGeneric ids iterators body span =>
    .forGeneric (ids.map m.name) (expressions iterators) (statements body) (m.span span)
  | .function e isLocal f => .function (expression e) isLocal (functionBody f)
  | .ret values span => .ret (expressions values) (m.span span)
  | .breakLoop span => .breakLoop (m.span span)
  | .goto label span => .goto (m.name label) (m.span span)
  | .label label span => .label (m.name label) (m.span span)
  | .inclusion target span => .inclusion target (m.span span)

def statements : List Stmt → List Stmt
  | [] => []
  | s :: rest => statement s :: statements rest

end

theorem expressions_eq_map (es : List Expr) : m.expressions es = es.map m.expression := by
  induction es with
  | nil => rw [expressions, map_nil]
  | cons e es ih => rw [expressions, ih, map_cons]

theorem fields_eq_map (fs : List Field) : m.fields fs = fs.map m.field := by
  induction fs with
  | nil => rw [fields, map_nil]
  | cons f fs ih => rw [fields, ih, map_cons]

theorem clauses_eq_map (cls : List Clause) : m.clauses cls = cls.map m.clause := by
  induction cls with
  | nil => rw [clauses, map_nil]
  | cons cl cls ih => rw [clauses, ih, map_cons]

theorem statements_eq_map (body : List Stmt) : m.statements body = body.map m.statement := by
  induction body with
  | nil => rw [statements, map_nil]
  | cons s body ih => rw [statements, ih, map_cons]

theorem step_eq_map (e : Option Expr) : m.step e = e.map m.expression := by
  cases e <;> rw [step] <;> rfl

theorem expression_dyadic (op : DyadicOp) (left right : Expr) (span : Span) :
    m.expression (.dyadic op left right span) = .dyadic op (m.expression left) (m.expression right) (m.span span) := by
  cases op <;> rw [Expr.dyadic, expression, Expr.dyadic]

@[simp] theorem span_expression (e : Expr) : (m.expression e).span = m.span e.span := by
  cases e <;> simp only [expression, Expr.span, name]
  case table t =>
    cases t
    simp only [table]
  case function f =>
    cases f
    simp only [functionBody]

@[simp] theorem isMethod_expression (e : Expr) : (m.expression e).isMethod = e.isMethod := by
  cases e with
  | member base indexer => cases indexer <;> simp only [expression, Expr.isMethod]
  | _ => simp only [expression, Expr.isMethod]

/-! ### Tokens and diagnostics -/

def kind : TokenKind → TokenKind
  | .string v => .string (m.value v)
  | k => k

def token (t : Token) : Token := ⟨m.kind t.kind, t.text, m.span t.span⟩

variable {m} in
theorem token_inj {t t' : Token} (h : m.token t = m.token t') :
    m.kind t.kind = m.kind t'.kind ∧ t.text = t'.text ∧ m.span t.span = m.span t'.span := by
  exact Token.mk.inj h

variable {m} in
theorem kind_cases {a b : TokenKind} (h : m.kind a = m.kind b) : a = b ∨ ∃ v w, a = .string v ∧ b = .string w := by
  unfold kind at h
  split at h <;> split at h
  · exact .inr ⟨_, _, rfl, rfl⟩
  next hb => exact absurd h.symm (hb _)
  next ha _ _ => exact absurd h (ha _)
  · exact .inl h

/-- What is left to see of a fault. Some name the line where something else stands. -/
def fault : Fault → Fault
  | .unfinishedLongString n => .unfinishedLongString (m.line n)
  | .unfinishedLongComment n => .unfinishedLongComment (m.line n)
  | .labelDefined name n => .labelDefined name (m.line n)
  | f => f

def diagnostic (d : Diagnostic) : Diagnostic := { d with fault := m.fault d.fault, span := m.span d.span }

/-! ### Control flow -/

def pendingGoto (g : PendingGoto) : PendingGoto := { g with span := m.span g.span }

def flowScope (f : FlowScope) : FlowScope :=
  { f with labels := f.labels.map fun l => (l.1, m.line l.2), deferred := f.deferred.map m.pendingGoto }

def flow (f : Flow) : Flow := { f with scopes := f.scopes.map m.flowScope, pending := f.pending.map m.pendingGoto }

@[simp] theorem depth_flow (f : Flow) : (m.flow f).depth = f.depth := by simp [flow, Flow.depth]

@[simp] theorem inLoop_flow (f : Flow) : (m.flow f).inLoop = f.inLoop := by
  simp [flow, flowScope, Flow.inLoop, Function.comp_def]

@[simp] theorem allowVararg_flow (f : Flow) : (m.flow f).allowVararg = f.allowVararg := rfl

theorem flow_pushScope (f : Flow) (isLoop : Bool) : m.flow (f.pushScope isLoop) = (m.flow f).pushScope isLoop := rfl

@[simp] theorem reach_pendingGoto (g : PendingGoto) : (m.pendingGoto g).reach = g.reach := rfl

theorem pendingGoto_leave (depth : Nat) (g : PendingGoto) :
    m.pendingGoto (Flow.leave depth g) = Flow.leave depth (m.pendingGoto g) := by
  unfold Flow.leave
  rw [reach_pendingGoto]
  split <;> rfl

theorem filter_pendingGoto {p : PendingGoto → Bool} (hp : ∀ g, p (m.pendingGoto g) = p g) (gs : List PendingGoto) :
    (gs.map m.pendingGoto).filter p = (gs.filter p).map m.pendingGoto := by
  rw [filter_map]
  congr 2
  exact funext hp

theorem flow_popScope (f : Flow) : m.flow f.popScope.2 = (m.flow f).popScope.2 := by
  have hkept := m.filter_pendingGoto (p := fun g => !Flow.isLost f.depth g) (fun _ => rfl) f.pending
  have hleave : m.pendingGoto ∘ Flow.leave f.depth = Flow.leave f.depth ∘ m.pendingGoto :=
    funext (m.pendingGoto_leave f.depth)
  unfold Flow.popScope
  rw [depth_flow]
  simp only [flow, map_tail, map_map, hleave, hkept]

theorem diagnostics_popScope (f : Flow) : f.popScope.1.map m.diagnostic = (m.flow f).popScope.1 := by
  have hlost := m.filter_pendingGoto (p := Flow.isLost f.depth) (fun _ => rfl) f.pending
  show _ = map _ (filter (Flow.isLost (m.flow f).depth) _)
  rw [depth_flow, flow, hlost, Flow.popScope, map_map, map_map]
  rfl

theorem flow_truncate (f : Flow) (depth : Nat) : m.flow (f.truncate depth) = (m.flow f).truncate depth := by
  simp only [Flow.truncate, depth_flow]
  simp only [flow, map_drop, map_map]
  rfl

theorem flow_addLocal (f : Flow) (name : String) : m.flow (f.addLocal name) = (m.flow f).addLocal name := by
  obtain ⟨scopes, pending, allowVararg⟩ := f
  cases scopes <;> rfl

theorem flow_addGoto (f : Flow) (target : String) (span : Span) :
    m.flow (f.addGoto target span) = (m.flow f).addGoto target (m.span span) := by
  have hknown : (m.flow f).scopes.any (·.labels.any (·.1 == target)) = f.scopes.any (·.labels.any (·.1 == target)) := by
    simp [flow, flowScope, Function.comp_def]
  unfold Flow.addGoto
  rw [hknown]
  split
  · rfl
  · simp only [depth_flow]
    simp [flow, pendingGoto, flowScope, Function.comp_def]

theorem lookup_flowScope (f : FlowScope) (name : String) :
    (m.flowScope f).labels.lookup name = (f.labels.lookup name).map m.line := by
  unfold flowScope
  induction f.labels with
  | nil => rfl
  | cons l ls ih =>
    rw [map_cons, lookup_cons, lookup_cons, ih]
    split <;> rfl

theorem line_start (span : Span) : m.line span.start.line = (m.span span).start.line := by
  unfold line Mask.span position
  split <;> rfl

theorem flow_addLabel (f : Flow) (name : String) (span : Span) :
    m.flow (f.addLabel name span).2 = ((m.flow f).addLabel name (m.span span)).2 ∧
      (f.addLabel name span).1.map m.diagnostic = ((m.flow f).addLabel name (m.span span)).1 := by
  obtain ⟨scopes, pending, allowVararg⟩ := f
  cases scopes with
  | nil => exact ⟨rfl, rfl⟩
  | cons scope rest =>
    have hlookup := m.lookup_flowScope scope name
    have hdepth := m.depth_flow ⟨scope :: rest, pending, allowVararg⟩
    unfold Flow.addLabel
    rw [hdepth]
    simp only [flow, map_cons, hlookup]
    cases scope.labels.lookup name with
    | some => exact ⟨rfl, rfl⟩
    | none =>
      refine ⟨?_, rfl⟩
      rw [filter_pendingGoto m (fun _ => rfl), filter_pendingGoto m (fun _ => rfl), filter_pendingGoto m (fun _ => rfl)]
      simp only [flowScope, map_cons, map_append, line_start]
      rfl

theorem flow_raiseDeferred (f : Flow) : m.flow f.raiseDeferred.2 = (m.flow f).raiseDeferred.2 ∧
    f.raiseDeferred.1.map m.diagnostic = (m.flow f).raiseDeferred.1 := by
  obtain ⟨scopes, pending, allowVararg⟩ := f
  cases scopes with
  | nil => exact ⟨rfl, rfl⟩
  | cons =>
    refine ⟨rfl, ?_⟩
    simp only [Flow.raiseDeferred, flow, flowScope, map_cons, map_map]
    exact map_congr_left fun g _ => by simp [diagnostic, fault, Flow.depth, pendingGoto, PendingGoto.seen]

end Mask

end CartLua
