import CartLua.Grammar.Program
import Mathlib.Tactic
/-!
# Layouts

The layout of a syntax tree is what its spans say about the text: the span of every node, with the spans of its parts in
the order of the text. A layout is nested when every node encloses its parts and the parts do not overlap.
-/

namespace CartLua

/-- The span of a node and the layouts of its parts, in the order of the text. -/
inductive Layout where
  | node (span : Span) (parts : List Layout)

namespace Layout

def span : Layout → Span
  | .node span _ => span

def leaf (span : Span) : Layout := .node span []

/-- No span stops before it starts, every node encloses its parts, and each part stops before the next one starts. -/
inductive Nested : Layout → Prop where
  | node {span : Span} {parts : List Layout} (proper : span.start.index ≤ span.stop.index)
    (encloses : ∀ x ∈ parts, span.encloses x.span = true)
    (apart : parts.Pairwise fun x y => x.span.stop.index ≤ y.span.start.index)
    (nested : ∀ x ∈ parts, Nested x) : Nested (.node span parts)

/-! ### Trees -/

def identifier (id : Identifier) : Layout := leaf id.span

def parameter : Parameter → Layout
  | .name id => identifier id
  | .vararg span => leaf span

mutual

def expression : Expr → Layout
  | .name id => identifier id
  | .string _ _ span | .number _ _ span | .boolean _ span | .nil span | .vararg span => leaf span
  | .binary _ left right span => .node span [expression left, expression right]
  | .logical _ left right span => .node span [expression left, expression right]
  | .unary _ argument span => .node span [expression argument]
  | .member base _ key span => .node span [expression base, identifier key]
  | .index base key span => .node span [expression base, expression key]
  | .call base arguments span => .node span (expression base :: expressions arguments)
  | .tableCall base argument span => .node span [expression base, table argument]
  | .stringCall base argument span => .node span [expression base, expression argument]
  | .table t => table t
  | .function f => .node f.span (functionParts f)

def expressions : List Expr → List Layout
  | [] => []
  | e :: rest => expression e :: expressions rest

def optionalExpression : Option Expr → List Layout
  | none => []
  | some e => [expression e]

def table : Table → Layout
  | ⟨fs, span⟩ => .node span (fields fs)

def fields : List Field → List Layout
  | [] => []
  | f :: rest => field f :: fields rest

def field : Field → Layout
  | .keyed key value span => .node span [expression key, expression value]
  | .named key value span => .node span [identifier key, expression value]
  | .positional value span => .node span [expression value]

/-- The parameters and the statements of a function. The name of a function that is declared stands before them in the
same node. -/
def functionParts : FunctionBody → List Layout
  | ⟨parameters, body, _⟩ => parameters.map parameter ++ statements body

def statements : List Stmt → List Layout
  | [] => []
  | s :: rest => statement s :: statements rest

def clauses : List Clause → List Layout
  | [] => []
  | c :: rest => clause c :: clauses rest

def clause : Clause → Layout
  | .ifThen condition body span => .node span (expression condition :: statements body)
  | .elseIf condition body span => .node span (expression condition :: statements body)
  | .otherwise body span => .node span (statements body)

def statement : Stmt → Layout
  | .assignment targets _ values span => .node span (expressions targets ++ expressions values)
  | .declare names values span => .node span (names.map identifier ++ expressions values)
  | .call e span => .node span [expression e]
  | .block body span => .node span (statements body)
  | .whileLoop condition body span => .node span (expression condition :: statements body)
  | .repeatLoop body condition span => .node span (statements body ++ [expression condition])
  | .branch cs _ span => .node span (clauses cs)
  | .forNumeric counter first last step body span =>
    .node span (identifier counter :: expression first :: expression last :: optionalExpression step ++ statements body)
  | .forGeneric names iterators body span =>
    .node span (names.map identifier ++ expressions iterators ++ statements body)
  | .function name _ f => .node f.span (expression name :: functionParts f)
  | .ret values span => .node span (expressions values)
  | .breakLoop span => leaf span
  | .goto label span => .node span [identifier label]
  | .label label span => .node span [identifier label]
  | .inclusion _ span => leaf span

end

theorem expression_dyadic (op : DyadicOp) (left right : Expr) (span : Span) :
    expression (.dyadic op left right span) = .node span [expression left, expression right] := by
  cases op <;> rw [Expr.dyadic, expression]

theorem statement_call (e : Expr) (span : Span) : statement (.call e span) = .node span [expression e] := by
  rw [statement]

theorem expressions_toList (step : Option Expr) : expressions step.toList = optionalExpression step := by
  cases step <;> rfl

theorem statements_append (xs ys : List Stmt) : statements (xs ++ ys) = statements xs ++ statements ys := by
  induction xs with
  | nil => rfl
  | cons s rest ih => simp [statements, ih]

theorem clauses_append (xs ys : List Clause) : clauses (xs ++ ys) = clauses xs ++ clauses ys := by
  induction xs with
  | nil => rfl
  | cons c rest ih => simp [clauses, ih]

end Layout

/-- The layout of a program: its statements within the whole text. -/
def Program.layout (p : Program) : Layout := .node p.span (Layout.statements p.body)

/-! ### Stretches of text -/

/-- The first position is not behind the second one in the same document. -/
def Position.Before (p q : Position) : Prop := p.file = q.file ∧ p.index ≤ q.index

namespace Position.Before

variable {p q r : Position}

theorem refl (p : Position) : p.Before p := ⟨rfl, le_rfl⟩

theorem trans (hpq : p.Before q) (hqr : q.Before r) : p.Before r := ⟨hpq.1.trans hqr.1, hpq.2.trans hqr.2⟩

end Position.Before

namespace Layout

variable {lo hi : Position} {xs ys : List Layout} {x : Layout}

/-- The layouts stand one behind the other between two positions, and each of them is nested. -/
structure Laid (lo hi : Position) (xs : List Layout) : Prop where
  nested : ∀ x ∈ xs, x.Nested
  from_lo : ∀ x ∈ xs, lo.Before x.span.start
  to_hi : ∀ x ∈ xs, x.span.stop.Before hi
  apart : xs.Pairwise fun x y => x.span.stop.index ≤ y.span.start.index

theorem Nested.proper (h : x.Nested) : x.span.start.index ≤ x.span.stop.index := by
  cases h with
  | node hproper => exact hproper

namespace Laid

theorem nil : Laid lo hi [] := ⟨nofun, nofun, nofun, .nil⟩

theorem mono {lo' hi' : Position} (h : Laid lo hi xs) (hlo : lo'.Before lo) (hhi : hi.Before hi') : Laid lo' hi' xs :=
  ⟨h.nested, fun x hx => hlo.trans (h.from_lo x hx), fun x hx => (h.to_hi x hx).trans hhi, h.apart⟩

theorem append {mid mid' : Position} (hx : Laid lo mid xs) (hy : Laid mid' hi ys) (hlo : lo.Before mid')
    (hmid : mid.Before mid') (hhi : mid.Before hi) : Laid lo hi (xs ++ ys) := by
  have hleft := hx.mono (.refl lo) hhi
  have hright := hy.mono hlo (.refl hi)
  refine ⟨?_, ?_, ?_, ?_⟩
  · intro x h
    exact (List.mem_append.mp h).elim (hleft.nested x) (hright.nested x)
  · intro x h
    exact (List.mem_append.mp h).elim (hleft.from_lo x) (hright.from_lo x)
  · intro x h
    exact (List.mem_append.mp h).elim (hleft.to_hi x) (hright.to_hi x)
  · refine List.pairwise_append.mpr ⟨hx.apart, hy.apart, fun x hx' y hy' => ?_⟩
    have hstop := (hx.to_hi x hx').2
    have hstart := (hy.from_lo y hy').2
    exact hstop.trans (hmid.2.trans hstart)

theorem node {span : Span} (h : Laid span.start span.stop xs) (hproper : span.start.Before span.stop) :
    (Layout.node span xs).Nested := by
  refine .node hproper.2 (fun x hx => ?_) h.apart h.nested
  have hstart := h.from_lo x hx
  have hstop := h.to_hi x hx
  simp [Span.encloses, hstart.1, hstart.2, hstop.1, hstop.2]

theorem singleton (hnested : x.Nested) (hlo : lo.Before x.span.start) (hhi : x.span.stop.Before hi) :
    Laid lo hi [x] := by
  refine ⟨?_, ?_, ?_, List.pairwise_singleton _ _⟩ <;> (intro y hy; rw [List.mem_singleton.mp hy]; assumption)

end Laid

end Layout

end CartLua
