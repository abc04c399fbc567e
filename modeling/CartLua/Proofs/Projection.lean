import CartLua.Readable
import Mathlib.Tactic
/-!
# What the readable form leaves out

The readable form of a chunk is made from the full one, by the shapes of objects alone. Still it is the form that a style
gives which writes spans as short texts: every span has the shape that is looked for, and no other object has it.
-/

namespace CartLua

/-- Spans are short texts, with the document before them if it is not the root. All else is as in the full form. -/
def JsonStyle.readable (files : List String) : JsonStyle where
  span s := .string ((if s.start.file = 0 then "" else (files[s.start.file]?).getD "?" ++ ":") ++
    s!"{s.start.line}:{s.start.column}-{s.stop.line}:{s.stop.column}")

namespace Readable

open JsonStyle

variable {files : List String} {fs : List (String × Json)}

@[simp] theorem collapse_null : collapse files .null = .null := rfl

@[simp] theorem collapse_bool (b : Bool) : collapse files (.bool b) = .bool b := rfl

@[simp] theorem collapse_double (x : Float) : collapse files (full.double x) = (readable files).double x := rfl

@[simp] theorem collapse_string (text : String) : collapse files (.string text) = .string text := rfl

@[simp] theorem collapse_array (items : List Json) : collapse files (.array items) = .array (collapseItems files items) := rfl

@[simp] theorem collapseFields_nil : collapseFields files [] = [] := rfl

@[simp] theorem collapseFields_cons (name : String) (value : Json) :
    collapseFields files ((name, value) :: fs) = (name, collapse files value) :: collapseFields files fs := rfl

@[simp] theorem collapse_span (s : Span) : collapse files (full.span s) = (readable files).span s := by
  refine congrArg Json.string (?_ : label files s.start.file _ = _)
  unfold label
  split
  · rw [String.empty_append]
  · rfl

@[simp] theorem collapse_object (h : fs.length = 2 → fs.lookup "start" = none) :
    collapse files (.object fs) = .object (collapseFields files fs) := by
  rw [collapse]
  by_cases hlength : fs.length = 2
  · simp [spanText?, h hlength]
  · simp [spanText?, hlength, guard]

@[simp] theorem collapse_tagged (tag : String) (h : fs.length = 1 → fs.lookup "start" = none) :
    collapse files (tagged tag fs) = tagged tag (collapseFields files fs) := by
  refine collapse_object fun hlength => ?_
  rw [List.lookup_cons, h (Nat.succ.inj hlength)]
  rfl

theorem collapse_ofList {α : Type} {f g : α → Json} (h : ∀ a, collapse files (f a) = g a) (items : List α) :
    collapse files (.ofList f items) = .ofList g items := by
  have hitems : collapseItems files (items.map f) = items.map g := by
    induction items with
    | nil => rfl
    | cons a rest ih => rw [List.map_cons, collapseItems, h, ih, List.map_cons]
  rw [Json.ofList, collapse, hitems, Json.ofList]

variable (files)

@[simp] theorem collapse_identifier (id : Identifier) :
    collapse files (full.identifier id) = (readable files).identifier id := by
  simp [identifier, identifierFields]

theorem collapse_parameter (p : Parameter) : collapse files (full.parameter p) = (readable files).parameter p := by
  cases p <;> simp [parameter]

mutual

theorem collapse_expr (e : Expr) : collapse files (full.expr e) = (readable files).expr e := by
  cases e with
  | name id => simp [expr, identifierFields]
  | string value => cases value <;> simp [expr, Json.ofOption]
  | number | boolean | nil | vararg => simp [expr]
  | binary _ left right | logical _ left right =>
    simp [expr, collapse_expr left, collapse_expr right]
  | unary _ argument => simp [expr, collapse_expr argument]
  | member base => simp [expr, collapse_expr base]
  | index base key => simp [expr, collapse_expr base, collapse_expr key]
  | call base arguments => simp [expr, collapse_expr base, collapse_exprs arguments]
  | tableCall base argument =>
    obtain ⟨fs, span⟩ := argument
    simp [expr, tableFields, collapse_expr base, collapse_tableItems fs]
  | stringCall base argument =>
    simp [expr, collapse_expr base, collapse_expr argument]
  | table t =>
    obtain ⟨fs, span⟩ := t
    simp [expr, tableFields, collapse_tableItems fs]
  | function f =>
    obtain ⟨ps, body, span⟩ := f
    simp [expr, functionFields, collapse_ofList (collapse_parameter files), collapse_stmts body]

theorem collapse_exprs (es : List Expr) : collapseItems files (full.exprs es) = (readable files).exprs es := by
  cases es with
  | nil => rfl
  | cons e rest => simp [exprs, collapseItems, collapse_expr e, collapse_exprs rest]

theorem collapse_optionalExpr (e : Option Expr) :
    collapse files (full.optionalExpr e) = (readable files).optionalExpr e := by
  cases e with
  | none => rfl
  | some e => exact collapse_expr e

theorem collapse_tableItems (fs : List Field) : collapseItems files (full.fields fs) = (readable files).fields fs := by
  cases fs with
  | nil => rfl
  | cons f rest => simp [fields, collapseItems, collapse_field f, collapse_tableItems rest]

theorem collapse_field (f : Field) : collapse files (full.field f) = (readable files).field f := by
  cases f with
  | keyed key value => simp [field, collapse_expr key, collapse_expr value]
  | named _ value | positional value => simp [field, collapse_expr value]

theorem collapse_clauses (cs : List Clause) : collapseItems files (full.clauses cs) = (readable files).clauses cs := by
  cases cs with
  | nil => rfl
  | cons c rest => simp [clauses, collapseItems, collapse_clause c, collapse_clauses rest]

theorem collapse_clause (c : Clause) : collapse files (full.clause c) = (readable files).clause c := by
  cases c with
  | ifThen condition body | elseIf condition body =>
    simp [clause, collapse_expr condition, collapse_stmts body]
  | otherwise body => simp [clause, collapse_stmts body]

theorem collapse_stmts (body : Block) : collapseItems files (full.stmts body) = (readable files).stmts body := by
  cases body with
  | nil => rfl
  | cons s rest => simp [stmts, collapseItems, collapse_stmt s, collapse_stmts rest]

theorem collapse_stmt (s : Stmt) : collapse files (full.stmt s) = (readable files).stmt s := by
  cases s with
  | assignment targets op values =>
    have hop : collapse files (assignOp op) = assignOp op := by
      cases op <;> simp [assignOp]
    simp [stmt, hop, collapse_exprs targets, collapse_exprs values]
  | declare _ values =>
    simp [stmt, collapse_ofList (collapse_identifier files), collapse_exprs values]
  | call e => simp [stmt, collapse_expr e]
  | block body => simp [stmt, collapse_stmts body]
  | whileLoop condition body | repeatLoop body condition =>
    simp [stmt, collapse_expr condition, collapse_stmts body]
  | branch cs => simp [stmt, collapse_clauses cs]
  | forNumeric _ first last step body =>
    simp [stmt, collapse_expr first, collapse_expr last, collapse_optionalExpr step,
      collapse_stmts body]
  | forGeneric _ iterators body =>
    simp [stmt, collapse_ofList (collapse_identifier files), collapse_exprs iterators,
      collapse_stmts body]
  | function name _ f =>
    obtain ⟨ps, body, span⟩ := f
    simp [stmt, functionFields, collapse_expr name, collapse_ofList (collapse_parameter files),
      collapse_stmts body]
  | ret values => simp [stmt, collapse_exprs values]
  | breakLoop | goto | label | inclusion => simp [stmt]

end

mutual

theorem collapse_symbol (s : OutlineSymbol) : collapse files (full.symbol s) = (readable files).symbol s := by
  obtain ⟨_, detail, _, _, _, children⟩ := s
  cases detail <;> simp [symbol, Json.optional, collapse_symbols children]

theorem collapse_symbols (ss : List OutlineSymbol) :
    collapseItems files (full.symbols ss) = (readable files).symbols ss := by
  cases ss with
  | nil => rfl
  | cons s rest => simp [symbols, collapseItems, collapse_symbol s, collapse_symbols rest]

end

theorem collapse_strings (texts : List String) : collapse files (.ofList .string texts) = .ofList .string texts :=
  collapse_ofList (fun _ => rfl) texts

theorem collapse_error (d : Diagnostic) : collapse files (full.error d) = (readable files).error d := by
  unfold error includeChain
  split <;> simp [collapse_strings]

theorem collapse_warning (w : Warning) : collapse files (full.warning w) = (readable files).warning w := by
  simp [warning]

/-- The readable form of a chunk is its full form with all spans as short texts, and with nothing else changed. -/
theorem chunk_eq_readable (c : Chunk) : chunk c = ((JsonStyle.readable c.files).chunk c).sorted := by
  unfold chunk
  simp [JsonStyle.chunk, chunkFields, collapse_stmts, collapse_symbols, collapse_strings,
    collapse_ofList (collapse_error c.files), collapse_ofList (collapse_warning c.files)]

end Readable

end CartLua
