import CartLua.Proofs.ProgramLayout
import CartLua.Walk.Basic
import CartLua.Chunk
/-!
# Spans of an outline

A symbol of an outline has the span of what declares it and the span of its name, which come from different nodes of the
tree. The one encloses the other wherever the spans of the tree nest: all that an outline takes its spans from is met on a
walk through the tree.
-/

namespace CartLua

open List

namespace Layout.Nested

variable {span : Span} {x y : Layout} {xs : List Layout}

theorem parts (h : (Layout.node span xs).Nested) : ∀ x ∈ xs, x.Nested := by
  cases h
  assumption

theorem encloses (h : (Layout.node span xs).Nested) : ∀ x ∈ xs, span.encloses x.span = true := by
  cases h
  assumption

theorem first (h : (Layout.node span (x :: xs)).Nested) : x.Nested := h.parts x (.head _)

theorem second (h : (Layout.node span (x :: y :: xs)).Nested) : y.Nested := h.parts y (.tail _ (.head _))

end Layout.Nested

/-! ### Events -/

/-- The statement that is met, or the table whose scope opens, lies in the text as its spans say. -/
def Event.Lies : Event → Prop
  | .statement s _ => (Layout.statement s).Nested
  | .enter (.table t) _ => (Layout.table t).Nested
  | _ => True

def Lie (events : List Event) : Prop := ∀ event ∈ events, event.Lies

namespace Lie

variable {event : Event} {events events' : List Event} {groups others : List (List Event)} {scope : ScopeNode} {ctx : Context}

theorem nil : Lie [] := nofun

theorem cons (h : event.Lies) (hrest : Lie events) : Lie (event :: events) := forall_mem_cons.mpr ⟨h, hrest⟩

theorem append (h : Lie events) (h' : Lie events') : Lie (events ++ events') := forall_mem_append.mpr ⟨h, h'⟩

theorem inScope (hscope : (Event.enter scope ctx).Lies) (h : Lie events) :
    Lie (.enter scope ctx :: events ++ [.leave scope ctx]) :=
  append (cons hscope h) (cons trivial nil)

theorem interleave (h : Lie groups.flatten) (h' : Lie others.flatten) : Lie (Walk.interleave groups others) := by
  induction groups generalizing others with
  | nil => exact h'
  | cons es rest ih =>
    cases others with
    | nil => exact h
    | cons es' rest' =>
      obtain ⟨hes, hrest⟩ := forall_mem_append.mp h
      obtain ⟨hes', hrest'⟩ := forall_mem_append.mp h'
      exact .append (.append hes hes') (ih hrest hrest')

theorem names (ids : List Identifier) : Lie (Walk.names ctx ids) := by
  induction ids with
  | nil => exact .nil
  | cons id rest ih => exact .cons trivial ih

theorem parameters (ps : List Parameter) : Lie (Walk.parameters ctx ps) := by
  induction ps with
  | nil => exact .nil
  | cons p rest ih =>
    cases p with
    | name => exact .cons trivial ih
    | vararg => exact ih

mutual

theorem expression {e : Expr} {ctx : Context} {role : Role} (h : (Layout.expression e).Nested) :
    Lie (Walk.expression (fun _ => true) ctx role e) := by
  cases e with
  | name => exact .cons trivial (.cons trivial .nil)
  | string | number | boolean | nil | vararg => exact .cons trivial .nil
  | binary | logical | index | stringCall => exact .cons trivial (.append (expression h.first) (expression h.second))
  | unary | member => exact .cons trivial (expression h.first)
  | call => exact .cons trivial (.append (expression h.first) (expressions (forall_mem_cons.mp h.parts).2))
  | tableCall => exact .cons trivial (.append (expression h.first) (table h.second))
  | table => exact .cons trivial (table h)
  | function => exact .cons trivial (.cons trivial (functionScope h.parts))

theorem expressions {es : List Expr} {ctx : Context} (h : ∀ x ∈ Layout.expressions es, x.Nested) :
    Lie (Walk.expressions (fun _ => true) ctx es) := by
  cases es with
  | nil => exact .nil
  | cons => exact .append (expression (h _ (.head _))) (expressions (forall_mem_cons.mp h).2)

theorem optionalExpression {e : Option Expr} {ctx : Context} (h : ∀ x ∈ Layout.optionalExpression e, x.Nested) :
    Lie (Walk.optionalExpression (fun _ => true) ctx e) := by
  cases e with
  | none => exact .nil
  | some => exact expression (h _ (.head _))

theorem targets {es : List Expr} {ctx : Context} (h : ∀ x ∈ Layout.expressions es, x.Nested) :
    Lie (Walk.targets (fun _ => true) ctx es).flatten := by
  cases es with
  | nil => exact .nil
  | cons => exact .append (expression (h _ (.head _))) (targets (forall_mem_cons.mp h).2)

theorem boundValues {es : List Expr} {ctx : Context} {bounds : List Ancestor} (h : ∀ x ∈ Layout.expressions es, x.Nested) :
    Lie (Walk.boundValues (fun _ => true) ctx bounds es).flatten := by
  cases es with
  | nil => exact .nil
  | cons =>
    cases bounds with
    | nil | cons => exact .append (expression (h _ (.head _))) (boundValues (forall_mem_cons.mp h).2)

theorem table {t : Table} {ctx : Context} (h : (Layout.table t).Nested) : Lie (Walk.table (fun _ => true) ctx t) := by
  cases t
  exact .cons trivial (.inScope h (fields h.parts))

theorem fields {fs : List Field} {ctx : Context} (h : ∀ x ∈ Layout.fields fs, x.Nested) :
    Lie (Walk.fields (fun _ => true) ctx fs) := by
  cases fs with
  | nil => exact .nil
  | cons => exact .append (field (h _ (.head _))) (fields (forall_mem_cons.mp h).2)

theorem field {f : Field} {ctx : Context} (h : (Layout.field f).Nested) : Lie (Walk.field (fun _ => true) ctx f) := by
  cases f with
  | keyed => exact .cons trivial (.append (expression h.first) (expression h.second))
  | named => exact .cons trivial (expression h.second)
  | positional => exact .cons trivial (expression h.first)

theorem functionScope {f : FunctionBody} {ctx : Context} {fname : Option Expr}
    (h : ∀ x ∈ Layout.functionParts f, x.Nested) : Lie (Walk.functionScope (fun _ => true) ctx fname f) := by
  obtain ⟨ps, body, span⟩ := f
  exact .inScope trivial (.append (parameters ps) (.cons trivial (statements (forall_mem_append.mp h).2)))

theorem statements {body : List Stmt} {ctx : Context} (h : ∀ x ∈ Layout.statements body, x.Nested) :
    Lie (Walk.statements (fun _ => true) ctx body) := by
  cases body with
  | nil => exact .nil
  | cons => exact .append (statement (h _ (.head _))) (statements (forall_mem_cons.mp h).2)

theorem clauses {cs : List Clause} {ctx : Context} (h : ∀ x ∈ Layout.clauses cs, x.Nested) :
    Lie (Walk.clauses (fun _ => true) ctx cs) := by
  cases cs with
  | nil => exact .nil
  | cons => exact .append (clause (h _ (.head _))) (clauses (forall_mem_cons.mp h).2)

theorem clause {c : Clause} {ctx : Context} (h : (Layout.clause c).Nested) : Lie (Walk.clause (fun _ => true) ctx c) := by
  cases c with
  | ifThen | elseIf =>
    obtain ⟨hcondition, hbody⟩ := forall_mem_cons.mp h.parts
    exact .append (expression hcondition) (.inScope trivial (.cons trivial (statements hbody)))
  | otherwise => exact .inScope trivial (.cons trivial (statements h.parts))

theorem statement {s : Stmt} {ctx : Context} (h : (Layout.statement s).Nested) :
    Lie (Walk.statement (fun _ => true) ctx s) := by
  cases s with
  | assignment =>
    obtain ⟨htargets, hvalues⟩ := forall_mem_append.mp h.parts
    exact .cons h (.interleave (targets htargets) (boundValues hvalues))
  | declare ids => exact .cons h (.append (boundValues (forall_mem_append.mp h.parts).2) (names ids))
  | call => exact .cons h (expression h.first)
  | block => exact .cons h (.inScope trivial (.cons trivial (statements h.parts)))
  | whileLoop =>
    obtain ⟨hcondition, hbody⟩ := forall_mem_cons.mp h.parts
    exact .cons h (.append (expression hcondition) (.inScope trivial (.cons trivial (statements hbody))))
  | repeatLoop =>
    obtain ⟨hbody, hcondition⟩ := forall_mem_append.mp h.parts
    exact .cons h (.inScope trivial (.cons trivial (.append (statements hbody) (expression (hcondition _ (.head _))))))
  | branch => exact .cons h (clauses h.parts)
  | forNumeric counter =>
    obtain ⟨hheader, hbody⟩ := forall_mem_append.mp h.parts
    obtain ⟨-, hfirst, hlast, hstep⟩ : _ ∧ _ ∧ _ ∧ _ := by simpa only [forall_mem_cons] using hheader
    exact .cons h (.append (.append (.append (expression hfirst) (expression hlast)) (optionalExpression hstep))
      (.inScope trivial (.append (names [counter]) (.cons trivial (statements hbody)))))
  | forGeneric ids =>
    obtain ⟨hheader, hbody⟩ := forall_mem_append.mp h.parts
    exact .cons h (.append (expressions (forall_mem_append.mp hheader).2)
      (.inScope trivial (.append (names ids) (.cons trivial (statements hbody)))))
  | function =>
    exact .cons h (.cons trivial (.append (expression h.first) (functionScope (forall_mem_cons.mp h.parts).2)))
  | ret => exact .cons h (expressions h.parts)
  | goto | label => exact .cons h (.cons trivial .nil)
  | breakLoop | inclusion => exact .cons h .nil

end

end Lie

/-! ### Symbols -/

namespace Layout

theorem span_expression (e : Expr) : (expression e).span = e.span := by
  cases e with
  | table t => cases t; rfl
  | _ => rfl

theorem expression_mem {e : Expr} {es : List Expr} (h : e ∈ es) : expression e ∈ expressions es := by
  induction h with
  | head => exact .head _
  | tail _ _ ih => exact .tail _ ih

theorem field_mem {f : Field} {fs : List Field} (h : f ∈ fs) : field f ∈ fields fs := by
  induction h with
  | head => exact .head _
  | tail _ _ ih => exact .tail _ ih

theorem span_name? {f : Field} (h : (field f).Nested) {key : String} {span : Span} (hname : f.name? = some (key, span)) :
    f.span.encloses span = true := by
  cases f with
  | named =>
    cases hname
    exact h.encloses _ (.head _)
  | keyed k =>
    obtain ⟨_, -, heq⟩ := Option.map_eq_some_iff.mp hname
    cases heq
    exact span_expression k ▸ h.encloses _ (.head _)
  | positional => cases hname

end Layout

namespace Outline.Builder

variable {b : Builder}

/-- Every symbol has a span that encloses that of its name. -/
def Framed (b : Builder) : Prop :=
  ∀ (i : Nat) (e : Entry), b.entries[i]? = some e → e.fullSpan.encloses e.selectionSpan = true

namespace Framed

theorem modify (h : b.Framed) (i : Nat) {f : Entry → Entry}
    (hf : ∀ e, (f e).fullSpan = e.fullSpan ∧ (f e).selectionSpan = e.selectionSpan) :
    { b with entries := b.entries.modify i f }.Framed := by
  intro j e he
  rw [Array.getElem?_modify] at he
  split at he
  · obtain ⟨e', he', rfl⟩ := Option.map_eq_some_iff.mp he
    rw [(hf e').1, (hf e').2]
    exact h j e' he'
  · exact h j e he

theorem makeFunction (h : b.Framed) (i : Nat) (f : FunctionBody) : (b.makeFunction i f).Framed :=
  h.modify i fun _ => ⟨rfl, rfl⟩

theorem add (h : b.Framed) {entry : Entry} (hentry : entry.fullSpan.encloses entry.selectionSpan = true)
    (parent : Option Nat) : (b.add entry parent).2.Framed := by
  have hpush : { b with entries := b.entries.push entry }.Framed := by
    intro i e he
    rw [Array.getElem?_push] at he
    split at he
    · cases he
      exact hentry
    · exact h i e he
  cases parent with
  | none => exact hpush
  | some p => exact hpush.modify p fun _ => ⟨rfl, rfl⟩

theorem addName (h : b.Framed) {fullSpan selectionSpan : Span} (hspan : fullSpan.encloses selectionSpan = true)
    (name path : String) (kind : SymbolKind) (isLocal : Bool) : (b.addName name path kind isLocal fullSpan selectionSpan).2.Framed := by
  refine h.add ?_ _
  exact hspan

theorem addMember (h : b.Framed) {fullSpan selectionSpan : Span} (hspan : fullSpan.encloses selectionSpan = true)
    (name path : String) : (b.addMember name path fullSpan selectionSpan).2.Framed := by
  refine h.add ?_ _
  exact hspan

theorem addLeaf (h : b.Framed) {span : Span} {id : Identifier} (hid : span.encloses id.span = true) :
    (b.addLeaf span id).Framed := by
  refine h.add ?_ _
  exact hid

theorem addTarget (h : b.Framed) {span : Span} {e : Expr} (he : span.encloses e.span = true) :
    (b.addTarget span e).Framed := by
  unfold Builder.addTarget
  split
  · exact h
  · split
    · exact h
    · cases e with
      | name => exact h.addName he _ _ _ _
      | _ => exact h.addMember he _ _

theorem addFunction (h : b.Framed) {fname : Expr} (isLocal : Bool) {f : FunctionBody}
    (hname : f.span.encloses fname.span = true) : (b.addFunction fname isLocal f).2.Framed := by
  unfold Builder.addFunction
  split
  · refine makeFunction ?_ _ f
    split
    · exact h
    · exact h.addName hname _ _ _ _
    · exact h.addMember hname _ _
  · exact h

theorem addField (h : b.Framed) (owner : Nat) {f : Field} (hf : (Layout.field f).Nested) :
    (addField owner b f).Framed := by
  unfold Builder.addField
  split
  next hname _ =>
    refine h.add ?_ (some owner)
    split <;> exact Layout.span_name? hf hname
  · exact h

theorem foldl {α : Type} {xs : List α} {f : Builder → α → Builder} (h : b.Framed)
    (hf : ∀ b : Builder, b.Framed → ∀ x ∈ xs, (f b x).Framed) : (xs.foldl f b).Framed :=
  xs.foldlRecOn f h hf

theorem addStatement (h : b.Framed) {s : Stmt} (hs : (Layout.statement s).Nested) : (b.addStatement s).Framed := by
  cases s with
  | declare ids =>
    refine h.foldl fun b hb id hid => hb.addName (hs.encloses (.identifier id) ?_) _ _ _ _
    exact mem_append_left _ (mem_map_of_mem hid)
  | assignment targets op =>
    cases op with
    | assign =>
      refine h.foldl fun b hb e he => hb.addTarget (Layout.span_expression e ▸ hs.encloses _ ?_)
      exact mem_append_left _ (Layout.expression_mem he)
    | _ => exact h
  | function name => exact h.addFunction _ (Layout.span_expression name ▸ hs.encloses _ (.head _))
  | forNumeric => exact h.addLeaf (hs.encloses _ (.head _))
  | forGeneric ids =>
    refine h.foldl fun b hb id hid => hb.addLeaf (hs.encloses (.identifier id) ?_)
    exact mem_append_left _ (mem_append_left _ (mem_map_of_mem hid))
  | label => exact h.addLeaf (hs.encloses _ (.head _))
  | _ => exact h

theorem enter (h : b.Framed) {node : ScopeNode} {ctx : Context} (hlies : (Event.enter node ctx).Lies) :
    (b.enter node ctx).Framed := by
  cases node with
  | chunk | block | clause => exact h
  | function fname f =>
    rw [Builder.enter]
    generalize (if fname.isNone then b.boundSymbol? ctx else none) = bound
    cases bound with
    | none => exact h
    | some i => exact h.makeFunction i f
  | table t =>
    obtain ⟨fs, span⟩ := t
    rw [Builder.enter]
    cases b.boundSymbol? ctx with
    | none => exact h
    | some i => exact h.foldl fun b hb f hf => hb.addField i (hlies.parts _ (Layout.field_mem hf))

theorem step (h : b.Framed) {event : Event} (hlies : event.Lies) : (b.step event).Framed := by
  cases event with
  | enter => exact h.enter hlies
  | statement => exact h.addStatement hlies
  | _ => exact h

end Framed

end Outline.Builder

/-- The span of a symbol encloses that of its name, and so it is for all symbols below it. -/
inductive OutlineSymbol.Framed : OutlineSymbol → Prop where
  | mk {name detail kind fullSpan selectionSpan children} (encloses : fullSpan.encloses selectionSpan = true)
    (below : ∀ child ∈ children, Framed child) : Framed (.mk name detail kind fullSpan selectionSpan children)

theorem Outline.Builder.Framed.tree {b : Builder} (h : b.Framed) (depth i : Nat) : (tree b.entries depth i).Framed := by
  have hdefault : (default : OutlineSymbol).Framed := .mk rfl nofun
  induction depth generalizing i with
  | zero => exact hdefault
  | succ depth ih =>
    unfold Builder.tree
    split
    · exact hdefault
    next e he =>
      refine .mk (h i e he) fun child hchild => ?_
      obtain ⟨j, -, rfl⟩ := mem_map.mp hchild
      exact ih j

/-- In a program without include lines, with or without faults, every symbol of the outline has a span that encloses that
of its name. -/
theorem Chunk.symbols_framed {options : Options} {source name : String} (halone : Program.IsAlone options source) :
    ∀ symbol ∈ (Chunk.parse options source name).symbols, symbol.Framed := by
  intro symbol hsymbol
  obtain ⟨i, -, rfl⟩ := mem_map.mp hsymbol
  have hlie : Lie (Walk.full (Program.parse options source name).body) :=
    .inScope trivial (.cons trivial (.statements (Program.laid_parse halone rfl).2.nested))
  refine Outline.Builder.Framed.tree ?_ _ i
  exact Outline.Builder.Framed.foldl nofun fun b hb event hevent => hb.step (hlie event hevent)

/-- A program with a table of functions, a method that writes a member of its receiver, and a broken assignment. -/
def listed : String := "local t=\x7bf=function(p)end,['g']=1\x7d function t.f:m()self.x=1 end u.v,w=\nfor i=1,2 do ::l:: end"

theorem Chunk.symbols_framed_listed : Program.IsAlone {} listed ∧ (Chunk.parse {} listed).errors.length = 1 ∧
    (Chunk.parse {} listed).symbols.length = 3 ∧ ∀ symbol ∈ (Chunk.parse {} listed).symbols, symbol.Framed := by
  have halone : Program.IsAlone {} listed := by
    unfold Program.IsAlone
    decide +kernel
  have hsize : (Chunk.parse {} listed).errors.length = 1 ∧ (Chunk.parse {} listed).symbols.length = 3 := by decide +kernel
  exact ⟨halone, hsize.1, hsize.2, symbols_framed halone⟩

end CartLua
