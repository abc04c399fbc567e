import CartLua.CrossReference.Build
import CartLua.Proofs.Mentions
import Mathlib.Tactic
/-!
# The mentions on a walk

What names mean along a walk depends on the scopes that are open, and of these only on the locals each of them has and on
whether it is a table with a name. The layers here hold just that. A walk through a tree tells exactly the mentions of the
tree, opens scopes that hold what the tree declares in them, and leaves the layers as they were but for what statements
declare.
-/

namespace CartLua

open List

/-- The names that are declared directly in the scope of a block or a loop, latest first. -/
def Stmt.ownNames : Stmt → List Identifier
  | .block body _ | .whileLoop _ body _ | .repeatLoop body _ _ => sightBehind [] body
  | .forNumeric counter _ _ _ body _ => sightBehind [] body ++ [counter]
  | .forGeneric names _ body _ => sightBehind [] body ++ names.reverse
  | _ => []

/-- A name that is declared, and whether as a parameter. -/
structure Declaration where
  id : Identifier
  isParameter : Bool := false
deriving DecidableEq

namespace ScopeNode

/-- The names that are declared directly in a scope, latest first. -/
def declared : ScopeNode → List Identifier
  | .chunk body => sightBehind [] body
  | .function _ f => sightBehind [] f.body ++ (parameterNames f.parameters).reverse
  | .block s => s.ownNames
  | .clause c => sightBehind [] c.body
  | .table _ => []

/-- The declarations directly in a scope, latest first. -/
def declarations : ScopeNode → List Declaration
  | .function _ f => (sightBehind [] f.body).map (⟨·, false⟩) ++ (parameterNames f.parameters).reverse.map (⟨·, true⟩)
  | node => node.declared.map (⟨·, false⟩)

def isChunk : ScopeNode → Bool
  | .chunk _ => true
  | _ => false

end ScopeNode

namespace Event

def opened? : Event → Option ScopeNode
  | .enter node _ => some node
  | _ => none

def isVisit : Event → Bool
  | .enter .. | .leave .. => false
  | _ => true

/-- The name that an event declares in the innermost scope. -/
def declared? : Event → Option Identifier
  | .expression e ctx => localName? e ctx.role.declaration
  | .identifier id ctx => if ctx.role.parameter || ctx.role.declaration then some id else none
  | _ => none

/-- Whether what an event declares is a parameter. -/
def isParameter : Event → Bool
  | .identifier _ ctx => ctx.role.parameter
  | _ => false

def declaration? (event : Event) : Option Declaration := event.declared?.map (⟨·, event.isParameter⟩)

end Event

namespace Scoping

open CrossReference (below)

/-- An open scope. -/
structure Layer where
  /-- Whether it is the scope of a table that is bound to a name. -/
  isBound : Bool := false
  /-- The locals declared in it, latest first. -/
  locals : List Identifier := []

/-- The locals in sight where scopes are open, innermost first. -/
def sight (layers : List Layer) : List Identifier := layers.flatMap (·.locals)

def declare (ids : List Identifier) : List Layer → List Layer
  | [] => []
  | top :: rest => { top with locals := ids ++ top.locals } :: rest

/-- Whether the node that a value is bound to gives it a name. -/
def isNamed (layers : List Layer) : Option Node → Bool
  | some (.expression target) => target.segments?.isSome
  | some (.identifier _) => true
  | some (.field f) => layers.head?.any (·.isBound) && f.name?.isSome
  | _ => false

def after (layers : List Layer) : Event → List Layer
  | .enter (.table _) ctx => { isBound := isNamed layers ctx.definitionTarget? } :: layers
  | .enter .. => {} :: layers
  | .leave .. => layers.tail
  | .expression e ctx => declare (localName? e ctx.role.declaration).toList layers
  | .identifier id ctx => if ctx.role.parameter || ctx.role.declaration then declare [id] layers else layers
  | _ => layers

def mentions (layers : List Layer) : Event → List Mention
  | .expression e ctx =>
    match localName? e ctx.role.declaration with
    | some id => [.declaration id]
    | none => if e.segments?.isSome then Mention.expression (sight layers) false e else []
  | .identifier id ctx => if ctx.role.parameter || ctx.role.declaration then [.declaration id] else []
  | .field f _ => if layers.head?.any (·.isBound) then f.name?.toList.map fun key => .fieldKey key.2 else []
  | _ => []

/-- Events that are met while scopes are open tell mentions, in any order, and lead to other open scopes. -/
inductive Tells : List Layer → List Event → List Layer → List Mention → Prop where
  | nil (layers : List Layer) : Tells layers [] layers []
  | cons {layers layers' : List Layer} {event : Event} {events : List Event} {ms : List Mention} (hopen : layers ≠ [])
    (h : Tells (after layers event) events layers' ms) : Tells layers (event :: events) layers' (mentions layers event ++ ms)
  | reorder {layers layers' : List Layer} {events : List Event} {ms ms' : List Mention}
    (h : Tells layers events layers' ms) (hperm : ms.Perm ms') : Tells layers events layers' ms'

variable {layers layers' layers'' : List Layer} {events events' : List Event} {ms ms' : List Mention} {ctx : Context} {scope : ScopeNode}

@[simp] theorem declare_nil (layers : List Layer) : declare [] layers = layers := by
  cases layers <;> rfl

theorem declare_append (ids others : List Identifier) (layers : List Layer) :
    declare (ids ++ others) layers = declare ids (declare others layers) := by
  cases layers with
  | nil => rfl
  | cons => simp [declare]

theorem declare_ne_nil (ids : List Identifier) (hopen : layers ≠ []) : declare ids layers ≠ [] := by
  cases layers with
  | nil => exact absurd rfl hopen
  | cons => exact cons_ne_nil _ _

theorem tail_declare (ids : List Identifier) (layers : List Layer) : (declare ids layers).tail = layers.tail := by
  cases layers <;> rfl

theorem sight_declare (ids : List Identifier) (hopen : layers ≠ []) :
    sight (declare ids layers) = ids ++ sight layers := by
  cases layers with
  | nil => exact absurd rfl hopen
  | cons => simp [sight, declare]

namespace Tells

theorem append (h : Tells layers events layers' ms) (h' : Tells layers' events' layers'' ms') :
    Tells layers (events ++ events') layers'' (ms ++ ms') := by
  induction h with
  | nil => exact h'
  | cons hopen _ ih =>
    rw [cons_append, append_assoc]
    exact cons hopen (ih h')
  | reorder _ hperm ih => exact (ih h').reorder (hperm.append_right _)

theorem single (hopen : layers ≠ []) (event : Event) :
    Tells layers [event] (after layers event) (mentions layers event) := by
  have h := cons hopen (nil (after layers event))
  rwa [append_nil] at h

theorem inScope {inner : List Layer} (hopen : layers ≠ []) (h : Tells (after layers (.enter scope ctx)) events inner ms)
    (hinner : inner.tail = layers) : Tells layers (.enter scope ctx :: events ++ [.leave scope ctx]) layers ms := by
  have hne : inner ≠ [] := by
    rintro rfl
    exact hopen hinner.symm
  have hleave := single hne (.leave scope ctx)
  rw [show after inner (.leave scope ctx) = layers from hinner] at hleave
  have henter : mentions layers (.enter scope ctx) = [] := by cases scope <;> rfl
  have hall := (cons hopen h).append hleave
  simpa [henter, mentions] using hall

end Tells

/-! ### Stretches -/

/-- What can be seen from within open scopes, as one layer with the locals of all. -/
structure Views (layers : List Layer) (view : Layer) : Prop where
  nonempty : layers ≠ []
  isBound : layers.head?.any (·.isBound) = view.isBound
  locals : sight layers = view.locals

/-- A stretch of a walk through a tree, which declares names in the innermost scope, latest first, and tells mentions. The
scopes that it opens are closed again, and what is declared in them is what their nodes say. -/
inductive Stretch : Layer → List Event → List Declaration → List Mention → Prop where
  | nil (view : Layer) : Stretch view [] [] []
  | visit (view : Layer) (event : Event) (h : event.isVisit = true) :
    Stretch view [event] event.declaration?.toList (mentions [view] event)
  | append {view : Layer} {events events' : List Event} {ds ds' : List Declaration} {ids : List Identifier}
    {ms ms' : List Mention} (h : Stretch view events ds ms) (hids : ds.map (·.id) = ids)
    (h' : Stretch { view with locals := ids ++ view.locals } events' ds' ms') :
    Stretch view (events ++ events') (ds' ++ ds) (ms ++ ms')
  | scope {view : Layer} {scope : ScopeNode} {ctx : Context} {isBound : Bool} {events : List Event} {ms : List Mention}
    (hscope : scope.isChunk = false) (hinner : after [view] (.enter scope ctx) = [{ isBound }, view])
    (h : Stretch { view with isBound } events scope.declarations ms) :
    Stretch view (.enter scope ctx :: events ++ [.leave scope ctx]) [] ms
  | reorder {view : Layer} {events : List Event} {ds : List Declaration} {ms ms' : List Mention}
    (h : Stretch view events ds ms) (hperm : ms.Perm ms') : Stretch view events ds ms'

variable {view : Layer} {ids : List Identifier} {ds : List Declaration} {event : Event} {role : Role} {e : Expr} {parts : Context → List Event}

theorem isNamed_of_views (h : Views layers view) (target : Option Node) : isNamed layers target = isNamed [view] target := by
  unfold isNamed
  split
  · rfl
  · rfl
  · rw [h.isBound]
    rfl
  · rfl

theorem sight_view (view : Layer) : sight [view] = view.locals := append_nil _

theorem mentions_of_views (h : Views layers view) (event : Event) : mentions layers event = mentions [view] event := by
  cases event with
  | expression => rw [mentions, mentions, h.locals, sight_view]
  | field =>
    rw [mentions, mentions, h.isBound]
    rfl
  | _ => rfl

theorem after_of_isVisit (h : event.isVisit = true) (layers : List Layer) :
    after layers event = declare event.declared?.toList layers := by
  cases event with
  | enter | leave => cases h
  | expression => rfl
  | identifier =>
    rw [after, Event.declared?]
    split
    · rfl
    · exact (declare_nil layers).symm
  | _ => exact (declare_nil layers).symm

theorem Views.declare (h : Views layers view) (ids : List Identifier) :
    Views (Scoping.declare ids layers) { view with locals := ids ++ view.locals } := by
  refine ⟨declare_ne_nil ids h.nonempty, ?_, by rw [sight_declare ids h.nonempty, h.locals]⟩
  rw [← h.isBound]
  cases layers <;> rfl

theorem Views.enter {isBound : Bool} (h : Views layers view) (hinner : after [view] (.enter scope ctx) = [{ isBound }, view]) :
    after layers (.enter scope ctx) = { isBound } :: layers ∧ Views ({ isBound } :: layers) { view with isBound } := by
  refine ⟨?_, cons_ne_nil _ _, rfl, h.locals⟩
  cases scope with
  | table =>
    have hnamed : isNamed [view] ctx.definitionTarget? = isBound := congrArg Layer.isBound (cons.inj hinner).1
    rw [after, isNamed_of_views h, hnamed]
  | _ => exact congrArg (· :: layers) (cons.inj hinner).1

theorem map_id_locals (isParameter : Bool) (ids : List Identifier) :
    (ids.map (Declaration.mk · isParameter)).map (·.id) = ids := by
  rw [map_map]
  exact map_id ids

theorem map_id_declaration? (event : Event) : event.declaration?.toList.map (·.id) = event.declared?.toList := by
  rw [Event.declaration?]
  cases event.declared? <;> rfl

theorem map_id_declarations (scope : ScopeNode) : scope.declarations.map (·.id) = scope.declared := by
  cases scope with
  | function =>
    rw [ScopeNode.declarations, map_append, map_id_locals, map_id_locals]
    rfl
  | _ => exact map_id_locals false _

namespace Stretch

theorem tells (h : Stretch view events ds ms) (hview : Views layers view) :
    Tells layers events (declare (ds.map (·.id)) layers) ms := by
  induction h generalizing layers with
  | nil => exact (declare_nil layers).symm ▸ .nil layers
  | visit view event hvisit =>
    rw [map_id_declaration?, ← after_of_isVisit hvisit, ← mentions_of_views hview]
    exact .single hview.nonempty event
  | append _ hids _ ih ih' =>
    rw [map_append, declare_append, hids]
    exact (hids ▸ ih hview).append (ih' (hview.declare _))
  | @scope view scope ctx isBound _ _ _ hinner _ ih =>
    obtain ⟨hafter, hinside⟩ := hview.enter hinner
    rw [map_nil, declare_nil]
    refine .inScope hview.nonempty (hafter ▸ ih hinside) ?_
    rw [tail_declare, hafter, tail_cons]
  | reorder _ hperm ih => exact (ih hview).reorder hperm

theorem join (h : Stretch view events [] ms) (h' : Stretch view events' ds ms') :
    Stretch view (events ++ events') ds (ms ++ ms') := by
  have hall := h.append rfl h'
  rwa [append_nil] at hall

theorem quiet (hvisit : event.isVisit = true) (hdeclared : event.declared? = none) (hmentions : mentions [view] event = [])
    (h : Stretch view events ds ms) : Stretch view (event :: events) ds ms := by
  have hevent := visit view event hvisit
  rw [Event.declaration?, hdeclared, hmentions] at hevent
  exact hevent.join h

end Stretch

/-! ### Names -/

theorem sightBehind_eq (sight : List Identifier) (body : Block) :
    sightBehind sight body = sightBehind [] body ++ sight := by
  induction body generalizing sight with
  | nil => rfl
  | cons s rest ih =>
    have hrest := ih (s.declared ++ [])
    have hall := ih (s.declared ++ sight)
    simp only [sightBehind, foldl_cons] at hrest hall ⊢
    simp

theorem sightBehind_cons (s : Stmt) (rest : Block) :
    sightBehind [] (s :: rest) = sightBehind [] rest ++ s.declared := by
  show sightBehind (s.declared ++ []) rest = _
  rw [append_nil, sightBehind_eq]

theorem stretch_name (hrole : role.declaration = true) (id : Identifier) :
    Stretch view (Walk.name role ctx id) [⟨id, role.parameter⟩] [.declaration id] := by
  have h := Stretch.visit view (.identifier id (ctx.push (.identifier id) role)) rfl
  simpa [Event.declaration?, Event.declared?, Event.isParameter, mentions, Context.role, Context.push, Walk.name,
    hrole] using h

theorem stretch_names (ids : List Identifier) :
    Stretch view (Walk.names ctx ids) (ids.reverse.map (⟨·, false⟩)) (ids.map .declaration) := by
  induction ids generalizing view with
  | nil => exact .nil view
  | cons id rest ih =>
    rw [reverse_cons, map_append]
    exact (stretch_name rfl id).append rfl ih

theorem stretch_parameters (ps : List Parameter) :
    Stretch view (Walk.parameters ctx ps) ((parameterNames ps).reverse.map (⟨·, true⟩))
      ((parameterNames ps).map .declaration) := by
  induction ps generalizing view with
  | nil => exact .nil view
  | cons p rest ih =>
    cases p with
    | name id =>
      rw [show parameterNames (.name id :: rest) = id :: parameterNames rest from rfl, reverse_cons,
        map_append]
      exact (stretch_name rfl id).append rfl ih
    | vararg => exact ih

/-! ### Expressions -/

/-- The innermost node has no value below it that is bound to it, unless it is a field. -/
def Loose (ctx : Context) : Prop := ∀ a ∈ ctx.nodes.head?, a.role.binding = false

theorem loose_push (node : Node) {role : Role} (hrole : role.binding = false) : Loose (ctx.push node role) := by
  intro a ha
  obtain rfl := Option.mem_some_iff.mp ha
  exact hrole

theorem loose_enter (hloose : Loose ctx) (scope : ScopeNode) : Loose (ctx.enter scope) := hloose

theorem isNamed_of_loose {role : Role} (hloose : Loose ctx) (hrole : role.fieldValue = false) (e : Expr) :
    isNamed layers (ctx.push (.expression e) role).bindingTarget? = false := by
  obtain ⟨nodes, scopes⟩ := ctx
  cases nodes with
  | nil => rfl
  | cons a =>
    have ha : a.role.binding = false := hloose a rfl
    obtain ⟨node, arole⟩ := a
    cases node <;>
      simp_all [Context.bindingTarget?, Context.push, Context.parent?, Context.role, isNamed]

/-- An expression is visited that declares nothing. -/
structure Visits (view : Layer) (ctx : Context) (role : Role) (e : Expr) (isBound : Bool) : Prop where
  binding : role.binding = false
  declaration : localName? e role.declaration = none
  target : isNamed [view] (ctx.push (.expression e) role).bindingTarget? = isBound

theorem Loose.part (hloose : Loose ctx) : Visits view ctx {} e false := ⟨rfl, rfl, isNamed_of_loose hloose rfl e⟩

theorem stretch_atExpression (hname : localName? e role.declaration = none) (hchain : e.segments? = none)
    (h : Stretch view (parts (ctx.push (.expression e) role)) [] ms) :
    Stretch view (Walk.atExpression below ctx role e parts) [] ms := by
  have hname' : localName? e (ctx.push (.expression e) role).role.declaration = none := hname
  rw [Walk.atExpression, if_pos (by simp [below, hchain])]
  exact .quiet rfl hname' (by simp [mentions, hname', hchain]) h

theorem stretch_chain (hname : localName? e role.declaration = none) (hchain : e.segments?.isSome = true) :
    Stretch view (Walk.atExpression below ctx role e parts) [] (Mention.expression view.locals false e) := by
  have hname' : localName? e (ctx.push (.expression e) role).role.declaration = none := hname
  have h := Stretch.visit view (.expression e (ctx.push (.expression e) role)) rfl
  rw [Walk.atExpression, if_neg (by simp [below, Option.isSome_iff_ne_none.mp hchain])]
  simpa [Event.declaration?, Event.declared?, mentions, hname', hchain, sight_view] using h

/-- Visits that declare nothing. -/
inductive Each (view : Layer) : List (List Event) → List Mention → Prop where
  | nil : Each view [] []
  | cons {group : List Event} {groups : List (List Event)} {ms ms' : List Mention}
    (h : Stretch view group [] ms) (hrest : Each view groups ms') : Each view (group :: groups) (ms ++ ms')

theorem Each.flatten {groups : List (List Event)} (h : Each view groups ms) : Stretch view groups.flatten [] ms := by
  induction h with
  | nil => exact .nil view
  | cons h _ ih => exact h.join ih

theorem Each.interleave {groups others : List (List Event)} (h : Each view groups ms) (h' : Each view others ms') :
    Stretch view (Walk.interleave groups others) [] (ms ++ ms') := by
  induction h generalizing others ms' with
  | nil => exact h'.flatten
  | @cons group groups ms rest h hrest ih =>
    cases h' with
    | nil =>
      rw [append_nil]
      exact h.join hrest.flatten
    | cons h' hrest' => exact ((h.join h').join (ih hrest')).reorder (by grind)

/-! ### Trees -/

theorem stretch_block {first : Context → List Event} {body : Block} (hscope : scope.isChunk = false)
    (hinner : after [view] (.enter scope ctx) = [{}, view])
    (hdeclared : scope.declarations = (sightBehind [] body).map (⟨·, false⟩) ++ ds)
    (hfirst : Stretch { view with isBound := false } (first (ctx.enter scope)) ds ms) (hids : ds.map (·.id) = ids)
    (hbody : Stretch ⟨false, ids ++ view.locals⟩ (Walk.statements below (ctx.enter scope) body)
      ((sightBehind [] body).map (⟨·, false⟩)) (Mention.statements (ids ++ view.locals) body)) :
    Stretch view (Walk.inScope scope ctx fun ctx => first ctx ++ .block body ctx :: Walk.statements below ctx body) []
      (ms ++ Mention.statements (ids ++ view.locals) body) := by
  refine .scope hscope hinner ?_
  rw [hdeclared]
  exact hfirst.append hids (.quiet rfl rfl rfl hbody)

theorem stretch_body {body : Block} (hscope : scope.isChunk = false)
    (hinner : after [view] (.enter scope ctx) = [{}, view])
    (hbody : Stretch { view with isBound := false } (Walk.statements below (ctx.enter scope) body) scope.declarations ms) :
    Stretch view (Walk.inScope scope ctx fun ctx => .block body ctx :: Walk.statements below ctx body) [] ms :=
  .scope hscope hinner (.quiet rfl rfl rfl hbody)

theorem visits_fieldValue (ctx : Context) (f : Field) :
    Visits view (ctx.push (.field f)) { fieldValue := true } e (view.isBound && f.name?.isSome) := ⟨rfl, rfl, rfl⟩

theorem stretch_localName {id : Identifier} (hrole : role.declaration = true) :
    Stretch view (Walk.atExpression below ctx role (.name id) parts) [⟨id, false⟩] [.declaration id] := by
  have hname : localName? (.name id) (ctx.push (.expression (.name id)) role).role.declaration = some id := by
    simp [localName?, Context.role, Context.push, hrole, Expr.asName?]
  have h := Stretch.visit view (.expression (.name id) (ctx.push (.expression (.name id)) role)) rfl
  rw [Walk.atExpression, if_neg (by simp [below, Expr.segments?])]
  simpa [Event.declaration?, Event.declared?, Event.isParameter, mentions, hname] using h

theorem bindingTarget?_bound {a : Ancestor} (hrole : a.role.binding = true) (hfield : ∀ f, a.node ≠ .field f) (e : Expr) :
    (Context.push { ctx with nodes := a :: ctx.nodes } (.expression e)).bindingTarget? = some a.node := by
  obtain ⟨node, role⟩ := a
  cases node <;> simp_all [Context.bindingTarget?, Context.push, Context.parent?]

mutual

theorem stretch_expression {view : Layer} {ctx : Context} {role : Role} {bound : Bool} (e : Expr)
    (h : Visits view ctx role e bound) :
    Stretch view (Walk.expression below ctx role e) [] (Mention.expression view.locals bound e) := by
  have hloose : Loose (ctx.push (.expression e) role) := loose_push _ h.binding
  have hname := h.declaration
  cases e with
  | name => exact stretch_chain hname rfl
  | string | number | boolean | nil | vararg => exact stretch_atExpression hname rfl (.nil view)
  | binary op left right | logical op left right =>
    exact stretch_atExpression hname rfl ((stretch_expression left hloose.part).join (stretch_expression right hloose.part))
  | unary op argument => exact stretch_atExpression hname rfl (stretch_expression argument hloose.part)
  | member base =>
    by_cases hchain : base.segments?.isSome = true
    · exact stretch_chain hname (by simpa [Expr.segments?] using hchain)
    · rw [Mention.expression, if_neg hchain, append_nil]
      exact stretch_atExpression hname (by simpa [Expr.segments?] using hchain) (stretch_expression base hloose.part)
  | index base key =>
    exact stretch_atExpression hname rfl ((stretch_expression base hloose.part).join (stretch_expression key hloose.part))
  | call base arguments =>
    exact stretch_atExpression hname rfl ((stretch_expression base hloose.part).join (stretch_expressions hloose arguments))
  | tableCall base argument =>
    exact stretch_atExpression hname rfl ((stretch_expression base hloose.part).join (stretch_table argument rfl))
  | stringCall base argument =>
    exact stretch_atExpression hname rfl ((stretch_expression base hloose.part).join (stretch_expression argument hloose.part))
  | table t => exact stretch_atExpression hname rfl (stretch_table t h.target)
  | function f => exact stretch_atExpression hname rfl (.quiet rfl rfl rfl (stretch_functionBody none f))

theorem stretch_expressions {view : Layer} {ctx : Context} (hloose : Loose ctx) (es : List Expr) :
    Stretch view (Walk.expressions below ctx es) [] (Mention.expressions view.locals es) := by
  cases es with
  | nil => exact .nil view
  | cons e rest => exact (stretch_expression e hloose.part).join (stretch_expressions hloose rest)

theorem stretch_table {view : Layer} {ctx : Context} {bound : Bool} (t : Table)
    (hbound : isNamed [view] ctx.definitionTarget? = bound) :
    Stretch view (Walk.table below ctx t) [] (Mention.table view.locals bound t) := by
  obtain ⟨fs, span⟩ := t
  subst hbound
  exact .quiet rfl rfl rfl (.scope rfl rfl (stretch_fields fs rfl))

theorem stretch_fields {view : Layer} {ctx : Context} {bound : Bool} (fs : List Field) (hbound : view.isBound = bound) :
    Stretch view (Walk.fields below ctx fs) [] (Mention.fields view.locals bound fs) := by
  cases fs with
  | nil => exact .nil view
  | cons f rest => exact (stretch_field f hbound).join (stretch_fields rest hbound)

theorem stretch_functionBody {view : Layer} {ctx : Context} (fname : Option Expr) (f : FunctionBody) :
    Stretch view (Walk.functionScope below ctx fname f) [] (Mention.functionBody view.locals f) := by
  obtain ⟨ps, body, span⟩ := f
  rw [Walk.functionScope, Mention.functionBody]
  exact stretch_block rfl rfl rfl (stretch_parameters ps) (map_id_locals true _) (stretch_statements body)

theorem stretch_optionalExpression {view : Layer} {ctx : Context} (hloose : Loose ctx) (e : Option Expr) :
    Stretch view (Walk.optionalExpression below ctx e) [] (Mention.optionalExpression view.locals e) := by
  cases e with
  | none => exact .nil view
  | some e => exact stretch_expression e hloose.part

theorem each_targets {view : Layer} {ctx : Context} (hloose : Loose ctx) (es : List Expr) :
    Each view (Walk.targets below ctx es) (Mention.expressions view.locals es) := by
  cases es with
  | nil => exact .nil
  | cons e rest => exact .cons (stretch_expression e ⟨rfl, rfl, isNamed_of_loose hloose rfl e⟩) (each_targets hloose rest)

theorem each_values {view : Layer} {ctx : Context} (hloose : Loose ctx) (es : List Expr) (bounds : List Ancestor)
    (hbounds : ∀ a ∈ bounds, a.role.binding = true ∧ ∀ f, a.node ≠ .field f) :
    Each view (Walk.boundValues below ctx bounds es)
      (Mention.values view.locals (bounds.map fun a => isNamed [view] (some a.node)) es) := by
  cases es with
  | nil => exact .nil
  | cons e rest =>
    cases bounds with
    | nil => exact .cons (stretch_expression e hloose.part) (each_values hloose rest [] nofun)
    | cons a others =>
      obtain ⟨ha, hothers⟩ := forall_mem_cons.mp hbounds
      exact .cons (stretch_expression e ⟨rfl, rfl, by rw [bindingTarget?_bound ha.1 ha.2]⟩)
        (each_values hloose rest others hothers)

theorem stretch_field {view : Layer} {ctx : Context} {bound : Bool} (f : Field) (hbound : view.isBound = bound) :
    Stretch view (Walk.field below ctx f) [] (Mention.field view.locals bound f) := by
  have hvisit := Stretch.visit view (.field f (ctx.push (.field f))) rfl
  have hloose : Loose (ctx.push (.field f)) := loose_push _ rfl
  subst hbound
  cases f with
  | keyed key value span =>
    have hall := hvisit.join ((stretch_expression key hloose.part).join
      (stretch_expression value (visits_fieldValue ctx (.keyed key value span))))
    rw [Walk.field, Mention.field]
    cases hbound : view.isBound <;> cases hstring : key.stringKey? <;>
      simpa [mentions, Field.name?, hbound, hstring, Walk.atField] using hall
  | named key value span =>
    have hall := hvisit.join (stretch_expression value (visits_fieldValue ctx (.named key value span)))
    rw [Walk.field, Mention.field]
    cases hbound : view.isBound <;> simpa [mentions, Field.name?, hbound, Walk.atField] using hall
  | positional value span =>
    have hall := hvisit.join (stretch_expression value (visits_fieldValue ctx (.positional value span)))
    rw [Walk.field, Mention.field]
    cases hbound : view.isBound <;> simpa [mentions, Field.name?, hbound, Walk.atField] using hall

theorem stretch_statements {view : Layer} {ctx : Context} (body : List Stmt) :
    Stretch view (Walk.statements below ctx body) ((sightBehind [] body).map (⟨·, false⟩))
      (Mention.statements view.locals body) := by
  cases body with
  | nil => exact .nil view
  | cons s rest =>
    rw [Walk.statements, Mention.statements, sightBehind_cons, map_append]
    exact (stretch_statement s).append (map_id_locals false _) (stretch_statements rest)

theorem stretch_clauses {view : Layer} {ctx : Context} (cs : List Clause) :
    Stretch view (Walk.clauses below ctx cs) [] (Mention.clauses view.locals cs) := by
  cases cs with
  | nil => exact .nil view
  | cons c rest => exact (stretch_clause (loose_push _ rfl) c).join (stretch_clauses rest)

theorem stretch_clause {view : Layer} {ctx : Context} (hloose : Loose ctx) (c : Clause) :
    Stretch view (Walk.clause below ctx c) [] (Mention.clause view.locals c) := by
  cases c with
  | ifThen condition body | elseIf condition body =>
    exact (stretch_expression condition hloose.part).join (stretch_body rfl rfl (stretch_statements body))
  | otherwise body => exact stretch_body rfl rfl (stretch_statements body)

theorem stretch_statement {view : Layer} {ctx : Context} (s : Stmt) :
    Stretch view (Walk.statement below ctx s) (s.declared.map (⟨·, false⟩)) (Mention.statement view.locals s) := by
  have hloose : Loose (ctx.push (.statement s)) := loose_push _ rfl
  cases s with
  | assignment targets op vs =>
    rw [Walk.statement, Mention.statement]
    have hvalues : Each view _ _ := each_values hloose vs
      (targets.map fun t => ⟨.expression t, { target := true, binding := true }⟩) (by simp)
    rw [map_map] at hvalues
    exact .quiet rfl rfl rfl ((each_targets hloose targets).interleave hvalues)
  | declare names vs =>
    have hvalues : Each view _ _ := each_values hloose vs
      (names.map fun id => ⟨.identifier id, { declaration := true, binding := true }⟩) (by simp)
    rw [map_map] at hvalues
    exact .quiet rfl rfl rfl (hvalues.flatten.join (stretch_names names))
  | call e =>
    rw [Walk.statement, Mention.statement]
    exact .quiet rfl rfl rfl (stretch_expression e hloose.part)
  | block body =>
    rw [Walk.statement, Mention.statement]
    exact .quiet rfl rfl rfl (stretch_body rfl rfl (stretch_statements body))
  | whileLoop condition body =>
    rw [Walk.statement, Mention.statement]
    refine .quiet rfl rfl rfl ?_
    exact (stretch_expression condition hloose.part).join (stretch_body rfl rfl (stretch_statements body))
  | repeatLoop body condition =>
    rw [Walk.statement, Mention.statement, sightBehind_eq]
    refine .quiet rfl rfl rfl (.scope rfl rfl (.quiet rfl rfl rfl ?_))
    exact (stretch_statements body).append (map_id_locals false _) (stretch_expression condition (loose_enter hloose _).part)
  | branch cs =>
    rw [Walk.statement, Mention.statement]
    exact .quiet rfl rfl rfl (stretch_clauses cs)
  | forNumeric counter first last step body =>
    rw [Walk.statement, Mention.statement]
    refine .quiet rfl rfl rfl ?_
    refine (((stretch_expression first hloose.part).join (stretch_expression last hloose.part)).join
      (stretch_optionalExpression hloose step)).join ?_
    show Stretch view _ [] ([counter].map .declaration ++ Mention.statements ([counter] ++ view.locals) body)
    exact stretch_block rfl rfl map_append (stretch_names [counter]) rfl (stretch_statements body)
  | forGeneric names iterators body =>
    rw [Walk.statement, Mention.statement, append_assoc]
    refine .quiet rfl rfl rfl ((stretch_expressions hloose iterators).join ?_)
    exact stretch_block rfl rfl map_append (stretch_names names) (map_id_locals false _) (stretch_statements body)
  | function name isLocal f =>
    rw [Walk.statement, Mention.statement, Stmt.declared]
    refine .quiet rfl rfl rfl (.quiet rfl rfl rfl ?_)
    refine Stretch.append ?_ (map_id_locals false _) (stretch_functionBody (some name) f)
    cases hlocal : localName? name isLocal with
    | none =>
      refine stretch_expression name ⟨by cases isLocal <;> rfl, ?_, isNamed_of_loose hloose (by cases isLocal <;> rfl) name⟩
      cases isLocal
      · rfl
      · exact hlocal
    | some id =>
      obtain ⟨rfl, rfl⟩ : isLocal = true ∧ name = .name id := by
        cases isLocal <;> cases name <;> simp_all [localName?, Expr.asName?]
      exact stretch_localName rfl
  | ret vs =>
    rw [Walk.statement, Mention.statement]
    exact .quiet rfl rfl rfl (stretch_expressions hloose vs)
  | goto | label =>
    rw [Walk.statement, Mention.statement]
    exact .quiet rfl rfl rfl (.quiet rfl rfl rfl (.nil view))
  | breakLoop | inclusion =>
    rw [Walk.statement, Mention.statement]
    exact .quiet rfl rfl rfl (.nil view)

end

theorem stretch_program (ctx : Context) (body : Block) :
    Stretch {} (.block body ctx :: Walk.statements below ctx body) ((sightBehind [] body).map (⟨·, false⟩))
      (Mention.statements [] body) :=
  .quiet rfl rfl rfl (stretch_statements body)

theorem tells_program (ctx : Context) (body : Block) :
    Tells [{}] (.block body ctx :: Walk.statements below ctx body) (declare (sightBehind [] body) [{}])
      (Mention.statements [] body) := by
  have htells : Tells [{}] _ _ _ := (stretch_program ctx body).tells ⟨cons_ne_nil _ _, rfl, rfl⟩
  rwa [map_id_locals] at htells

end Scoping

end CartLua
