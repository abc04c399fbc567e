import CartLua.Proofs.Scoping
/-!
# The scopes of a program

A walk opens the scopes of a program one after the other, which numbers them, and meets the declarations of each while it
is the innermost one. A ledger keeps for every number what was declared there so far, also when the scope has been closed.
At the end of the walk through a program this is what the tree says: the parameters, the loop variables and the locals
among the statements that stand directly in the scope.
-/

namespace CartLua

open List

/-- The scopes of a program in the order in which they open. -/
def openedScopes (body : Block) : List ScopeNode := (Walk.chunk CrossReference.below body).filterMap Event.opened?

namespace Scoping

open CrossReference (below)

/-- What a walk has met of scopes and of the names declared in them. -/
structure Ledger where
  /-- All scopes so far, by their numbers. -/
  nodes : List ScopeNode := []
  /-- The open scopes, innermost first. -/
  stack : List ScopeId := []
  /-- The names declared in each scope, latest first. -/
  locals : ScopeId → List Identifier := fun _ => []

namespace Ledger

def declare (l : Ledger) (ids : List Identifier) : Ledger :=
  { l with locals := fun k => if l.stack.head? = some k then ids ++ l.locals k else l.locals k }

def step (l : Ledger) : Event → Ledger
  | .enter node _ =>
    { nodes := l.nodes ++ [node]
      stack := l.nodes.length :: l.stack
      locals := fun k => if k = l.nodes.length then [] else l.locals k }
  | .leave .. => { l with stack := l.stack.tail }
  | event => l.declare event.declared?.toList

def ofEvents (events : List Event) : Ledger := events.foldl step {}

/-- A scope is open, and the open ones are among all. -/
structure Valid (l : Ledger) : Prop where
  nonempty : l.stack ≠ []
  lt : ∀ k ∈ l.stack, k < l.nodes.length

theorem step_of_isVisit {event : Event} (h : event.isVisit = true) (l : Ledger) :
    l.step event = l.declare event.declared?.toList := by
  cases event with
  | enter | leave => cases h
  | _ => rfl

@[simp] theorem declare_nil (l : Ledger) : l.declare [] = l := by
  simp [declare]

theorem nodes_step (l : Ledger) (event : Event) : (l.step event).nodes = l.nodes ++ event.opened?.toList := by
  cases event <;> simp [step, declare, Event.opened?]

theorem nodes_foldl (events : List Event) (l : Ledger) :
    (events.foldl step l).nodes = l.nodes ++ events.filterMap Event.opened? := by
  induction events generalizing l with
  | nil => simp
  | cons event events ih =>
    rw [foldl_cons, ih, nodes_step, append_assoc]
    cases h : event.opened? <;> simp [h]

/-- A stretch of a walk has declared names in the innermost scope, and has opened and closed scopes that hold what their
nodes declare. -/
structure Grows (l : Ledger) (ids : List Identifier) (l' : Ledger) : Prop where
  stack : l'.stack = l.stack
  nodes : l.nodes <+: l'.nodes
  locals : ∀ k < l.nodes.length, l'.locals k = (l.declare ids).locals k
  inside : ∀ k node, l.nodes.length ≤ k → l'.nodes[k]? = some node → node.isChunk = false ∧ l'.locals k = node.declared

variable {l l' l'' : Ledger} {ids ids' : List Identifier}

theorem Grows.refl (l : Ledger) : l.Grows [] l := by
  refine ⟨rfl, prefix_rfl, fun k _ => by rw [declare_nil], fun k node hk hnode => ?_⟩
  rw [getElem?_eq_none hk] at hnode
  cases hnode

theorem Grows.declare (l : Ledger) (ids : List Identifier) : l.Grows ids (l.declare ids) := by
  refine ⟨rfl, prefix_rfl, fun _ _ => rfl, fun k node hk hnode => ?_⟩
  rw [show (l.declare ids).nodes = l.nodes from rfl, getElem?_eq_none hk] at hnode
  cases hnode

theorem Grows.valid (h : l.Grows ids l') (hl : l.Valid) : l'.Valid := by
  refine ⟨h.stack ▸ hl.nonempty, fun k hk => ?_⟩
  exact (hl.lt k (h.stack ▸ hk)).trans_le h.nodes.length_le

theorem Grows.trans (h : l.Grows ids l') (h' : l'.Grows ids' l'') (hl : l.Valid) : l.Grows (ids' ++ ids) l'' := by
  refine ⟨h'.stack.trans h.stack, h.nodes.trans h'.nodes, fun k hk => ?_, fun k node hk hnode => ?_⟩
  · rw [h'.locals k (hk.trans_le h.nodes.length_le), Ledger.declare, Ledger.declare, h.stack]
    dsimp only
    rw [h.locals k hk, Ledger.declare]
    dsimp only
    split <;> simp
  · by_cases hlt : k < l'.nodes.length
    · -- A scope that was opened before is not the innermost one now.
      have hhead : l'.stack.head? ≠ some k := fun hhead =>
        absurd (hl.lt k (h.stack ▸ mem_of_head? hhead)) (Nat.not_lt.mpr hk)
      obtain ⟨rest, hrest⟩ := h'.nodes
      rw [← hrest, getElem?_append_left hlt] at hnode
      rw [h'.locals k hlt, Ledger.declare]
      dsimp only
      rw [if_neg hhead]
      exact h.inside k node hk hnode
    · exact h'.inside k node (Nat.le_of_not_lt hlt) hnode

end Ledger

/-- Wherever they are met, the events declare these names in the innermost scope, and open only scopes that hold what
their nodes declare. -/
def Notes (events : List Event) (ids : List Identifier) : Prop :=
  ∀ l : Ledger, l.Valid → l.Grows ids (events.foldl Ledger.step l)

namespace Notes

variable {events events' : List Event} {ids ids' : List Identifier} {ctx : Context} {l : Ledger} {scope : ScopeNode}

theorem nil : Notes [] [] := fun l _ => .refl l

theorem append (h : Notes events ids) (h' : Notes events' ids') : Notes (events ++ events') (ids' ++ ids) := by
  intro l hl
  rw [foldl_append]
  exact (h l hl).trans (h' _ ((h l hl).valid hl)) hl

theorem enter_valid (hl : ∀ k ∈ l.stack, k < l.nodes.length) (scope : ScopeNode) (ctx : Context) :
    (l.step (.enter scope ctx)).Valid := by
  refine ⟨cons_ne_nil _ _, fun k hk => ?_⟩
  rw [Ledger.nodes_step, length_append]
  obtain rfl | hk := mem_cons.mp hk
  · exact Nat.lt_succ_self _
  · exact (hl k hk).trans (Nat.lt_succ_self _)

/-- The scope that a stretch of a walk opens and closes, with all that is inside. -/
structure Encloses (l : Ledger) (scope : ScopeNode) (l' : Ledger) : Prop where
  stack : l'.stack = l.stack
  nodes : l.nodes ++ [scope] <+: l'.nodes
  outside : ∀ k < l.nodes.length, l'.locals k = l.locals k
  here : l'.locals l.nodes.length = scope.declared
  inside : ∀ k node, l.nodes.length < k → l'.nodes[k]? = some node → node.isChunk = false ∧ l'.locals k = node.declared

theorem encloses (h : Notes events scope.declared) (hl : ∀ k ∈ l.stack, k < l.nodes.length) (ctx : Context) :
    Encloses l scope (foldl Ledger.step l (.enter scope ctx :: events ++ [.leave scope ctx])) := by
  have hinside := h _ (enter_valid hl scope ctx)
  rw [cons_append, foldl_cons, foldl_append]
  generalize events.foldl Ledger.step (l.step (.enter scope ctx)) = inner at hinside ⊢
  have hlength : (l.step (.enter scope ctx)).nodes.length = l.nodes.length + 1 := by simp [Ledger.step]
  show Encloses l scope { inner with stack := inner.stack.tail }
  refine ⟨?_, hinside.nodes, fun k hk => ?_, ?_, fun k node hk hnode => hinside.inside k node (by omega) hnode⟩
  · rw [hinside.stack]
    rfl
  · have hne : l.nodes.length ≠ k := Nat.ne_of_gt hk
    exact (hinside.locals k (by omega)).trans (by simp [Ledger.declare, Ledger.step, hne, hne.symm])
  · exact (hinside.locals _ (by omega)).trans (by simp [Ledger.declare, Ledger.step])

theorem Encloses.node {l' : Ledger} (h : Encloses l scope l') :
    l'.nodes[l.nodes.length]? = some scope := by
  obtain ⟨rest, hrest⟩ := h.nodes
  rw [← hrest, append_assoc, getElem?_append_right (Nat.le_refl _), Nat.sub_self]
  rfl

theorem inScope (hscope : scope.isChunk = false) (h : Notes events scope.declared) :
    Notes (.enter scope ctx :: events ++ [.leave scope ctx]) [] := by
  intro l hl
  have hencloses := h.encloses hl.lt ctx
  refine ⟨hencloses.stack, (prefix_append _ _).trans hencloses.nodes, fun k hk => ?_, fun k node hk hnode => ?_⟩
  · rw [hencloses.outside k hk, Ledger.declare_nil]
  · obtain rfl | hlt := Nat.eq_or_lt_of_le hk
    · obtain rfl := Option.some.inj (hencloses.node.symm.trans hnode)
      exact ⟨hscope, hencloses.here⟩
    · exact hencloses.inside k node hlt hnode

end Notes

theorem Stretch.notes {view : Layer} {events : List Event} {ds : List Declaration} {ms : List Mention}
    (h : Stretch view events ds ms) : Notes events (ds.map (·.id)) := by
  induction h with
  | nil => exact .nil
  | visit view event hvisit =>
    intro l _
    rw [map_id_declaration?, foldl_cons, foldl_nil, Ledger.step_of_isVisit hvisit]
    exact .declare l _
  | append _ _ _ ih ih' =>
    rw [map_append]
    exact ih.append ih'
  | scope hscope _ _ ih =>
    rw [map_id_declarations] at ih
    exact .inScope hscope ih
  | reorder _ _ ih => exact ih

theorem encloses_chunk (body : Block) : Notes.Encloses {} (.chunk body) (Ledger.ofEvents (Walk.chunk below body)) := by
  have hbody := (stretch_program (Context.enter {} (.chunk body)) body).notes
  rw [map_id_locals] at hbody
  exact Notes.encloses (l := {}) hbody nofun {}

theorem nodes_chunk (body : Block) : (Ledger.ofEvents (Walk.chunk below body)).nodes = openedScopes body :=
  Ledger.nodes_foldl _ {}

theorem ledger_chunk (body : Block) {k : ScopeId} {node : ScopeNode} (hnode : (openedScopes body)[k]? = some node) :
    (Ledger.ofEvents (Walk.chunk below body)).locals k = node.declared ∧ (node.isChunk = true → k = 0) := by
  have hencloses := encloses_chunk body
  rw [← nodes_chunk] at hnode
  cases k with
  | zero =>
    obtain rfl := Option.some.inj (hencloses.node.symm.trans hnode)
    exact ⟨hencloses.here, fun _ => rfl⟩
  | succ k =>
    obtain ⟨hchunk, hlocals⟩ := hencloses.inside (k + 1) node (Nat.succ_pos k) hnode
    exact ⟨hlocals, fun h => absurd (hchunk.symm.trans h) Bool.false_ne_true⟩

end Scoping

end CartLua
