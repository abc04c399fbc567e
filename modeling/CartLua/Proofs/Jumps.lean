import CartLua.Proofs.FlowExact
import CartLua.Proofs.Mentions
import CartLua.Proofs.Shape
/-!
# Jumps over locals

A goto forward may leave out the declaration of a local in the block of its label. In a program without errors nothing
stands behind such a label in its block that could name the local, only labels and include lines. The condition of a repeat
loop is no part of its block in this respect, although it sees the locals of it.
-/

namespace CartLua

open List

variable {ts : List Token} {around : List Frame} {node : Node}

/-! ### Places in a program -/

namespace Node

def isLoop : Node → Bool
  | .statement (.whileLoop ..) | .statement (.repeatLoop ..) | .statement (.forNumeric ..)
  | .statement (.forGeneric ..) => true
  | _ => false

/-- The blocks around a node that can be seen from inside its own blocks. A function hides all of them. -/
def shown (around : List Frame) : Node → List Frame
  | .statement (.function ..) | .expression _ => []
  | _ => around

/-- The statements and expressions of a program, with the blocks of the same function around them, innermost first. -/
inductive Placed (body : Block) : List Frame → Node → Prop where
  | outermost {before after : List Stmt} {s : Stmt} (h : body = before ++ s :: after) :
    Placed body [⟨before, after, false⟩] (.statement s)
  | inBlock {around : List Frame} {node : Node} {before after : List Stmt} {s : Stmt} (hnode : Placed body around node)
      (h : before ++ s :: after ∈ node.blocks) :
    Placed body (⟨before, after, node.isLoop⟩ :: node.shown around) (.statement s)
  | operand {around : List Frame} {node : Node} {e : Expr} (hnode : Placed body around node)
      (h : .expression e ∈ node.parts) :
    Placed body around (.expression e)

/-- Nothing is wrong with the control flow of a node in its place. -/
def Flawless (ts : List Token) (around : List Frame) : Node → Prop
  | .expression e => ∃ varargs, Flaws.expression ts varargs e = []
  | .statement s => ∃ place : Flaws.Place, place.around = around ∧ Flaws.statement ts place s = []
  | _ => True

end Node

namespace Flaws

variable {place : Place} {cs : List Clause}

theorem expressions_eq (ts : List Token) (varargs : Bool) (es : List Expr) :
    expressions ts varargs es = es.flatMap (expression ts varargs) := by
  induction es with
  | nil => rfl
  | cons e rest ih => rw [expressions, ih, flatMap_cons]

theorem expression_of_table {varargs : Bool} {e : Expr} {tbl : Table} (h : table ts varargs tbl = [])
    (he : .expression e ∈ tbl.parts) : expression ts varargs e = [] := by
  obtain ⟨fs, span⟩ := tbl
  induction fs with
  | nil => cases he
  | cons f rest ih =>
    obtain ⟨hf, hrest⟩ := append_eq_nil_iff.mp h
    obtain he | he := mem_append.mp he
    · cases f <;> simp [Field.parts, field] at he hf <;> grind
    · exact ih hrest he

theorem clause_of_mem {later : Bool} {cl : Clause}
    (h : clauses ts place later cs = []) (hcl : cl ∈ cs) : ∃ newlines, clause ts { place with newlines } cl = [] := by
  induction cs generalizing place with
  | nil => cases hcl
  | cons first rest ih =>
    obtain ⟨hfirst, hrest⟩ := append_eq_nil_iff.mp h
    obtain rfl | hcl := mem_cons.mp hcl
    · exact ⟨place.newlines, hfirst⟩
    · obtain ⟨newlines, hclause⟩ := ih hrest hcl
      exact ⟨newlines, hclause⟩

theorem clause_of_branch {oneLine : Bool} {cl : Clause} {span : Span}
    (h : statement ts place (.branch cs oneLine span) = []) (hcl : cl ∈ cs) :
    ∃ newlines, clause ts { place with newlines } cl = [] := by
  rw [statement] at h
  split at h
  · obtain ⟨newlines, hclause⟩ := clause_of_mem h hcl
    exact ⟨newlines, hclause⟩
  · exact clause_of_mem h hcl

theorem statement_of_statements {isLoop : Bool} {earlier before after : List Stmt} {s : Stmt}
    (h : statements ts place isLoop earlier (before ++ s :: after) = []) :
    statement ts (place.within ⟨earlier ++ before, after, isLoop⟩) s = [] := by
  induction before generalizing earlier with
  | nil => simpa using (append_eq_nil_iff.mp h).1
  | cons first rest ih => simpa using ih (append_eq_nil_iff.mp h).2

end Flaws

namespace Node

theorem flawless_operand {e : Expr} (h : node.Flawless ts around) (he : .expression e ∈ node.parts) :
    (Node.expression e).Flawless ts around := by
  cases node with
  | expression outer =>
    obtain ⟨varargs, h⟩ := h
    refine ⟨varargs, ?_⟩
    cases outer with
    | table => exact Flaws.expression_of_table h he
    | tableCall =>
      obtain ⟨hbase, htable⟩ := append_eq_nil_iff.mp h
      obtain he | he := mem_cons.mp he
      · exact Node.expression.inj he ▸ hbase
      · exact Flaws.expression_of_table htable he
    | function => simp [parts, Expr.parts, FunctionBody.parts] at he
    | name | string | number | boolean | nil | vararg => cases he
    | _ =>
      simp only [parts, Expr.parts, mem_cons, mem_map, not_mem_nil, expression.injEq, or_false] at he
      simp only [Flaws.expression, Flaws.expressions_eq, append_eq_nil_iff, flatMap_eq_nil_iff] at h
      grind
  | statement s =>
    obtain ⟨place, rfl, h⟩ := h
    refine ⟨place.varargs, ?_⟩
    cases s with
    | branch =>
      obtain ⟨cl, hcl, he⟩ := mem_flatMap.mp he
      obtain ⟨_, hclause⟩ := Flaws.clause_of_branch h hcl
      cases cl <;> simp [Clause.parts, Flaws.clause] at he hclause <;> grind
    | forNumeric counter first last step =>
      simp [parts, Stmt.parts] at he
      cases step <;> simp [Flaws.statement, Flaws.optionalExpression] at h <;> grind
    | function => simp [parts, Stmt.parts, FunctionBody.parts] at he
    | breakLoop | goto | label | inclusion => cases he
    | block => simp [parts, Stmt.parts] at he
    | _ =>
      simp [parts, Stmt.parts] at he
      simp only [Flaws.statement, Flaws.expressions_eq, append_eq_nil_iff, flatMap_eq_nil_iff] at h
      grind
  | _ => cases he

theorem flawless_block {inner : Block} (h : node.Flawless ts around) (hinner : inner ∈ node.blocks) :
    ∃ place : Flaws.Place, place.around = node.shown around ∧ Flaws.statements ts place node.isLoop [] inner = [] := by
  cases node with
  | expression e =>
    obtain ⟨varargs, h⟩ := h
    cases e with
    | function f =>
      obtain ⟨ps, body, span⟩ := f
      obtain rfl := mem_singleton.mp hinner
      exact ⟨{ varargs := _, newlines := _ }, rfl, h⟩
    | _ => cases hinner
  | statement s =>
    obtain ⟨place, rfl, h⟩ := h
    cases s with
    | branch =>
      obtain ⟨cl, hcl, rfl⟩ := mem_map.mp hinner
      obtain ⟨newlines, hclause⟩ := Flaws.clause_of_branch h hcl
      refine ⟨{ place with newlines }, rfl, ?_⟩
      cases cl with
      | otherwise => exact hclause
      | _ => exact (append_eq_nil_iff.mp hclause).2
    | block =>
      obtain rfl := mem_singleton.mp hinner
      exact ⟨place, rfl, h⟩
    | repeatLoop =>
      obtain rfl := mem_singleton.mp hinner
      exact ⟨place, rfl, (append_eq_nil_iff.mp h).1⟩
    | whileLoop | forNumeric | forGeneric =>
      obtain rfl := mem_singleton.mp hinner
      exact ⟨place, rfl, (append_eq_nil_iff.mp h).2⟩
    | function name isLocal f =>
      obtain ⟨ps, body, span⟩ := f
      obtain rfl := mem_singleton.mp hinner
      exact ⟨{ varargs := _, newlines := _ }, rfl, (append_eq_nil_iff.mp h).2⟩
    | _ => cases hinner
  | _ => cases hinner

theorem Placed.flawless {body : Block} (h : Placed body around node) (hbody : Flaws.program ts body = []) :
    node.Flawless ts around := by
  induction h with
  | outermost h =>
    subst h
    exact ⟨_, rfl, Flaws.statement_of_statements hbody⟩
  | inBlock _ hblock ih =>
    obtain ⟨place, hplace, hinner⟩ := flawless_block ih hblock
    exact ⟨_, congrArg _ hplace, Flaws.statement_of_statements hinner⟩
  | operand _ he ih => exact flawless_operand ih he

end Node

namespace Flaws

variable {skipped behind : List Stmt} {id : Identifier}

/-- A goto with these blocks around it jumps forward: no block shows it a label before it, and the innermost one that has
the label behind it has `skipped` in between and `behind` after the label. -/
structure Lands (around : List Frame) (name : String) (skipped behind : List Stmt) : Prop where
  unseen : ∀ frame ∈ around, labelIn? name frame.before = none
  next : ∃ inner frame outer id span, around = inner ++ frame :: outer ∧ (∀ f ∈ inner, labelIn? name f.after = none) ∧
    frame.after = skipped ++ .label id span :: behind ∧ id.name = name ∧ labelIn? name skipped = none

theorem landing?_of_none {name : String} {ss : List Stmt} (h : labelIn? name ss = none) : landing? name ss = none := by
  induction ss with
  | nil => rfl
  | cons s rest ih =>
    rw [← singleton_append, labelIn?_append, Option.or_eq_none_iff] at h
    rw [landing?_cons_of_none h.1, ih h.2, Option.map_none]

theorem landing?_append {name : String} {span : Span} (h : labelIn? name skipped = none) (hid : id.name = name) :
    landing? name (skipped ++ .label id span :: behind) = some (skipped, behind) := by
  induction skipped with
  | nil => exact landing?_cons_of_some (by simp [labelIn?_label, hid])
  | cons s rest ih =>
    rw [← singleton_append, labelIn?_append, Option.or_eq_none_iff] at h
    rw [cons_append, landing?_cons_of_none h.1, ih h.2]
    rfl

theorem Lands.goto_eq (h : Lands around id.name skipped behind) :
    goto around id = jump id.name id.span (locals skipped) behind := by
  obtain ⟨hunseen, inner, frame, outer, label, span, rfl, hinner, hafter, hname, hskipped⟩ := h
  have hnone : inner.findSome? (fun frame => landing? id.name frame.after) = none :=
    findSome?_eq_none_iff.mpr fun f hf => landing?_of_none (hinner f hf)
  have hfound : landing? id.name frame.after = some (skipped, behind) := hafter ▸ landing?_append hskipped hname
  have hbefore : ¬(inner ++ frame :: outer).any fun f => (labelIn? id.name f.before).isSome := by
    simpa only [any_eq_true, not_exists, not_and, Bool.not_eq_true, Option.isSome_eq_false_iff,
      Option.isNone_iff_eq_none] using hunseen
  rw [goto, if_neg hbefore, forward, findSome?_append, hnone, Option.none_or, findSome?_cons, hfound]

end Flaws

theorem Mention.statements_of_not_proper (sight : List Identifier) {ss : List Stmt}
    (h : ∀ s ∈ ss, s.isProper = false) : Mention.statements sight ss = [] := by
  induction ss generalizing sight with
  | nil => rfl
  | cons s rest ih =>
    obtain ⟨hs, hrest⟩ := forall_mem_cons.mp h
    rw [Mention.statements, ih _ hrest, append_nil]
    cases s <;> first | rfl | cases hs

namespace Program

/-- In a program without errors a goto may jump over a local only to the end of the block: behind the label there are only
labels, and no name is mentioned. -/
theorem mentions_behind_jump (options : Options) (source name : String) (halone : IsAlone options source)
    (herrors : (parse options source name).errors = []) (around : List Frame) (id : Identifier) (span : Span)
    (hgoto : Node.Placed (parse options source name).body around (.statement (.goto id span)))
    (skipped behind : List Stmt) (hlands : Flaws.Lands around id.name skipped behind)
    (hlocal : Flaws.locals skipped ≠ []) :
    (∀ s ∈ behind, s.isProper = false) ∧ ∀ sight, Mention.statements sight behind = [] := by
  obtain ⟨ts, -, hperm⟩ := errors_parse_perm_flaws options source name halone (by simp [herrors])
  rw [herrors, List.nil_perm] at hperm
  obtain ⟨place, rfl, hflawless⟩ := hgoto.flawless hperm
  rw [Flaws.statement, hlands.goto_eq] at hflawless
  obtain ⟨first, others, hlocals⟩ := List.exists_cons_of_ne_nil hlocal
  rw [hlocals, Flaws.jump, ite_eq_right_iff] at hflawless
  have hend : ∀ s ∈ behind, s.isProper = false := by simpa using hflawless
  exact ⟨hend, fun sight => Mention.statements_of_not_proper sight hend⟩

def isJumpOut : Block → Bool
  | [.block [.goto id _] _, .declare [x] _ _, .label c _, .label _ _] => [id.name, x.name, c.name] == ["c", "x", "c"]
  | _ => false

/-- A goto out of a block, over a local to the labels at the end of the program. -/
theorem mentions_behind_jump_out : IsAlone {} "do goto c end local x ::c:: ::d::" ∧
    (parse {} "do goto c end local x ::c:: ::d::" "main.lua").errors = [] ∧
    ∃ around id span skipped behind, Flaws.Lands around id.name skipped behind ∧ Flaws.locals skipped = ["x"] ∧
      behind.length = 1 ∧
      Node.Placed (parse {} "do goto c end local x ::c:: ::d::" "main.lua").body around (.statement (.goto id span)) ∧
      (∀ s ∈ behind, s.isProper = false) ∧ ∀ sight, Mention.statements sight behind = [] := by
  have halone : IsAlone {} "do goto c end local x ::c:: ::d::" := by
    unfold IsAlone
    decide +kernel
  have herrors : (parse {} "do goto c end local x ::c:: ::d::" "main.lua").errors = [] := by decide +kernel
  have hshape : isJumpOut (parse {} "do goto c end local x ::c:: ::d::" "main.lua").body = true := by decide +kernel
  unfold isJumpOut at hshape
  split at hshape
  next id span outer x values declareSpan c labelSpan d lastSpan hbody =>
    obtain ⟨hid, hx, hc⟩ : id.name = "c" ∧ x.name = "x" ∧ c.name = "c" := by simpa using hshape
    let skipped : List Stmt := [.declare [x] values declareSpan]
    let frame : Frame := ⟨[], skipped ++ [.label c labelSpan, .label d lastSpan], false⟩
    have hblock : Node.Placed _ [frame] (.statement (.block [.goto id span] outer)) := .outermost hbody
    have hgoto : Node.Placed _ [⟨[], [], false⟩, frame] (.statement (.goto id span)) :=
      .inBlock hblock (List.mem_singleton_self _)
    have hlands : Flaws.Lands [⟨[], [], false⟩, frame] id.name skipped [.label d lastSpan] :=
      ⟨by simp [frame, Flaws.labelIn?], [_], frame, [], c, labelSpan, rfl, by simp [Flaws.labelIn?], rfl,
        hc.trans hid.symm, rfl⟩
    have hlocal : Flaws.locals skipped = ["x"] := by simp [skipped, Flaws.locals, Stmt.locals, hx]
    exact ⟨halone, herrors, _, id, span, skipped, _, hlands, hlocal, rfl, hgoto,
      mentions_behind_jump {} _ "main.lua" halone herrors _ id span hgoto skipped _ hlands (by simp [hlocal])⟩
  next => cases hshape

def isJumpToUntil : Block → Bool
  | [.repeatLoop [.goto id _, .declare [x] [.number _ _ _] _, .label label _] (.name use) _] =>
    [id.name, x.name, label.name, use.name] == ["c", "x", "c", "x"]
  | _ => false

/-- The condition of a repeat loop names a local that a goto in the loop has jumped over. -/
theorem mentions_behind_jump_until : (parse {} "repeat goto c local x=1 ::c:: until x" "main.lua").errors = [] ∧
    ∃ id span skipped label labelSpan x use stop,
      (parse {} "repeat goto c local x=1 ::c:: until x" "main.lua").body =
        [.repeatLoop (.goto id span :: skipped ++ [.label label labelSpan]) (.name use) stop] ∧
      label.name = id.name ∧ Flaws.locals skipped = ["x"] ∧ x ∈ skipped.flatMap Stmt.declared ∧
      .reference use (some x) ∈ Mention.statements [] (parse {} "repeat goto c local x=1 ::c:: until x" "main.lua").body := by
  have hshape : isJumpToUntil (parse {} "repeat goto c local x=1 ::c:: until x" "main.lua").body = true := by decide +kernel
  unfold isJumpToUntil at hshape
  split at hshape
  next id span x _ _ _ _ label labelSpan use stop hbody =>
    obtain ⟨hid, hx, hlabel, huse⟩ : id.name = "c" ∧ x.name = "x" ∧ label.name = "c" ∧ use.name = "x" := by
      simpa using hshape
    refine ⟨by decide +kernel, id, span, [_], label, labelSpan, x, use, stop, hbody, hlabel.trans hid.symm, ?_, ?_, ?_⟩
    · simp [Flaws.locals, Stmt.locals, hx]
    · simp [Stmt.declared]
    · simp [hbody, Mention.statements, Mention.statement, Mention.expression, sightBehind, Stmt.declared, nearest?, hx, huse]
  next => cases hshape

end Program

end CartLua
