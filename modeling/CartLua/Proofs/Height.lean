import CartLua.Proofs.GrammarDerivation
import CartLua.Walk.Basic
/-!
# The height of trees

How many nodes can be nested in each other is bounded by the levels that were left where the outermost one was read. A
level is given back behind each part, so the bound is not linear: an operator may have all levels of its operand spent
again on its other operators, and a suffix those of its base. Only the names of functions spend no levels at all.
-/

namespace CartLua

open List

variable {k levels : Nat}

/-! ### Nodes in nodes -/

def Field.parts : Field → List Node
  | .keyed key value _ => [.expression key, .expression value]
  | .named _ value _ | .positional value _ => [.expression value]

def Table.parts (t : Table) : List Node := t.fields.flatMap Field.parts

def FunctionBody.parts (f : FunctionBody) : List Node := f.body.map .statement

def Clause.parts : Clause → List Node
  | .ifThen condition body _ | .elseIf condition body _ => .expression condition :: body.map .statement
  | .otherwise body _ => body.map .statement

/-- The statements and expressions directly inside an expression. -/
def Expr.parts : Expr → List Node
  | .name _ | .string .. | .number .. | .boolean .. | .nil _ | .vararg _ => []
  | .binary _ left right _ | .logical _ left right _ => [.expression left, .expression right]
  | .unary _ argument _ => [.expression argument]
  | .member base _ _ _ => [.expression base]
  | .index base key _ => [.expression base, .expression key]
  | .call base arguments _ => .expression base :: arguments.map .expression
  | .tableCall base argument _ => .expression base :: argument.parts
  | .stringCall base argument _ => [.expression base, .expression argument]
  | .table t => t.parts
  | .function f => f.parts

/-- The statements and expressions directly inside a statement, without the name of a function. -/
def Stmt.parts : Stmt → List Node
  | .assignment targets _ values _ => (targets ++ values).map .expression
  | .declare _ values _ | .ret values _ => values.map .expression
  | .call e _ => [.expression e]
  | .block body _ => body.map .statement
  | .whileLoop condition body _ | .repeatLoop body condition _ => .expression condition :: body.map .statement
  | .branch clauses _ _ => clauses.flatMap Clause.parts
  | .forNumeric _ first last step body _ => (first :: last :: step.toList).map .expression ++ body.map .statement
  | .forGeneric _ iterators body _ => iterators.map .expression ++ body.map .statement
  | .function _ _ f => f.parts
  | .breakLoop _ | .goto .. | .label .. | .inclusion .. => []

namespace Node

def parts : Node → List Node
  | .statement s => s.parts
  | .expression e => e.parts
  | _ => []

def functionName? : Node → Option Node
  | .statement (.function name _ _) => some (.expression name)
  | _ => none

/-- The second node is directly contained in the first. -/
def Holds (a b : Node) : Prop := b ∈ a.parts ∨ b ∈ a.functionName?

/-- So many nodes at most are nested in each other from this one on, the names of functions apart. -/
def Within : Nat → Node → Prop
  | 0, _ => False
  | n + 1, node => ∀ part ∈ node.parts, Within n part

instance decidableWithin : (n : Nat) → (node : Node) → Decidable (node.Within n)
  | 0, _ => isFalse id
  | n + 1, node =>
    have := decidableWithin n
    inferInstanceAs (Decidable (∀ part ∈ node.parts, part.Within n))

variable {n m : Nat} {node : Node} {rest : List Node}

theorem Within.mono (h : node.Within n) (hle : n ≤ m) : node.Within m := by
  induction n generalizing m node with
  | zero => exact h.elim
  | succ n ih =>
    obtain ⟨m, rfl⟩ : ∃ k, m = k + 1 := ⟨m - 1, by omega⟩
    exact fun part hpart => ih (h part hpart) (by omega)

theorem Within.of_parts (h : ∀ part ∈ node.parts, part.Within n) (hlt : n < m) : node.Within m :=
  Within.mono (n := n + 1) h hlt

theorem Within.length_le (h : node.Within n) (hchain : (node :: rest).IsChain Holds) :
    ∃ front back, rest = front ++ back ∧ (node :: front).length ≤ n ∧
      ∀ b ∈ back.head?, b ∈ ((node :: front).getLast (cons_ne_nil node front)).functionName? := by
  induction n generalizing node rest with
  | zero => exact h.elim
  | succ n ih =>
    cases rest with
    | nil => exact ⟨[], [], rfl, Nat.le_add_left 1 n, nofun⟩
    | cons next rest =>
      obtain ⟨hholds, hrest⟩ := isChain_cons_cons.mp hchain
      obtain hpart | hname := hholds
      · obtain ⟨front, back, rfl, hlength, hback⟩ := ih (h next hpart) hrest
        exact ⟨next :: front, back, rfl, Nat.succ_le_succ hlength, hback⟩
      · refine ⟨[], next :: rest, rfl, Nat.le_add_left 1 n, ?_⟩
        intro b hb
        cases hb
        exact hname

theorem exists_chain_of_not_within (h : ¬node.Within n) :
    ∃ rest, (node :: rest).IsChain Holds ∧ (node :: rest).length = n + 1 := by
  induction n generalizing node with
  | zero => exact ⟨[], .singleton node, rfl⟩
  | succ n ih =>
    obtain ⟨part, hpart, hlong⟩ : ∃ part ∈ node.parts, ¬part.Within n := by
      simpa [Within] using h
    obtain ⟨rest, hchain, hlength⟩ := ih hlong
    exact ⟨part :: rest, isChain_cons_cons.mpr ⟨.inl hpart, hchain⟩, by rw [length_cons, hlength]⟩

end Node

abbrev Expr.Within (n : Nat) (e : Expr) : Prop := (Node.expression e).Within n

abbrev Stmt.Within (n : Nat) (s : Stmt) : Prop := (Node.statement s).Within n

/-! ### Bounds -/

/-- A bound for statements that are read where so many levels are left. -/
def statementBound (levels : Nat) : Nat := levels * (3 * levels + 2) / 4

/-- A bound for expressions that are read where so many levels are left. -/
def expressionBound : (levels : Nat) → Nat
  | 0 => 0
  | levels + 1 => statementBound levels + (levels + 1)

/-- A bound for a base that is read where so many levels are left, with a suffix for each of them. A suffix that calls a
method makes two nodes. -/
def chainBound (levels : Nat) : Nat := max 1 (expressionBound levels) + 2 * levels

theorem statementBound_succ (levels : Nat) : statementBound levels + (levels + 1) ≤ statementBound (levels + 1) := by
  unfold statementBound
  rw [← Nat.add_mul_div_left _ _ (by decide : 0 < 4)]
  apply Nat.div_le_div_right
  nlinarith

theorem statementBound_lt (levels : Nat) : statementBound levels < statementBound (levels + 1) := by
  have hsucc := statementBound_succ levels
  omega

theorem statementBound_add_two (levels : Nat) :
    statementBound (levels + 2) = statementBound levels + (3 * levels + 4) := by
  unfold statementBound
  rw [← Nat.add_mul_div_left _ _ (by decide : 0 < 4)]
  congr 1
  ring

theorem statementBound_mono (h : k ≤ levels) : statementBound k ≤ statementBound levels := by
  induction h with
  | refl => exact le_rfl
  | @step levels _ ih => exact ih.trans ((Nat.le_add_right ..).trans (statementBound_succ levels))

theorem expressionBound_le (levels : Nat) : expressionBound levels ≤ statementBound levels := by
  cases levels with
  | zero => exact le_rfl
  | succ levels => exact statementBound_succ levels

theorem expressionBound_mono (h : k ≤ levels) : expressionBound k ≤ expressionBound levels := by
  cases k with
  | zero => exact Nat.zero_le _
  | succ =>
    obtain ⟨levels, rfl⟩ : ∃ l, levels = l + 1 := ⟨levels - 1, by omega⟩
    have hle := statementBound_mono (Nat.le_of_succ_le_succ h)
    simp only [expressionBound]
    omega

theorem chainBound_mono (h : k ≤ levels) : chainBound k ≤ chainBound levels := by
  have hle := expressionBound_mono h
  unfold chainBound
  omega

theorem chainBound_lt {levels : Nat} (h : 0 < levels) : chainBound levels < statementBound (levels + 1) := by
  obtain ⟨k, rfl⟩ : ∃ k, levels = k + 1 := ⟨levels - 1, by omega⟩
  rw [statementBound_add_two, chainBound, expressionBound]
  omega

/-! ### Phrases -/

/-- The bounds that the nodes of a phrase have. A suffix makes two nodes at most, a member and its call, and spends a level
of those that are left for its chain. -/
def Phrase.Bounded : Phrase → Prop
  | .expression levels e => e.Within (expressionBound levels)
  | .operators levels left e => 0 < left ∧ left ≤ levels + 1 ∧ e.Within (statementBound levels + 1 + (levels + 1 - left))
  | .operand levels e => e.Within (statementBound levels + 1)
  | .chain levels left e => left ≤ levels ∧ e.Within (max 1 (expressionBound levels) + 2 * (levels - left))
  | .callee levels left e => left < levels ∧ e.Within (max 1 (expressionBound levels) + 2 * (levels - left) - 1)
  | .values levels es | .moreValues levels es => ∀ e ∈ es, e.Within (expressionBound levels)
  | .targets levels left es => left ≤ levels ∧ ∀ e ∈ es, e.Within (chainBound levels)
  | .field levels f => ∀ part ∈ f.parts, part.Within (expressionBound levels)
  | .fields levels fs => ∀ part ∈ fs.flatMap Field.parts, part.Within (expressionBound levels)
  | .table levels tbl => ∀ part ∈ tbl.parts, part.Within (expressionBound levels)
  | .function levels _ _ body | .block levels body | .scopedBlock levels _ body | .text levels body =>
    ∀ part ∈ body.map Node.statement, part.Within (statementBound levels)
  | .elseIfs levels cs | .elseClause levels cs | .oneLineElse levels cs =>
    ∀ part ∈ cs.flatMap Clause.parts, part.Within (statementBound levels)
  | .proper levels stmt => stmt.Within (statementBound (levels + 1))
  | .statement levels stmt => stmt.Within (statementBound levels)
  | .dottedName _ | .functionName _ | .parameters _ | .moreNames _ | .moreLocals _ => True

section Phrases

variable {levels left n : Nat} {e : Expr}

theorem Expr.Within.part (h : e.Within (expressionBound levels)) : e.Within (statementBound levels) :=
  h.mono (expressionBound_le levels)

theorem within_parts {es : List Expr} (h : ∀ e ∈ es, e.Within (expressionBound levels)) :
    ∀ part ∈ es.map Node.expression, part.Within (statementBound levels) :=
  forall_mem_map.mpr fun e he => (h e he).part

theorem Stmt.within_of_parts {s : Stmt} (h : ∀ part ∈ s.parts, part.Within (statementBound levels)) :
    s.Within (statementBound (levels + 1)) :=
  Node.Within.of_parts (n := statementBound levels) h (statementBound_lt levels)

theorem Expr.within_leaf (h : e.parts = []) (hn : 0 < n) : e.Within n := by
  refine Node.Within.of_parts (n := 0) (fun part hpart => ?_) hn
  rw [Node.parts, h] at hpart
  cases hpart

theorem Phrase.Bounded.chain_of_base {base : Expr} {rest : List Node} (hbase : (Phrase.callee levels left base).Bounded)
    (hparts : e.parts = .expression base :: rest) (hrest : ∀ part ∈ rest, part.Within (max 1 (expressionBound left))) :
    (Phrase.chain levels left e).Bounded := by
  obtain ⟨hlt, hbase⟩ := hbase
  have hmono := expressionBound_mono hlt.le
  refine ⟨hlt.le, Node.Within.of_parts (n := max 1 (expressionBound levels) + 2 * (levels - left) - 1) ?_ (by omega)⟩
  rw [Node.parts, hparts]
  exact forall_mem_cons.mpr ⟨hbase, fun part hpart => (hrest part hpart).mono (by omega)⟩

theorem within_chain (h : (Phrase.chain levels left e).Bounded) : e.Within (chainBound levels) :=
  h.2.mono (by unfold chainBound; omega)

end Phrases

theorem Derives.bounded {c : Settings} {s t : Session} {phrase : Phrase} (h : Derives c s phrase t) : phrase.Bounded := by
  induction h with
  | plainCallee _ ih =>
    obtain ⟨hle, hbase⟩ := ih
    exact ⟨hle, hbase.mono (by omega)⟩
  | functionName | dottedName | dottedMember | methodName | noParameters | lastParameter | parameters | varargParameter
  | noMoreNames | moreNames | noMoreLocals | moreLocals => trivial
  | noMoreValues | noValues | noFields | endBlock | noElseIfs | noElse | noOneLineElse => exact forall_mem_nil _
  | @expression levels left e _ _ _ ih =>
    obtain ⟨hpos, hle, he⟩ := ih
    exact he.mono (by rw [expressionBound]; omega)
  | operand _ ih => exact ⟨Nat.succ_pos _, le_rfl, ih.mono (by omega)⟩
  | @dyadic levels left op e r _ _ _ _ _ _ _ _ ihe ihr =>
    obtain ⟨-, hle, he⟩ := ihe
    have hpos : 0 < left := by
      cases left with
      | zero => exact ihr.elim
      | succ left => exact Nat.succ_pos left
    have hmono := (expressionBound_le left).trans (statementBound_mono (Nat.le_of_succ_le_succ hle))
    refine ⟨hpos, by omega, Node.Within.of_parts (n := statementBound levels + 1 + (levels - left)) ?_ (by omega)⟩
    have hright := ihr.mono (m := statementBound levels + 1 + (levels - left)) (by omega)
    cases op <;> exact forall_mem_cons.mpr ⟨he.mono (by omega), forall_mem_singleton.mpr hright⟩
  | literal he =>
    unfold Grammar.literal? at he
    split at he <;> cases he <;> exact forall_mem_nil _
  | functionValue _ _ _ ih => exact ih
  | tableValue _ ih => exact fun part hpart => (ih part hpart).mono (expressionBound_le _)
  | unary _ _ _ ih => exact forall_mem_singleton.mpr ih.part
  | @chain levels left e _ _ _ ih =>
    refine (within_chain ih).mono ?_
    by_cases hpos : 0 < levels
    · exact (chainBound_lt hpos).le.trans (Nat.le_succ _)
    · obtain rfl : levels = 0 := by omega
      decide
  | name => exact ⟨le_rfl, Expr.within_leaf rfl (by omega)⟩
  | parenthesized _ _ _ ih => exact ⟨le_rfl, ih.mono (by omega)⟩
  | @index levels left _ _ _ _ _ _ _ _ _ _ _ _ ihbase ihkey =>
    obtain ⟨hle, hbase⟩ := ihbase
    have hmono := expressionBound_mono (Nat.le_of_succ_le hle)
    refine ⟨Nat.le_of_succ_le hle, Node.Within.of_parts (n := max 1 (expressionBound levels) + 2 * (levels - left) - 1)
      (forall_mem_cons.mpr ⟨hbase.mono (by omega), forall_mem_singleton.mpr (ihkey.mono ?_)⟩) ?_⟩ <;> omega
  | @member levels left _ _ _ _ _ _ _ _ _ ih =>
    obtain ⟨hle, hbase⟩ := ih
    exact ⟨Nat.le_of_succ_le hle, Node.Within.of_parts (forall_mem_singleton.mpr hbase) (by omega)⟩
  | method _ _ _ ih =>
    obtain ⟨hle, hbase⟩ := ih
    exact ⟨hle, Node.Within.of_parts (forall_mem_singleton.mpr hbase) (by omega)⟩
  | call _ _ _ _ ihbase iharguments =>
    exact ihbase.chain_of_base rfl (forall_mem_map.mpr fun e he => (iharguments e he).mono (le_max_right ..))
  | tableCall _ _ ihbase ihtable =>
    exact ihbase.chain_of_base rfl fun part hpart => (ihtable part hpart).mono (le_max_right ..)
  | stringCall _ _ _ ih =>
    exact ih.chain_of_base rfl (forall_mem_singleton.mpr (Expr.within_leaf rfl (by omega)))
  | moreValues _ _ _ ihe ihes | values _ _ ihe ihes => exact forall_mem_cons.mpr ⟨ihe, ihes⟩
  | target _ _ ih => exact ⟨ih.1, forall_mem_singleton.mpr (within_chain ih)⟩
  | moreTargets _ _ _ _ ihe ihes =>
    refine ⟨ihes.1.trans ihe.1, forall_mem_cons.mpr ⟨within_chain ihe, fun e he => ?_⟩⟩
    exact (ihes.2 e he).mono (chainBound_mono ihe.1)
  | keyedField _ _ _ _ _ _ _ ihkey ihvalue => exact forall_mem_cons.mpr ⟨ihkey, forall_mem_singleton.mpr ihvalue⟩
  | namedField _ _ _ _ _ _ ih | positionalField _ _ _ ih => exact forall_mem_singleton.mpr ih
  | fields _ _ _ _ ihf ihfs => exact forall_mem_append.mpr ⟨ihf, ihfs⟩
  | table _ _ _ _ _ ih | scopedBlock _ _ _ _ _ ih | text _ ih | emptyStatement _ _ _ ih | givenUp _ _ ih => exact ih
  | function _ _ _ _ _ _ _ _ _ _ _ _ _ ih => exact ih
  | block _ _ _ _ _ ihstmt ihbody => exact forall_mem_cons.mpr ⟨ihstmt, ihbody⟩
  | moreText _ _ _ ihbody ihmore =>
    rw [Phrase.Bounded, map_append]
    exact forall_mem_append.mpr ⟨ihbody, ihmore⟩
  | elseIfs _ _ _ _ _ _ ihcondition ihbody ihcs =>
    exact forall_mem_append.mpr ⟨forall_mem_cons.mpr ⟨ihcondition.part, ihbody⟩, ihcs⟩
  | elseClause _ _ _ ih | oneLineElse _ _ _ _ ih | blockElse _ _ _ _ _ _ ih =>
    exact forall_mem_append.mpr ⟨ih, forall_mem_nil _⟩
  | breakLoop | goto | label | inclusion => exact Stmt.within_of_parts (forall_mem_nil _)
  | ret _ _ _ _ ih => exact Stmt.within_of_parts (within_parts ih)
  | doBlock _ _ _ _ ih => exact Stmt.within_of_parts ih
  | whileLoop _ _ _ _ _ _ ihcondition ihbody | repeatLoop _ _ _ _ _ _ _ _ _ ihbody ihcondition =>
    exact Stmt.within_of_parts (forall_mem_cons.mpr ⟨ihcondition.part, ihbody⟩)
  | forNumeric _ _ _ _ _ _ _ _ _ _ _ _ _ _ _ _ ihfirst ihlast ihstep ihbody =>
    refine Stmt.within_of_parts (forall_mem_append.mpr ⟨within_parts ?_, ihbody⟩)
    exact forall_mem_cons.mpr ⟨ihfirst, forall_mem_cons.mpr ⟨ihlast, ihstep⟩⟩
  | forGeneric _ _ _ _ _ _ _ _ _ _ _ _ _ _ _ ihiterators ihbody =>
    exact Stmt.within_of_parts (forall_mem_append.mpr ⟨within_parts ihiterators, ihbody⟩)
  | oneLineIf _ _ _ _ _ _ _ _ _ _ ihcondition ihbody ihlast =>
    exact Stmt.within_of_parts (forall_mem_append.mpr ⟨forall_mem_cons.mpr ⟨ihcondition.part, ihbody⟩, ihlast⟩)
  | blockIf _ _ _ _ _ _ _ _ _ _ ihcondition ihbody ihothers ihlast =>
    refine Stmt.within_of_parts ?_
    rw [Stmt.parts, flatMap_append, flatMap_cons]
    refine forall_mem_append.mpr ⟨forall_mem_append.mpr ⟨?_, ihothers⟩, ihlast⟩
    exact forall_mem_cons.mpr ⟨ihcondition.part, ihbody⟩
  | declare _ _ _ _ _ _ _ _ _ ih => exact Stmt.within_of_parts (within_parts ih)
  | localFunction _ _ _ _ _ _ ih | functionStatement _ _ _ _ _ ih => exact Stmt.within_of_parts ih
  | @print levels _ _ _ _ _ _ _ _ hpos _ _ _ _ ih =>
    -- A statement and a call stand around the arguments.
    refine Node.Within.of_parts (n := chainBound levels) (forall_mem_singleton.mpr ?_) (chainBound_lt hpos)
    refine Node.Within.of_parts (n := max 1 (expressionBound levels)) ?_ (by unfold chainBound; omega)
    refine forall_mem_cons.mpr ⟨Expr.within_leaf rfl (by omega), forall_mem_map.mpr fun e he => ?_⟩
    exact (ih e he).mono (le_max_right ..)
  | callStatement _ _ _ hleft _ ih =>
    exact Node.Within.of_parts (forall_mem_singleton.mpr (within_chain ih)) (chainBound_lt (Nat.zero_lt_of_lt hleft))
  | @assignment levels left targets op values span _ _ _ _ _ _ _ _ _ _ _ hvalued _ _ ihtargets ihvalues =>
    -- A value needs a level.
    obtain ⟨hle, htargets⟩ := ihtargets
    obtain ⟨value, hvalue⟩ := exists_mem_of_ne_nil values hvalued
    have hpos : 0 < left := by
      cases left with
      | zero => exact (ihvalues value hvalue).elim
      | succ left => exact Nat.succ_pos left
    have hmono : expressionBound left ≤ chainBound levels := by
      have hmono := expressionBound_mono hle
      unfold chainBound
      omega
    refine Node.Within.of_parts (n := chainBound levels) (forall_mem_map.mpr ?_) (chainBound_lt (hpos.trans_le hle))
    exact forall_mem_append.mpr ⟨htargets, fun e he => (ihvalues e he).mono hmono⟩
  | proper _ _ ih => exact ih

namespace Program

open Parse

theorem within_parse (options : Options) (source name : String) {s : Stmt} (hs : s ∈ (parse options source name).body) :
    s.Within (statementBound options.maxDepth) := by
  obtain ⟨body, last, hrun⟩ := exists_run_eq_ok options source name
  rw [parse, hrun] at hs
  obtain ⟨_, _, _, _, -, -, hbody, -⟩ := derives_wholeText hrun
  exact hbody.bounded _ (mem_map_of_mem hs)

/-- The nodes that are nested in each other in a program are bounded in number by the square of the levels there are, up to
where they go into the name of a function. Where there are five levels at most, four nodes for each level and four
more are enough. -/
theorem length_chain_le (options : Options) (source name : String) (s : Stmt) (rest : List Node)
    (hs : s ∈ (parse options source name).body) (hchain : (.statement s :: rest).IsChain Node.Holds) :
    ∃ front back, rest = front ++ back ∧
      (Node.statement s :: front).length ≤ options.maxDepth * (3 * options.maxDepth + 2) / 4 ∧
      (options.maxDepth ≤ 5 → (Node.statement s :: front).length ≤ 4 * (options.maxDepth + 1)) ∧
      ∀ b ∈ back.head?, b ∈ ((Node.statement s :: front).getLast (List.cons_ne_nil _ _)).functionName? := by
  obtain ⟨front, back, hrest, hlength, hback⟩ := (within_parse options source name hs).length_le hchain
  refine ⟨front, back, hrest, hlength, fun hfew => hlength.trans ?_, hback⟩
  generalize options.maxDepth = levels at hfew
  interval_cases levels <;> decide

/-- A call of a method is as high as two levels allow: a statement, a call, a member and a name. -/
theorem length_chain_le_method : ∃ s rest, s ∈ (parse { maxDepth := 2 } "a:b's'" "main.lua").body ∧
    (.statement s :: rest).IsChain Node.Holds ∧ (Node.statement s :: rest).length = 2 * (3 * 2 + 2) / 4 ∧
    ∃ front back, rest = front ++ back ∧ (Node.statement s :: front).length ≤ 2 * (3 * 2 + 2) / 4 ∧
      ∀ b ∈ back.head?, b ∈ ((Node.statement s :: front).getLast (List.cons_ne_nil _ _)).functionName? := by
  obtain ⟨s, hs, hlong⟩ : ∃ s ∈ (parse { maxDepth := 2 } "a:b's'" "main.lua").body, ¬s.Within 3 := by decide +kernel
  obtain ⟨rest, hchain, hlength⟩ := Node.exists_chain_of_not_within hlong
  obtain ⟨front, back, hrest, hbound, -, hback⟩ := length_chain_le { maxDepth := 2 } "a:b's'" "main.lua" s rest hs hchain
  exact ⟨s, rest, hs, hchain, hlength, front, back, hrest, hbound, hback⟩

/-- Chains of calls of methods around functions in operators, each with as many suffixes and operators as there are levels
left. -/
def towering : String :=
  "(function()(function()a:b's'end+1+1):b's':b's':b's'end+1+1+1+1):b's':b's':b's':b's':b's'"

/-- With six levels there are programs higher than four nodes for each level and four more. -/
theorem length_chain_towering : (parse { maxDepth := 6 } towering "main.lua").errors = [] ∧
    ∃ s rest, s ∈ (parse { maxDepth := 6 } towering "main.lua").body ∧
      (.statement s :: rest).IsChain Node.Holds ∧ 4 * (6 + 1) < (Node.statement s :: rest).length := by
  obtain ⟨s, hs, hlong⟩ : ∃ s ∈ (parse { maxDepth := 6 } towering "main.lua").body, ¬s.Within 29 := by decide +kernel
  obtain ⟨rest, hchain, hlength⟩ := Node.exists_chain_of_not_within hlong
  exact ⟨by decide +kernel, s, rest, hs, hchain, by omega⟩

end Program

end CartLua
