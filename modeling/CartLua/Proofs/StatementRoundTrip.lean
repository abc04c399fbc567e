import CartLua.Grammar.Program
import CartLua.Proofs.OperatorRoundTrip
/-!
# Reading rendered statements

A statement behind which a semicolon or the end of a block comes is read again from its tokens, and so is a whole block.
The levels that a statement may need are bounded by twice the number of its tokens: no token makes the tree higher by more
than two.
-/

namespace CartLua

open Parse Session List

/-! ### What may follow a statement -/

variable {rest : List Spelling}

theorem Separates.exists_head (h : Separates rest) :
    ∃ first tail, rest = first :: tail ∧ first.token.startsNothing = true ∧ Grammar.startsSuffix first.token = false ∧
      DyadicOp.ofToken? first.token = none ∧ AssignOp.ofToken? first.token = none ∧ first.token.isSymbol .comma = false := by
  cases rest with
  | nil => exact h.elim
  | cons first tail =>
    refine ⟨first, tail, rfl, ?_⟩
    obtain ⟨kind, text⟩ := first
    obtain hcloses | rfl := h
    · cases kind with
      | eof => exact ⟨rfl, rfl, rfl, rfl, rfl⟩
      | keyword word =>
        cases word with
        | endKw | elseKw | elseifKw | untilKw => exact ⟨rfl, rfl, rfl, rfl, rfl⟩
        | _ => cases hcloses
      | _ => cases hcloses
    · exact ⟨rfl, rfl, rfl, rfl, rfl⟩

theorem Separates.endsList (h : Separates rest) : Grammar.EndsList rest := by
  obtain ⟨first, tail, rfl, -, hsuffix, hop, -, hcomma⟩ := h.exists_head
  exact .of_none hsuffix hop hcomma

theorem Closes.separates (h : Closes rest) : Separates rest := by
  cases rest with
  | nil => exact h
  | cons => exact .inl h

namespace Grammar

variable {read : Expr}

variable {id : Identifier}

variable {mode : Encoding} {c : Settings} {depth levels : Nat} {g : Grammar} {e : Expr} {body : Block} {lack : Prop}
  {first : Spelling} {ws out : List Spelling} {byStep : Option Expr} {cls last middle : List Clause} {condition : Expr}
  {f : FunctionBody} {ids : List Identifier} {op : AssignOp}

theorem endsList_word {word : Keyword} (h : LogicalOp.ofKeyword? word = none) : EndsList (Render.word word :: rest) :=
  .of_none rfl (Option.map_eq_none_iff.mpr h) rfl

theorem stops_word {word : Keyword} (h : LogicalOp.ofKeyword? word = none) : Stops 0 (Render.word word :: rest) :=
  (endsList_word h).stops

/-- From the tokens of the statement and `rest` on, the parser reads the statement again. -/
def Restates (c : Settings) (levels : Nat) (stmt : Stmt) (rest : List Spelling) (p : Parse Stmt) : Prop :=
  Regains c (levels < 2 * (Render.statement stmt).length) (Render.statement stmt ++ rest) p Bare.statement stmt rest

theorem closes_until : Closes (Render.word .untilKw :: rest) := rfl

/-! ### Names -/

variable {span : Span} {label : Identifier} {values : List Expr}

theorem regains_moreNames {p : Parse Identifier} (ids : List Identifier) (hfirst : first.token.isSymbol .comma = false)
    (hp : ∀ {id : Identifier} {rest : List Spelling}, Regains c lack (Render.name id :: rest) p Bare.name id rest) :
    Regains c lack ((ids.flatMap fun id => [Render.sign .comma, Render.name id]) ++ first :: rest) (moreNames p)
      (map Bare.name) ids (first :: rest) := by
  refine regains_many Bare.name (fun _ => True) ids (fun _ _ _ => trivial) trivial (fun id _ rest _ => ?_) ?_
  · exact .consume rfl (hp.bind fun read hread => .pure ⟨read, rfl, hread⟩)
  · exact .consume_other hfirst (.pure rfl)

theorem regains_mapM {f : Identifier → Parse Identifier} (found : List Identifier)
    (hf : ∀ {id : Identifier}, Regains c lack ws (f id) Bare.name id ws) :
    Regains c lack ws (found.mapM f) (map Bare.name) found ws := by
  induction found with
  | nil => exact .pure rfl
  | cons id found ih =>
    rw [mapM_cons]
    refine hf.bind fun used hused => ih.bind fun more hmore => .pure ?_
    rw [map_cons, map_cons, hused, hmore]

/-! ### Jumps -/

theorem restates_label : Restates c levels (.label label span) rest labelStatement := by
  refine .enter rfl (regains_identifier.bind fun read hread => .expect rfl (.quiet fun _ => .quiet fun _ => .pure ?_))
  rw [Bare.statement, Bare.statement, hread]

theorem restates_break : Restates c levels (.breakLoop span) rest breakStatement :=
  .quiet fun _ => .quiet fun _ => .advance rfl (.quiet fun _ => .quiet fun _ => .pure rfl)

theorem restates_goto : Restates c levels (.goto label span) rest gotoStatement := by
  refine .enter rfl (regains_identifier.bind fun read hread => .quiet fun _ => .quiet fun _ => .pure ?_)
  rw [Bare.statement, Bare.statement, hread]

variable (hg : g.Rereads mode c depth) (hl : levels < depth)

include hg hl

theorem restates_return (hvalues : WellFormed.expressions mode values) (hrest : Closes rest) :
    Restates c levels (.ret values span) rest (g.returnStatement levels) := by
  obtain ⟨⟨kind, text⟩, tail, rfl, hnothing, hsuffix, hop, -, hcomma⟩ := hrest.separates.exists_head
  have hsemicolon : (Spelling.token ⟨kind, text⟩).is (.symbol .semicolon) = false := by
    cases kind with
    | eof | keyword => rfl
    | _ => cases hrest
  simp only [Restates, Render.statement_ret, length_cons]
  refine .enter rfl ?_
  refine (regains_optionalValues hg hl hvalues (.of_none hsuffix hop hcomma) hnothing).step (by omega) fun found hfound => ?_
  refine .consume_other hsemicolon (.quiet fun _ => .pure ?_)
  rw [Bare.statement_ret, Bare.statement_ret, hfound]

/-! ### Loops -/

theorem regains_scopedBlock (hbody : WellFormed.statements mode body) (isLoop : Bool) (hrest : Closes rest) :
    Regains c (levels ≤ 2 * (Render.statements body).length) (Render.statements body ++ rest) (g.scopedBlock levels isLoop)
      Bare.statements body rest := by
  refine .quiet fun _ => .quiet fun _ => (regains_block hg hl hbody hrest).bind fun found hfound => ?_
  exact .quiet fun _ => .quiet fun _ => .pure hfound

theorem restates_do (hbody : WellFormed.statements mode body) :
    Restates c levels (.block body span) rest (g.doStatement levels) := by
  simp only [Restates, Render.statement, cons_append, append_assoc, length_cons, length_append]
  refine .enter rfl ((regains_scopedBlock hg hl hbody false closes_end).step (by omega) fun found hfound => ?_)
  refine .expect rfl (.quiet fun _ => .pure ?_)
  rw [Bare.statement, Bare.statement, hfound]

theorem restates_while (hcondition : WellFormed.expression mode false condition) (hbody : WellFormed.statements mode body) :
    Restates c levels (.whileLoop condition body span) rest (g.whileStatement levels) := by
  simp only [Restates, Render.statement, cons_append, append_assoc, length_cons, length_append]
  refine .enter rfl ((regains_value hg hl hcondition (stops_word rfl)).step (by omega) fun read hread => .expect rfl ?_)
  refine (regains_scopedBlock hg hl hbody true closes_end).step (by omega) fun found hfound => .expect rfl ?_
  refine .quiet fun _ => .pure ?_
  rw [Bare.statement, Bare.statement, hread, hfound]

theorem restates_repeat (hbody : WellFormed.statements mode body) (hcondition : WellFormed.expression mode false condition)
    (hrest : Separates rest) : Restates c levels (.repeatLoop body condition span) rest (g.repeatStatement levels) := by
  simp only [Restates, Render.statement, cons_append, append_assoc, length_cons, length_append]
  refine .enter rfl (.quiet fun _ => .quiet fun _ => ?_)
  refine (regains_block hg hl hbody closes_until).step (by omega) fun found hfound => .expect rfl ?_
  refine (regains_value hg hl hcondition hrest.endsList.stops).step (by omega) fun read hread => ?_
  refine .quiet fun _ => .quiet fun _ => .quiet fun _ => .pure ?_
  rw [Bare.statement, Bare.statement, hread, hfound]

theorem regains_forBody (hbody : WellFormed.statements mode body) :
    Regains c (levels ≤ 2 * (Render.statements body).length) (Render.statements body ++ Render.word .endKw :: rest)
      (g.forBody levels) Bare.statements body rest := by
  refine (regains_block hg hl hbody closes_end).bind fun found hfound => .expect rfl ?_
  exact .quiet fun _ => .quiet fun _ => .pure hfound

theorem regains_step (hstep : WellFormed.step mode byStep) :
    Regains c (levels < 2 * (Render.step byStep).length) (Render.step byStep ++ Render.word .doKw :: rest)
      (g.valueBehindComma? levels) Bare.step byStep (Render.word .doKw :: rest) := by
  cases byStep with
  | none => exact .consume_other rfl (.pure rfl)
  | some =>
    rw [WellFormed.step] at hstep
    rw [Render.step, length_cons]
    refine (finds_valueBehindComma hg hl hstep (stops_word rfl)).mono (fun _ => by omega) ?_
    rintro _ ⟨read, rfl, hread⟩
    rw [Bare.step, Bare.step, hread]

theorem restates_forNumeric {counter : Identifier} {start last : Expr} (hstart : WellFormed.expression mode false start)
    (hlast : WellFormed.expression mode false last) (hstep : WellFormed.step mode byStep)
    (hbody : WellFormed.statements mode body) :
    Restates c levels (.forNumeric counter start last byStep body span) rest (g.forStatement levels) := by
  have hbehind : ∀ rest, Stops 0 (Render.step byStep ++ Render.word .doKw :: rest) := by
    cases byStep with
    | none => exact fun _ => stops_word rfl
    | some => exact fun _ => stops_comma
  simp only [Restates, Render.statement, cons_append, append_assoc, length_cons, length_append]
  refine .enter rfl (regains_identifier.bind fun id hid => .quiet fun _ => .quiet fun _ => .consume rfl ?_)
  refine (regains_value hg hl hstart stops_comma).step (by omega) fun start' hstart' => .expect rfl ?_
  refine (regains_value hg hl hlast (hbehind _)).step (by omega) fun last' hlast' => ?_
  refine (regains_step hg hl hstep).step (by omega) fun byStep' hstep' => .expect rfl ?_
  refine (regains_declareInFlow hid).bind fun counter' hcounter' => ?_
  refine (regains_forBody hg hl hbody).step (by omega) fun found hfound => .quiet fun _ => .pure ?_
  rw [Bare.statement, Bare.statement, hcounter', hstart', hlast', hstep', hfound]

theorem restates_forGeneric {iterators : List Expr} (hne : iterators ≠ [])
    (hiterators : WellFormed.expressions mode iterators) (hbody : WellFormed.statements mode body) :
    Restates c levels (.forGeneric (id :: ids) iterators body span) rest (g.forStatement levels) := by
  have hhead : ∀ behind, ∃ first tail, (ids.flatMap fun id => [Render.sign .comma, Render.name id]) ++
      Render.word .inKw :: behind = first :: tail ∧ first.token.isSymbol .assign = false := by
    cases ids with
    | nil | cons => exact fun _ => ⟨_, _, rfl, rfl⟩
  simp only [Restates, Render.statement, Render.names, cons_append, append_assoc, length_cons,
    length_append]
  refine .enter rfl (regains_identifier.bind fun id' hid => .quiet fun _ => .quiet fun _ => ?_)
  obtain ⟨first, tail, hhead, hassign⟩ := hhead _
  rw [hhead]
  refine .consume_other hassign ?_
  rw [← hhead]
  refine (regains_moreNames ids rfl regains_identifier).bind fun others hothers => .expect rfl ?_
  refine (regains_values hg hl hiterators hne (endsList_word rfl)).step (by omega) fun iterators' hiterators' => .expect rfl ?_
  refine (regains_mapM _ (regains_declareInFlow rfl)).bind fun names hnames => ?_
  refine (regains_forBody hg hl hbody).step (by omega) fun found hfound => .quiet fun _ => .pure ?_
  rw [Bare.statement, Bare.statement, hiterators', hfound, hnames, map_cons, map_cons, hid, hothers]

/-! ### Branches -/

omit hg hl

/-- The clause has a condition and is not the first one. -/
def IsElseIf (mode : Encoding) (cl : Clause) : Prop :=
  ∃ condition body span, cl = .elseIf condition body span ∧ WellFormed.expression mode false condition ∧
    WellFormed.statements mode body

/-- The clauses without a condition at the end of a branch: none or one. -/
def IsElse (mode : Encoding) (last : List Clause) : Prop :=
  last = [] ∨ ∃ body span, last = [.otherwise body span] ∧ WellFormed.statements mode body

theorem otherClauses_cases (h : WellFormed.otherClauses mode cls) :
    ∃ middle last, cls = middle ++ last ∧ (∀ cl ∈ middle, IsElseIf mode cl) ∧ IsElse mode last := by
  induction cls with
  | nil => exact ⟨[], [], rfl, fun _ hcl => absurd hcl not_mem_nil, .inl rfl⟩
  | cons cl cls ih =>
    cases cl with
    | ifThen => exact h.elim
    | otherwise body span =>
      obtain ⟨hbody, rfl⟩ := h
      exact ⟨[], _, rfl, fun _ hcl => absurd hcl not_mem_nil, .inr ⟨body, span, rfl, hbody⟩⟩
    | elseIf condition body span =>
      obtain ⟨middle, last, rfl, hmiddle, hlast⟩ := ih h.2.2
      exact ⟨.elseIf condition body span :: middle, last, rfl,
        forall_mem_cons.mpr ⟨⟨condition, body, span, rfl, h.1, h.2.1⟩, hmiddle⟩, hlast⟩

theorem length_le_clauses {cl : Clause} (h : cl ∈ cls) :
    (Render.clause cl).length ≤ (cls.flatMap Render.clause).length := by
  obtain ⟨before, behind, rfl⟩ := append_of_mem h
  rw [flatMap_append, flatMap_cons, length_append, length_append]
  omega

include hg hl in
theorem regains_elseIfClauses (hmiddle : ∀ cl ∈ middle, IsElseIf mode cl) (hrest : Closes (first :: rest))
    (hfirst : first.token.isKeyword .elseifKw = false) :
    Regains c (levels < 2 * (middle.flatMap Render.clause).length) (middle.flatMap Render.clause ++ first :: rest)
      (g.elseIfClauses levels) (map Bare.clause) middle (first :: rest) := by
  refine regains_many Bare.clause Closes middle ?_ hrest ?_ ?_
  · intro cl hcl rest
    obtain ⟨condition, body, span, rfl, -⟩ := hmiddle cl hcl
    exact rfl
  · intro cl hcl rest hrest
    have hlength := length_le_clauses hcl
    obtain ⟨condition, body, span, rfl, hcondition, hbody⟩ := hmiddle cl hcl
    simp only [Render.clause, cons_append, append_assoc, length_cons, length_append] at hlength ⊢
    refine .token fun _ => .yes rfl (.enter rfl ?_)
    refine (regains_value hg hl hcondition (stops_word rfl)).step (by omega) fun read hread => .expect rfl ?_
    refine (regains_scopedBlock hg hl hbody false hrest).step (by omega) fun found hfound => ?_
    refine .quiet fun _ => .pure ⟨_, rfl, ?_⟩
    rw [Bare.clause, Bare.clause, hread, hfound]
  · exact .token fun _ => .no hfirst (.pure rfl)

include hg hl in
theorem regains_elseClause (hlast : IsElse mode last) :
    Regains c (levels < 2 * (last.flatMap Render.clause).length) (last.flatMap Render.clause ++ Render.word .endKw :: rest)
      (elseClause (g.scopedBlock levels false)) (map Bare.clause) last (Render.word .endKw :: rest) := by
  obtain rfl | ⟨body, span, rfl, hbody⟩ := hlast
  · exact .token fun _ => .no rfl (.pure rfl)
  · simp only [flatMap_singleton, Render.clause, cons_append, length_cons]
    refine .token fun _ => .yes rfl (.enter rfl ?_)
    refine (regains_scopedBlock hg hl hbody false closes_end).step (by omega) fun found hfound => ?_
    refine .quiet fun _ => .pure ?_
    rw [map_singleton, map_singleton, Bare.clause, Bare.clause, hfound]

theorem exists_head_last (rest : List Spelling) (hlast : IsElse mode last) :
    ∃ first tail, last.flatMap Render.clause ++ Render.word .endKw :: rest = first :: tail ∧
      first.token.closesBlock = true ∧ first.token.isKeyword .elseifKw = false := by
  obtain rfl | ⟨body, span, rfl, -⟩ := hlast
  · exact ⟨_, _, rfl, rfl, rfl⟩
  · exact ⟨_, _, rfl, rfl, rfl⟩

theorem closes_middle (hmiddle : ∀ cl ∈ middle, IsElseIf mode cl) (hrest : Closes rest) :
    Closes (middle.flatMap Render.clause ++ rest) := by
  cases middle with
  | nil => exact hrest
  | cons cl =>
    obtain ⟨condition, body, span, rfl, -⟩ := hmiddle cl mem_cons_self
    exact rfl

include hg hl in
theorem restates_branch (hcls : WellFormed.clauses mode cls) :
    Restates c levels (.branch cls false span) rest (g.ifStatement levels) := by
  obtain ⟨condition, body, clauseSpan, others, rfl, hcondition, hbody, hothers⟩ := (WellFormed.clauses_iff mode).mp hcls
  obtain ⟨middle, last, rfl, hmiddle, hlast⟩ := otherClauses_cases hothers
  obtain ⟨first, tail, hhead, hclose, hfirst⟩ := exists_head_last rest hlast
  have hcloses : Closes (first :: tail) := hclose
  simp only [Restates, Render.statement, Render.clauses, Render.clause, Render.clauses_eq_flatMap, flatMap_append,
    cons_append, append_assoc, nil_append, length_cons, length_append, hhead]
  refine .enter rfl (.quiet fun _ => .quiet fun _ => ?_)
  refine (regains_value hg hl hcondition (stops_word rfl)).step (by omega) fun read hread => .quiet fun _ => ?_
  refine .token fun _ => .no (Bool.and_false _) (.expect rfl ?_)
  refine (regains_scopedBlock hg hl hbody false (closes_middle hmiddle hcloses)).step (by omega) fun found hfound => ?_
  refine .quiet fun _ => (regains_elseIfClauses hg hl hmiddle hcloses hfirst).step (by omega) fun middle' hmiddle' => ?_
  rw [← hhead]
  refine (regains_elseClause hg hl hlast).step (by omega) fun last' hlast' => .expect rfl (.quiet fun _ => .pure ?_)
  rw [Bare.statement, Bare.statement, Bare.clauses_eq_map, Bare.clauses_eq_map]
  simp only [cons_append, map_cons, map_append, Bare.clause, hread, hfound, hmiddle', hlast']

/-! ### Declarations -/

theorem regains_localName : Regains c lack (Render.name id :: rest) localName Bare.name id rest :=
  regains_identifier.bind fun _ hread => .quiet fun _ => .pure hread

/-- The values of local variables with the equal sign before them. -/
def initialTokens : List Expr → List Spelling
  | [] => []
  | e :: es => Render.sign .assign :: Render.expressions (e :: es)

include hg hl in
theorem regains_initialValues (hvalues : WellFormed.expressions mode values) (hrest : Separates rest) :
    Regains c (levels < 2 * (initialTokens values).length) (initialTokens values ++ rest) (g.initialValues levels)
      Bare.expressions values rest := by
  cases values with
  | nil =>
    obtain ⟨first, tail, rfl, -, -, -, hassign, -⟩ := hrest.exists_head
    refine .consume_other ?_ (.pure rfl)
    rw [← Bool.not_eq_true, Token.is_iff_kind]
    intro hkind
    rw [AssignOp.ofToken?, hkind] at hassign
    cases hassign
  | cons =>
    rw [initialTokens, length_cons]
    refine .consume rfl ?_
    exact (regains_values hg hl hvalues (cons_ne_nil _ _) hrest.endsList).weaken fun _ => by omega

theorem declare_eq (id : Identifier) (ids : List Identifier) (values : List Expr) (span : Span) :
    Render.statement (.declare (id :: ids) values span) = Render.word .localKw :: Render.name id ::
      ((ids.flatMap fun id => [Render.sign .comma, Render.name id]) ++ initialTokens values) := by
  cases values with
  | nil => rw [Render.statement, Render.names, initialTokens, append_nil]
  | cons => rfl

include hg hl in
theorem restates_declare (hvalues : WellFormed.expressions mode values) (hrest : Separates rest) :
    Restates c levels (.declare (id :: ids) values span) rest (g.localStatement levels) := by
  obtain ⟨first, tail, hhead, hcomma⟩ : ∃ first tail, initialTokens values ++ rest = first :: tail ∧
      first.token.isSymbol .comma = false := by
    cases values with
    | nil =>
      obtain ⟨first, tail, rfl, -, -, -, -, hcomma⟩ := hrest.exists_head
      exact ⟨first, tail, rfl, hcomma⟩
    | cons => exact ⟨_, _, rfl, rfl⟩
  simp only [Restates, declare_eq, cons_append, append_assoc, length_cons, length_append, hhead]
  refine .enter rfl (.token fun _ => .yes rfl (regains_localName.bind fun id' hid => ?_))
  refine (regains_moreNames ids hcomma regains_localName).bind fun others hothers => ?_
  rw [← hhead]
  refine (regains_initialValues hg hl hvalues hrest).step (by omega) fun values' hvalues' => ?_
  refine (regains_mapM _ (regains_declare rfl)).bind fun names hnames => .quiet fun _ => .pure ?_
  rw [Bare.statement, Bare.statement, hvalues', hnames, map_cons, map_cons, hid, hothers]

include hg hl in
theorem restates_localFunction (he : WellFormed.localName mode e) (hf : WellFormed.functionBody mode f) :
    Restates c levels (.function e true f) rest (g.localStatement levels) := by
  cases e with
  | name =>
    simp only [Restates, Render.statement, Render.expression, cons_append, nil_append, length_cons]
    refine .enter rfl (.token fun _ => .no rfl (.consume rfl ?_))
    refine regains_identifier.bind fun read hread => (regains_declareInFlow hread).bind fun used hused => ?_
    refine (regains_functionBody hg hl hf false).step (by omega) fun found hfound => .pure ?_
    rw [Bare.statement, Bare.statement, Bare.expression, Bare.expression, hused, hfound]
  | _ => exact he.elim

/-! ### Names of functions -/

theorem regains_functionKey {base : Expr} {indexer : Indexer} {key : Identifier}
    (hread : Bare.expression read = Bare.expression base) (span : Span) :
    Regains c lack (Render.name key :: rest) (functionKey read indexer) Bare.expression (.member base indexer key span) rest := by
  refine regains_identifier.bind fun id hid => .pure ?_
  rw [Bare.expression, Bare.expression, hread, hid]

theorem expression_dotted (h : WellFormed.dottedName mode e) :
    ∃ id, e.chainRoot = .name id ∧ Render.expression e = Render.name id :: Render.trail e := by
  fun_induction WellFormed.dottedName mode e with
  | case1 id => exact ⟨id, rfl, rfl⟩
  | case2 base key span ih =>
    obtain ⟨id, hroot, heq⟩ := ih h.1
    have hbase := (Render.lexemes_dottedName h.1).2
    refine ⟨id, hroot, ?_⟩
    rw [Render.expression, Render.trail, hbase, heq]
    rfl
  | case3 => exact h.elim

/-- The names behind points are read from the first one on. If all goes well behind the whole name, then all goes well
behind its first part. -/
theorem yields_keyRounds {good : Expr → Prop} (e : Expr) (he : WellFormed.dottedName mode e) {rest : List Spelling}
    {rounds : Nat} (hread : Bare.expression read = Bare.expression e.chainRoot)
    (hbehind : ∀ longer below, Bare.expression longer = Bare.expression e →
      Yields c lack rest (functionKeyRounds longer below) good out) :
    Yields c lack (Render.trail e ++ rest) (functionKeyRounds read rounds) good out := by
  fun_induction WellFormed.dottedName mode e generalizing rest with
  | case1 id => exact hbehind read rounds hread
  | case2 base key span ih =>
    rw [Render.trail, append_assoc]
    refine ih he.1 hread fun longer below hlonger => ?_
    cases below with
    | zero => exact .exhausted
    | succ below =>
      exact .consume rfl ((regains_functionKey hlonger span).bind fun longest => hbehind longest below)
  | case3 => exact he.elim

theorem regains_functionKeys (he : WellFormed.dottedName mode e)
    (hread : Bare.expression read = Bare.expression e.chainRoot) (hfirst : first.token.isSymbol .dot = false) :
    Regains c lack (Render.trail e ++ first :: rest) (functionKeys read) Bare.expression e (first :: rest) := by
  refine .settings (yields_keyRounds e he hread fun longer below hlonger => ?_)
  cases below with
  | zero => exact .exhausted
  | succ => exact .consume_other hfirst (.pure hlonger)

theorem regains_dottedName (he : WellFormed.dottedName mode e) (hfirst : first.token.isSymbol .dot = false) :
    Regains c lack (Render.expression e ++ first :: rest) (identifier >>= reference >>= fun id => functionKeys (.name id))
      Bare.expression e (first :: rest) := by
  obtain ⟨id, hroot, heq⟩ := expression_dotted he
  rw [heq, bind_assoc]
  refine regains_identifier.bind fun read hread => (regains_reference hread).bind fun used hused => ?_
  exact regains_functionKeys he (by rw [hroot, Bare.expression, Bare.expression, hused]) hfirst

theorem regains_functionName (he : WellFormed.functionName mode e) :
    Regains c lack (Render.expression e ++ Render.sign .leftParen :: rest) functionName Bare.expression e
      (Render.sign .leftParen :: rest) := by
  have hsplit : functionName = (identifier >>= reference >>= fun id => functionKeys (.name id)) >>= fun name => do
      if ← consume Symbol.colon then functionKey name .colon else return name := by
    simp only [functionName, bind_assoc]
  rw [hsplit]
  unfold WellFormed.functionName at he
  split at he
  next base key span =>
    have hbase := (Render.lexemes_dottedName he.1).2
    rw [Render.expression, hbase, append_assoc]
    exact (regains_dottedName he.1 rfl).bind fun name hname => .consume rfl (regains_functionKey hname span)
  next => exact (regains_dottedName he rfl).bind fun name hname => .consume_other rfl (.pure hname)

include hg hl in
theorem restates_function (he : WellFormed.functionName mode e) (hf : WellFormed.functionBody mode f) :
    Restates c levels (.function e false f) rest (g.functionStatement levels) := by
  obtain ⟨tail, hhead⟩ : ∃ tail, Render.functionBody f ++ rest = Render.sign .leftParen :: tail := by
    obtain ⟨ps, body, span⟩ := f
    exact ⟨_, rfl⟩
  simp only [Restates, Render.statement, cons_append, append_assoc, length_cons, length_append, hhead]
  refine .enter rfl ((regains_functionName he).bind fun name hname => ?_)
  rw [← hhead]
  refine (regains_functionBody hg hl hf name.isMethod).step (by omega) fun found hfound => .pure ?_
  rw [Bare.statement, Bare.statement, hname, hfound]

/-! ### Left sides -/

theorem ofChain_root (h : e.chainRoot.isPrefix = false) : Ending.ofChain e.chainRoot = .parenthesized := by
  generalize e.chainRoot = root at h
  cases root with
  | name | member | index | call | tableCall | stringCall => cases h
  | _ => rfl

include hg hl in
/-- A chain at the left end of a statement. The levels that its suffixes spend are spent for what follows. -/
theorem yields_leftExpression (he : WellFormed.expression mode false e) (hchain : e.isPrefix = true) (hrest : Stops 0 rest) :
    Yields c (levels < 2 * (Render.expression e).length) (Render.expression e ++ rest) (g.leftExpression levels)
      (fun side => ∃ read below, side = ⟨[read], .ofChain e, below⟩ ∧ Bare.expression read = Bare.expression e ∧
        below ≤ levels ∧ levels ≤ below + (Render.expression e).length) rest := by
  have hsuffixes : ∀ {start base}, Bare.expression base = Bare.expression e.chainRoot →
      Yields c (levels < 2 * (Render.expression e).length) (Render.trail e ++ rest)
        (g.leftSuffixes start base (.ofChain e.chainRoot) levels)
        (fun side => ∃ read below, side = ⟨[read], .ofChain e, below⟩ ∧ Bare.expression read = Bare.expression e ∧
          below ≤ levels ∧ levels ≤ below + (Render.expression e).length) rest := by
    intro start base hbase
    rw [Render.expression_eq_root hchain, length_append]
    refine (yields_leftSuffixes hg hl.le he hbase hrest).mono (fun _ => by omega) ?_
    rintro side ⟨longer, below, rfl, hsame, hle, hge⟩
    exact ⟨longer, below, rfl, hsame, hle, by omega⟩
  rw [Render.expression_eq_root hchain] at hsuffixes ⊢
  obtain ⟨id, hname, hroot⟩ | ⟨hparens, hroot⟩ := Render.root_cases e
  · rw [hroot] at hsuffixes ⊢
    refine .token fun _ => .yes rfl ?_
    refine regains_identifier.bind fun read hread => (regains_reference hread).bind fun used hused => ?_
    have hending : Ending.assignable = .ofChain e.chainRoot := by
      rw [hname]
      rfl
    rw [hending]
    exact hsuffixes (by rw [hname, Bare.expression, Bare.expression, hused])
  · rw [hroot] at hsuffixes ⊢
    simp only [cons_append, append_assoc, nil_append, length_cons, length_append] at hsuffixes ⊢
    refine .token fun _ => .no rfl (.yes rfl ?_)
    refine (regains_parenthesized hg hl (wellFormed_chainRoot e he)).step (by omega) fun base hbase => ?_
    rw [← ofChain_root hparens]
    exact hsuffixes hbase

theorem expressions_cons (e other : Expr) (es : List Expr) :
    Render.expressions (e :: other :: es) = Render.expression e ++ Render.sign .comma :: Render.expressions (other :: es) :=
  rfl

include hg in
/-- All chains on a left side that end in the same way, which is with something assignable if there are several. -/
theorem yields_leftRounds (rounds : Nat) {es : List Expr} (hl : levels < depth)
    (hes : WellFormed.expressions mode (e :: es)) (hchains : ∀ x ∈ e :: es, x.isPrefix = true)
    (hends : ∀ x ∈ es, Ending.ofChain x = .ofChain e) (hmore : es ≠ [] → Ending.ofChain e = .assignable)
    (hrest : EndsList rest) :
    Yields c (levels < 2 * (Render.expressions (e :: es)).length) (Render.expressions (e :: es) ++ rest)
      (g.leftRounds levels rounds)
      (fun side => ∃ found below, side = ⟨found, .ofChain e, below⟩ ∧ Bare.expressions found = Bare.expressions (e :: es) ∧
        below ≤ levels ∧ levels ≤ below + (Render.expressions (e :: es)).length) rest := by
  induction rounds generalizing e es levels with
  | zero => exact .exhausted
  | succ rounds ih =>
    rw [WellFormed.expressions] at hes
    cases es with
    | nil =>
      rw [Render.expressions, Render.moreExpressions, append_nil]
      refine (yields_leftExpression hg hl hes.1 (hchains e mem_cons_self) hrest.stops).bind ?_
      rintro _ ⟨read, below, rfl, hread, hle, hge⟩
      obtain ⟨first, tail, rfl⟩ := exists_cons_of_ne_nil hrest.ne_nil
      refine .token fun _ => .yes (congrArg not (hrest.comma first rfl)) (.pure ⟨_, below, rfl, ?_, hle, hge⟩)
      simp only [Bare.expressions, hread]
    | cons other =>
      simp only [expressions_cons, append_assoc, length_append, length_cons]
      refine (yields_leftExpression hg hl hes.1 (hchains e mem_cons_self) stops_comma).step (by omega) ?_
      rintro _ ⟨read, below, rfl, hread, hle, hge⟩
      dsimp only
      have hassignable := hmore (cons_ne_nil _ _)
      have hother := hends other mem_cons_self
      refine .token fun _ => .no rfl ?_
      rw [if_neg (by simp [hassignable])]
      refine .advance rfl ?_
      refine (ih (by omega) hes.2 (fun x hx => hchains x (mem_cons_of_mem _ hx)) ?_ ?_).step (by omega) ?_
      · exact fun x hx => (hends x (mem_cons_of_mem _ hx)).trans hother.symm
      · exact fun _ => hother.trans hassignable
      · rintro _ ⟨found, below, rfl, hfound, hle, hge⟩
        rw [hother]
        refine .pure ⟨_, below, rfl, ?_, by omega, by omega⟩
        rw [singleton_append, Bare.expressions, hread, hfound, ← Bare.expressions]

include hg hl in
theorem yields_leftSide {es : List Expr} (hes : WellFormed.expressions mode (e :: es))
    (hchains : ∀ x ∈ e :: es, x.isPrefix = true) (hends : ∀ x ∈ es, Ending.ofChain x = .ofChain e)
    (hmore : es ≠ [] → Ending.ofChain e = .assignable) (hrest : EndsList rest) :
    Yields c (levels < 2 * (Render.expressions (e :: es)).length) (Render.expressions (e :: es) ++ rest) (g.leftSide levels)
      (fun side => ∃ found below, side = ⟨found, .ofChain e, below⟩ ∧ Bare.expressions found = Bare.expressions (e :: es) ∧
        below ≤ levels ∧ levels ≤ below + (Render.expressions (e :: es)).length) rest :=
  .settings (yields_leftRounds hg c.rounds hl hes hchains hends hmore hrest)

theorem ofChain_of_isTarget (h : e.isTarget = true) : Ending.ofChain e = .assignable := by
  cases e with
  | name | member | index => rfl
  | _ => cases h

theorem ofChain_of_isCall (h : e.isCall = true) : Ending.ofChain e = .call := by
  cases e with
  | call | tableCall | stringCall => rfl
  | _ => cases h

/-! ### Assignments and calls -/

theorem assignOp_token (h : op.symbol?.isSome = true) :
    AssignOp.ofToken? (Render.assign op).token = some op := by
  obtain ⟨symbol, hsymbol⟩ := Option.isSome_iff_exists.mp h
  have hfound := find?_some hsymbol
  rw [Render.assign, hsymbol]
  exact eq_of_beq hfound

theorem endsList_assign : EndsList (Render.assign op :: rest) := by
  cases op with
  | assign => exact .of_none rfl rfl rfl
  | compound op => cases op <;> exact .of_none rfl rfl rfl

include hg hl in
theorem regains_assignedValues (hne : values ≠ []) (hone : op.isCompound = true → values.length = 1)
    (hvalues : WellFormed.expressions mode values) (hrest : EndsList rest) :
    Regains c (levels < 2 * (Render.expressions values).length) (Render.expressions values ++ rest)
      (g.assignedValues levels op) Bare.expressions values rest := by
  unfold assignedValues
  split
  next hcompound =>
    obtain ⟨value, rfl⟩ := length_eq_one_iff.mp (hone hcompound)
    rw [Render.expressions, Render.moreExpressions, append_nil]
    refine (regains_value hg hl hvalues.1 hrest.stops).bind fun read hread => .pure ?_
    simp only [Bare.expressions, hread]
  next => exact regains_values hg hl hvalues hne hrest

include hg hl in
theorem restates_assignment {targets : List Expr} (hstmt : WellFormed.statement mode (.assignment targets op values span))
    (hrest : Separates rest) : Restates c levels (.assignment targets op values span) rest (g.assignmentOrCall levels) := by
  obtain ⟨⟨hne, htarget, htargets⟩, hop, hvalue, hone, hvalues⟩ := hstmt
  obtain ⟨e, es, rfl⟩ := exists_cons_of_ne_nil hne
  have hending : ∀ x ∈ e :: es, Ending.ofChain x = .assignable := fun x hx => ofChain_of_isTarget (htarget x hx)
  simp only [Restates, Render.statement, cons_append, append_assoc, length_append, length_cons]
  refine .quiet fun _ => (yields_leftSide hg hl htargets
    (fun x hx => Expr.isPrefix_of_isTarget (htarget x hx)) (fun x hx => ?_) (fun _ => hending e mem_cons_self)
    endsList_assign).step (by omega) ?_
  · rw [hending x (mem_cons_of_mem _ hx), hending e mem_cons_self]
  rintro _ ⟨found, below, rfl, hfound, hle, hge⟩
  rw [hending e mem_cons_self]
  refine .token fun span => ?_
  have htoken : AssignOp.ofToken? ((Render.assign op).at span) = some op := assignOp_token hop
  simp only [htoken]
  refine .advance rfl ?_
  refine (regains_assignedValues hg (by omega) hvalue hone hvalues hrest.endsList).step (by omega)
    fun values' hvalues' => .quiet fun _ => .pure ?_
  rw [Bare.statement, Bare.statement, hfound, hvalues']

include hg hl in
theorem restates_call (hcall : e.isCall = true) (he : WellFormed.expression mode false e) (hrest : Separates rest) :
    Restates c levels (.call e span) rest (g.assignmentOrCall levels) := by
  have hlist : Render.statement (.call e span) = Render.expressions [e] := (append_nil _).symm
  have hes : WellFormed.expressions mode [e] := ⟨he, trivial⟩
  rw [Restates, hlist]
  refine .quiet fun _ => (yields_leftSide hg hl hes (fun x hx => ?_)
    (fun _ hx => absurd hx not_mem_nil) (fun h => absurd rfl h) hrest.endsList).bind ?_
  · rw [mem_singleton.mp hx]
    exact Expr.isPrefix_of_isCall hcall
  rintro _ ⟨found, below, rfl, hfound, -⟩
  obtain ⟨read, rfl⟩ : ∃ read, found = [read] := by
    rw [Bare.expressions_eq_map, Bare.expressions_eq_map] at hfound
    exact length_eq_one_iff.mp (by simpa using congrArg length hfound)
  rw [ofChain_of_isCall hcall]
  refine .quiet fun _ => .pure ?_
  simp only [Bare.expressions, cons.injEq, and_true] at hfound
  rw [Bare.statement, Bare.statement, hfound]

/-! ### All statements -/

theorem yields_properStatement_of_chain (he : e.isPrefix = true) {more : List Spelling} {good : Stmt → Prop}
    (h : Yields c lack (Render.expression e ++ more) (g.assignmentOrCall levels) good out) :
    Yields c lack (Render.expression e ++ more) (g.properStatement levels) good out := by
  obtain ⟨⟨kind, text⟩, tail, hhead, hfirst⟩ := Render.exists_head_prefix he
  rw [hhead] at h ⊢
  obtain rfl | rfl := hfirst
  · exact .token fun _ => h
  · exact .token fun _ => h

include hg hl in
theorem restates_proper {stmt : Stmt} (hstmt : WellFormed.statement mode stmt) (hrest : Separates rest)
    (hreturn : stmt.isReturn = true → Closes rest) (hlabel : ∀ label span, stmt ≠ .label label span) :
    Restates c levels stmt rest (g.properStatement levels) := by
  cases stmt with
  | assignment =>
    have hread := restates_assignment hg hl hstmt hrest
    obtain ⟨e, es, rfl⟩ := exists_cons_of_ne_nil hstmt.1.1
    rw [Restates, Render.statement, Render.expressions, append_assoc, append_assoc] at hread ⊢
    exact yields_properStatement_of_chain (Expr.isPrefix_of_isTarget (hstmt.1.2.1 e mem_cons_self)) hread
  | call =>
    exact yields_properStatement_of_chain (Expr.isPrefix_of_isCall hstmt.1) (restates_call hg hl hstmt.1 hstmt.2 hrest)
  | label label span => exact absurd rfl (hlabel label span)
  | inclusion => exact hstmt.elim
  | declare ids values span =>
    obtain ⟨id, ids, rfl⟩ := exists_cons_of_ne_nil hstmt.1
    have hread : Restates c levels (.declare (id :: ids) values span) rest _ := restates_declare hg hl hstmt.2.2 hrest
    rw [Restates, declare_eq] at hread ⊢
    exact .token fun _ => hread
  | block => exact .token fun _ => restates_do hg hl hstmt
  | whileLoop => exact .token fun _ => restates_while hg hl hstmt.1 hstmt.2
  | repeatLoop => exact .token fun _ => restates_repeat hg hl hstmt.1 hstmt.2 hrest
  | branch =>
    obtain ⟨rfl, hcls⟩ := hstmt
    obtain ⟨condition, body, clauseSpan, others, rfl, -⟩ := (WellFormed.clauses_iff mode).mp hcls
    exact .token fun _ => restates_branch hg hl hcls
  | forNumeric => exact .token fun _ => restates_forNumeric hg hl hstmt.2.1 hstmt.2.2.1 hstmt.2.2.2.1 hstmt.2.2.2.2
  | forGeneric ids =>
    obtain ⟨id, ids, rfl⟩ := exists_cons_of_ne_nil hstmt.1.1
    exact .token fun _ => restates_forGeneric hg hl hstmt.2.1 hstmt.2.2.1 hstmt.2.2.2
  | function e isLocal =>
    cases isLocal with
    | true => exact .token fun _ => restates_localFunction hg hl hstmt.1 hstmt.2
    | false => exact .token fun _ => restates_function hg hl hstmt.1 hstmt.2
  | ret => exact .token fun _ => restates_return hg hl hstmt (hreturn rfl)
  | breakLoop => exact .token fun _ => restates_break
  | goto => exact .token fun _ => restates_goto

include hg in
theorem finds_anyStatement {stmt : Stmt} (hl : levels ≤ depth) (hstmt : WellFormed.statement mode stmt)
    (hrest : Separates rest) (hreturn : stmt.isReturn = true → Closes rest) :
    Finds c (levels ≤ 2 * (Render.statement stmt).length) (Render.statement stmt ++ rest) (g.anyStatement levels)
      Bare.statement stmt rest := by
  have hsome : ∀ {lack : Prop} {ws : List Spelling} {p : Parse Stmt}, Regains c lack ws p Bare.statement stmt rest →
      Finds c lack ws (some <$> p) Bare.statement stmt rest :=
    fun hp => hp.map fun read hread => ⟨read, rfl, hread⟩
  cases levels with
  | zero => exact .tooManyLevels (Nat.zero_le _)
  | succ levels =>
    obtain ⟨first, tail, hhead, -, hdirective, hsemicolon, hcolon⟩ := exists_head_statement hstmt
    have hlabel : ∀ label span, stmt = .label label span →
        Finds c (levels < 2 * (Render.statement stmt).length) (Render.statement stmt ++ rest) (some <$> labelStatement)
          Bare.statement stmt rest := by
      rintro label span rfl
      exact hsome restates_label
    have hproper := fun h => hsome (restates_proper hg hl hstmt hrest hreturn h)
    rw [hhead] at hlabel hproper ⊢
    refine .token fun _ => ?_
    split
    next hkind => exact absurd hkind hdirective
    next hkind =>
      obtain ⟨label, span, heq⟩ := hcolon.mp hkind
      exact hlabel label span heq
    next hkind => exact absurd hkind hsemicolon
    next hother _ => exact .quiet fun _ => hproper fun label span heq => hother (hcolon.mpr ⟨label, span, heq⟩)

omit hg hl in
theorem yields_emptyStatement :
    Yields c (levels < 1) (Render.sign .semicolon :: rest) (g.anyStatement levels) (· = none) rest := by
  cases levels with
  | zero => exact .tooManyLevels Nat.one_pos
  | succ => exact .token fun _ => .advance rfl (.pure rfl)

end Grammar

theorem rereads_grammar (mode : Encoding) (c : Settings) (depth : Nat) : (grammar depth).Rereads mode c depth := by
  induction depth with
  | zero =>
    exact ⟨fun hl => absurd hl (Nat.not_lt_zero _), fun hl => absurd hl (Nat.not_lt_zero _),
      fun hl => absurd hl (Nat.not_lt_zero _), fun hl => absurd hl (Nat.not_lt_zero _)⟩
  | succ depth ih =>
    exact ⟨fun hl hp he hrest => Grammar.finds_operators ih (Nat.lt_succ_iff.mp hl) hp he hrest,
      fun _ hfirst => Grammar.yields_noExpression hfirst,
      fun hl hstmt hrest hreturn => Grammar.finds_anyStatement ih (Nat.lt_succ_iff.mp hl) hstmt hrest hreturn,
      fun _ => Grammar.yields_emptyStatement⟩

end CartLua
