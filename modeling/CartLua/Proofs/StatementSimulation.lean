import CartLua.Proofs.ExpressionSimulation
/-!
# Statements that keep pace

Every parser of statements keeps pace in two runs that are compared, given that the parsers one level down do. Only return
statements and if statements on one line can end openly, as nothing has to stand behind them.
-/

namespace CartLua

open List

/-- Two runs of a parser that starts with a token of a statement keep pace. -/
abbrev Comparison.ReadsStatement (k : Comparison) (p : Parse Stmt) : Prop :=
  k.Sim (fun w => w.token.isPassable = true) (Same k.mask.statement) (k.ends False) p p

namespace Grammar

open Parse Comparison

variable {k : Comparison} [k.Lawful] {g : Grammar} [Balanced k.first g] (hg : g.KeepsPace k) {levels : Nat}

include hg

theorem sim_scopedBlock (isLoop : Bool) : k.Sim (fun _ => True)
    (Same (map k.mask.statement)) (k.ends True) (g.scopedBlock levels isLoop)
    (g.scopedBlock levels isLoop) := by
  refine (idle_openBlock isLoop).before ?_
  refine idle_openScope.before ?_
  refine (sim_block hg).andThen_open fun body body' hbody => ?_
  refine idle_closeScope.before ?_
  exact idle_closeBlock.before (.pure hbody)

/-! ### Jumps -/

section Jump

omit [Balanced k.first g] hg

theorem sim_labelStatement : k.ReadsStatement labelStatement := by
  refine idle_mark.before ?_
  refine sim_advance.before ?_
  refine agree_identifier.andThen fun id id' hid => ?_
  obtain ⟨hname, -, hspan⟩ := Identifier.mk.inj hid
  refine .expect (by decide) ?_
  rw [hname]
  refine (idle_addLabel hspan).before ?_
  refine .finish fun span span' hspan => ?_
  simp only [Mask.statement, hid, hspan]

theorem agree_checkBreak {span span' : Span} (hspan : k.mask.span span = k.mask.span span') :
    k.Agree (fun _ _ => True) (checkBreak span) (checkBreak span') := by
  have hrun : ∀ (c : Settings) (s : Session) (span : Span), (checkBreak span).run c s = .ok () (if s.flow.inLoop then s else
      s.report [{ fault := .noLoopToBreak s.window.token.text, span }]) := by
    intro c s span
    unfold checkBreak
    rw [run_bind, run_look, Outcome.andThen_ok, run_ite]
    exact (apply_ite (fun u => Outcome.ok () u) _ _ _).symm
  have hstill : ∀ (s : Session) (span : Span), s.Still (if s.flow.inLoop then s else
      s.report [{ fault := .noLoopToBreak s.window.token.text, span }]) := by
    intro s span
    split
    · exact .refl s
    · exact .report s (by simp [Fault.isInclude])
  intro s s' hs _
  have hreach := reaches (hrun k.first s span)
  have hreach' := reaches (hrun k.second s' span')
  rw [hrun, hrun]
  by_cases hlost : k.lenient ∧ s.flow.inLoop = false
  · refine .inl ⟨hlost.1, ?_⟩
    rw [hlost.2, if_neg Bool.false_ne_true]
    simp [Session.report]
  · refine .ok trivial ?_
    refine hs.still (hstill s span) hreach (hstill s' span') hreach' fun htracked => ?_
    have hloop : s.flow.inLoop = s'.flow.inLoop := by
      rw [← Mask.inLoop_flow k.mask, (hs.alike htracked).flow, Mask.inLoop_flow]
    rw [← hloop]
    split
    · exact hs.alike htracked
    next hout =>
      obtain ⟨-, htext, -⟩ := Mask.token_inj (akin_token hs fun hlenient => hlost ⟨hlenient, by simpa using hout⟩)
      refine (hs.alike htracked).report fun _ => ?_
      simp only [map_singleton, Mask.diagnostic, Mask.fault, htext, hspan]

theorem sim_breakStatement : k.ReadsStatement breakStatement := by
  refine idle_mark.before ?_
  intro s s' hs hpass
  obtain ⟨-, -, hkeyword⟩ := Mask.token_inj ((meets_token hs).akin (Token.isEof_of_isPassable hpass))
  refine sim_advance.andThen (fun _ _ _ => ?_) s s' hs hpass
  refine (agree_checkBreak hkeyword).before ?_
  refine .finish fun span span' hspan => ?_
  simp only [Mask.statement, hspan]

theorem sim_gotoStatement : k.ReadsStatement gotoStatement := by
  refine idle_mark.before ?_
  refine sim_advance.before ?_
  refine agree_identifier.andThen fun id id' hid => ?_
  obtain ⟨hname, -, hspan⟩ := Identifier.mk.inj hid
  rw [hname]
  refine (idle_addGoto hspan).before ?_
  refine .finish fun span span' hspan => ?_
  simp only [Mask.statement, hid, hspan]

end Jump

/-! ### Loops and blocks -/

theorem sim_doStatement : k.ReadsStatement (g.doStatement levels) := by
  refine idle_mark.before ?_
  refine sim_advance.before ?_
  refine (sim_scopedBlock hg false).andThen_dead (fun _ => (dead_expect _).bind _) fun body body' hbody => ?_
  refine .expect (by decide) ?_
  refine .finish fun span span' hspan => ?_
  simp only [Mask.statement, Mask.statements_eq_map, hbody, hspan]

theorem sim_whileStatement : k.ReadsStatement (g.whileStatement levels) := by
  refine idle_mark.before ?_
  refine sim_advance.before ?_
  refine (agree_value hg).andThen fun condition condition' hcondition => ?_
  refine .expect (by decide) ?_
  refine (sim_scopedBlock hg true).andThen_dead (fun _ => (dead_expect _).bind _) fun body body' hbody => ?_
  refine .expect (by decide) ?_
  refine .finish fun span span' hspan => ?_
  simp only [Mask.statement, Mask.statements_eq_map, hcondition, hbody, hspan]

theorem sim_repeatStatement : k.ReadsStatement (g.repeatStatement levels) := by
  refine idle_mark.before ?_
  refine sim_advance.before ?_
  refine (idle_openBlock true).before ?_
  refine idle_openScope.before ?_
  refine (sim_block hg).andThen_dead (fun _ => (dead_expect _).bind _) fun body body' hbody => ?_
  refine .expect (by decide) ?_
  refine (agree_value hg).andThen fun condition condition' hcondition => ?_
  refine idle_closeScope.before ?_
  refine idle_closeBlock.before ?_
  refine .finish fun span span' hspan => ?_
  simp only [Mask.statement, Mask.statements_eq_map, hcondition, hbody, hspan]

theorem agree_forBody : k.Preserves (map k.mask.statement) (g.forBody levels) := by
  refine (sim_block hg).andThen_dead (fun _ => (dead_expect _).bind _) fun body body' hbody => ?_
  refine .expect (by decide) ?_
  refine idle_closeScope.before ?_
  exact idle_closeBlock.before (.pure hbody)

omit [Balanced k.first g] hg in
theorem agree_moreNames {name : Parse Identifier} (hname : k.Preserves k.mask.name name) :
    k.Preserves (map k.mask.name) (moreNames name) := by
  refine sim_many (.iteConsume (by decide) ?_ (.pure rfl))
  exact hname.andThen fun id id' hid => .same (by rw [Option.map_some, Option.map_some, hid])

theorem sim_forStatement : k.ReadsStatement (g.forStatement levels) := by
  refine idle_mark.before ?_
  refine sim_advance.before ?_
  refine agree_identifier.andThen fun id id' hid => ?_
  refine (idle_openBlock true).before ?_
  refine idle_openScope.before ?_
  refine .iteConsume (by decide) ?_ ?_
  · refine (agree_value hg).andThen fun first first' hfirst => ?_
    refine .expect (by decide) ?_
    refine (agree_value hg).andThen fun last last' hlast => ?_
    refine (agree_valueBehindComma? hg).andThen fun step step' hstep => ?_
    refine .expect (by decide) ?_
    refine (idle_declareInFlow hid).bind fun counter counter' hcounter => ?_
    refine (agree_forBody hg).andThen fun body body' hbody => ?_
    refine .finish fun span span' hspan => ?_
    simp only [Mask.statement, Mask.step_eq_map, Mask.statements_eq_map, hcounter, hfirst, hlast, hstep, hbody, hspan]
  · refine (agree_moreNames agree_identifier).andThen fun others others' hothers => ?_
    refine .expect (by decide) ?_
    refine (agree_values hg).andThen fun iterators iterators' hiterators => ?_
    refine .expect (by decide) ?_
    refine (idle_mapM (fun _ _ => idle_declareInFlow) (id :: others) (id' :: others')
      (by rw [map_cons, map_cons, hid, hothers])).bind fun names names' hnames => ?_
    refine (agree_forBody hg).andThen fun body body' hbody => ?_
    refine .finish fun span span' hspan => ?_
    simp only [Mask.statement, Mask.expressions_eq_map, Mask.statements_eq_map, hnames, hiterators, hbody, hspan]

/-! ### Declarations -/

section Name

omit [Balanced k.first g] hg

theorem agree_localName : k.Preserves k.mask.name localName := by
  refine agree_identifier.andThen fun id id' hid => ?_
  obtain ⟨hname, -, -⟩ := Identifier.mk.inj hid
  rw [hname]
  exact (idle_addLocal _).bind fun _ _ _ => .pure hid

theorem agree_functionKey {name name' : Expr} (hname : k.mask.expression name = k.mask.expression name')
    (indexer : Indexer) : k.Agree (Same k.mask.expression) (functionKey name indexer)
      (functionKey name' indexer) := by
  have hstart : k.mask.position name.span.start = k.mask.position name'.span.start := by
    have hspan := congrArg Expr.span hname
    rw [Mask.span_expression, Mask.span_expression] at hspan
    exact (Span.mk.inj hspan).1
  refine agree_identifier.andThen fun key key' hkey => .same ?_
  simp only [Mask.expression, hname, hkey, member_hidden hstart hkey]

theorem agree_functionKeyRounds {name name' : Expr} (hname : k.mask.expression name = k.mask.expression name')
    (rounds rounds' : Nat) : k.Agree (Same k.mask.expression) (functionKeyRounds name rounds)
      (functionKeyRounds name' rounds') := by
  induction rounds generalizing name name' rounds' with
  | zero => exact fun _ _ _ _ => trivial
  | succ rounds ih =>
    cases rounds' with
    | zero => exact fun _ _ _ _ => matches_exhausted _
    | succ rounds' =>
      refine .iteConsume (by decide) ?_ (.pure hname)
      exact (agree_functionKey hname .dot).andThen fun longer longer' hlonger => ih hlonger rounds'

theorem agree_functionName : k.Preserves k.mask.expression functionName := by
  refine agree_identifier.andThen fun id id' hid => ?_
  refine (idle_reference hid).bind fun used used' hused => ?_
  have hkeys : k.Agree (Same k.mask.expression) (functionKeys (.name used))
      (functionKeys (.name used')) :=
    fun s s' hs hP => agree_functionKeyRounds (by simp only [Mask.expression, hused]) k.first.rounds k.second.rounds s s' hs hP
  refine hkeys.andThen fun name name' hname => ?_
  exact .iteConsume (by decide) (agree_functionKey hname .colon) (.pure hname)

end Name

omit [Balanced k.first g] in
theorem agree_localVariables : k.Preserves k.mask.statement (g.localVariables levels) := by
  have hvalues : k.Preserves (map k.mask.expression) (g.initialValues levels) := by
    exact .iteConsume (by decide) (agree_values hg) (.pure rfl)
  refine agree_localName.andThen fun first first' hfirst => ?_
  refine (agree_moreNames agree_localName).andThen fun others others' hothers => ?_
  refine hvalues.andThen fun values values' hvalues => ?_
  refine (idle_mapM (fun _ _ => idle_declare) (first :: others) (first' :: others')
    (by rw [map_cons, map_cons, hfirst, hothers])).bind fun names names' hnames => ?_
  refine .finish fun span span' hspan => ?_
  simp only [Mask.statement, Mask.expressions_eq_map, hnames, hvalues, hspan]

theorem sim_localStatement : k.ReadsStatement (g.localStatement levels) := by
  refine idle_mark.before ?_
  refine sim_advance.before ?_
  refine .token fun t t' ht => ?_
  refine .ite (by rw [ht.isIdentifier]) (fun _ => (agree_localVariables hg).weaken fun _ _ => trivial) fun _ => ?_
  refine .iteConsume (by decide) ?_ (sim_missing _)
  refine agree_identifier.andThen fun id id' hid => ?_
  refine (idle_declareInFlow hid).bind fun used used' hused => ?_
  refine (agree_functionBody hg false).andThen fun f f' hf => .same ?_
  simp only [Mask.statement, Mask.expression, hused, hf]

theorem sim_functionStatement : k.ReadsStatement (g.functionStatement levels) := by
  refine idle_mark.before ?_
  refine sim_advance.before ?_
  refine agree_functionName.andThen fun name name' hname => ?_
  have hmethod : name.isMethod = name'.isMethod := by
    rw [← Mask.isMethod_expression k.mask, hname, Mask.isMethod_expression]
  rw [hmethod]
  refine (agree_functionBody hg _).andThen fun f f' hf => .same ?_
  simp only [Mask.statement, hname, hf]

/-! ### Assignments and calls -/

omit [Balanced k.first g] in
theorem sim_printStatement : k.ReadsStatement (g.printStatement levels) := by
  refine idle_mark.before ?_
  intro s s' hs hpass
  obtain ⟨-, -, hquestion⟩ := Mask.token_inj ((meets_token hs).akin (Token.isEof_of_isPassable hpass))
  refine sim_advance.andThen (fun _ _ _ => ?_) s s' hs hpass
  refine (idle_reference (by simp only [Mask.name, hquestion])).bind fun callee callee' hcallee => ?_
  refine (agree_optionalValues hg).andThen fun arguments arguments' harguments => ?_
  refine .finish fun span span' hspan => ?_
  simp only [Mask.statement, Mask.expression, Mask.expressions_eq_map, hcallee, harguments, hspan]

/-- Two left sides look the same. -/
structure LeftSide.Akin (k : Comparison) (side side' : LeftSide) : Prop where
  targets : side.targets.map k.mask.expression = side'.targets.map k.mask.expression
  ending : side.ending = side'.ending
  levels : side.levels = side'.levels

omit [Balanced k.first g] in
theorem agree_leftSuffixes {start start' : Position} {base base' : Expr} {ending : Ending}
    (hstart : k.mask.position start = k.mask.position start') (hbase : k.mask.expression base = k.mask.expression base') :
    k.Agree (LeftSide.Akin k) (g.leftSuffixes start base ending levels) (g.leftSuffixes start' base' ending levels) := by
  have htargets : ∀ {base base' : Expr}, k.mask.expression base = k.mask.expression base' →
      [base].map k.mask.expression = [base'].map k.mask.expression := by
    intro base base' hbase
    rw [map_singleton, map_singleton, hbase]
  induction levels generalizing base base' ending with
  | zero =>
    refine .token fun t t' ht => ?_
    exact .ite (by rw [ht.ending]) (fun _ => sim_tooManyLevels) fun _ => .pure ⟨htargets hbase, rfl, rfl⟩
  | succ levels ih =>
    refine .token fun t t' ht => ?_
    rw [← ht.ending]
    cases Ending.ofSuffix? t with
    | none => exact .pure ⟨htargets hbase, rfl, rfl⟩
    | some => exact ((agree_suffix hg hstart hbase).weaken fun _ _ => trivial).andThen fun e e' he => ih he

omit [Balanced k.first g] in
theorem agree_leftExpression : k.Agree (LeftSide.Akin k) (g.leftExpression levels) (g.leftExpression levels) := by
  refine .token fun t t' ht => ?_
  refine .ite (by rw [ht.isIdentifier]) (fun hthis => ?_) fun _ => ?_
  · have hstart := start_akin (ht.akin (Token.isEof_of_isPassable (Token.isPassable_of_isIdentifier hthis)))
    refine (agree_identifier.weaken fun _ _ => trivial).andThen fun id id' hid => ?_
    refine (idle_reference hid).bind fun used used' hused => ?_
    exact agree_leftSuffixes hg hstart (by simp only [Mask.expression, hused])
  · refine .ite (by rw [ht.isSymbol (by decide)]) (fun hthis => ?_) fun _ => sim_unexpected
    have hstart := start_akin
      (ht.akin (Token.isEof_of_isPassable (Token.isPassable_of_is Symbol.leftParen hthis)))
    refine ((agree_parenthesized hg).weaken fun _ _ => trivial).andThen fun e e' he => ?_
    exact agree_leftSuffixes hg hstart he

omit [Balanced k.first g] in
theorem agree_leftRounds (rounds rounds' : Nat) :
    k.Agree (LeftSide.Akin k) (g.leftRounds levels rounds) (g.leftRounds levels rounds') := by
  induction rounds generalizing levels rounds' with
  | zero => exact fun _ _ _ _ => trivial
  | succ rounds ih =>
    cases rounds' with
    | zero => exact fun _ _ _ _ => matches_exhausted _
    | succ rounds' =>
      refine (agree_leftExpression hg).andThen fun side side' hside => ?_
      refine .token fun t t' ht => ?_
      refine .ite (by rw [ht.isSymbol (by decide)]) (fun _ => .pure hside) fun hcomma => ?_
      refine .ite (by rw [hside.ending]) (fun _ => sim_unexpected) fun _ => ?_
      have hpass : t.isPassable = true := Token.isPassable_of_is Symbol.comma (by simpa [Token.is] using hcomma)
      refine (sim_advance_of hpass).before ?_
      rw [hside.levels]
      refine (ih rounds').andThen fun more more' hmore => .pure ⟨?_, hmore.ending, hmore.levels⟩
      rw [map_append, map_append, hside.targets, hmore.targets]

omit [Balanced k.first g] in
theorem agree_assignment {side side' : LeftSide} (hside : LeftSide.Akin k side side') :
    k.Agree (Same k.mask.statement) (g.assignment side) (g.assignment side') := by
  have hvalues : ∀ op, k.Agree (Same (map k.mask.expression))
      (g.assignedValues side.levels op) (g.assignedValues side'.levels op) := by
    intro op
    rw [hside.levels]
    refine .ite Iff.rfl (fun _ => ?_) fun _ => agree_values hg
    exact (agree_value hg).andThen fun e e' he => .same (by rw [map_singleton, map_singleton, he])
  refine .token fun t t' ht => ?_
  rw [← ht.assignOp]
  cases hop : AssignOp.ofToken? t with
  | none => exact sim_missingWord _
  | some op =>
    have hpass : t.isPassable = true :=
      Token.isPassable_of (fun kind => (AssignOp.ofToken? ⟨kind, t.text, t.span⟩).isSome) false
        (by show (AssignOp.ofToken? t).isSome ≠ false; simp [hop]) rfl rfl rfl
    refine (sim_advance_of hpass).before ?_
    refine (hvalues op).andThen fun values values' hvalues => ?_
    refine .finish fun span span' hspan => ?_
    simp only [Mask.statement, Mask.expressions_eq_map, hside.targets, hvalues, hspan]

omit [Balanced k.first g] in
theorem agree_assignmentOrCall : k.Preserves k.mask.statement (g.assignmentOrCall levels) := by
  refine idle_mark.before ?_
  have hleft : k.Agree (LeftSide.Akin k) (g.leftSide levels) (g.leftSide levels) :=
    fun s s' hs hP => agree_leftRounds hg k.first.rounds k.second.rounds s s' hs hP
  refine hleft.andThen fun side side' hside => ?_
  obtain ⟨targets, ending, left⟩ := side
  obtain ⟨targets', ending', left'⟩ := side'
  obtain ⟨htargets, rfl, rfl⟩ : targets.map k.mask.expression = targets'.map k.mask.expression ∧ ending = ending' ∧
    left = left' := ⟨hside.targets, hside.ending, hside.levels⟩
  cases ending with
  | assignable => exact agree_assignment hg hside
  | parenthesized => exact sim_unexpected
  | call =>
    obtain _ | ⟨e, more⟩ := targets <;> obtain _ | ⟨e', more'⟩ := targets'
    · exact sim_unexpected
    · cases htargets
    · cases htargets
    obtain _ | ⟨_, _⟩ := more <;> obtain _ | ⟨_, _⟩ := more'
    · refine .finish fun span span' hspan => ?_
      simp only [Mask.statement, (cons.inj htargets).1, hspan]
    · cases (cons.inj htargets).2
    · cases (cons.inj htargets).2
    · exact sim_unexpected

end Grammar

end CartLua
