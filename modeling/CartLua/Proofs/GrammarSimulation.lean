import CartLua.Proofs.GrammarDerivation
import CartLua.Proofs.StatementSimulation
/-!
# Programs that keep pace

The statements that can end openly, and with them the whole grammar: from the laws of a comparison alone, all parsers of
all nesting depths keep pace.
-/

namespace CartLua

open List Token Outcome Option

namespace Comparison

open Session

variable {k : Comparison} [k.Lawful] {s s' : Session}

theorem places_of_lenient (h : k.lenient) : k.mask.places = false := by
  cases hplaces : k.mask.places with
  | false => rfl
  | true => exact absurd h (Lawful.places hplaces)

theorem isKeyword_of_ended (h : s.Ended) (word : Keyword) : s.window.token.isKeyword word = false := by
  simp [isKeyword, kind_of_isEof h.token]

end Comparison

namespace Grammar

open Parse Comparison

variable {k : Comparison} [k.Lawful] {g : Grammar} [Balanced k.first g] (hg : g.KeepsPace k) {levels : Nat}
  {s s' : Session} {inLine : Bool}

/-! ### Return statements -/

omit [Balanced k.first g] in
theorem matches_returnEnd {values values' : List Expr} (hs : k.Related s s') (hmode : k.InLine inLine s.window)
    (hvalues : values.map k.mask.expression = values'.map k.mask.expression) :
    k.Matches (Same k.mask.statement) (k.StatementTrails inLine)
      (Parse.run (do
        let _ ← consume Symbol.semicolon
        return Stmt.ret values (← finish)) k.first s)
      (Parse.run (do
        let _ ← consume Symbol.semicolon
        return Stmt.ret values' (← finish)) k.second s') := by
  have hend : ∀ _ _ : Bool, k.Sim (fun _ => True) (Same k.mask.statement)
      (k.StatementTrails inLine) (do return Stmt.ret values (← finish)) (do return Stmt.ret values' (← finish)) := by
    intro _ _
    refine .finish fun span span' hspan => ?_
    simp only [Mask.statement, Mask.expressions_eq_map, hvalues, hspan]
  by_cases hover : k.Over s
  · have hplain : (consume Symbol.semicolon).run k.first s = .ok false s := by
      have hthis : s.window.token.is Symbol.semicolon = false := by
        simp [is, isSymbol, kind_of_isEof hover.2.token]
      unfold consume
      rw [run_bind, run_token, andThen_ok, hthis]
      rfl
    rw [run_bind, run_bind, hplain, andThen_ok]
    by_cases hsemicolon : s'.window.token.kind = .symbol .semicolon
    · have hthis : s'.window.token.is Symbol.semicolon = true := by simp [is, isSymbol, hsemicolon]
      -- What passing the semicolon comes to.
      have hpassed : s'.window.next.1 = none → (consume Symbol.semicolon).run k.second s' =
          .ok true (s'.resume s'.window.next.2) := by
        intro hnext
        unfold consume
        rw [run_bind, run_token, andThen_ok, hthis, if_pos rfl, run_bind, run_advance, hnext]
        rfl
      have hret : ∀ span span', (some (Stmt.ret values span)).map k.mask.statement =
          (some (Stmt.ret values' span')).map k.mask.statement := by
        intro span span'
        simp only [map_some, Mask.statement, Mask.expressions_eq_map, hvalues,
          Mask.span_hidden (places_of_lenient hover.1) _ default]
      have hover' : ∀ markers, k.Over { s with markers } :=
        fun _ => ⟨hover.1, hover.2.alone, hover.2.token, hover.2.lookahead, hover.2.rest⟩
      cases inLine with
      | true =>
        by_cases hlineless : k.lineless
        · exact .opens ⟨hover' _, .inl ⟨hlineless, rfl⟩⟩
        · obtain hnewline | ⟨hfollowed, -, hnext, hnewline⟩ :=
            Lawful.lineEnd hlineless hs.abreast hover (hmode.resolve_left hlineless)
          · simp [isNewline, hsemicolon] at hnewline
          · rw [hpassed hnext]
            exact .opens ⟨hover' _, .inr (.inr ⟨hfollowed, _, _, rfl, hret _ _, fun _ => hnewline⟩)⟩
      | false =>
        by_cases hfaulty : k.faulty
        · exact .opens ⟨hover' _, .inr (.inl ⟨_, rfl, .ret hfaulty _ _⟩)⟩
        · rw [hpassed (Lawful.semicolon hfaulty hs.abreast hover hsemicolon)]
          have hfollowed : ¬k.followed := fun h => hfaulty (Lawful.followed h)
          exact .opens ⟨hover' _, .inr (.inr ⟨hfollowed, _, _, rfl, hret _ _, (absurd · Bool.false_ne_true)⟩)⟩
    · have hthis : (consume Symbol.semicolon).run k.second s' = .ok false s' := by
        have hnot : s'.window.token.is Symbol.semicolon = false := by
          show s'.window.token.isSymbol .semicolon = false
          unfold isSymbol
          split <;> simp_all
        unfold consume
        rw [run_bind, run_token, andThen_ok, hnot]
        rfl
      rw [hthis]
      exact hend false false s s' hs trivial
  · refine (matches_consume_semicolon hs hover).bind (fun _ _ _ h => h.1.elim) ?_
    rintro found found' t u - htu - -
    exact hend found found' t u htu trivial

include hg

theorem sim_returnStatement (inLine : Bool) : k.Sim (fun w => w.token.isPassable = true ∧ k.InLine inLine w)
    (Same k.mask.statement) (k.StatementTrails inLine) (g.returnStatement levels)
    (g.returnStatement levels) := by
  refine idle_mark.before ?_
  refine Sim.bind (Q := fun _ => k.InLine inLine) (sim_advance.weaken fun _ h => h.1)
    (fun hs h hrun => h.2.of_kept hs hrun) (fun _ _ _ h => h.1.elim) fun _ _ _ => ?_
  refine Sim.bind (Q := fun _ => k.InLine inLine) ((agree_optionalValues hg).weaken fun _ _ => trivial)
    (fun hs h hrun => h.of_kept hs hrun) (fun _ _ _ h => h.1.elim) fun values values' hvalues => ?_
  exact fun s s' hs hmode => matches_returnEnd hs hmode hvalues

/-! ### If statements with an end -/

theorem agree_blockIf {condition condition' : Expr} (hcondition : k.mask.expression condition = k.mask.expression condition') :
    k.Agree (Same k.mask.statement) (g.blockIf levels condition)
      (g.blockIf levels condition') := by
  have helseIf : k.Sim (fun _ => True) (Same (map k.mask.clause)) (k.ends True)
      (g.elseIfClauses levels) (g.elseIfClauses levels) := by
    refine sim_many (.token fun t t' ht => ?_)
    refine .ite (by rw [ht.isKeyword]) (fun hthis => ?_) fun _ => .pure rfl
    have hpass : t.isPassable = true := isPassable_of_is Keyword.elseifKw hthis
    refine idle_mark.before ?_
    refine (sim_advance_of hpass).before ?_
    refine (agree_value hg).andThen fun condition condition' hcondition => ?_
    refine .expect (by decide) ?_
    refine (sim_scopedBlock hg false).andThen_open fun body body' hbody => ?_
    refine .finish fun span span' hspan => ?_
    simp only [map_some, Mask.clause, Mask.statements_eq_map, hcondition, hbody, hspan]
  have helse : k.Sim (fun _ => True) (Same (map k.mask.clause)) (k.ends True)
      (elseClause (g.scopedBlock levels false)) (elseClause (g.scopedBlock levels false)) := by
    refine .token fun t t' ht => ?_
    refine .ite (by rw [ht.isKeyword]) (fun hthis => ?_) fun _ => .pure rfl
    have hpass : t.isPassable = true := isPassable_of_is Keyword.elseKw hthis
    refine idle_mark.before ?_
    refine (sim_advance_of hpass).before ?_
    refine (sim_scopedBlock hg false).andThen_open fun body body' hbody => ?_
    refine .finish fun span span' hspan => ?_
    simp only [map_singleton, Mask.clause, Mask.statements_eq_map, hbody, hspan]
  refine .expect (by decide) ?_
  refine (sim_scopedBlock hg false).andThen_dead
    (fun _ => .behind _ fun _ => .behind _ fun _ => .behind _ fun _ => (dead_expect _).bind _) fun body body' hbody => ?_
  refine idle_finish.bind fun inner inner' hinner => ?_
  refine helseIf.andThen_dead (fun _ => .behind _ fun _ => (dead_expect _).bind _) fun others others' hothers => ?_
  refine helse.andThen_dead (fun _ => (dead_expect _).bind _) fun last last' hlast => ?_
  refine .expect (by decide) ?_
  refine .finish fun span span' hspan => ?_
  simp only [Mask.statement, Mask.clauses_eq_map, map_append, map_cons, Mask.clause, Mask.statements_eq_map,
    hcondition, hbody, hinner, hothers, hlast, hspan]

/-! ### If statements on one line -/

theorem sim_lineBlock (hpasses : k.PassesSemicolon (g.statement levels)) : k.Sim (k.InLine true)
    (Same (map k.mask.statement)) (k.BlockTrails True) (g.scopedBlock levels false)
    (g.scopedBlock levels false) := by
  refine (idle_openBlock false).before ?_
  refine idle_openScope.before ?_
  refine Sim.bind (Q := fun _ _ => True) (Comparison.sim_lineBlock (hg.statement levels true) hpasses)
    (fun _ _ _ => trivial) (fun body t o hopen => ?_) fun body body' hbody => ?_
  · refine .opens ⟨hopen.1.of_reaches (c := k.first) ?_, fun h => (hopen.2 h).imp id (.imp id ?_)⟩
    · exact reaches (p := do closeScope; closeBlock) rfl
    · rintro ⟨hfollowed, body', u, rfl, hbody, hnewline⟩
      exact ⟨hfollowed, body', _, rfl, hbody, hnewline⟩
  · refine idle_closeScope.before ?_
    exact idle_closeBlock.before (.pure hbody)

omit [k.Lawful] [Balanced k.first g] hg in
theorem run_scopedBlock_ended (levels : Nat) (g : Grammar) (c : Settings) (hs : s.Ended) (isLoop : Bool) :
    (g.scopedBlock levels isLoop).run c s = .exhausted ∨ ∃ t, (g.scopedBlock levels isLoop).run c s = .ok [] t := by
  have hopened : ({ s with flow := s.flow.pushScope isLoop } : Session).openScope.Ended :=
    ⟨hs.alone, hs.token, hs.lookahead, hs.rest⟩
  unfold scopedBlock
  rw [run_bind, run_openBlock, andThen_ok, run_bind, run_openScope, andThen_ok, run_bind]
  obtain hblock | hblock := run_collectRounds_closed (g.statement levels) c hopened.closes c.rounds
  · left
    have hrun : (g.block levels).run c ({ s with flow := s.flow.pushScope isLoop } : Session).openScope = .exhausted := hblock
    rw [hrun]
    rfl
  · right
    have hrun : (g.block levels).run c ({ s with flow := s.flow.pushScope isLoop } : Session).openScope = .ok [] _ := hblock
    rw [hrun]
    exact ⟨_, rfl⟩

/-- The body behind an `else` on one line. At the end of the first program it is empty. -/
theorem sim_oneLineElse (hpasses : k.PassesSemicolon (g.statement levels)) : k.Sim (k.InLine true)
    (Same (map k.mask.statement))
    (fun body t o => k.Over t ∧ (body = [] ∨ (k.lineless ∨
      (∃ last, body.getLast? = some last ∧ last.Dangles k.lineless k.followed k.faulty true) ∨
      ¬k.followed ∧ ∃ body' u, o = .ok body' u ∧ body.map k.mask.statement = body'.map k.mask.statement ∧
        u.window.token.isNewline = true)))
    (g.oneLineElse levels) (g.oneLineElse levels) := by
  intro s s' hs hmode
  unfold oneLineElse
  rw [run_bind, run_bind, run_token, run_token, andThen_ok, andThen_ok]
  by_cases hover : k.Over s
  · rw [isNewline_of_isEof hover.2.token, if_neg Bool.false_ne_true]
    obtain hrun | ⟨t, hrun⟩ := run_scopedBlock_ended levels g k.first hover.2 false
    · rw [hrun]
      trivial
    · rw [hrun]
      exact .opens ⟨hover.of_reaches (reaches hrun), .inl rfl⟩
  · have htoken := (Lawful.token hs.abreast).resolve_right fun h => hover h.1
    rw [← Mask.isNewline_eq htoken]
    split
    · refine matches_setNewlines hs (.inl hover) fun t u htu _ _ => ?_
      refine (sim_scopedBlock hg false).andThen_dead (fun _ => (dead_expect _).bind _) (fun body body' hbody => ?_) t u htu trivial
      exact .expect (by decide) <| .pure hbody
    · exact (sim_lineBlock hg hpasses s s' hs hmode).mono (fun _ _ => id) fun body t o hopen =>
        ⟨hopen.1, .inr (hopen.2 trivial)⟩

/-- The last clause of an if statement on one line. Where it ends openly the statement does so. -/
theorem sim_lineElseClause (hpasses : k.PassesSemicolon (g.statement levels)) : k.Sim (k.InLine true)
    (Same (map k.mask.clause))
    (fun last t o => k.Over t ∧
      ((∀ first inLine span, (Stmt.branch (first :: last) true span).Dangles k.lineless k.followed k.faulty inLine) ∨
      ¬k.followed ∧ ∃ last' u, o = .ok last' u ∧ last.map k.mask.clause = last'.map k.mask.clause ∧
        u.window.token.isNewline = true))
    (elseClause (g.oneLineElse levels)) (elseClause (g.oneLineElse levels)) := by
  refine .token fun t t' ht => ?_
  refine .ite (by rw [ht.isKeyword]) (fun hthis => ?_) fun _ => .pure rfl
  have hpass : t.isPassable = true := isPassable_of_is Keyword.elseKw hthis
  refine idle_mark.before ?_
  refine Sim.bind (Q := fun _ => k.InLine true) (sim_advance_of hpass)
    (fun hs h hrun => h.2.of_kept hs hrun) (fun _ _ _ h => h.1.elim) fun _ _ _ => ?_
  refine Sim.bind (Q := fun _ _ => True) (sim_oneLineElse hg hpasses) (fun _ _ _ => trivial) (fun body u o hopen => ?_)
    fun body body' hbody => ?_
  · refine .opens ⟨hopen.1.of_reaches (c := k.first) (reaches (p := finish) rfl), ?_⟩
    obtain rfl | hlineless | ⟨last, hlast, hdangles⟩ | ⟨hfollowed, body', v, rfl, hbody, hnewline⟩ := hopen.2
    · exact .inl fun first inLine span => .emptyElse ..
    · exact .inl fun first inLine span => .unseen hlineless ..
    · exact .inl fun first inLine span => .nested inLine span rfl hlast hdangles
    · refine .inr ⟨hfollowed, _, _, rfl, ?_, hnewline⟩
      simp only [map_singleton, Mask.clause, Mask.statements_eq_map, hbody,
        Mask.span_hidden (places_of_lenient hopen.1.1) _ default]
  · refine .finish fun span span' hspan => ?_
    simp only [map_singleton, Mask.clause, Mask.statements_eq_map, hbody, hspan]

omit [Balanced k.first g] hg in
theorem matches_lineIfEnd {outer : Bool} {first first' : Clause} {last last' : List Clause} (hs : k.Related s s')
    (houter : k.lineless ∨ outer = inLine) (hmode : last = [] → k.InLine true s.window)
    (hshape : last = [] ∨ ∃ body inner, last = [.otherwise body inner])
    (hclauses : (first :: last).map k.mask.clause = (first' :: last').map k.mask.clause) :
    k.Matches (Same k.mask.statement) (k.StatementTrails inLine)
      (Parse.run (do
        setNewlines outer
        return Stmt.branch (first :: last) true (← finish)) k.first s)
      (Parse.run (do
        setNewlines outer
        return Stmt.branch (first' :: last') true (← finish)) k.second s') := by
  have hend : k.Sim (fun _ => True) (Same k.mask.statement) (k.StatementTrails inLine)
      (do return Stmt.branch (first :: last) true (← finish)) (do return Stmt.branch (first' :: last') true (← finish)) := by
    refine .finish fun span span' hspan => ?_
    simp only [Mask.statement, Mask.clauses_eq_map, hclauses, hspan]
  by_cases hover : k.Over s
  · have hover' : ∀ span t, (do
        setNewlines outer
        return Stmt.branch (first :: last) true (← finish) : Parse Stmt).run k.first s = .ok span t → k.Over t :=
      fun _ _ hrun => hover.of_reaches (reaches hrun)
    by_cases hlineless : k.lineless
    · exact .opens ⟨hover' _ _ rfl, .inr (.inl ⟨_, rfl, .unseen hlineless ..⟩)⟩
    obtain rfl := houter.resolve_left hlineless
    cases outer with
    | false =>
      by_cases hfollowed : k.followed
      · exact matches_setNewlines hs (.inr ⟨hlineless, .inr ⟨rfl, hfollowed⟩⟩) fun t u htu _ _ => hend t u htu trivial
      refine .opens ⟨hover' _ _ rfl, .inr (.inr ⟨hfollowed, _, _, rfl, ?_, (absurd · Bool.false_ne_true)⟩)⟩
      simp only [map_some, Mask.statement, Mask.clauses_eq_map, hclauses,
        Mask.span_hidden (places_of_lenient hover.1) _ default]
    | true =>
      by_cases hshown : s.window.newlines = true
      · exact matches_setNewlines hs (.inr ⟨hlineless, .inl ⟨rfl, hshown⟩⟩) fun t u htu _ _ => hend t u htu trivial
      obtain rfl | ⟨body, inner, rfl⟩ := hshape
      · exact absurd ((hmode rfl).resolve_left hlineless) hshown
      by_cases hfollowed : k.followed
      · exact .opens ⟨hover' _ _ rfl, .inr (.inl ⟨_, rfl, .blockElse hfollowed ..⟩)⟩
      · have hshow : ∀ (c : Settings) (s : Session), (setNewlines true).run c s =
            .ok () (s.resume (s.window.setNewlines true).2) := fun _ _ => rfl
        refine hend _ _ ⟨Lawful.showLines hfollowed hs.abreast hover, fun h => alike_resume (hs.alike h) _ _⟩ trivial
  · exact matches_setNewlines hs (.inl hover) fun t u htu _ _ => hend t u htu trivial

omit [k.Lawful] [Balanced k.first g] hg in
theorem run_lineIfEnd_newline (c : Settings) (hs : s.window.token.isNewline = true) (clauses : List Clause) (outer : Bool) :
    ∃ span t, Parse.run (do
      setNewlines outer
      return Stmt.branch clauses true (← finish)) c s = .ok (.branch clauses true span) t ∧
      (outer = true → t.window.token.isNewline = true) := by
  refine ⟨_, _, rfl, ?_⟩
  rintro rfl
  have hset : s.window.setNewlines true = (none, { s.window with newlines := true }) := rfl
  have hopen : ({ s.window with newlines := true } : Window).token.isEof = false := by
    cases heof : s.window.token.isEof with
    | false => rfl
    | true =>
      rw [isNewline_of_isEof heof] at hs
      cases hs
  show (s.resume (s.window.setNewlines true).2).window.token.isNewline = true
  rw [hset, Session.resume_open hopen]
  exact hs

omit [k.Lawful] [Balanced k.first g] hg in
theorem run_lineIfRest_newline (levels : Nat) (g : Grammar) (c : Settings) (hs : s.window.token.isNewline = true)
    (condition : Expr) (body : Block) (outer : Bool) :
    ∃ inner span t, Parse.run (do
      let first := Clause.ifThen condition body (← finish)
      let last ← elseClause (g.oneLineElse levels)
      setNewlines outer
      return Stmt.branch (first :: last) true (← finish)) c s = .ok (.branch [.ifThen condition body inner] true span) t ∧
      (outer = true → t.window.token.isNewline = true) := by
  have helse : ∀ markers, (elseClause (g.oneLineElse levels)).run c { s with markers } = .ok [] { s with markers } := by
    intro markers
    have hkeyword : s.window.token.isKeyword .elseKw = false := by
      unfold isNewline at hs
      unfold isKeyword
      split at hs <;> simp_all
    unfold elseClause
    rw [run_bind, run_token, andThen_ok, hkeyword]
    rfl
  rw [run_bind, run_finish, andThen_ok, run_bind, helse]
  obtain ⟨span, t, hrun, hnewline⟩ := run_lineIfEnd_newline (s := { s with markers := s.markers.finish s.window.previous.span.stop |>.2 }) c hs
    [.ifThen condition body (s.markers.finish s.window.previous.span.stop).1] outer
  exact ⟨_, span, t, hrun, hnewline⟩

omit [k.Lawful] [Balanced k.first g] hg in
theorem run_lineIfRest_ended (levels : Nat) (g : Grammar) (c : Settings) (hs : s.Ended) (condition : Expr) (body : Block)
    (outer : Bool) :
    ∃ inner span t, Parse.run (do
      let first := Clause.ifThen condition body (← finish)
      let last ← elseClause (g.oneLineElse levels)
      setNewlines outer
      return Stmt.branch (first :: last) true (← finish)) c s = .ok (.branch [.ifThen condition body inner] true span) t := by
  have helse : ∀ markers, (elseClause (g.oneLineElse levels)).run c { s with markers } = .ok [] { s with markers } := by
    intro markers
    unfold elseClause
    rw [run_bind, run_token, andThen_ok, isKeyword_of_ended hs]
    rfl
  rw [run_bind, run_finish, andThen_ok, run_bind, helse]
  exact ⟨_, _, _, rfl⟩

omit [k.Lawful] [Balanced k.first g] hg in
theorem run_oneLineIf_ended (levels : Nat) (g : Grammar) (c : Settings) (hs : s.Ended) (condition : Expr) :
    (g.oneLineIf levels condition).run c s = .exhausted ∨
      ∃ inner span t, (g.oneLineIf levels condition).run c s = .ok (.branch [.ifThen condition [] inner] true span) t := by
  have hshown : ((s.report (s.window.setNewlines true).1.toList).resume (s.window.setNewlines true).2).Ended :=
    hs.of_reaches (c := c) (reaches (p := setNewlines true) rfl)
  unfold oneLineIf
  rw [run_bind, run_newlines, andThen_ok, run_bind, run_setNewlines, andThen_ok, run_bind]
  obtain hblock | ⟨t, hblock⟩ := run_scopedBlock_ended levels g c hshown false
  · left
    rw [hblock]
    rfl
  · right
    rw [hblock, andThen_ok]
    exact run_lineIfRest_ended levels g c (hshown.of_reaches (reaches hblock)) condition [] s.window.newlines

theorem sim_oneLineIf (hpasses : k.PassesSemicolon (g.statement levels)) {condition condition' : Expr}
    (hcondition : k.mask.expression condition = k.mask.expression condition') (inLine : Bool) : k.Sim (k.InLine inLine)
      (Same k.mask.statement) (k.StatementTrails inLine) (g.oneLineIf levels condition)
      (g.oneLineIf levels condition') := by
  intro s s' hs hmode
  have houter : k.lineless ∨ s.window.newlines = inLine := hmode
  -- Behind the condition, with line ends shown.
  have hrest : k.Sim (k.InLine true) (Same k.mask.statement) (k.StatementTrails inLine)
      (do
        let body ← g.scopedBlock levels false
        let first := Clause.ifThen condition body (← finish)
        let last ← elseClause (g.oneLineElse levels)
        setNewlines s.window.newlines
        return Stmt.branch (first :: last) true (← finish))
      (do
        let body ← g.scopedBlock levels false
        let first := Clause.ifThen condition' body (← finish)
        let last ← elseClause (g.oneLineElse levels)
        setNewlines s.window.newlines
        return Stmt.branch (first :: last) true (← finish)) := by
    refine Sim.bind (Q := fun _ => k.InLine true) (sim_lineBlock hg hpasses) (fun hs h hrun => h.of_kept hs hrun)
      (fun body t o hopen => ?_) fun body body' hbody => ?_
    · obtain ⟨inner, span, u, hrun⟩ :=
        run_lineIfRest_ended levels g k.first hopen.1.2 condition body s.window.newlines
      refine Eq.mpr (congrArg (fun x => k.Matches _ _ x _) hrun) ?_
      have hover := hopen.1.of_reaches (reaches hrun)
      by_cases hlineless : k.lineless
      · exact .opens ⟨hover, .inr (.inl ⟨_, rfl, .unseen hlineless ..⟩)⟩
      obtain ⟨last, hlast, hdangles⟩ | ⟨hfollowed, body', v, rfl, hbody, hnewline⟩ :=
        (hopen.2 trivial).resolve_left hlineless
      · exact .opens ⟨hover, .inr (.inl ⟨_, rfl, .nested inLine span rfl hlast hdangles⟩)⟩
      · -- The line ends in the second run.
        obtain ⟨inner', span', w, hrun', hend⟩ :=
          run_lineIfRest_newline levels g k.second hnewline condition' body' s.window.newlines
        refine .opens ⟨hover, .inr (.inr ⟨hfollowed, _, w,
          congrArg (fun o : Outcome Stmt => o.andThen fun stmt' u => .ok (some stmt') u) hrun', ?_, ?_⟩)⟩
        · simp only [map_some, Mask.statement, Mask.clauses_eq_map, map_singleton, Mask.clause,
            Mask.statements_eq_map, hcondition, hbody, Mask.span_hidden (places_of_lenient hover.1) _ default]
        · exact fun hline => hend ((houter.resolve_left hlineless).trans hline)
    · refine idle_finish.bind fun inner inner' hinner => ?_
      refine Sim.bind (Q := fun last w => (last = [] → k.InLine true w) ∧ (last = [] ∨ ∃ body inner, last = [.otherwise body inner]))
        (sim_lineElseClause hg hpasses) (fun hs h hrun => ?_) (fun last t o hopen => ?_) fun last last' hlast => ?_
      · obtain ⟨rfl, rfl⟩ | ⟨_, body, _, inner, -, -, -, rfl⟩ := elseClause_cases hrun
        · exact ⟨fun _ => h, .inl rfl⟩
        · exact ⟨(absurd · (List.cons_ne_nil _ _)), .inr ⟨body, inner, rfl⟩⟩
      · have hover := hopen.1.of_reaches (c := k.first) (reaches (p := do
          setNewlines s.window.newlines
          return Stmt.branch (Clause.ifThen condition body inner :: last) true (← finish)) rfl)
        by_cases hlineless : k.lineless
        · exact .opens ⟨hover, .inr (.inl ⟨_, rfl, .unseen hlineless ..⟩)⟩
        obtain hdangles | ⟨hfollowed, last', v, rfl, hlast, hnewline⟩ := hopen.2
        · exact .opens ⟨hover, .inr (.inl ⟨_, rfl, hdangles _ inLine _⟩)⟩
        · obtain ⟨span', w, hrun', hend⟩ :=
            run_lineIfEnd_newline k.second hnewline (Clause.ifThen condition' body' inner' :: last') s.window.newlines
          refine .opens ⟨hover, .inr (.inr ⟨hfollowed, _, w,
          congrArg (fun o : Outcome Stmt => o.andThen fun stmt' u => .ok (some stmt') u) hrun', ?_, ?_⟩)⟩
          · simp only [map_some, Mask.statement, Mask.clauses_eq_map, map_cons, Mask.clause,
              Mask.statements_eq_map, hcondition, hbody, hlast, hinner, Mask.span_hidden (places_of_lenient hover.1) _ default]
          · exact fun hline => hend ((houter.resolve_left hlineless).trans hline)
      · refine fun t u htu hP => matches_lineIfEnd htu houter hP.1 hP.2 ?_
        simp only [map_cons, Mask.clause, Mask.statements_eq_map, hcondition, hbody, hinner, hlast]
  -- Line ends are shown behind the change of the mode unless another document is read then.
  have hshown : ∀ t, (setNewlines true).run k.first s = .ok () t → k.InLine true t.window := by
    intro t hrun
    by_cases hlineless : k.lineless
    · exact .inl hlineless
    · right
      have hquiet := Lawful.undisturbed hlineless hs.abreast (reaches hrun)
      cases hrun
      rw [Session.resume_eq hquiet.suspended]
  by_cases hover : k.Over s
  · obtain hrun | ⟨inner, span, t, hrun⟩ := run_oneLineIf_ended levels g k.first hover.2 condition
    · rw [hrun]
      trivial
    by_cases hlineless : k.lineless
    · rw [hrun]
      exact .opens ⟨hover.of_reaches (reaches hrun), .inr (.inl ⟨_, rfl, .unseen hlineless ..⟩)⟩
    by_cases hfollowed : k.followed
    · rw [hrun]
      exact .opens ⟨hover.of_reaches (reaches hrun), .inr (.inl ⟨_, rfl, .empty hfollowed ..⟩)⟩
    have hsame := (Lawful.newlines hs.abreast).resolve_right fun h => hlineless h.2
    have hshow : ∀ (c : Settings) (s : Session), (setNewlines true).run c s =
        .ok () (s.resume (s.window.setNewlines true).2) := fun _ _ => rfl
    unfold oneLineIf
    rw [run_bind, run_bind, run_newlines, run_newlines, andThen_ok, andThen_ok, ← hsame, run_bind, run_bind,
      hshow, hshow]
    exact hrest _ _ ⟨Lawful.showLines hfollowed hs.abreast hover, fun h => alike_resume (hs.alike h) _ _⟩ (hshown _ rfl)
  · unfold oneLineIf
    refine matches_newlines hs hover (matches_setNewlines hs (.inl hover) fun t u htu hrun _ => ?_)
    exact hrest t u htu (hshown t hrun)

theorem sim_ifStatement (inLine : Bool) : k.Sim (fun w => w.token.isPassable = true ∧ k.InLine inLine w)
    (Same k.mask.statement) (k.StatementTrails inLine) (g.ifStatement levels)
    (g.ifStatement levels) := by
  refine idle_mark.before ?_
  refine Sim.bind (Q := fun _ => k.InLine inLine) (sim_advance.weaken fun _ h => h.1)
    (fun hs h hrun => h.2.of_kept hs hrun) (fun _ _ _ h => h.1.elim) fun _ _ _ => ?_
  refine idle_markAgain.before ?_
  refine .token fun t t' ht => ?_
  refine Sim.bind (Q := fun _ w => k.InLine inLine w ∧ k.PassesSemicolon (g.statement levels))
    ((agree_value hg).weaken fun _ _ => trivial) (fun hs h hrun => ?_) (fun _ _ _ h => h.1.elim)
    fun condition condition' hcondition => ?_
  · obtain ⟨r, u, hvalue, -⟩ := run_bind_eq_ok.mp (show (expected (g.expression levels 0)).run k.first _ = _ from hrun)
    exact ⟨h.2.of_kept hs hrun, hg.passes hvalue⟩
  refine .previous fun p p' hp => ?_
  refine .token fun u u' hu => ?_
  refine .ite (by rw [ht.isSymbol (by decide), hp, hu.isKeyword]) (fun _ => ?_) fun _ => ?_
  · exact fun s s' hs h => sim_oneLineIf hg h.2.2 hcondition inLine s s' hs h.2.1
  · exact (agree_blockIf hg hcondition).closed.weaken fun _ _ => trivial

/-! ### All statements -/

theorem matches_properStatement (hs : k.Related s s') (hmode : k.InLine inLine s.window)
    (htoken : k.mask.token s.window.token = k.mask.token s'.window.token) :
    k.Matches (Same k.mask.statement) (k.StatementTrails inLine)
      ((g.properStatement levels).run k.first s) ((g.properStatement levels).run k.second s') := by
  unfold properStatement
  rw [run_bind, run_bind, run_token, run_token, andThen_ok, andThen_ok]
  obtain hkind | ⟨v, v', hkind, hkind'⟩ := Mask.kind_cases (Mask.token_inj htoken).1
  · rw [← hkind]
    have hpass : ∀ kind, s.window.token.kind = kind → (⟨kind, "", default⟩ : Token).isPassable = true →
        s.window.token.isPassable = true := by
      rintro kind rfl hpassable
      exact hpassable
    split
    next h => exact (sim_localStatement hg).closed s s' hs (hpass _ h rfl)
    next h => exact sim_ifStatement hg inLine s s' hs ⟨hpass _ h rfl, hmode⟩
    next h => exact sim_returnStatement hg inLine s s' hs ⟨hpass _ h rfl, hmode⟩
    next h => exact (sim_functionStatement hg).closed s s' hs (hpass _ h rfl)
    next h => exact (sim_whileStatement hg).closed s s' hs (hpass _ h rfl)
    next h => exact (sim_forStatement hg).closed s s' hs (hpass _ h rfl)
    next h => exact (sim_repeatStatement hg).closed s s' hs (hpass _ h rfl)
    next h => exact sim_breakStatement.closed s s' hs (hpass _ h rfl)
    next h => exact (sim_doStatement hg).closed s s' hs (hpass _ h rfl)
    next h => exact sim_gotoStatement.closed s s' hs (hpass _ h rfl)
    next h => exact (sim_printStatement hg).closed s s' hs (hpass _ h rfl)
    next => exact (agree_assignmentOrCall hg).closed s s' hs trivial
  · rw [hkind, hkind']
    exact (agree_assignmentOrCall hg).closed s s' hs trivial

omit [k.Lawful] [Balanced k.first g] hg in
theorem dead_anyStatement (g : Grammar) (levels : Nat) : k.Dead (g.anyStatement levels) := by
  have hkind : ∀ {s : Session}, s.Ended → s.window.token.kind = .eof := fun hs => kind_of_isEof hs.token
  have hexpression : ∀ levels, k.Dead (g.leftExpression levels) := by
    intro levels s hs a t hrun
    simp [leftExpression, isIdentifier, isSymbol, hkind hs] at hrun
  have hside : k.Dead (g.leftSide levels.pred) := by
    refine .behind _ fun c => ?_
    cases c.rounds with
    | zero =>
      intro _ _ _ _ h
      cases h
    | succ => exact (hexpression _).bind _
  have hproper : k.Dead (g.properStatement levels.pred) := by
    intro s hs a t hrun
    unfold properStatement at hrun
    rw [run_bind, run_token, andThen_ok, hkind hs] at hrun
    exact Dead.behind mark (fun _ => hside.bind _) s hs a t hrun
  cases levels with
  | zero =>
    intro _ _ _ _ h
    cases h
  | succ =>
    intro s hs a t hrun
    unfold anyStatement at hrun
    rw [run_bind, run_token, andThen_ok, hkind hs] at hrun
    obtain ⟨_, u, hraise, hrun⟩ := run_bind_eq_ok.mp hrun
    obtain ⟨stmt, hstmt, -⟩ := run_map_eq_ok.mp hrun
    exact hproper u (hs.of_reaches (reaches hraise)) stmt t hstmt

omit [k.Lawful] [Balanced k.first g] hg in
theorem matches_map_some {p q : Parse Stmt}
    (h : k.Matches (Same k.mask.statement) (k.StatementTrails inLine) (p.run k.first s)
      (q.run k.second s')) :
    k.Matches (Same (Option.map k.mask.statement)) (k.Trails inLine) ((some <$> p).run k.first s)
      ((some <$> q).run k.second s') := by
  refine h.bind (fun stmt t o hopen => .opens hopen) fun stmt stmt' t u hstmt htu _ _ => ?_
  exact .inr (.inr (.inl ⟨some stmt', u, rfl, congrArg some hstmt, htu⟩))

omit [k.Lawful] [Balanced k.first g] hg in
theorem run_includeLine (c : Settings) (h : s.window.token.kind = .directive) : includeLine.run c s =
    .ok (.inclusion s.window.token.text s.window.token.span) (s.passInclude c) := by
  have hpassed : passInclude.run c s = .ok () (s.passInclude c) := by
    unfold passInclude
    simp only [h]
  unfold includeLine
  rw [run_bind, run_token, andThen_ok, run_bind, hpassed]
  rfl

theorem sim_anyStatement (inLine : Bool) : k.Sim (k.InLine inLine)
    (Same (Option.map k.mask.statement)) (k.Trails inLine) (g.anyStatement levels)
    (g.anyStatement levels) := by
  refine .of_dead (dead_anyStatement g levels) fun s s' hs hmode hover => ?_
  cases levels with
  | zero => exact sim_tooManyLevels s s' hs hmode
  | succ levels =>
    have htoken := (Lawful.token hs.abreast).resolve_right fun h => hover h.1
    have hproper : k.Matches (Same (Option.map k.mask.statement)) (k.Trails inLine)
        (Parse.run (do
          raiseDeferred
          some <$> g.properStatement levels) k.first s)
        (Parse.run (do
          raiseDeferred
          some <$> g.properStatement levels) k.second s') := by
      obtain ⟨_, t, _, u, hrun, hrun', -, hst, hsu, halike⟩ := idle_raiseDeferred s s' hs
      rw [run_bind, run_bind, hrun, hrun']
      refine matches_map_some (matches_properStatement hg (hs.still hst (reaches hrun) hsu (reaches hrun') halike) ?_ ?_)
      · rw [hst.window]
        exact hmode
      · rw [hst.window, hsu.window]
        exact htoken
    unfold anyStatement
    rw [run_bind, run_bind, run_token, run_token, andThen_ok, andThen_ok]
    obtain hkind | ⟨v, v', hkind, hkind'⟩ := Mask.kind_cases (Mask.token_inj htoken).1
    · rw [← hkind]
      split
      next h =>
        obtain ⟨-, htext, hspan⟩ := Mask.token_inj htoken
        refine matches_map_some ?_
        rw [run_includeLine _ h, run_includeLine _ (hkind ▸ h)]
        obtain hlost | hrelated := Lawful.passInclude hs h
        · exact .inl hlost
        · refine .ok ?_ hrelated
          simp only [Same, Mask.statement, htext, hspan]
      next h =>
        have hpass : s.window.token.isPassable = true := isPassable_of_is Symbol.doubleColon
          (by simp [is, isSymbol, h])
        exact matches_map_some (sim_labelStatement.closed s s' hs hpass)
      next h =>
        have hpass : s.window.token.isPassable = true := isPassable_of_is Symbol.semicolon
          (by simp [is, isSymbol, h])
        refine sim_advance.andThen (fun _ _ _ => .same ?_) s s' hs hpass
        rfl
      next => exact hproper
    · rw [hkind, hkind']
      exact hproper

end Grammar

namespace Grammar

variable (g : Grammar) (levels : Nat) (c : Settings) {s : Session}

theorem run_directive (hkind : s.window.token.kind = .directive) :
    (g.anyStatement (levels + 1)).run c s =
      .ok (some (.inclusion s.window.token.text s.window.token.span)) (s.passInclude c) := by
  unfold Grammar.anyStatement
  rw [Parse.run_bind, Parse.run_token, andThen_ok, hkind]
  exact Parse.run_map_eq_ok.mpr ⟨_, run_includeLine c hkind, rfl⟩

theorem run_semicolon (hkind : s.window.token.kind = .symbol .semicolon) (hnext : s.window.next.1 = none) :
    (g.anyStatement (levels + 1)).run c s = .ok none (s.resume s.window.next.2) := by
  unfold Grammar.anyStatement
  rw [Parse.run_bind, Parse.run_token, andThen_ok, hkind]
  rw [Parse.run_bind, Parse.run_advance, hnext]
  rfl

end Grammar

theorem grammar_keepsPace (k : Comparison) [k.Lawful] (depth : Nat) : (grammar depth).KeepsPace k := by
  induction depth with
  | zero =>
    refine ⟨fun _ _ => Comparison.sim_tooManyLevels, fun _ _ => Comparison.sim_tooManyLevels, ?_⟩
    intro levels precedence s r t hrun
    cases hrun
  | succ depth ih =>
    refine ⟨fun levels precedence => Grammar.agree_operators? ih precedence,
      fun levels inLine => Grammar.sim_anyStatement ih inLine, ?_⟩
    intro levels precedence s r t hrun
    cases levels with
    | zero => cases hrun
    | succ levels => exact fun s => Grammar.run_semicolon _ levels k.second

namespace Program

open Parse Comparison

variable {k : Comparison} [k.Lawful] (hstrict : ¬k.lenient) (levels : Nat)

include hstrict

theorem agree_block (depth : Nat) : k.Preserves (map k.mask.statement) ((grammar depth).block levels) :=
  (Grammar.sim_block (grammar_keepsPace k depth)).mono (fun _ _ => id) fun _ _ _ h => absurd h.2.1 hstrict

theorem agree_textStep (depth : Nat) : k.Agree
    (fun a b => a.1.map k.mask.statement = b.1.map k.mask.statement ∧ a.2 = b.2)
    (textStep ((grammar depth).block levels)) (textStep ((grammar depth).block levels)) := by
  refine (agree_block hstrict levels depth).andThen fun body body' hbody => ?_
  intro s s' hs _
  rw [run_bind, run_bind, run_token, run_token, andThen_ok, andThen_ok,
    ← Mask.isEof_eq (akin_token hs hstrict)]
  split
  · exact .ok ⟨hbody, rfl⟩ hs
  next hopen =>
    have hblames := blames_unexpectedToken hs hstrict
    have hreport : k.Related (s.report [s.unexpectedToken]) (s'.report [s'.unexpectedToken]) := hblames.report hs
    rw [run_bind, run_bind, run_look, run_look, andThen_ok, andThen_ok, run_bind, run_bind, run_report,
      run_report, andThen_ok, andThen_ok]
    refine (agree_skipToken hstrict).andThen (fun _ _ _ => .pure ⟨hbody, ?_⟩) _ _ hreport (Bool.eq_false_iff.mpr hopen)
    rfl

theorem agree_wholeText : k.Preserves (map k.mask.statement) (wholeText levels) := by
  refine (idle_openBlock false).before ?_
  refine idle_openScope.before ?_
  refine (sim_collect (agree_textStep hstrict levels (levels + 1))).andThen fun body body' hbody => ?_
  refine idle_closeScope.before ?_
  exact idle_closeBlock.before (.pure hbody)

end Program

end CartLua
