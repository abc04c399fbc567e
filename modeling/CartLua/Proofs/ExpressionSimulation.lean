import CartLua.Proofs.BlockSimulation
import CartLua.Proofs.GrammarBalance
/-!
# Expressions that keep pace

Every parser of expressions keeps pace in two runs that are compared, given that the parsers one level down do. None of
them ends openly: whatever has to be closed by a bracket or a word is wrong at the end of a program.
-/

namespace CartLua

open List Token

def Token.isVararg (t : Token) : Bool := t.kind matches .vararg

namespace Grammar

open Parse Comparison

/-- All parts of a grammar keep pace. -/
structure KeepsPace (k : Comparison) (g : Grammar) : Prop where
  expression : ∀ levels precedence, k.Preserves (Option.map k.mask.expression) (g.expression levels precedence)
  statement : ∀ levels inLine, k.Sim (k.InLine inLine) (Same (Option.map k.mask.statement))
    (k.Trails inLine) (g.statement levels) (g.statement levels)
  /-- Where an expression can be read there are levels left for a semicolon. -/
  passes : ∀ {levels precedence s r t}, (g.expression levels precedence).run k.first s = .ok r t →
    k.PassesSemicolon (g.statement levels)

variable {k : Comparison} [k.Lawful] {g : Grammar} (hg : g.KeepsPace k) {levels : Nat}

include hg

theorem sim_block [Balanced k.first g] : k.Sim (fun _ => True) (Same (map k.mask.statement)) (k.ends True)
    (g.block levels) (g.block levels) :=
  Comparison.sim_block (hg.statement levels)

omit hg in
theorem agree_expected {p q : Parse (Option Expr)}
    (h : k.Agree (Same (Option.map k.mask.expression)) p q) :
    k.Agree (Same k.mask.expression) (expected p) (expected q) := by
  exact h.andThen_option (sim_missing _) fun e e' he => .pure he

theorem agree_value :
    k.Preserves k.mask.expression (g.value levels) :=
  agree_expected (hg.expression levels 0)

theorem agree_valueBehindComma? : k.Preserves (Option.map k.mask.expression) (g.valueBehindComma? levels) := by
  refine .iteConsume (by decide) ?_ (.pure rfl)
  exact (agree_value hg).andThen fun e e' he => .same (congrArg some he)

theorem agree_moreValues : k.Preserves (map k.mask.expression) (g.moreValues levels) :=
  sim_many (agree_valueBehindComma? hg)

theorem agree_values : k.Preserves (map k.mask.expression) (g.values levels) := by
  refine (agree_value hg).andThen fun e e' he => ?_
  exact (agree_moreValues hg).andThen fun es es' hes => .same (by rw [map_cons, map_cons, he, hes])

theorem agree_optionalValues : k.Preserves (map k.mask.expression) (g.optionalValues levels) := by
  refine (hg.expression levels 0).andThen_option (.pure rfl) fun e e' he => ?_
  exact (agree_moreValues hg).andThen fun es es' hes => .same (by rw [map_cons, map_cons, he, hes])

/-! ### Tables -/

omit [k.Lawful] hg in
theorem token_behind_name {c : Settings} {s t : Session} {id : Identifier} (hrun : identifier.run c s = .ok id t)
    (hahead : s.window.lookahead.isSymbol .assign = true) :
    t.window.token.isEof = false ∧ t.window.token.isDirective = false := by
  have hnext : s.window.next.2.token.isEof = false ∧ s.window.next.2.token.isDirective = false := by
    rw [Window.next_token]
    split
    · exact ⟨rfl, rfl⟩
    · have hkind : s.window.lookahead.kind = .symbol .assign := by
        unfold isSymbol at hahead
        split at hahead
        next sign hsign => rw [hsign, beq_iff_eq.mp hahead]
        · cases hahead
      simp [isEof, isDirective, hkind]
  have hmoved : t = s.resume s.window.next.2 := by
    obtain ⟨-, -, hadvance⟩ := identifier_cases hrun
    rw [run_advance] at hadvance
    split at hadvance <;> cases hadvance
    rfl
  rw [hmoved, Session.resume_open hnext.1]
  exact hnext

theorem sim_field? : k.Sim (fun _ => True) (Same (Option.map k.mask.field)) (k.ends True)
    (g.field? levels) (g.field? levels) := by
  refine .iteConsume (by decide) ?_ ?_
  · refine (agree_value hg).andThen fun key key' hkey => ?_
    refine .expect (by decide) ?_
    refine .expect (by decide) ?_
    refine (agree_value hg).andThen fun value value' hvalue => ?_
    refine .finish fun span span' hspan => ?_
    simp only [Option.map_some, Mask.field, hkey, hvalue, hspan]
  · intro s s' hs _
    have htoken := meets_token hs
    -- At the end of the first program there is no name, whatever stands ahead.
    have hnamed : (s.window.token.isIdentifier && s.window.lookahead.isSymbol .assign) =
        (s'.window.token.isIdentifier && s'.window.lookahead.isSymbol .assign) := by
      rw [← htoken.isIdentifier]
      obtain hahead | hover := Lawful.lookahead hs.abreast
      · rw [hahead]
      · have hname : s.window.token.isIdentifier = false := by
          simp [isIdentifier, kind_of_isEof hover.2.token]
        simp [hname]
    rw [run_bind, run_bind, run_token, run_token, Outcome.andThen_ok, Outcome.andThen_ok, run_bind, run_bind,
      run_lookahead, run_lookahead, Outcome.andThen_ok, Outcome.andThen_ok, ← hnamed]
    split
    next hthis =>
      simp only [Bool.and_eq_true] at hthis
      refine Sim.bind (P := fun w => w.lookahead.isSymbol .assign = true)
        (Q := fun _ w => w.token.isEof = false ∧ w.token.isDirective = false) (agree_identifier.weaken fun _ _ => trivial)
        (fun _ hahead hrun => token_behind_name hrun hahead) (fun _ _ _ h => h.1.elim) (fun key key' hkey => ?_) s s' hs hthis.2
      refine sim_advance_newline.andThen_open fun _ _ _ => ?_
      refine (agree_value hg).andThen fun value value' hvalue => ?_
      refine .finish fun span span' hspan => ?_
      simp only [Option.map_some, Mask.field, hkey, hvalue, hspan]
    next =>
      refine (hg.expression levels 0).andThen_option ?_ (fun e e' he => ?_) s s' hs trivial
      · exact .pure rfl
      · refine .finish fun span span' hspan => ?_
        simp only [Option.map_some, Mask.field, he, hspan]

theorem sim_fieldStep : k.Sim (fun _ => True) (fun a b => a.1.map k.mask.field = b.1.map k.mask.field ∧ a.2 = b.2)
    (k.ends True) (g.fieldStep levels) (g.fieldStep levels) := by
  refine idle_mark.before ?_
  refine (sim_field? hg).andThen_option_open ?_ fun f f' hf => ?_
  · exact idle_unmark.bind fun _ _ _ => .pure ⟨rfl, rfl⟩
  · have hfield : [f].map k.mask.field = [f'].map k.mask.field := by rw [map_singleton, map_singleton, hf]
    refine .iteConsume (by decide) (.pure ⟨hfield, rfl⟩) ?_
    exact sim_consume_semicolon.andThen_open fun more more' hmore => .pure ⟨hfield, hmore⟩

theorem agree_table : k.Preserves k.mask.table (g.table levels) := by
  refine idle_mark.before ?_
  refine (agree_openBracket (by decide)).andThen ?_
  rintro outer _ rfl
  refine (sim_collect (sim_fieldStep hg)).andThen_dead (fun _ => (dead_closeBracket _ _).bind _) fun fs fs' hfs => ?_
  refine (agree_closeBracket (by decide) outer).before ?_
  refine .finish fun span span' hspan => ?_
  simp only [Mask.table, Mask.fields_eq_map, hfs, hspan]

/-! ### Functions -/

omit hg in
theorem agree_parameterStep : k.Agree (fun a b => a.1.map k.mask.parameter = b.1.map k.mask.parameter ∧ a.2 = b.2)
    parameterStep parameterStep := by
  refine .token fun t t' ht => ?_
  refine .ite (by rw [ht.isIdentifier]) (fun _ => ?_) fun _ => ?_
  · refine (agree_identifier.weaken fun _ _ => trivial).andThen fun id id' hid => ?_
    refine (idle_declareInFlow hid).bind fun used used' hused => ?_
    have hname : [Parameter.name used].map k.mask.parameter = [Parameter.name used'].map k.mask.parameter := by
      simp only [map_singleton, Mask.parameter, hused]
    refine .iteConsume (by decide) (.pure ⟨hname, rfl⟩) ?_
    exact .expect (by decide) <| .pure ⟨hname, rfl⟩
  · have hvararg : t.isVararg = t'.isVararg :=
      ht.congr (f := fun kind => (⟨kind, "", default⟩ : Token).isVararg) (fun kind => by cases kind <;> rfl) rfl rfl rfl rfl
    refine .ite (iff_of_eq (congrArg (· = true) hvararg)) (fun hthis => ?_) fun _ => sim_missing _
    have hpass : t.isPassable = true :=
      isPassable_of (fun kind => (⟨kind, "", default⟩ : Token).isVararg) false (ne_false_of_eq_true hthis) rfl rfl rfl
    obtain ⟨-, -, hspan⟩ := Mask.token_inj (ht.akin (isEof_of_isPassable hpass))
    refine idle_allowVararg.before ?_
    refine (sim_advance_of hpass).before ?_
    refine Sim.expect (by decide) <| .pure ⟨?_, rfl⟩
    simp only [map_singleton, Mask.parameter, hspan]

omit hg in
theorem agree_parameters : k.Preserves (map k.mask.parameter) parameters := by
  refine .expect (by decide) ?_
  exact .iteConsume (by decide) (.pure rfl) (sim_collect agree_parameterStep)

omit [k.Lawful] hg in
theorem idle_declareSelf (isMethod : Bool) : k.Idle (fun _ _ => True) (declareSelf isMethod) (declareSelf isMethod) := by
  unfold declareSelf
  split
  · exact idle_addName _
  · exact .pure trivial

theorem agree_functionBody [Balanced k.first g] (isMethod : Bool) : k.Preserves k.mask.functionBody (g.functionBody levels isMethod) := by
  have hdead : k.Dead parameters := (dead_expect _).bind _
  refine .of_dead (.behind _ fun _ => .behind _ fun _ => .behind _ fun _ => .behind _ fun _ => .behind _ fun _ =>
    .behind _ fun _ => hdead.bind _) fun s s' hs _ hover => ?_
  refine matches_newlines hs hover (matches_setNewlines hs (.inl hover) fun t u htu _ _ => ?_)
  refine idle_enterFunction.bind (P := fun _ => True) (fun _ _ _ => ?_) t u htu trivial
  refine (idle_openBlock false).before ?_
  refine idle_openScope.before ?_
  refine (idle_declareSelf isMethod).before ?_
  refine agree_parameters.andThen fun ps ps' hps => ?_
  refine (sim_block hg).andThen_dead (fun _ => (dead_closeBracket _ _).bind _) fun body body' hbody => ?_
  refine (agree_closeBracket (by decide) s.window.newlines).before ?_
  refine idle_closeScope.before ?_
  refine idle_closeBlock.before ?_
  refine idle_leaveFunction.before ?_
  refine .finish fun span span' hspan => ?_
  simp only [Mask.functionBody, Mask.statements_eq_map, hps, hbody, hspan]

/-! ### Operands -/

omit [k.Lawful] hg in
/-- A vararg that may not stand here is reported. Where stacks are not compared this may differ. -/
theorem idle_checkVararg {t t' : Token} (ht : k.mask.token t = k.mask.token t') :
    k.Idle (fun _ _ => True) (checkVararg t) (checkVararg t') := by
  obtain ⟨-, htext, hspan⟩ := Mask.token_inj ht
  have hvararg : t.isVararg = t'.isVararg :=
    Mask.congr_kind ht (f := fun kind => (⟨kind, "", default⟩ : Token).isVararg) fun kind => by cases kind <;> rfl
  have hrun : ∀ (c : Settings) (s : Session) (t : Token), (checkVararg t).run c s =
      .ok () (if t.isVararg && !s.flow.allowVararg then
        s.report [{ fault := .varargNotAllowed t.text, span := t.span }] else s) := by
    intro c s t
    unfold checkVararg
    rw [run_bind, run_look, Outcome.andThen_ok, run_ite, run_report, run_pure]
    exact (apply_ite (fun u => Outcome.ok () u) _ _ _).symm
  have hstill : ∀ (b : Bool) (s : Session) (t : Token),
      s.Still (if b then s.report [{ fault := .varargNotAllowed t.text, span := t.span }] else s) := by
    intro b s t
    cases b with
    | true => exact .report s (by simp [Fault.isInclude])
    | false => exact .refl s
  intro s s' hs
  refine ⟨(), _, (), _, hrun _ s t, hrun _ s' t', trivial, hstill _ s t, hstill _ s' t', fun htracked => ?_⟩
  have hallow : s.flow.allowVararg = s'.flow.allowVararg := by
    rw [← Mask.allowVararg_flow k.mask, (hs.alike htracked).flow, Mask.allowVararg_flow]
  rw [hvararg, hallow]
  cases t'.isVararg && !s'.flow.allowVararg with
  | true =>
    refine (hs.alike htracked).report fun _ => ?_
    simp only [map_singleton, Mask.diagnostic, Mask.fault, htext, hspan]
  | false => exact hs.alike htracked

theorem agree_primary? [Balanced k.first g] : k.Preserves (Option.map k.mask.expression) (g.primary? levels) := by
  refine .token fun t t' ht => ?_
  have hliteral := ht.literal?
  cases hthis : literal? t with
  | some =>
    rw [hthis] at hliteral
    obtain ⟨e', hthis', he⟩ := Option.map_eq_some_iff.mp hliteral.symm
    rw [hthis']
    have hpass : t.isPassable = true :=
      isPassable_of (fun kind => (literal? ⟨kind, t.text, t.span⟩).isSome) false
        (by show (literal? t).isSome ≠ false; simp [hthis]) rfl rfl rfl
    refine (idle_checkVararg (ht.akin (isEof_of_isPassable hpass))).before ?_
    refine (sim_advance_of hpass).andThen fun _ _ _ => .same ?_
    rw [Option.map_some, Option.map_some, he]
  | none =>
    rw [hthis, Option.map_none, eq_comm, Option.map_eq_none_iff] at hliteral
    rw [hliteral]
    refine .ite (by rw [ht.isKeyword]) (fun hfunction => ?_) fun _ => ?_
    · have hpass : t.isPassable = true := isPassable_of_is Keyword.functionKw hfunction
      refine idle_mark.before ?_
      refine (sim_advance_of hpass).before ?_
      refine (agree_functionBody hg false).andThen fun f f' hf => .same ?_
      simp only [Option.map_some, Mask.expression, hf]
    · refine .ite (by rw [ht.isSymbol (by decide)]) (fun _ => ?_) fun _ => .pure rfl
      refine ((agree_table hg).weaken fun _ _ => trivial).andThen fun x x' hx => .same ?_
      simp only [Option.map_some, Mask.expression, hx]

/-! ### Chains -/

section Chain

variable {start start' : Position} {base base' : Expr} (hstart : k.mask.position start = k.mask.position start')
  (hbase : k.mask.expression base = k.mask.expression base')

include hstart hbase

theorem agree_call : k.Agree (Same k.mask.expression) (g.call levels start base)
    (g.call levels start' base') := by
  refine .token fun t t' ht => ?_
  refine .ite (by rw [ht.isSymbol (by decide)]) (fun _ => ?_) fun _ => ?_
  · refine ((agree_openBracket (by decide)).weaken fun _ _ => trivial).andThen ?_
    rintro outer _ rfl
    refine (agree_optionalValues hg).andThen fun es es' hes => ?_
    refine (agree_closeBracket (by decide) outer).before ?_
    refine (idle_spanFrom hstart).bind fun span span' hspan => .same ?_
    simp only [Mask.expression, Mask.expressions_eq_map, hbase, hes, hspan]
  refine .ite (by rw [ht.isSymbol (by decide)]) (fun _ => ?_) fun _ => ?_
  · refine ((agree_table hg).weaken fun _ _ => trivial).andThen fun x x' hx => ?_
    refine (idle_spanFrom hstart).bind fun span span' hspan => .same ?_
    simp only [Mask.expression, hbase, hx, hspan]
  split
  next v hkind =>
    have hpass : t.isPassable = true := by simp [isPassable, isEof, isNewline, isDirective, hkind]
    obtain ⟨hvalue, htext, hspan⟩ := Mask.token_inj (ht.akin (isEof_of_isPassable hpass))
    obtain ⟨v', hkind'⟩ := ht.isString.mp ⟨v, hkind⟩
    rw [hkind']
    rw [hkind, hkind', Mask.kind, Mask.kind, TokenKind.string.injEq] at hvalue
    refine (sim_advance_of hpass).before ?_
    refine (idle_spanFrom hstart).bind fun whole whole' hwhole => .same ?_
    simp only [Mask.expression, hbase, hvalue, htext, hspan, hwhole]
  next hother =>
    split
    next v hkind' =>
      obtain ⟨v', hkind⟩ := ht.isString.mpr ⟨v, hkind'⟩
      exact absurd hkind (hother v')
    next => exact sim_missing _

omit [k.Lawful] hbase hg in
theorem member_hidden {key key' : Identifier} (hkey : k.mask.name key = k.mask.name key') :
    k.mask.span ⟨start, key.span.stop⟩ = k.mask.span ⟨start', key'.span.stop⟩ := by
  obtain ⟨-, -, hspan⟩ := Identifier.mk.inj hkey
  simp only [Mask.span, hstart, (Span.mk.inj hspan).2]

theorem agree_suffix : k.Agree (Same k.mask.expression) (g.suffix levels start base)
    (g.suffix levels start' base') := by
  refine .token fun t t' ht => ?_
  refine .ite (by rw [ht.isSymbol (by decide)]) (fun _ => ?_) fun _ => ?_
  · refine ((agree_openBracket (by decide)).weaken fun _ _ => trivial).andThen ?_
    rintro outer _ rfl
    refine (agree_value hg).andThen fun key key' hkey => ?_
    refine (agree_closeBracket (by decide) outer).before ?_
    refine (idle_spanFrom hstart).bind fun span span' hspan => .same ?_
    simp only [Mask.expression, hbase, hkey, hspan]
  refine .iteConsume (by decide) ?_ (.iteConsume (by decide) ?_ (agree_call hg hstart hbase))
  · refine agree_identifier.andThen fun key key' hkey => .same ?_
    simp only [Mask.expression, hbase, hkey, member_hidden hstart hkey]
  · refine agree_identifier.andThen fun key key' hkey => agree_call hg hstart ?_
    simp only [Mask.expression, hbase, hkey, member_hidden hstart hkey]

theorem agree_suffixes : k.Agree (Same k.mask.expression) (g.suffixes start base levels)
    (g.suffixes start' base' levels) := by
  induction levels generalizing base base' with
  | zero =>
    refine .token fun t t' ht => ?_
    exact .ite (by rw [ht.startsSuffix]) (fun _ => sim_tooManyLevels) fun _ => .pure hbase
  | succ levels ih =>
    refine .token fun t t' ht => ?_
    refine .ite (by rw [ht.startsSuffix]) (fun _ => ?_) fun _ => .pure hbase
    exact ((agree_suffix hg hstart hbase).weaken fun _ _ => trivial).andThen fun e e' he => ih he

end Chain

theorem agree_parenthesized : k.Preserves k.mask.expression (g.parenthesized levels) := by
  refine (agree_openBracket (by decide)).andThen ?_
  rintro outer _ rfl
  refine (agree_value hg).andThen fun e e' he => ?_
  exact (agree_closeBracket (by decide) outer).andThen fun _ _ _ => .pure he

omit [k.Lawful] hg in
theorem start_akin {t t' : Token} (h : k.mask.token t = k.mask.token t') :
    k.mask.position t.span.start = k.mask.position t'.span.start := by
  obtain ⟨-, -, hspan⟩ := Mask.token_inj h
  exact (Span.mk.inj hspan).1

theorem agree_chain? : k.Preserves (Option.map k.mask.expression) (g.chain? levels) := by
  cases levels with
  | zero => exact sim_tooManyLevels
  | succ =>
    refine .token fun t t' ht => ?_
    refine .ite (by rw [ht.isIdentifier]) (fun hthis => ?_) fun _ => ?_
    · have hpass := isPassable_of_isIdentifier hthis
      have hstart := start_akin (ht.akin (isEof_of_isPassable hpass))
      refine (agree_identifier.weaken fun _ _ => trivial).andThen fun id id' hid => ?_
      refine (idle_reference hid).bind fun used used' hused => ?_
      refine (agree_suffixes hg hstart (by simp only [Mask.expression, hused])).andThen fun e e' he => .same ?_
      rw [Option.map_some, Option.map_some, he]
    · refine .ite (by rw [ht.isSymbol (by decide)]) (fun hthis => ?_) fun _ => .pure rfl
      have hpass : t.isPassable = true := isPassable_of_is Symbol.leftParen hthis
      have hstart := start_akin (ht.akin (isEof_of_isPassable hpass))
      refine ((agree_parenthesized hg).weaken fun _ _ => trivial).andThen fun inner inner' hinner => ?_
      refine (agree_suffixes hg hstart hinner).andThen fun e e' he => .same ?_
      rw [Option.map_some, Option.map_some, he]

theorem agree_operand? [Balanced k.first g] : k.Preserves (Option.map k.mask.expression) (g.operand? levels) := by
  refine .token fun t t' ht => ?_
  rw [← ht.unaryOp]
  cases hop : UnaryOp.ofToken? t with
  | some =>
    have hpass : t.isPassable = true :=
      isPassable_of (fun kind => (UnaryOp.ofToken? ⟨kind, t.text, t.span⟩).isSome) false
        (by show (UnaryOp.ofToken? t).isSome ≠ false; simp [hop]) rfl rfl rfl
    refine (sim_advance_of hpass).before ?_
    refine (agree_expected (hg.expression levels _)).andThen fun e e' he => ?_
    refine (idle_spanFrom (start_akin (ht.akin (isEof_of_isPassable hpass)))).bind fun span span' hspan => .same ?_
    simp only [Option.map_some, Mask.expression, he, hspan]
  | none =>
    refine ((agree_primary? hg).weaken fun _ _ => trivial).andThen_option (agree_chain? hg) fun e e' he => ?_
    exact .pure (congrArg some he)

/-! ### Operators -/

omit hg in
theorem sim_operatorAbove? {α β : Type} {P : Window → Prop} {V : α → β → Prop} {O : α → Session → Outcome β → Prop}
    {precedence : Nat} {f : Option DyadicOp → Parse α} {f' : Option DyadicOp → Parse β} (hnone : k.Sim P V O (f none) (f' none))
    (hsome : ∀ op, k.Sim (fun w => w.token.isPassable = true) V O (f (some op)) (f' (some op))) :
    k.Sim P V O (operatorAbove? precedence >>= f) (operatorAbove? precedence >>= f') := by
  intro s s' hs hP
  have hrun : ∀ (c : Settings) (s : Session), (operatorAbove? precedence).run c s =
      .ok ((DyadicOp.ofToken? s.window.token).filter (precedence < ·.precedence)) s := fun _ _ => rfl
  rw [run_bind, run_bind, hrun, hrun, Outcome.andThen_ok, Outcome.andThen_ok, ← (meets_token hs).dyadicOp]
  cases hop : (DyadicOp.ofToken? s.window.token).filter (precedence < ·.precedence) with
  | none => exact hnone s s' hs hP
  | some op =>
    refine hsome op s s' hs ?_
    have hthis : DyadicOp.ofToken? s.window.token = some op := (Option.filter_eq_some_iff.mp hop).1
    refine isPassable_of (fun kind => (DyadicOp.ofToken? ⟨kind, s.window.token.text, s.window.token.span⟩).isSome) false
      ?_ rfl rfl rfl
    simp [hthis]

section Operator

variable {start start' : Position} (hstart : k.mask.position start = k.mask.position start') {left left' : Expr}
  (hleft : k.mask.expression left = k.mask.expression left')

include hstart hleft

theorem sim_extend (op : DyadicOp) : k.Sim (fun w => w.token.isPassable = true)
    (Same k.mask.expression) (k.ends False) (g.extend levels start left op)
    (g.extend levels start' left' op) := by
  refine sim_advance.before ?_
  refine (agree_expected (hg.expression levels _)).andThen fun right right' hright => ?_
  refine (idle_spanFrom hstart).bind fun span span' hspan => .same ?_
  rw [Mask.expression_dyadic, Mask.expression_dyadic, hleft, hright, hspan]

theorem agree_moreOperators (precedence : Nat) : k.Agree (Same k.mask.expression)
    (g.moreOperators precedence start left levels) (g.moreOperators precedence start' left' levels) := by
  induction levels generalizing left left' with
  | zero =>
    exact sim_operatorAbove? (.pure hleft) fun _ => sim_tooManyLevels
  | succ levels ih =>
    refine sim_operatorAbove? (.pure hleft) fun op => ?_
    exact (sim_extend hg hstart hleft op).andThen fun e e' he => ih he

end Operator

theorem agree_operators? [Balanced k.first g] (precedence : Nat) : k.Preserves (Option.map k.mask.expression) (g.operators? levels precedence) := by
  cases levels with
  | zero => exact sim_tooManyLevels
  | succ =>
    intro s s' hs _
    unfold operators?
    have hstart := position_token hs
    refine (agree_operand? hg).andThen_option ?_ (fun left left' hleft => ?_) s s' hs trivial
    · exact .pure rfl
    · refine sim_operatorAbove? (.pure (congrArg some hleft)) fun op => ?_
      refine (sim_extend hg hstart hleft op).andThen fun e e' he => ?_
      refine (agree_moreOperators hg hstart he precedence).andThen fun all all' hall => .same ?_
      rw [Option.map_some, Option.map_some, hall]

end Grammar

end CartLua
