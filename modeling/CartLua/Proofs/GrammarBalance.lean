import CartLua.Grammar.Program
import CartLua.Proofs.Balance
/-!
# The grammar is balanced

All parsers of the grammar finish and leave the stacks of the session as they found them, however deep the constructs are
nested and wherever one fails. Every statement passes a token.
-/

namespace CartLua

namespace Grammar

open Parse

variable {c : Settings} {s : Session} {g : Grammar}

section Advance

variable (g : Grammar) (levels : Nat)

theorem spends_fieldStep : Spends c (g.fieldStep levels) := by
  intro s found t hs h
  obtain ⟨_, u, hmark, h⟩ := run_bind_eq_ok.mp h
  obtain ⟨r, v, hfield, h⟩ := run_bind_eq_ok.mp h
  have hu := (reaches hmark).orderly hs
  have hv := (reaches hfield).orderly hu
  have hle : v.remaining c ≤ s.remaining c := (remaining_le hu hfield).trans (remaining_le hs hmark)
  refine lt_of_lt_of_le ?_ hle
  cases r with
  | none =>
    obtain ⟨_, w, _, h⟩ := run_bind_eq_ok.mp h
    cases h
  | some =>
    obtain ⟨comma, w, hcomma, h⟩ := run_bind_eq_ok.mp h
    cases comma with
    | true =>
      cases h
      exact remaining_consume_lt hcomma
    | false =>
      obtain ⟨semicolon, x, hsemicolon, hpure⟩ := run_bind_eq_ok.mp h
      cases hpure
      exact (remaining_consume_lt hsemicolon).trans_le (remaining_le hv hcomma)

theorem spends_parameterStep : Spends c parameterStep := by
  intro s found t hs h
  obtain ⟨k, u, htoken, h⟩ := run_bind_eq_ok.mp h
  cases htoken
  rw [run_ite, run_ite] at h
  split_ifs at h with hname hvararg
  · obtain ⟨id, u, hid, h⟩ := run_bind_eq_ok.mp h
    have hlt := Advances.remaining_lt hs (Token.isEof_of_isIdentifier hname) hid
    exact (remaining_le ((reaches hid).orderly hs) h).trans_lt hlt
  · obtain ⟨_, u, hallow, h⟩ := run_bind_eq_ok.mp h
    obtain ⟨_, v, hadvance, h⟩ := run_bind_eq_ok.mp h
    obtain ⟨_, w, hexpect, h⟩ := run_bind_eq_ok.mp h
    cases h
  · cases h

instance : Advances c (g.parenthesized levels) := by
  unfold parenthesized
  infer_instance

instance : Advances c (g.leftExpression levels) := by
  unfold leftExpression
  infer_instance

theorem remaining_leftExpression_lt {t : Session} {side : LeftSide} (hs : s.Orderly c)
    (h : (g.leftExpression levels).run c s = .ok side t) : t.remaining c < s.remaining c := by
  cases heof : s.window.token.isEof with
  | false => exact Advances.remaining_lt hs heof h
  | true =>
    obtain ⟨k, u, htoken, h⟩ := run_bind_eq_ok.mp h
    cases htoken
    rw [run_ite, run_ite] at h
    split_ifs at h with hname hparen
    · rw [Token.isEof_of_isIdentifier hname] at heof
      cases heof
    · have his : s.window.token.is (.symbol .leftParen) = true := hparen
      rw [Token.isEof_of_is his] at heof
      cases heof
    · cases h

instance : Advances c labelStatement := by
  unfold labelStatement
  infer_instance

instance : Advances c breakStatement := by
  unfold breakStatement
  infer_instance

instance : Advances c gotoStatement := by
  unfold gotoStatement
  infer_instance

instance : Advances c (g.returnStatement levels) := by
  unfold returnStatement
  infer_instance

instance : Advances c (g.doStatement levels) := by
  unfold doStatement
  infer_instance

instance : Advances c (g.whileStatement levels) := by
  unfold whileStatement
  infer_instance

instance : Advances c (g.repeatStatement levels) := by
  unfold repeatStatement
  infer_instance

instance : Advances c (g.forStatement levels) := by
  unfold forStatement
  infer_instance

instance : Advances c (g.ifStatement levels) := by
  unfold ifStatement
  infer_instance

instance : Advances c (g.localStatement levels) := by
  unfold localStatement
  infer_instance

instance : Advances c (g.functionStatement levels) := by
  unfold functionStatement
  infer_instance

instance : Advances c (g.printStatement levels) := by
  unfold printStatement
  infer_instance

instance (rounds : Nat) : Advances c (g.leftRounds levels rounds) := by
  cases rounds with
  | zero => exact inferInstanceAs (Advances c exhausted)
  | succ =>
    unfold leftRounds
    infer_instance

instance : Advances c (g.leftSide levels) := by
  unfold leftSide
  infer_instance

instance : Advances c (g.assignmentOrCall levels) := by
  unfold assignmentOrCall
  infer_instance

instance : Advances c (g.properStatement levels) := by
  unfold properStatement
  refine @Advances.instBindRight _ _ _ _ _ fun t => ?_
  split <;> infer_instance

instance : Advances c (g.anyStatement levels) where
  remaining_lt {s a t} hs heof h := by
    cases levels with
    | zero => cases h
    | succ =>
      obtain ⟨k, u, htoken, h⟩ := run_bind_eq_ok.mp h
      cases htoken
      split at h
      next hkind =>
        obtain ⟨stmt, hinclude, -⟩ := run_map_eq_ok.mp h
        obtain ⟨k, u, htoken, hinclude⟩ := run_bind_eq_ok.mp hinclude
        cases htoken
        obtain ⟨_, v, hpass, hpure⟩ := run_bind_eq_ok.mp hinclude
        cases hpure
        simp only [Parse.passInclude, hkind] at hpass
        cases hpass
        exact (Session.passInclude_orderly hs heof).2
      · exact Advances.remaining_lt hs heof h
      · exact Advances.remaining_lt hs heof h
      · exact Advances.remaining_lt hs heof h

end Advance

/-- All parts of a grammar are balanced, and its statements pass a token. -/
class Balanced (c : Settings) (g : Grammar) : Prop where
  expression : ∀ levels precedence, Parse.Balanced c (g.expression levels precedence)
  statement : ∀ levels, Parse.Balanced c (g.statement levels)
  advances : ∀ levels, Advances c (g.statement levels)

attribute [instance] Balanced.expression Balanced.statement Balanced.advances

variable [Balanced c g] (levels : Nat)

-- A parser with many parts needs an instance for each.
set_option synthInstance.maxSize 100000

instance : Parse.Balanced c (g.block levels) := inferInstanceAs (Parse.Balanced c (Parse.block _))

/-! ### Expressions -/

instance (p : Parse (Option Expr)) [Parse.Balanced c p] : Parse.Balanced c (expected p) := by
  unfold expected
  refine .bind fun r => ?_
  split <;> infer_instance

instance : Parse.Balanced c (g.value levels) := inferInstanceAs (Parse.Balanced c (expected _))

instance : Parse.Balanced c (g.valueBehindComma? levels) := by
  unfold valueBehindComma?
  infer_instance

instance : Parse.Balanced c (g.moreValues levels) := .many_comma (g.value levels)

instance : Parse.Balanced c (g.values levels) := by
  unfold values
  infer_instance

instance : Parse.Balanced c (g.optionalValues levels) := by
  unfold optionalValues
  refine .bind fun r => ?_
  split <;> infer_instance

instance : Parse.Balanced c (g.fieldStep levels) := by
  unfold fieldStep field?
  refine .mark fun start => ?_
  simp only [bind_assoc]
  refine .bind fun keyed => ?_
  split
  · simp only [bind_assoc, pure_bind]
    infer_instance
  · simp only [bind_assoc]
    refine .bind fun t => ?_
    refine .bind fun u => ?_
    split
    · simp only [bind_assoc, pure_bind]
      infer_instance
    · simp only [bind_assoc]
      refine .bind fun r => ?_
      cases r <;> simp only [bind_assoc, pure_bind] <;> infer_instance

instance : Parse.Balanced c (g.table levels) := by
  have hfields := Parse.Balanced.collect (spends_fieldStep (c := c) g levels)
  unfold table
  infer_instance

/-! ### Functions -/

instance : Parse.Balanced c parameterStep := by
  unfold parameterStep
  infer_instance

instance : Parse.Balanced c parameters := by
  unfold parameters
  have hparameters := Parse.Balanced.collect (spends_parameterStep (c := c))
  infer_instance

instance (isMethod : Bool) : Parse.Balanced c (declareSelf isMethod) := by
  unfold declareSelf
  infer_instance

/-- The body of a function opens all stacks, and closes the construct that the function is. -/
instance (isMethod : Bool) (start : Position) (opened : List Opened) :
    Steps c (g.functionBody levels isMethod) ⟨.construct start :: opened, none⟩ ⟨opened, none⟩ := by
  unfold functionBody
  infer_instance

/-! ### Operands and operators -/

instance (t : Token) : Parse.Balanced c (checkVararg t) := by
  unfold checkVararg
  infer_instance

instance : Parse.Balanced c (g.primary? levels) := by
  unfold primary?
  refine .bind fun t => ?_
  split <;> infer_instance

instance (start : Position) (base : Expr) : Parse.Balanced c (g.call levels start base) := by
  unfold call
  refine .bind fun t => ?_
  repeat' split
  all_goals infer_instance

instance (start : Position) (base : Expr) : Parse.Balanced c (g.suffix levels start base) := by
  unfold suffix
  infer_instance

instance (start : Position) (base : Expr) : Parse.Balanced c (g.suffixes start base levels) := by
  induction levels generalizing base with
  | zero | succ =>
    unfold suffixes
    infer_instance

instance : Parse.Balanced c (g.parenthesized levels) := by
  unfold parenthesized
  infer_instance

instance : Parse.Balanced c (g.chain? levels) := by
  unfold chain?
  split <;> infer_instance

instance : Parse.Balanced c (g.operand? levels) := by
  unfold operand?
  refine .bind fun t => ?_
  split
  · infer_instance
  · refine .bind fun r => ?_
    split <;> infer_instance

instance (precedence : Nat) : Parse.Balanced c (operatorAbove? precedence) := by
  unfold operatorAbove?
  infer_instance

instance (start : Position) (left : Expr) (op : DyadicOp) : Parse.Balanced c (g.extend levels start left op) := by
  unfold extend
  infer_instance

instance (precedence : Nat) (start : Position) (left : Expr) :
    Parse.Balanced c (g.moreOperators precedence start left levels) := by
  induction levels generalizing left with
  | zero | succ =>
    unfold moreOperators
    refine .bind fun r => ?_
    split <;> infer_instance

instance (precedence : Nat) : Parse.Balanced c (g.operators? levels precedence) := by
  cases levels with
  | zero => exact inferInstanceAs (Parse.Balanced c tooManyLevels)
  | succ =>
    unfold operators?
    refine .bind fun t => ?_
    refine .bind fun r => ?_
    split
    · infer_instance
    · refine .bind fun op => ?_
      split <;> infer_instance

/-! ### Blocks and loops -/

instance (isLoop : Bool) : Parse.Balanced c (g.scopedBlock levels isLoop) := by
  unfold scopedBlock
  infer_instance

instance : Parse.Balanced c includeLine := by
  unfold includeLine
  infer_instance

instance : Parse.Balanced c labelStatement := by
  unfold labelStatement
  infer_instance

instance (keyword : Span) : Parse.Balanced c (checkBreak keyword) := by
  unfold checkBreak
  infer_instance

instance : Parse.Balanced c breakStatement := by
  unfold breakStatement
  infer_instance

instance : Parse.Balanced c gotoStatement := by
  unfold gotoStatement
  infer_instance

instance : Parse.Balanced c (g.returnStatement levels) := by
  unfold returnStatement
  infer_instance

instance : Parse.Balanced c (g.doStatement levels) := by
  unfold doStatement
  infer_instance

instance : Parse.Balanced c (g.whileStatement levels) := by
  unfold whileStatement
  infer_instance

instance : Parse.Balanced c (g.repeatStatement levels) := by
  unfold repeatStatement
  infer_instance

instance (opened : List Opened) : Steps c (g.forBody levels) ⟨.scope :: .block :: opened, none⟩ ⟨opened, none⟩ := by
  unfold forBody
  infer_instance

instance (name : Parse Identifier) [Parse.Balanced c name] : Parse.Balanced c (moreNames name) := .many_comma name

instance : Parse.Balanced c (g.forStatement levels) := by
  unfold forStatement
  infer_instance

/-! ### Branches -/

instance : Parse.Balanced c (g.elseIfClauses levels) := by
  refine .many ?_
  intro s a t hs h
  obtain ⟨k, u, htoken, h⟩ := run_bind_eq_ok.mp h
  cases htoken
  rw [run_ite] at h
  split_ifs at h with hkeyword
  · have his : s.window.token.is (.keyword .elseifKw) = true := hkeyword
    exact Advances.remaining_lt hs (Token.isEof_of_is his) h
  · cases h

instance (body : Parse Block) [Parse.Balanced c body] : Parse.Balanced c (elseClause body) := by
  unfold elseClause
  infer_instance

section

variable (opened : List Opened) (shown : Option (Option Bool))

/-- The last clause of an if statement on one line may be a block over several lines. Line ends are not shown behind it
then. -/
instance : Steps c (g.oneLineElse levels) ⟨opened, shown⟩ ⟨opened, some none⟩ := by
  unfold oneLineElse
  refine .bind fun t => ?_
  split
  · exact .forget (b := some false) inferInstance
  · exact .forget (b := shown) inferInstance

instance : Steps c (elseClause (g.oneLineElse levels)) ⟨opened, shown⟩ ⟨opened, some none⟩ := by
  unfold elseClause
  refine .bind fun t => ?_
  split
  · infer_instance
  · exact .forget (b := shown) inferInstance

end

instance (start : Position) (condition : Expr) :
    Steps c (g.oneLineIf levels condition) { opened := [.construct start, .construct start] } {} := by
  unfold oneLineIf
  infer_instance

instance (start : Position) (condition : Expr) :
    Steps c (g.blockIf levels condition) { opened := [.construct start, .construct start] } {} := by
  unfold blockIf
  infer_instance

instance : Parse.Balanced c (g.ifStatement levels) := by
  unfold ifStatement
  infer_instance

/-! ### Declarations -/

instance : Parse.Balanced c localName := by
  unfold localName
  infer_instance

instance : Parse.Balanced c (g.initialValues levels) := by
  unfold initialValues
  infer_instance

instance (start : Position) : Steps c (g.localVariables levels) { opened := [.construct start] } {} := by
  unfold localVariables
  infer_instance

instance : Parse.Balanced c (g.localStatement levels) := by
  unfold localStatement
  infer_instance

instance (name : Expr) (indexer : Indexer) : Parse.Balanced c (functionKey name indexer) := by
  unfold functionKey
  infer_instance

theorem finishesIn_functionKeyRounds (n : Nat) (name : Expr) : FinishesIn c n (functionKeyRounds name n) := by
  induction n generalizing name with
  | zero => exact FinishesIn.zero _
  | succ n ih =>
    refine FinishesIn.round ?_
    rintro (_ | _)
    · exact .inl (inferInstanceAs (Parse.Finishes c (pure name)))
    · refine .inr ⟨(Parse.Finishes.finishesIn inferInstance n).bind ih, ?_⟩
      exact fun s t _ hrun => remaining_consume_lt hrun

instance (name : Expr) (rounds : Nat) : Neat c (functionKeyRounds name rounds) := by
  induction rounds generalizing name with
  | zero | succ =>
    unfold functionKeyRounds
    infer_instance

instance (name : Expr) : Parse.Balanced c (functionKeys name) where
  toNeat := inferInstanceAs (Neat c (settings >>= fun c => functionKeyRounds name c.rounds))
  toFinishes := FinishesIn.finishes (finishesIn_functionKeyRounds c.rounds name)

instance : Parse.Balanced c functionName := by
  unfold functionName
  infer_instance

instance : Parse.Balanced c (g.functionStatement levels) := by
  unfold functionStatement
  infer_instance

/-! ### Assignments and calls -/

instance : Parse.Balanced c (g.printStatement levels) := by
  unfold printStatement
  infer_instance

instance (start : Position) (base : Expr) (ending : Ending) :
    Parse.Balanced c (g.leftSuffixes start base ending levels) := by
  induction levels generalizing base ending with
  | zero =>
    unfold leftSuffixes
    infer_instance
  | succ =>
    unfold leftSuffixes
    refine .bind fun t => ?_
    split <;> infer_instance

instance : Parse.Balanced c (g.leftExpression levels) := by
  unfold leftExpression
  infer_instance

theorem finishesIn_leftRounds (n : Nat) : FinishesIn c n (g.leftRounds levels n) := by
  induction n generalizing levels with
  | zero => exact FinishesIn.zero _
  | succ n ih =>
    refine FinishesIn.round fun side => .inr ⟨?_, fun s t hs hrun => remaining_leftExpression_lt g levels hs hrun⟩
    refine (Parse.Finishes.finishesIn inferInstance n).bind fun k => ?_
    split_ifs
    · exact Parse.Finishes.finishesIn inferInstance n
    · exact Parse.Finishes.finishesIn inferInstance n
    · refine (Parse.Finishes.finishesIn inferInstance n).bind fun _ => ?_
      exact (ih side.levels).bind fun more => Parse.Finishes.finishesIn inferInstance n

instance (rounds : Nat) : Neat c (g.leftRounds levels rounds) := by
  induction rounds generalizing levels with
  | zero | succ =>
    unfold leftRounds
    infer_instance

instance : Parse.Balanced c (g.leftSide levels) where
  toNeat := inferInstanceAs (Neat c (settings >>= fun c => g.leftRounds levels c.rounds))
  toFinishes := FinishesIn.finishes (finishesIn_leftRounds levels c.rounds)

instance (op : AssignOp) : Parse.Balanced c (g.assignedValues levels op) := by
  unfold assignedValues
  infer_instance

instance (side : LeftSide) (start : Position) : Steps c (g.assignment side) { opened := [.construct start] } {} := by
  unfold assignment
  refine .bind fun t => ?_
  split <;> infer_instance

instance : Parse.Balanced c (g.assignmentOrCall levels) := by
  unfold assignmentOrCall
  refine .mark fun start => .bind fun side => ?_
  split <;> infer_instance

/-! ### All statements -/

instance : Parse.Balanced c (g.properStatement levels) := by
  unfold properStatement
  refine .bind fun t => ?_
  split <;> infer_instance

instance : Parse.Balanced c (g.anyStatement levels) := by
  cases levels with
  | zero => exact inferInstanceAs (Parse.Balanced c tooManyLevels)
  | succ =>
    unfold anyStatement
    refine .bind fun t => ?_
    split <;> infer_instance

end Grammar

instance balanced_grammar {c : Settings} (depth : Nat) : Grammar.Balanced c (grammar depth) := by
  induction depth with
  | zero => exact ⟨fun _ _ => inferInstanceAs (Parse.Balanced c Parse.tooManyLevels),
      fun _ => inferInstanceAs (Parse.Balanced c Parse.tooManyLevels),
      fun _ => inferInstanceAs (Parse.Advances c Parse.tooManyLevels)⟩
  | succ depth => exact ⟨fun levels precedence => inferInstanceAs
      (Parse.Balanced c ((grammar depth).operators? levels precedence)),
      fun levels => inferInstanceAs (Parse.Balanced c ((grammar depth).anyStatement levels)),
      fun levels => inferInstanceAs (Parse.Advances c ((grammar depth).anyStatement levels))⟩

end CartLua
