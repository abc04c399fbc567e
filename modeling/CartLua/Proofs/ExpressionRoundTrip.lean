import CartLua.Proofs.Facing
/-!
# Reading rendered expressions

A parser that faces a rendered expression gives the expression again, provided that what follows does not go on with it.
Chains and operators are read from their left end, so the claims about them say what holds once a part has been read.
-/

namespace CartLua

open Parse Session List

/-! ### What may follow an expression -/

/-- No suffix follows, and no operator that binds more tightly than `precedence`. -/
def Stops (precedence : Nat) : List Spelling → Prop
  | [] => False
  | first :: _ =>
    Grammar.startsSuffix first.token = false ∧ ∀ op ∈ DyadicOp.ofToken? first.token, op.precedence ≤ precedence

namespace Stops

variable {p q : Nat} {first : Spelling} {rest : List Spelling}

theorem mono (h : Stops p rest) (hle : p ≤ q) : Stops q rest := by
  cases rest with
  | nil => exact h
  | cons => exact ⟨h.1, fun op hop => (h.2 op hop).trans hle⟩

theorem of_none (hsuffix : Grammar.startsSuffix first.token = false) (hop : DyadicOp.ofToken? first.token = none) :
    Stops p (first :: rest) := by
  refine ⟨hsuffix, fun op hmem => ?_⟩
  rw [hop] at hmem
  cases hmem

end Stops

/-! ### Strength of operators -/

namespace DyadicOp

variable (op : DyadicOp)

theorem precedence_pos : 0 < op.precedence := by
  obtain op | op := op <;> cases op <;> decide

theorem precedence_le : op.precedence ≤ 12 := by
  obtain op | op := op <;> cases op <;> decide

theorem precedence_ne : op.precedence ≠ 11 := by
  obtain op | op := op <;> cases op <;> decide

theorem rightPrecedence_eq :
    op.rightPrecedence = if op.precedence = 12 ∨ op.precedence = 8 then op.precedence - 1 else op.precedence := by
  obtain op | op := op <;> cases op <;> decide

theorem leftPrecedence_eq :
    op.leftPrecedence = if op.precedence = 12 ∨ op.precedence = 8 then op.precedence else op.precedence - 1 := by
  obtain op | op := op <;> cases op <;> decide

theorem rightPrecedence_le : op.rightPrecedence ≤ 11 := by
  obtain op | op := op <;> cases op <;> decide

theorem ofToken?_dyadic : ofToken? (Render.dyadic op).token = some op := by
  obtain op | op := op <;> cases op <;> rfl

theorem startsSuffix_dyadic : Grammar.startsSuffix (Render.dyadic op).token = false := by
  obtain op | op := op <;> cases op <;> rfl

theorem stops_dyadic {rest : List Spelling} : Stops 12 (Render.dyadic op :: rest) := by
  refine ⟨op.startsSuffix_dyadic, fun next hnext => ?_⟩
  exact next.precedence_le

end DyadicOp

namespace Expr

variable {e left right : Expr} {op : DyadicOp} {span : Span} {p : Nat} {rest : List Spelling}

@[simp] theorem dyadicOp?_dyadic : (Expr.dyadic op left right span).dyadicOp? = some op := by
  cases op <;> rfl

theorem dyadic_or (e : Expr) : (∃ op left right span, e = .dyadic op left right span) ∨ e.dyadicOp? = none := by
  cases e with
  | binary op left right span => exact .inl ⟨.binary op, left, right, span, rfl⟩
  | logical op left right span => exact .inl ⟨.logical op, left, right, span, rfl⟩
  | _ => exact .inr rfl

/-- The strength that an operator behind the expression must not exceed, so that it is not taken by its last operand. -/
def openness (e : Expr) : Nat :=
  match e.dyadicOp? with
  | some op => op.rightPrecedence
  | none => if e.isUnary then UnaryOp.operandPrecedence else 12

theorem openness_dyadic : (Expr.dyadic op left right span).openness = op.rightPrecedence := by
  simp [openness]

theorem sizeOf_left (op : DyadicOp) (left right : Expr) (span : Span) : sizeOf left < sizeOf (Expr.dyadic op left right span) := by
  cases op with
  | binary =>
    rw [dyadic, Expr.binary.sizeOf_spec]
    omega
  | logical =>
    rw [dyadic, Expr.logical.sizeOf_spec]
    omega

theorem isLooser_dyadic : (Expr.dyadic op left right span).isLooser p = decide (op.precedence ≤ p) := by
  simp [isLooser]

theorem isLooser_of_none (h : e.dyadicOp? = none) : e.isLooser p = false := by
  simp [isLooser, h]

theorem isLooser_zero (e : Expr) : e.isLooser 0 = false := by
  obtain ⟨op, left, right, span, rfl⟩ | h := e.dyadic_or
  · have := op.precedence_pos
    rw [isLooser_dyadic, decide_eq_false_iff_not]
    omega
  · exact isLooser_of_none h

theorem stops_openness (h : Stops p rest) (hp : p ≤ 11) (hstrong : e.isLooser p = false) : Stops e.openness rest := by
  cases rest with
  | nil => exact h
  | cons =>
    refine ⟨h.1, fun next hnext => ?_⟩
    have hle := h.2 next hnext
    have hne := next.precedence_ne
    obtain ⟨op, left, right, span, rfl⟩ | hnone := e.dyadic_or
    · rw [isLooser_dyadic, decide_eq_false_iff_not] at hstrong
      simp only [openness, dyadicOp?_dyadic, op.rightPrecedence_eq]
      split <;> omega
    · simp only [openness, hnone, UnaryOp.operandPrecedence]
      split <;> omega

/-- The operator behind a left operand is not taken by the last part of the operand. -/
theorem stops_left {tail : List Spelling} (h : left.isLooserThan op = false) :
    Stops left.openness (Render.dyadic op :: tail) := by
  refine ⟨op.startsSuffix_dyadic, fun next hnext => ?_⟩
  rw [op.ofToken?_dyadic, Option.mem_some_iff] at hnext
  subst hnext
  obtain ⟨hloose, hunary⟩ := Bool.or_eq_false_iff.mp h
  have hmax := op.precedence_le
  obtain ⟨other, left, right, span, rfl⟩ | hnone := left.dyadic_or
  · rw [isLooser_dyadic, decide_eq_false_iff_not, op.leftPrecedence_eq] at hloose
    simp only [openness, dyadicOp?_dyadic, other.rightPrecedence_eq]
    split at hloose <;> split <;> omega
  · simp only [openness, hnone]
    split
    next hun =>
      rw [hun, Bool.true_and, decide_eq_false_iff_not] at hunary
      omega
    · exact hmax

theorem isLooser_left (h : left.isLooserThan op = false) (hp : p < op.precedence) : left.isLooser p = false := by
  obtain ⟨hloose, -⟩ := Bool.or_eq_false_iff.mp h
  obtain ⟨other, left, right, span, rfl⟩ | hnone := left.dyadic_or
  · rw [isLooser_dyadic, decide_eq_false_iff_not, op.leftPrecedence_eq] at hloose
    rw [isLooser_dyadic, decide_eq_false_iff_not]
    split at hloose <;> omega
  · exact isLooser_of_none hnone

theorem isPrefix_of_isLooser (h : e.isLooser p = true) : e.isPrefix = false := by
  cases e with
  | binary | logical => rfl
  | _ => cases h

theorem isPrefix_of_isLooserThan (h : e.isLooserThan op = true) : e.isPrefix = false := by
  obtain hloose | hunary := Bool.or_eq_true_iff.mp h
  · exact isPrefix_of_isLooser hloose
  · cases e with
    | unary => rfl
    | _ => cases hunary

theorem isPrefix_of_isTarget (h : e.isTarget = true) : e.isPrefix = true := by
  cases e with
  | name | member | index => rfl
  | _ => cases h

theorem isPrefix_of_isCall (h : e.isCall = true) : e.isPrefix = true := by
  cases e with
  | call | tableCall | stringCall => rfl
  | _ => cases h

/-- The expression at the start of a chain of suffixes. -/
def chainRoot : Expr → Expr
  | .member base .. | .index base .. | .call base .. | .tableCall base .. | .stringCall base .. => base.chainRoot
  | e => e

end Expr

/-! ### Tokens of expressions -/

namespace Render

def trail : Expr → List Spelling
  | .member base ix key _ => trail base ++ [indexer ix, name key]
  | .index base key _ => trail base ++ sign .leftBracket :: expression key ++ [sign .rightBracket]
  | .call base arguments _ => trail base ++ sign .leftParen :: expressions arguments ++ [sign .rightParen]
  | .tableCall base argument _ => trail base ++ table argument
  | .stringCall base argument _ => trail base ++ expression argument
  | _ => []

/-- The tokens before the suffixes of a chain: a name, or anything else in parentheses. -/
def root (e : Expr) : List Spelling := parens (!e.chainRoot.isPrefix) (expression e.chainRoot)

theorem parens_eq_root (e : Expr) : parens (!e.isPrefix) (expression e) = root e ++ trail e := by
  cases e with
  | member base | tableCall base | stringCall base =>
    rw [expression, trail, parens_eq_root base, append_assoc]
    rfl
  | index base | call base =>
    rw [expression, trail, parens_eq_root base]
    simp only [append_assoc]
    rfl
  | name | string | number | boolean | nil | vararg | binary | logical | unary | table | function =>
    exact (append_nil _).symm

theorem expression_eq_root {e : Expr} (h : e.isPrefix = true) : expression e = root e ++ trail e := by
  rw [← parens_eq_root e, h]
  rfl

theorem chainRoot_isPrefix (e : Expr) (h : e.chainRoot.isPrefix = true) : ∃ id, e.chainRoot = .name id := by
  cases e with
  | name id => exact ⟨id, rfl⟩
  | member base | index base | call base | tableCall base | stringCall base => exact chainRoot_isPrefix base h
  | string | number | boolean | nil | vararg | binary | logical | unary | table | function => cases h

theorem root_cases (e : Expr) :
    (∃ id, e.chainRoot = .name id ∧ root e = [name id]) ∨
      e.chainRoot.isPrefix = false ∧ root e = sign .leftParen :: expression e.chainRoot ++ [sign .rightParen] := by
  cases hroot : e.chainRoot.isPrefix with
  | true =>
    obtain ⟨id, hid⟩ := chainRoot_isPrefix e hroot
    refine .inl ⟨id, hid, ?_⟩
    rw [root, hid, expression]
    rfl
  | false =>
    refine .inr ⟨rfl, ?_⟩
    rw [root, hroot]
    rfl

/-! ### First tokens -/

/-- A token that an expression can start with, as far as other constructs start with other tokens. -/
structure Opens (first : Spelling) : Prop where
  eof : first.token.isEof = false
  bracket : first.token.isSymbol .leftBracket = false
  assign : first.token.isSymbol .assign = false

variable {first : Spelling}

theorem opens_dyadic (op : DyadicOp) : (dyadic op).token.isSymbol .assign = false := by
  obtain op | op := op <;> cases op <;> rfl

theorem exists_head_root (e : Expr) :
    ∃ first tail, root e = first :: tail ∧ (first.kind = .identifier ∨ first.kind = .symbol .leftParen) := by
  obtain ⟨id, -, hroot⟩ | ⟨-, hroot⟩ := root_cases e
  · exact ⟨name id, [], hroot, .inl rfl⟩
  · exact ⟨sign .leftParen, _, hroot, .inr rfl⟩

theorem exists_head_prefix {e : Expr} (h : e.isPrefix = true) :
    ∃ first tail, expression e = first :: tail ∧ (first.kind = .identifier ∨ first.kind = .symbol .leftParen) := by
  obtain ⟨first, tail, hroot, hfirst⟩ := exists_head_root e
  refine ⟨first, tail ++ trail e, ?_, hfirst⟩
  rw [expression_eq_root h, hroot, cons_append]

theorem exists_head (e : Expr) : ∃ first tail, expression e = first :: tail ∧ Opens first := by
  have hprefix : e.isPrefix = true → ∃ first tail, expression e = first :: tail ∧ Opens first := by
    intro h
    obtain ⟨first, tail, heq, hfirst⟩ := exists_head_prefix h
    refine ⟨first, tail, heq, ?_⟩
    obtain ⟨kind, text⟩ := first
    obtain rfl | rfl := hfirst <;> exact ⟨rfl, rfl, rfl⟩
  cases e with
  | name | member | index | call | tableCall | stringCall => exact hprefix rfl
  | string | number | boolean | nil | vararg | function => exact ⟨_, _, rfl, rfl, rfl, rfl⟩
  | binary op left | logical op left =>
    obtain ⟨first, tail, hleft, hfirst⟩ := exists_head left
    rw [expression, hleft, parens]
    split
    · exact ⟨_, _, rfl, rfl, rfl, rfl⟩
    · exact ⟨_, _, rfl, hfirst⟩
  | unary op => cases op <;> exact ⟨_, _, rfl, rfl, rfl, rfl⟩
  | table t =>
    obtain ⟨fs, span⟩ := t
    exact ⟨_, _, rfl, rfl, rfl, rfl⟩

theorem length_expression_pos (e : Expr) : 0 < (expression e).length := by
  obtain ⟨first, tail, heq, -⟩ := exists_head e
  rw [heq]
  exact Nat.succ_pos _

theorem parens_false (ws : List Spelling) : parens false ws = ws := rfl

theorem length_parens_pos (needed : Bool) (e : Expr) : 0 < (parens needed (expression e)).length := by
  cases needed with
  | true => exact Nat.succ_pos _
  | false => exact length_expression_pos e

def Unassigned (ws : List Spelling) : Prop := ∀ first ∈ ws.head?, first.token.isSymbol .assign = false

variable {rest : List Spelling}

theorem unassigned_cons (h : first.token.isSymbol .assign = false) : Unassigned (first :: rest) := by
  intro other hother
  cases hother
  exact h

theorem unassigned_trail (e : Expr) {rest : List Spelling} (h : Unassigned rest) : Unassigned (trail e ++ rest) := by
  cases e with
  | member base ix =>
    rw [trail, append_assoc]
    exact unassigned_trail base (unassigned_cons (by cases ix <;> rfl))
  | index base | call base =>
    rw [trail, append_assoc, append_assoc]
    exact unassigned_trail base (unassigned_cons rfl)
  | tableCall base argument span =>
    obtain ⟨fs, span⟩ := argument
    rw [trail, table, append_assoc]
    exact unassigned_trail base (unassigned_cons rfl)
  | stringCall base argument =>
    obtain ⟨first, tail, hargument, hfirst⟩ := exists_head argument
    rw [trail, hargument, append_assoc]
    exact unassigned_trail base (unassigned_cons hfirst.assign)
  | name | string | number | boolean | nil | vararg | binary | logical | unary | table | function => exact h

/-- The tokens do not start with a name before an equal sign. -/
def IsUnnamed : List Spelling → Prop
  | [] => True
  | first :: rest => first.token.isIdentifier = true → Unassigned rest

theorem isUnnamed_cons (h : first.token.isIdentifier = false) : IsUnnamed (first :: rest) :=
  fun hid => absurd (h.symm.trans hid) Bool.false_ne_true

theorem isUnnamed_parens {needed : Bool} {ws : List Spelling} (h : IsUnnamed (ws ++ rest)) :
    IsUnnamed (parens needed ws ++ rest) := by
  cases needed with
  | true => exact isUnnamed_cons rfl
  | false => exact h

theorem isUnnamed_expression (e : Expr) {rest : List Spelling} (h : Unassigned rest) :
    IsUnnamed (expression e ++ rest) := by
  have hprefix : e.isPrefix = true → IsUnnamed (expression e ++ rest) := by
    intro hp
    rw [expression_eq_root hp, append_assoc]
    obtain ⟨id, -, hroot⟩ | ⟨-, hroot⟩ := root_cases e
    · rw [hroot]
      exact fun _ => unassigned_trail e h
    · rw [hroot]
      exact isUnnamed_cons rfl
  cases e with
  | name | member | index | call | tableCall | stringCall => exact hprefix rfl
  | string | number | boolean | nil | vararg | function => exact isUnnamed_cons rfl
  | binary op left | logical op left =>
    rw [expression, append_assoc]
    exact isUnnamed_parens (isUnnamed_expression left (unassigned_cons (opens_dyadic _)))
  | unary op =>
    refine isUnnamed_cons ?_
    cases op <;> rfl
  | table t =>
    obtain ⟨fs, span⟩ := t
    exact isUnnamed_cons rfl

end Render

/-! ### What a grammar gives back -/

/-- Whether no expression starts with a token. -/
def Token.startsNothing (t : Token) : Bool :=
  (UnaryOp.ofToken? t).isNone && (Grammar.literal? t).isNone && !t.isKeyword .functionKw && !t.isSymbol .leftBrace &&
    !t.isIdentifier && !t.isSymbol .leftParen

def Closes : List Spelling → Prop
  | [] => False
  | first :: _ => first.token.closesBlock = true

/-- The end of a block or a semicolon comes first. -/
def Separates : List Spelling → Prop
  | [] => False
  | first :: _ => first.token.closesBlock = true ∨ first.kind = .symbol .semicolon

/-- Rendered constructs of less than `depth` levels are read again, unless the levels are fewer than their tokens may
need. -/
structure Grammar.Rereads (mode : Encoding) (c : Settings) (depth : Nat) (g : Grammar) : Prop where
  expression : ∀ {e : Expr} {levels precedence : Nat} {rest : List Spelling}, levels < depth → precedence ≤ 11 →
    WellFormed.expression mode false e → Stops precedence rest →
      Finds c (levels < 2 * (Render.parens (e.isLooser precedence) (Render.expression e)).length)
        (Render.parens (e.isLooser precedence) (Render.expression e) ++ rest) (g.expression levels precedence)
        Bare.expression e rest
  absent : ∀ {levels precedence : Nat} {first : Spelling} {rest : List Spelling}, levels < depth →
    first.token.startsNothing = true →
      Yields c (levels < 2) (first :: rest) (g.expression levels precedence) (· = none) (first :: rest)
  statement : ∀ {stmt : Stmt} {levels : Nat} {rest : List Spelling}, levels < depth →
    WellFormed.statement mode stmt → Separates rest → (stmt.isReturn = true → Closes rest) →
      Finds c (levels ≤ 2 * (Render.statement stmt).length) (Render.statement stmt ++ rest) (g.statement levels)
        Bare.statement stmt rest
  empty : ∀ {levels : Nat} {rest : List Spelling}, levels < depth →
    Yields c (levels < 1) (Render.sign .semicolon :: rest) (g.statement levels) (· = none) rest

namespace Grammar

variable {statement : Parse (Option Stmt)}

variable {mode : Encoding} {c : Settings} {depth levels : Nat} {g : Grammar} {e : Expr} {es : List Expr} {first : Spelling}
  {ws rest out : List Spelling} {lack : Prop} {ps : List Parameter} {body : Block} {stmt : Stmt}

theorem regains_expected {p : Parse (Option Expr)} (h : Finds c lack ws p Bare.expression e rest) :
    Regains c lack ws (expected p) Bare.expression e rest := by
  refine h.bind ?_
  rintro _ ⟨read, rfl, hread⟩
  exact .pure hread

theorem Rereads.unparenthesized (hg : g.Rereads mode c depth) (hl : levels < depth) (he : WellFormed.expression mode false e)
    (hrest : Stops 0 rest) :
    Finds c (levels < 2 * (Render.expression e).length) (Render.expression e ++ rest) (g.expression levels 0)
      Bare.expression e rest := by
  have hread := hg.expression hl (Nat.zero_le 11) he hrest
  rwa [e.isLooser_zero] at hread

theorem regains_value (hg : g.Rereads mode c depth) (hl : levels < depth) (he : WellFormed.expression mode false e)
    (hrest : Stops 0 rest) :
    Regains c (levels < 2 * (Render.expression e).length) (Render.expression e ++ rest) (g.value levels) Bare.expression e rest :=
  regains_expected (hg.unparenthesized hl he hrest)

/-! ### Lists of expressions -/

/-- What may follow a list of expressions. -/
structure EndsList (rest : List Spelling) : Prop where
  stops : Stops 0 rest
  comma : ∀ first ∈ rest.head?, first.token.isSymbol .comma = false

theorem EndsList.of_none (hsuffix : startsSuffix first.token = false) (hop : DyadicOp.ofToken? first.token = none)
    (hcomma : first.token.isSymbol .comma = false) : EndsList (first :: rest) := by
  refine ⟨.of_none hsuffix hop, fun other hother => ?_⟩
  cases hother
  exact hcomma

theorem stops_comma : Stops 0 (Render.sign .comma :: rest) := .of_none rfl rfl

theorem length_le_moreExpressions (h : e ∈ es) : (Render.expression e).length < (Render.moreExpressions es).length := by
  rw [Render.moreExpressions_eq]
  obtain ⟨before, behind, rfl⟩ := append_of_mem h
  simp only [flatMap_append, flatMap_cons, length_append, length_cons]
  omega

theorem wellFormed_of_mem (hes : WellFormed.expressions mode es) (h : e ∈ es) : WellFormed.expression mode false e := by
  induction es with
  | nil => cases h
  | cons other es ih =>
    obtain rfl | hmem := mem_cons.mp h
    · exact hes.1
    · exact ih hes.2 hmem

theorem EndsList.ne_nil (h : EndsList rest) : rest ≠ [] := by
  rintro rfl
  exact h.stops

theorem stops_moreExpressions (hrest : Stops 0 rest) : Stops 0 (Render.moreExpressions es ++ rest) := by
  cases es with
  | nil => exact hrest
  | cons => exact stops_comma

variable (hg : g.Rereads mode c depth) (hl : levels < depth)

include hg hl

theorem finds_valueBehindComma (he : WellFormed.expression mode false e) (hrest : Stops 0 rest) :
    Finds c (levels < 2 * (Render.expression e).length) (Render.sign .comma :: Render.expression e ++ rest)
      (g.valueBehindComma? levels) Bare.expression e rest :=
  .consume rfl ((regains_value hg hl he hrest).bind fun read hread => .pure ⟨read, rfl, hread⟩)

theorem regains_moreValues (hes : WellFormed.expressions mode es) (hrest : EndsList rest) :
    Regains c (levels < 2 * (Render.moreExpressions es).length) (Render.moreExpressions es ++ rest) (g.moreValues levels)
      Bare.expressions es rest := by
  rw [Render.moreExpressions_eq]
  refine (regains_many Bare.expression (Stops 0) es (fun _ _ _ => stops_comma) hrest.stops (fun e he rest hrest => ?_) ?_).imp
    fun found hfound => ?_
  · have hlength := length_le_moreExpressions he
    rw [Render.moreExpressions_eq] at hlength
    exact (finds_valueBehindComma hg hl (wellFormed_of_mem hes he) hrest).weaken fun _ => by omega
  · obtain ⟨first, tail, rfl⟩ := exists_cons_of_ne_nil hrest.ne_nil
    exact .consume_other (hrest.comma first rfl) (.pure rfl)
  · rw [Bare.expressions_eq_map, Bare.expressions_eq_map, hfound]

theorem regains_values (hes : WellFormed.expressions mode es) (hne : es ≠ []) (hrest : EndsList rest) :
    Regains c (levels < 2 * (Render.expressions es).length) (Render.expressions es ++ rest) (g.values levels)
      Bare.expressions es rest := by
  obtain ⟨e, es, rfl⟩ := exists_cons_of_ne_nil hne
  rw [Render.expressions, append_assoc, length_append]
  refine (regains_value hg hl hes.1 (stops_moreExpressions hrest.stops)).step (by omega) fun read hread => ?_
  refine (regains_moreValues hg hl hes.2 hrest).step (by omega) fun found hfound => .pure ?_
  rw [Bare.expressions, Bare.expressions, hread, hfound]

theorem regains_optionalValues (hes : WellFormed.expressions mode es) (hrest : EndsList (first :: rest))
    (hfirst : first.token.startsNothing = true) :
    Regains c (levels < 2 * (Render.expressions es).length + 2) (Render.expressions es ++ first :: rest)
      (g.optionalValues levels) Bare.expressions es (first :: rest) := by
  cases es with
  | nil =>
    refine (hg.absent hl hfirst).step (by omega) ?_
    rintro _ rfl
    exact .pure rfl
  | cons =>
    rw [Render.expressions, append_assoc, length_append]
    refine (hg.unparenthesized hl hes.1 (stops_moreExpressions hrest.stops)).step (by omega) ?_
    rintro _ ⟨read, rfl, hread⟩
    refine (regains_moreValues hg hl hes.2 hrest).step (by omega) fun found hfound => .pure ?_
    rw [Bare.expressions, Bare.expressions, hread, hfound]

/-! ### Tables -/

theorem finds_field {f : Field} (hf : WellFormed.field mode f) (hrest : Stops 0 rest) (hassign : Render.Unassigned rest) :
    Finds c (levels < 2 * (Render.field f).length) (Render.field f ++ rest) (g.field? levels) Bare.field f rest := by
  cases f with
  | keyed =>
    simp only [Render.field, cons_append, append_assoc, length_cons, length_append]
    refine .consume rfl ?_
    refine (regains_value hg hl hf.1 (.of_none rfl rfl)).step (by omega) fun key' hkey => .expect rfl (.expect rfl ?_)
    refine (regains_value hg hl hf.2 hrest).step (by omega) fun value' hvalue => .quiet fun _ => .pure ⟨_, rfl, ?_⟩
    rw [Bare.field, Bare.field, hkey, hvalue]
  | named =>
    simp only [Render.field, cons_append, length_cons]
    refine .consume_other rfl (.token fun _ => .lookahead rfl fun _ => .yes rfl ?_)
    refine regains_identifier.bind fun key' hkey => .advance rfl ?_
    refine (regains_value hg hl hf.2 hrest).step (by omega) fun value' hvalue => .quiet fun _ => .pure ⟨_, rfl, ?_⟩
    rw [Bare.field, Bare.field, hkey, hvalue]
  | positional value =>
    obtain ⟨first, tail, hvalue, hopens⟩ := Render.exists_head value
    have hunnamed := Render.isUnnamed_expression value hassign
    have hread := hg.unparenthesized hl hf hrest
    rw [hvalue, cons_append] at hunnamed hread
    rw [Render.field, hvalue, cons_append]
    obtain ⟨second, more, hmore⟩ : ∃ second more, tail ++ rest = second :: more := by
      refine exists_cons_of_ne_nil fun hnil => ?_
      rw [(append_eq_nil_iff.mp hnil).2] at hrest
      exact hrest
    rw [hmore] at hunnamed hread ⊢
    refine .consume_other hopens.bracket (.token fun _ => .lookahead hopens.eof fun _ => .no ?_ ?_)
    · exact Bool.and_eq_false_imp.mpr fun hid => hunnamed hid second rfl
    · refine hread.bind ?_
      rintro _ ⟨read, rfl, hread⟩
      refine .quiet fun _ => .pure ⟨_, rfl, ?_⟩
      rw [Bare.field, Bare.field, hread]

omit hg hl in
theorem moreFields_cons (f : Field) (fs : List Field) :
    Render.moreFields (f :: fs) = Render.sign .comma :: Render.fields (f :: fs) := rfl

theorem yields_noField :
    Yields c (levels < 2) (Render.sign .rightBrace :: rest) (g.field? levels) (· = none) (Render.sign .rightBrace :: rest) := by
  refine .consume_other rfl (.token fun _ => .quiet fun _ => .no rfl ?_)
  refine (hg.absent hl rfl).bind ?_
  rintro _ rfl
  exact .pure rfl

theorem regains_fieldRounds (rounds : Nat) {fs : List Field} (hfs : WellFormed.fields mode fs) :
    Regains c (levels < 2 * (Render.fields fs).length + 2) (Render.fields fs ++ Render.sign .rightBrace :: rest)
      (collectRounds (g.fieldStep levels) rounds) Bare.fields fs (Render.sign .rightBrace :: rest) := by
  induction rounds generalizing fs with
  | zero => exact .exhausted
  | succ rounds ih =>
    cases fs with
    | nil =>
      refine .last (.quiet fun _ => (yields_noField hg hl).step (by simp [Render.fields]) ?_)
      rintro _ rfl
      exact .quiet fun _ => .pure ⟨rfl, rfl⟩
    | cons f fs =>
      rw [Render.fields, append_assoc, length_append]
      have hbehind : Stops 0 (Render.moreFields fs ++ Render.sign .rightBrace :: rest) ∧
          Render.Unassigned (Render.moreFields fs ++ Render.sign .rightBrace :: rest) := by
        cases fs <;> exact ⟨.of_none rfl rfl, Render.unassigned_cons rfl⟩
      have hread := finds_field hg hl hfs.1 hbehind.1 hbehind.2
      cases fs with
      | nil =>
        refine .last (.quiet fun _ => hread.step (by omega) ?_)
        rintro _ ⟨read, rfl, hread⟩
        refine .consume_other rfl (.consume_other rfl (.pure ⟨?_, rfl⟩))
        simp only [Bare.fields, hread]
      | cons f' fs =>
        rw [moreFields_cons, length_cons]
        refine .more (Render.fields (f' :: fs) ++ Render.sign .rightBrace :: rest)
          (fun found => ∃ read, found = [read] ∧ Bare.field read = Bare.field f)
          (.quiet fun _ => hread.step (by omega) ?_) ?_
        · rintro _ ⟨read, rfl, hread⟩
          exact .consume rfl (.pure ⟨⟨read, rfl, hread⟩, rfl⟩)
        · rintro _ ⟨read, rfl, hread⟩
          refine (ih hfs.2).mono (by omega) fun found hfound => ?_
          rw [singleton_append, Bare.fields, hread, hfound, ← Bare.fields]

theorem regains_table {table : Table} (ht : WellFormed.table mode table) :
    Regains c (levels + 1 < 2 * (Render.table table).length) (Render.table table ++ rest) (g.table levels) Bare.table table rest := by
  obtain ⟨fs, span⟩ := table
  simp only [Render.table, cons_append, append_assoc, length_cons, length_append]
  refine .quiet fun _ => .openBracket ?_
  refine (Yields.collect (regains_fieldRounds hg hl c.rounds ht)).step (by omega) fun found hfound => ?_
  refine .closeBracket rfl (.quiet fun _ => .pure ?_)
  rw [Bare.table, Bare.table, hfound]

/-! ### Blocks -/

omit hg hl

/-- A statement does not start as the end of a block does, nor with what is read beside statements; a label alone starts
with colons. -/
theorem exists_head_statement (h : WellFormed.statement mode stmt) :
    ∃ first tail, Render.statement stmt = first :: tail ∧ first.token.closesBlock = false ∧ first.kind ≠ .directive ∧
      first.kind ≠ .symbol .semicolon ∧ (first.kind = .symbol .doubleColon ↔ ∃ label span, stmt = .label label span) := by
  have hprefix : ∀ e : Expr, e.isPrefix = true → ∀ more, ∃ first tail, Render.expression e ++ more = first :: tail ∧
      first.token.closesBlock = false ∧ first.kind ≠ .directive ∧ first.kind ≠ .symbol .semicolon ∧
      first.kind ≠ .symbol .doubleColon := by
    intro e he more
    obtain ⟨first, tail, heq, hfirst⟩ := Render.exists_head_prefix he
    refine ⟨first, tail ++ more, by rw [heq, cons_append], ?_⟩
    obtain hkind | hkind := hfirst <;> simp [Token.closesBlock, Spelling.token, Spelling.at, hkind]
  cases stmt with
  | assignment =>
    obtain ⟨e, es, rfl⟩ := exists_cons_of_ne_nil h.1.1
    rw [Render.statement, Render.expressions, append_assoc]
    simpa using hprefix e (Expr.isPrefix_of_isTarget (h.1.2.1 e mem_cons_self)) _
  | call e =>
    rw [Render.statement, ← append_nil (Render.expression e)]
    simpa using hprefix e (Expr.isPrefix_of_isCall h.1) []
  | declare ids values => cases values <;> exact ⟨_, _, rfl, rfl, by simp [Render.word]⟩
  | function e isLocal => cases isLocal <;> exact ⟨_, _, rfl, rfl, by simp [Render.word]⟩
  | branch =>
    obtain ⟨condition, body, clauseSpan, others, rfl, -⟩ := (WellFormed.clauses_iff mode).mp h.2
    exact ⟨_, _, rfl, rfl, by simp [Render.word]⟩
  | inclusion => exact h.elim
  | block | whileLoop | repeatLoop | forNumeric | forGeneric | ret | breakLoop | goto =>
    exact ⟨_, _, rfl, rfl, by simp [Render.word]⟩
  | label => exact ⟨_, _, rfl, rfl, by simp [Render.sign]⟩

theorem yields_blockEnd (hrest : Closes rest) : Yields c lack rest (blockStep statement) (· = ([], false)) rest := by
  cases rest with
  | nil => exact hrest.elim
  | cons first =>
    refine .token fun span => .yes ?_ (.pure rfl)
    have hclose : (first.at span).closesBlock = true := hrest
    rw [hclose, Bool.true_or]

theorem yields_blockStep {good : Option Stmt → Prop} (hfirst : first.token.closesBlock = false)
    (h : Yields c lack (first :: rest) statement good out) :
    Yields c lack (first :: rest) (blockStep statement)
      (fun found => ∃ r, found = (r.toList, !r.any Stmt.isReturn) ∧ good r) out := by
  intro s hs
  refine Yields.token (fun span => .no ?_ (.quiet fun _ s hs => ?_)) s hs
  · have hline := hs.shows.token
    rw [hs.token] at hline
    exact Bool.or_eq_false_iff.mpr ⟨hfirst, hline⟩
  · refine expected_bind (expected_attempt (h s hs)) fun r t hr => ?_
    obtain ⟨r, rfl, hgood⟩ | ⟨d, rfl, hfault, hlack⟩ := hr
    · cases r with
      | none => exact .ok ⟨⟨none, rfl, hgood.1⟩, hgood.2⟩
      | some stmt => cases stmt <;> exact .ok ⟨⟨some _, rfl, hgood.1⟩, hgood.2⟩
    · have hreport : ((report [d]).run c t).Expected lack fun _ t => t.GaveUp := .ok ⟨d, by simp [Session.report], hfault⟩
      exact expected_bind hreport fun _ _ ht => givesUp_run _ ht hlack

theorem isReturn_of_bare {read : Stmt} (h : Bare.statement read = Bare.statement stmt) : read.isReturn = stmt.isReturn := by
  have hbare : ∀ s : Stmt, (Bare.statement s).isReturn = s.isReturn := by
    intro s
    cases s <;> rfl
  rw [← hbare read, h, hbare stmt]

theorem separates_moreStatements (body : Block) (hrest : Closes rest) :
    Separates (Render.moreStatements body ++ rest) ∧ (body = [] → Closes (Render.moreStatements body ++ rest)) := by
  cases body with
  | nil =>
    refine ⟨?_, fun _ => hrest⟩
    cases rest with
    | nil => exact hrest
    | cons => exact .inl hrest
  | cons => exact ⟨.inr rfl, nofun⟩

include hg hl in
/-- What the rounds of a block give: the statements from here on, whether a semicolon stands before them or not. -/
theorem regains_blockRounds (hrest : Closes rest) (hzero : levels < 1 → lack) (rounds : Nat)
    (hbody : WellFormed.statements mode body) (hlack : ∀ stmt ∈ body, levels ≤ 2 * (Render.statement stmt).length → lack)
    (hws : ws = Render.statements body ++ rest ∨ ws = Render.moreStatements body ++ rest) :
    Regains c lack ws (collectRounds (blockStep (g.statement levels)) rounds) Bare.statements body rest := by
  induction rounds generalizing body ws with
  | zero => exact .exhausted
  | succ rounds ih =>
    cases body with
    | nil =>
      rw [Render.statements, Render.moreStatements, or_self] at hws
      rw [hws]
      refine .last ((yields_blockEnd hrest).imp ?_)
      rintro _ rfl
      exact ⟨rfl, rfl⟩
    | cons stmt body =>
      obtain rfl | rfl := hws
      · obtain ⟨first, tail, hhead, hfirst, -⟩ := exists_head_statement hbody.1
        obtain ⟨hseparates, hcloses⟩ := separates_moreStatements body hrest
        have hread := (hg.statement hl hbody.1 hseparates fun hreturn => hcloses (hbody.2.1 hreturn)).weaken
          (hlack stmt mem_cons_self)
        rw [hhead] at hread
        rw [Render.statements, append_assoc, hhead]
        have hstep := yields_blockStep hfirst hread
        cases hreturn : stmt.isReturn with
        | true =>
          obtain rfl := hbody.2.1 hreturn
          refine .last (hstep.imp ?_)
          rintro _ ⟨_, rfl, read, rfl, hsame⟩
          exact ⟨by simp only [Option.toList_some, Bare.statements, hsame], by simp [isReturn_of_bare hsame, hreturn]⟩
        | false =>
          refine .more _ (fun found => ∃ read, found = [read] ∧ Bare.statement read = Bare.statement stmt) (hstep.imp ?_) ?_
          · rintro _ ⟨_, rfl, read, rfl, hsame⟩
            exact ⟨⟨read, rfl, hsame⟩, by simp [isReturn_of_bare hsame, hreturn]⟩
          · rintro _ ⟨read, rfl, hsame⟩
            refine (ih hbody.2.2 (fun s hs => hlack s (mem_cons_of_mem _ hs)) (.inr rfl)).imp fun found hfound => ?_
            rw [singleton_append, Bare.statements, Bare.statements, hsame, hfound]
      · refine .more _ (· = []) ((yields_blockStep rfl ((hg.empty hl).weaken hzero)).imp ?_) ?_
        · rintro _ ⟨_, rfl, rfl⟩
          exact ⟨rfl, rfl⟩
        · rintro _ rfl
          exact ih hbody hlack (.inl rfl)

include hg hl in
theorem regains_block (hbody : WellFormed.statements mode body) (hrest : Closes rest) :
    Regains c (levels ≤ 2 * (Render.statements body).length) (Render.statements body ++ rest) (g.block levels)
      Bare.statements body rest := by
  refine .collect (regains_blockRounds hg hl hrest (fun _ => by omega) c.rounds hbody (fun stmt hstmt _ => ?_) (.inl rfl))
  have := Render.length_le_statements hstmt
  omega

/-! ### Functions -/

theorem regains_parameterRounds (rounds : Nat) {p : Parameter} (hps : WellFormed.parameters mode (p :: ps)) :
    Regains c lack (Render.parameters (p :: ps) ++ Render.sign .rightParen :: rest) (collectRounds parameterStep rounds)
      (map Bare.parameter) (p :: ps) rest := by
  induction rounds generalizing p ps with
  | zero => exact .exhausted
  | succ rounds ih =>
    cases p with
    | vararg =>
      obtain rfl : ps = [] := hps
      exact .last (.token fun _ => .no rfl (.yes rfl (.quiet fun _ => .advance rfl (.expect rfl (.pure ⟨rfl, rfl⟩)))))
    | name id =>
      cases ps with
      | nil =>
        refine .last (.token fun _ => .yes rfl ?_)
        refine regains_identifier.bind fun read hread => (regains_declareInFlow hread).bind fun read hread => ?_
        refine .consume_other rfl (.expect rfl (.pure ⟨?_, rfl⟩))
        rw [map_singleton, map_singleton, Bare.parameter, Bare.parameter, hread]
      | cons p ps =>
        refine .more (Render.parameters (p :: ps) ++ Render.sign .rightParen :: rest)
          (fun found => found.map Bare.parameter = [Bare.parameter (.name id)]) (.token fun _ => .yes rfl ?_) ?_
        · refine regains_identifier.bind fun read hread => (regains_declareInFlow hread).bind fun read hread => ?_
          refine .consume rfl (.pure ⟨?_, rfl⟩)
          rw [map_singleton, Bare.parameter, Bare.parameter, hread]
        · refine fun found hfound => (ih hps.2).imp fun more hmore => ?_
          rw [map_append, hfound, hmore]
          rfl

theorem regains_parameters (hps : WellFormed.parameters mode ps) :
    Regains c lack (Render.sign .leftParen :: Render.parameters ps ++ Render.sign .rightParen :: rest) parameters
      (map Bare.parameter) ps rest := by
  refine .expect rfl ?_
  cases ps with
  | nil => exact .consume rfl (.pure rfl)
  | cons p =>
    refine .consume_other ?_ (.collect (regains_parameterRounds c.rounds hps))
    cases p <;> rfl

theorem closes_end : Closes (Render.word .endKw :: rest) := rfl

include hg hl in
theorem regains_functionBody {f : FunctionBody} (hf : WellFormed.functionBody mode f) (isMethod : Bool) :
    Regains c (levels + 1 < 2 * (Render.functionBody f).length) (Render.functionBody f ++ rest)
      (g.functionBody levels isMethod) Bare.functionBody f rest := by
  obtain ⟨ps, body, span⟩ := f
  simp only [Render.functionBody, cons_append, append_assoc, length_cons, length_append]
  refine .newlines (yields_setNewlines.bind fun _ _ => .quiet fun _ => .quiet fun _ => .quiet fun _ => .quiet fun _ => ?_)
  refine (regains_parameters hf.1).bind fun parameters hparameters => ?_
  refine (regains_block hg hl hf.2 closes_end).step (by omega) fun found hfound => .closeBracket rfl ?_
  refine .quiet fun _ => .quiet fun _ => .quiet fun _ => .quiet fun _ => .pure ?_
  rw [Bare.functionBody, Bare.functionBody, hparameters, hfound]

end Grammar

end CartLua
