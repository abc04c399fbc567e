import CartLua.Grammar.Program
import CartLua.Proofs.Run
import Mathlib.Data.Option.Basic
/-!
# How operators are grouped

Reading an expression turns a row of atoms and operators into a tree. An atom is a literal, a table, a function or a chain
of suffixes; an expression in parentheses is one, whatever stands inside. The tree has the same row and is grouped by the
strength of its operators, and reading goes on exactly as far as operators bind tightly enough.

The argument is about one state of the loop: whatever the next operator is, the right operand that was read last has left
it alone. So it binds no more tightly than that operand had to, which is what its left side has to say about it.
-/

namespace CartLua

open Parse

namespace DyadicOp

/-- Whether a chain of the operator groups from the right. -/
def isRightAssociative : DyadicOp → Bool
  | .binary op => op.isRightAssociative
  | .logical _ => false

theorem rightPrecedence_eq_ite (op : DyadicOp) :
    op.rightPrecedence = if op.isRightAssociative then op.precedence - 1 else op.precedence := by
  cases op <;> rfl

theorem eq_pow_of_operandPrecedence_lt {op : DyadicOp} (h : UnaryOp.operandPrecedence < op.precedence) :
    op = .binary .pow := by
  rcases op with op | op <;> cases op <;> revert h <;> decide

theorem eq_of_precedence_eq {op other : DyadicOp} (hop : op.isRightAssociative = true)
    (h : op.precedence = other.precedence) : op = other := by
  rcases op with op | op
  · rcases other with other | other <;> cases op <;> cases other <;> revert hop h <;> decide
  · cases hop

end DyadicOp

/-- An expression as its operators put it together. Parentheses leave no node in a tree of expressions, so that only this
tells which parts of it are atoms. -/
inductive Grouping where
  | atom (e : Expr)
  | unary (op : UnaryOp) (argument : Grouping) (span : Span)
  | dyadic (op : DyadicOp) (left right : Grouping) (span : Span)

namespace Grouping

def expr : Grouping → Expr
  | .atom e => e
  | .unary op argument span => .unary op argument.expr span
  | .dyadic op left right span => .dyadic op left.expr right.expr span

/-- A part of the row that an expression is read from. -/
inductive Item where
  | atom (e : Expr)
  | unary (op : UnaryOp)
  | dyadic (op : DyadicOp)

/-- The atoms and the operators in the order of the text. -/
def items : Grouping → List Item
  | .atom e => [.atom e]
  | .unary op argument _ => .unary op :: argument.items
  | .dyadic op left right _ => left.items ++ .dyadic op :: right.items

/-- The operator at the root, if it stands between two operands. -/
def root? : Grouping → Option DyadicOp
  | .dyadic op _ _ _ => some op
  | _ => none

def isUnary : Grouping → Bool
  | .unary .. => true
  | _ => false

/-- The left operand of an operator binds at least as tightly, and more tightly where a chain groups from the right. A
unary operator leaves its operand to a power. -/
def FitsLeft (op : DyadicOp) (left : Grouping) : Prop :=
  (∀ inner ∈ left.root?, op.precedence ≤ inner.precedence ∧ (op.isRightAssociative → op.precedence < inner.precedence)) ∧
    (left.isUnary → op ≠ .binary .pow)

/-- The right operand of an operator binds more tightly, or at least as tightly where a chain groups from the right. -/
def FitsRight (op : DyadicOp) (right : Grouping) : Prop :=
  ∀ inner ∈ right.root?,
    if op.isRightAssociative then op.precedence ≤ inner.precedence else op.precedence < inner.precedence

/-- Every operator of a tree has operands that it may have without parentheses. -/
def Grouped : Grouping → Prop
  | .atom _ => True
  | .unary _ argument _ => argument.Grouped ∧ ∀ inner ∈ argument.root?, inner = .binary .pow
  | .dyadic op left right _ => left.Grouped ∧ right.Grouped ∧ left.FitsLeft op ∧ right.FitsRight op

end Grouping

/-- Whether an operator is at the root of an expression. -/
def Expr.isOperation : Expr → Bool
  | .unary .. | .binary .. | .logical .. => true
  | _ => false

namespace Grammar

/-- An operand without unary operators before it, if one starts here. -/
def atom? (g : Grammar) (levels : Nat) : Parse (Option Expr) := do
  match ← g.primary? levels with
  | some e => return some e
  | none => g.chain? levels

end Grammar

/-- An atom is read on the way from `s` to `t`. One that has an operator at its root stands in parentheses. -/
structure ReadsAtom (c : Settings) (s : Session) (e : Expr) (t : Session) : Prop where
  read : ∃ depth levels, ((grammar depth).atom? levels).run c s = .ok (some e) t
  parenthesized : e.isOperation = true → s.window.token.isSymbol .leftParen = true

/-- The row of atoms and operators that is consumed on the way from one session to another. -/
inductive Consumes (c : Settings) : Session → List Grouping.Item → Session → Prop where
  | nil (s : Session) : Consumes c s [] s
  | atom {s t u : Session} {e : Expr} {items : List Grouping.Item} (head : ReadsAtom c s e t)
      (rest : Consumes c t items u) : Consumes c s (.atom e :: items) u
  | unary {s t u : Session} {op : UnaryOp} {items : List Grouping.Item}
      (head : UnaryOp.ofToken? s.window.token = some op) (next : advance.run c s = .ok () t)
      (rest : Consumes c t items u) : Consumes c s (.unary op :: items) u
  | dyadic {s t u : Session} {op : DyadicOp} {items : List Grouping.Item}
      (head : DyadicOp.ofToken? s.window.token = some op) (next : advance.run c s = .ok () t)
      (rest : Consumes c t items u) : Consumes c s (.dyadic op :: items) u

namespace Consumes

variable {c : Settings} {s t u : Session} {first rest : List Grouping.Item}

theorem trans (hfirst : Consumes c s first t) (hrest : Consumes c t rest u) : Consumes c s (first ++ rest) u := by
  induction hfirst with
  | nil => exact hrest
  | atom head _ ih => exact .atom head (ih hrest)
  | unary head next _ ih => exact .unary head next (ih hrest)
  | dyadic head next _ ih => exact .dyadic head next (ih hrest)

end Consumes

/-- The session stands before no operator that binds more tightly than `precedence`. -/
def Session.StopsAt (s : Session) (precedence : Nat) : Prop :=
  ∀ op, DyadicOp.ofToken? s.window.token = some op → op.precedence ≤ precedence

namespace Grouping

/-- What the last operand of a tree had to bind more tightly than. It has left every weaker operator alone. -/
def bound? : Grouping → Option Nat
  | .atom _ => none
  | .unary .. => some UnaryOp.operandPrecedence
  | .dyadic op _ _ _ => some op.rightPrecedence

variable {op : DyadicOp}

theorem fitsLeft_of_le {left : Grouping} (h : ∀ bound ∈ left.bound?, op.precedence ≤ bound) :
    left.FitsLeft op := by
  cases left with
  | atom => simp [FitsLeft, root?, isUnary]
  | unary =>
    have hle : op.precedence ≤ UnaryOp.operandPrecedence := h _ rfl
    refine ⟨fun _ hinner => (by cases hinner), fun _ hpow => ?_⟩
    rw [hpow] at hle
    revert hle
    decide
  | dyadic inner =>
    have hle : op.precedence ≤ inner.rightPrecedence := h _ rfl
    rw [inner.rightPrecedence_eq_ite] at hle
    have hpos : 0 < inner.precedence := by
      rcases inner with inner | inner <;> cases inner <;> decide
    refine ⟨?_, fun hunary => by cases hunary⟩
    rintro _ ⟨⟩
    split at hle
    · omega
    · rename_i hleft
      refine ⟨hle, fun hright => ?_⟩
      -- An equal level would make both operators the same one.
      by_contra hnot
      have hsame : op = inner := DyadicOp.eq_of_precedence_eq hright (by omega)
      exact hleft (hsame ▸ hright)

theorem fitsRight_of_lt {right : Grouping} (h : ∀ inner ∈ right.root?, op.rightPrecedence < inner.precedence) :
    right.FitsRight op := by
  intro inner hinner
  have hlt := h inner hinner
  rw [op.rightPrecedence_eq_ite] at hlt
  split at hlt <;> rename_i hright <;> simp only [hright, if_true, if_false, Bool.false_eq_true]
  · omega
  · exact hlt

end Grouping

/-- What has been read of an expression on the way from `first` to `s`, where operators above `precedence` are taken. -/
structure Climbs (c : Settings) (precedence : Nat) (first : Session) (tree : Grouping) (s : Session) : Prop where
  consumed : Consumes c first tree.items s
  grouped : tree.Grouped
  above : ∀ op ∈ tree.root?, precedence < op.precedence
  closed : ∀ bound ∈ tree.bound?, s.StopsAt bound

namespace Climbs

variable {c : Settings} {precedence : Nat} {first s t u : Session} {op : DyadicOp} {left right : Grouping}

theorem atom {e : Expr} (h : ReadsAtom c s e t) : Climbs c precedence s (.atom e) t where
  consumed := .atom h (.nil t)
  grouped := trivial
  above _ h := by cases h
  closed _ h := by cases h

theorem unary {op : UnaryOp} {argument : Grouping} {span : Span} (hop : UnaryOp.ofToken? s.window.token = some op)
    (hnext : advance.run c s = .ok () t) (hargument : Climbs c UnaryOp.operandPrecedence t argument u)
    (hstops : u.StopsAt UnaryOp.operandPrecedence) : Climbs c precedence s (.unary op argument span) u where
  consumed := .unary hop hnext hargument.consumed
  grouped := ⟨hargument.grouped, fun _ hinner => DyadicOp.eq_pow_of_operandPrecedence_lt (hargument.above _ hinner)⟩
  above _ h := by cases h
  closed := by rintro _ ⟨⟩; exact hstops

theorem dyadic {span : Span} (hleft : Climbs c precedence first left s)
    (hop : DyadicOp.ofToken? s.window.token = some op) (habove : precedence < op.precedence)
    (hnext : advance.run c s = .ok () t) (hright : Climbs c op.rightPrecedence t right u)
    (hstops : u.StopsAt op.rightPrecedence) : Climbs c precedence first (.dyadic op left right span) u where
  consumed := hleft.consumed.trans (.dyadic hop hnext hright.consumed)
  grouped := by
    refine ⟨hleft.grouped, hright.grouped, ?_, ?_⟩
    · exact Grouping.fitsLeft_of_le fun bound hbound => hleft.closed bound hbound op hop
    · exact Grouping.fitsRight_of_lt hright.above
  above := by rintro _ ⟨⟩; exact habove
  closed := by rintro _ ⟨⟩; exact hstops

end Climbs

namespace Grammar

variable {g : Grammar} {c : Settings} {levels precedence : Nat} {start : Position} {s t : Session} {base e : Expr} {first : Session} {op : DyadicOp}
  {left : Grouping}

/-! ### Atoms -/

theorem isOperation_literal {t : Token} (h : literal? t = some e) : e.isOperation = false := by
  unfold literal? at h
  split at h <;> cases h <;> rfl

theorem primary_cases {r : Option Expr} (h : (g.primary? levels).run c s = .ok r t) :
    (∀ e ∈ r, e.isOperation = false) ∧ (r = none → t = s) := by
  unfold primary? at h
  simp only [run_bind_eq_ok, run_token] at h
  obtain ⟨_, _, ⟨⟩, h⟩ := h
  split at h
  · rename_i literal hliteral
    simp only [run_bind_eq_ok, run_pure] at h
    obtain ⟨_, _, _, _, _, _, ⟨⟩⟩ := h
    simpa using isOperation_literal hliteral
  · simp only [run_ite, run_pure] at h
    split at h
    · simp only [run_bind_eq_ok, run_pure] at h
      obtain ⟨_, _, _, _, _, _, f, _, _, ⟨⟩⟩ := h
      simp [Expr.isOperation]
    · split at h
      · simp only [run_bind_eq_ok, run_pure] at h
        obtain ⟨table, _, _, ⟨⟩⟩ := h
        simp [Expr.isOperation]
      · cases h
        simp

theorem isOperation_call (h : (g.call levels start base).run c s = .ok e t) : e.isOperation = false := by
  unfold call at h
  simp only [run_bind_eq_ok, run_token] at h
  obtain ⟨_, _, ⟨⟩, h⟩ := h
  split at h
  · simp only [run_bind_eq_ok, run_spanFrom, run_pure] at h
    obtain ⟨_, _, _, _, _, _, _, _, _, _, _, ⟨⟩, ⟨⟩⟩ := h
    rfl
  · split at h
    · simp only [run_bind_eq_ok, run_spanFrom, run_pure] at h
      obtain ⟨_, _, _, _, _, ⟨⟩, ⟨⟩⟩ := h
      rfl
    · split at h
      · simp only [run_bind_eq_ok, run_spanFrom, run_pure] at h
        obtain ⟨_, _, _, _, _, ⟨⟩, ⟨⟩⟩ := h
        rfl
      · cases h

theorem isOperation_suffix (h : (g.suffix levels start base).run c s = .ok e t) : e.isOperation = false := by
  unfold suffix at h
  simp only [run_bind_eq_ok, run_token] at h
  obtain ⟨_, _, ⟨⟩, h⟩ := h
  split at h
  · simp only [run_bind_eq_ok, run_spanFrom, run_pure] at h
    obtain ⟨_, _, _, _, _, _, _, _, _, _, _, ⟨⟩, ⟨⟩⟩ := h
    rfl
  · simp only [run_bind_eq_ok] at h
    obtain ⟨isDot, _, _, h⟩ := h
    cases isDot with
    | true =>
      simp only [if_true, run_bind_eq_ok, run_pure] at h
      obtain ⟨_, _, _, ⟨⟩⟩ := h
      rfl
    | false =>
      simp only [Bool.false_eq_true, if_false, run_bind_eq_ok] at h
      obtain ⟨isColon, _, _, h⟩ := h
      cases isColon with
      | true =>
        simp only [if_true, run_bind_eq_ok] at h
        obtain ⟨_, _, _, hcall⟩ := h
        exact isOperation_call hcall
      | false => exact isOperation_call h

theorem isOperation_suffixes (hbase : base.isOperation = false) (h : (g.suffixes start base levels).run c s = .ok e t) :
    e.isOperation = false := by
  induction levels generalizing base s with
  | zero =>
    simp only [suffixes, run_bind_eq_ok, run_token] at h
    obtain ⟨_, _, ⟨⟩, h⟩ := h
    split at h <;> cases h
    exact hbase
  | succ levels ih =>
    simp only [suffixes, run_bind_eq_ok, run_token] at h
    obtain ⟨_, _, ⟨⟩, h⟩ := h
    split at h
    · simp only [run_bind_eq_ok] at h
      obtain ⟨longer, _, hlonger, h⟩ := h
      exact ih (isOperation_suffix hlonger) h
    · cases h
      exact hbase

theorem parenthesized_chain (h : (g.chain? levels).run c s = .ok (some e) t) (he : e.isOperation = true) :
    s.window.token.isSymbol .leftParen = true := by
  cases levels with
  | zero => cases h
  | succ =>
    simp only [chain?, run_bind_eq_ok, run_token] at h
    obtain ⟨_, _, ⟨⟩, h⟩ := h
    split at h
    · simp only [run_bind_eq_ok, run_pure] at h
      obtain ⟨_, _, _, id, _, _, chain, _, hchain, ⟨⟩⟩ := h
      rw [isOperation_suffixes rfl hchain] at he
      cases he
    · split at h
      · assumption
      · cases h

theorem readsAtom {depth : Nat} (h : ((grammar depth).atom? levels).run c s = .ok (some e) t) : ReadsAtom c s e t := by
  refine ⟨⟨depth, levels, h⟩, fun he => ?_⟩
  simp only [atom?, run_bind_eq_ok] at h
  obtain ⟨primary, u, hprimary, h⟩ := h
  obtain ⟨hplain, hsame⟩ := primary_cases hprimary
  cases primary with
  | some =>
    cases h
    rw [hplain e rfl] at he
    cases he
  | none =>
    rw [hsame rfl] at h
    exact parenthesized_chain h he

/-! ### Operators -/

theorem stopsAt_of_none (h : (operatorAbove? precedence).run c s = .ok none t) : t = s ∧ s.StopsAt precedence := by
  injection h with hnone hsame
  refine ⟨hsame.symm, fun op hop => ?_⟩
  simpa [hop] using hnone

theorem operator_of_some (h : (operatorAbove? precedence).run c s = .ok (some op) t) :
    t = s ∧ DyadicOp.ofToken? s.window.token = some op ∧ precedence < op.precedence := by
  injection h with hsome hsame
  rw [Option.filter_eq_some_iff] at hsome
  exact ⟨hsame.symm, hsome.1, by simpa using hsome.2⟩

/-- Expressions are read as trees that are grouped, up to an operator that does not bind tightly enough. -/
def Climbing (g : Grammar) (c : Settings) : Prop :=
  ∀ ⦃levels precedence s e t⦄, (g.expression levels precedence).run c s = .ok (some e) t →
    ∃ tree : Grouping, tree.expr = e ∧ Climbs c precedence s tree t ∧ t.StopsAt precedence

theorem Climbing.expected (hg : g.Climbing c) (h : (expected (g.expression levels precedence)).run c s = .ok e t) :
    ∃ tree : Grouping, tree.expr = e ∧ Climbs c precedence s tree t ∧ t.StopsAt precedence := by
  unfold Grammar.expected at h
  simp only [run_bind_eq_ok] at h
  obtain ⟨r, u, hread, h⟩ := h
  cases r with
  | none => cases h
  | some =>
    cases h
    exact hg hread

theorem climbs_operand {depth : Nat} (hg : (grammar depth).Climbing c)
    (h : ((grammar depth).operand? levels).run c s = .ok (some e) t) :
    ∃ tree : Grouping, tree.expr = e ∧ Climbs c precedence s tree t := by
  unfold operand? at h
  simp only [run_bind_eq_ok, run_token] at h
  obtain ⟨_, _, ⟨⟩, h⟩ := h
  split at h
  · rename_i op hop
    simp only [run_bind_eq_ok, run_spanFrom, run_pure] at h
    obtain ⟨_, u, hnext, argument, _, hargument, _, _, ⟨⟩, ⟨⟩⟩ := h
    obtain ⟨tree, rfl, hclimbs, hstops⟩ := hg.expected hargument
    exact ⟨.unary op tree _, rfl, .unary hop hnext hclimbs hstops⟩
  · exact ⟨.atom e, rfl, .atom (readsAtom h)⟩

theorem climbs_extend (hg : g.Climbing c) (hleft : Climbs c precedence first left s)
    (hop : DyadicOp.ofToken? s.window.token = some op) (habove : precedence < op.precedence)
    (h : (g.extend levels start left.expr op).run c s = .ok e t) :
    ∃ tree : Grouping, tree.expr = e ∧ Climbs c precedence first tree t := by
  unfold extend at h
  simp only [run_bind_eq_ok, run_spanFrom, run_pure] at h
  obtain ⟨_, u, hnext, right, _, hright, _, _, ⟨⟩, ⟨⟩⟩ := h
  obtain ⟨tree, rfl, hclimbs, hstops⟩ := hg.expected hright
  exact ⟨.dyadic op left tree _, rfl, hleft.dyadic hop habove hnext hclimbs hstops⟩

theorem climbs_moreOperators (hg : g.Climbing c) (hleft : Climbs c precedence first left s)
    (h : (g.moreOperators precedence start left.expr levels).run c s = .ok e t) :
    ∃ tree : Grouping, tree.expr = e ∧ Climbs c precedence first tree t ∧ t.StopsAt precedence := by
  induction levels generalizing left s with
  | zero =>
    simp only [moreOperators, run_bind_eq_ok] at h
    obtain ⟨next, u, hnext, h⟩ := h
    cases next with
    | some => cases h
    | none =>
      cases h
      obtain ⟨rfl, hstops⟩ := stopsAt_of_none hnext
      exact ⟨left, rfl, hleft, hstops⟩
  | succ levels ih =>
    simp only [moreOperators, run_bind_eq_ok] at h
    obtain ⟨next, u, hnext, h⟩ := h
    cases next with
    | none =>
      cases h
      obtain ⟨rfl, hstops⟩ := stopsAt_of_none hnext
      exact ⟨left, rfl, hleft, hstops⟩
    | some =>
      simp only [run_bind_eq_ok] at h
      obtain ⟨longer, v, hlonger, h⟩ := h
      obtain ⟨rfl, hop, habove⟩ := operator_of_some hnext
      obtain ⟨tree, rfl, htree⟩ := climbs_extend hg hleft hop habove hlonger
      exact ih htree h

theorem climbing_grammar (c : Settings) (depth : Nat) : (grammar depth).Climbing c := by
  induction depth with
  | zero => intro levels precedence s e t h; cases h
  | succ depth hg =>
    intro levels precedence s e t h
    cases levels with
    | zero => cases h
    | succ =>
      simp only [grammar, operators?, run_bind_eq_ok, run_token] at h
      obtain ⟨_, _, ⟨⟩, operand, u, hoperand, h⟩ := h
      cases operand with
      | none => cases h
      | some =>
        obtain ⟨tree, rfl, htree⟩ := climbs_operand hg hoperand
        simp only [run_bind_eq_ok] at h
        obtain ⟨next, v, hnext, h⟩ := h
        cases next with
        | none =>
          cases h
          obtain ⟨rfl, hstops⟩ := stopsAt_of_none hnext
          exact ⟨tree, rfl, htree, hstops⟩
        | some =>
          simp only [run_bind_eq_ok, run_pure] at h
          obtain ⟨longer, w, hlonger, whole, _, hwhole, ⟨⟩⟩ := h
          obtain ⟨rfl, hop, habove⟩ := operator_of_some hnext
          obtain ⟨longer, rfl, hclimbs⟩ := climbs_extend hg htree hop habove hlonger
          exact climbs_moreOperators hg hclimbs hwhole

end Grammar

/-- **Operators are grouped by their strength.** An expression that is read at any place, with any number of levels left and
for any strength that its operators have to be above, consumes the atoms and operators of its tree in their order. Every
operator of the tree has operands that it may have without parentheses, the one at the root binds tightly enough, and no
operator that does so stands behind. -/
theorem grouped_of_run_expression (c : Settings) (depth levels precedence : Nat) (s t : Session) (e : Expr)
    (h : ((grammar depth).expression levels precedence).run c s = .ok (some e) t) :
    ∃ tree : Grouping, tree.expr = e ∧ Consumes c s tree.items t ∧ tree.Grouped ∧
      (∀ op ∈ tree.root?, precedence < op.precedence) ∧
      ∀ op, DyadicOp.ofToken? t.window.token = some op → op.precedence ≤ precedence := by
  obtain ⟨tree, hexpr, hclimbs, hstops⟩ := Grammar.climbing_grammar c depth h
  exact ⟨tree, hexpr, hclimbs.consumed, hclimbs.grouped, hclimbs.above, hstops⟩

def readsConcat : Outcome (Option Expr) → Bool
  | .ok (some (.binary .concat (.unary .neg _ _) (.binary .concat _ _ _) _)) _ => true
  | _ => false

/-- A power is taken into the unary operator before it, a chain of `..` groups from the right, parentheses keep a sum
together, and a comparison is too weak to be read. -/
theorem grouped_of_run_expression_comparison :
    let source := "-a^b..(c+d)*e..f==g"
    let c := Program.settings {} source
    let s := Program.start {} source "main.lua"
    ∃ e t, ((grammar 9).expression 8 3).run c s = .ok (some e) t ∧
      (∃ power product last inner middle outer, e = .binary .concat (.unary .neg power inner)
        (.binary .concat product last middle) outer) ∧
      ∃ tree : Grouping, tree.expr = e ∧ Consumes c s tree.items t ∧ tree.Grouped ∧
        (∀ op ∈ tree.root?, 3 < op.precedence) ∧
        ∀ op, DyadicOp.ofToken? t.window.token = some op → op.precedence ≤ 3 := by
  intro source c s
  have hshape : readsConcat (((grammar 9).expression 8 3).run c s) = true := by decide +kernel
  unfold readsConcat at hshape
  split at hshape
  · rename_i power inner product last middle outer t hread
    exact ⟨_, t, hread, ⟨power, product, last, inner, middle, outer, rfl⟩,
      grouped_of_run_expression c 9 8 3 s t _ hread⟩
  · cases hshape

end CartLua
