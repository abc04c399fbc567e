import CartLua.Proofs.ExpressionRoundTrip
/-!
# Reading rendered chains and operators

Chains and sequences of operators are read from their left end, one part after the other, while the tree has its last part
outermost. So what is said here of a tree is said of going on: if all goes well once the tree has been read, then all goes
well from its first part on.
-/

namespace CartLua

open Parse Session List Token

def Grammar.Ending.ofChain : Expr → Ending
  | .name _ | .member .. | .index .. => .assignable
  | .call .. | .tableCall .. | .stringCall .. => .call
  | _ => .parenthesized

/-- Whether the expression is a literal, a table or a function. -/
def Expr.isPrimary : Expr → Bool
  | .string .. | .number .. | .boolean .. | .nil _ | .vararg _ | .table _ | .function _ => true
  | _ => false

theorem Expr.operand_cases {e : Expr} (h : e.dyadicOp? = none) :
    e.isPrefix = true ∨ e.isPrimary = true ∨ ∃ op argument span, e = .unary op argument span := by
  cases e with
  | name | member | index | call | tableCall | stringCall => exact .inl rfl
  | string | number | boolean | nil | vararg | table | function => exact .inr (.inl rfl)
  | unary op argument span => exact .inr (.inr ⟨op, argument, span, rfl⟩)
  | binary | logical => cases h

def Expr.callee? : Expr → Option Expr
  | .call base .. | .tableCall base .. | .stringCall base .. => some base
  | _ => none

namespace Render

variable {e base : Expr}

theorem exists_head_primary {e : Expr} (h : e.isPrimary = true) :
    ∃ first tail, expression e = first :: tail ∧ UnaryOp.ofToken? first.token = none := by
  cases e with
  | string | number | boolean | nil | vararg | function => exact ⟨_, _, rfl, rfl⟩
  | table t =>
    obtain ⟨fs, span⟩ := t
    exact ⟨_, _, rfl, rfl⟩
  | _ => cases h

/-- The tokens of what a function is called with. -/
def arguments : Expr → List Spelling
  | .call _ args _ => sign .leftParen :: expressions args ++ [sign .rightParen]
  | .tableCall _ t _ => table t
  | .stringCall _ argument _ => expression argument
  | _ => []

theorem trail_of_callee (h : e.callee? = some base) : trail e = trail base ++ arguments e := by
  cases e with
  | call | tableCall | stringCall =>
    obtain rfl := Option.some.inj h
    simp only [trail, arguments, append_assoc]
  | _ => cases h

theorem chainRoot_of_callee (h : e.callee? = some base) : e.chainRoot = base.chainRoot := by
  cases e with
  | call | tableCall | stringCall =>
    obtain rfl := Option.some.inj h
    rfl
  | _ => cases h

/-- A token that starts the arguments of a call. -/
structure OpensCall (first : Spelling) : Prop where
  bracket : first.token.isSymbol .leftBracket = false
  dot : first.token.isSymbol .dot = false
  colon : first.token.isSymbol .colon = false
  ending : Grammar.Ending.ofSuffix? first.token = some .call

theorem exists_head_arguments {mode : Encoding} (h : e.callee? = some base)
    (he : WellFormed.expression mode false e) : ∃ first tail, arguments e = first :: tail ∧ OpensCall first := by
  cases e with
  | call => exact ⟨_, _, rfl, rfl, rfl, rfl, rfl⟩
  | tableCall callee t =>
    obtain ⟨fs, tableSpan⟩ := t
    exact ⟨_, _, rfl, rfl, rfl, rfl, rfl⟩
  | stringCall callee argument =>
    obtain ⟨-, hstring, -⟩ := he
    cases argument with
    | string => exact ⟨_, _, rfl, rfl, rfl, rfl, rfl⟩
    | _ => cases hstring
  | _ => cases h

end Render

namespace Grammar

variable {left right read : Expr}

variable {good : LeftSide → Prop}

variable {mode : Encoding} {c : Settings} {depth levels precedence : Nat} {g : Grammar} {e base read : Expr} {start : Position}
  {lack : Prop} {first : Spelling} {ws rest out : List Spelling} {argument : Expr} {key : Identifier} {op : DyadicOp}

/-! ### Suffixes of both kinds of chains -/

theorem startsSuffix_eq (t : Token) : startsSuffix t = (Ending.ofSuffix? t).isSome := by
  unfold startsSuffix Ending.ofSuffix?
  split <;> simp_all

theorem suffixes_eq_map (base : Expr) (ending : Ending) (levels : Nat) :
    g.suffixes start base levels = (·.targets.headD default) <$> g.leftSuffixes start base ending levels := by
  induction levels generalizing base ending with
  | zero =>
    simp only [suffixes, leftSuffixes, startsSuffix_eq, map_bind]
    refine bind_congr fun t => ?_
    split <;> rfl
  | succ levels ih =>
    simp only [suffixes, leftSuffixes, startsSuffix_eq, map_bind]
    refine bind_congr fun t => ?_
    cases Ending.ofSuffix? t with
    | none => rfl
    | some next => simp only [Option.isSome_some, if_true, map_bind, ih _ next]

/-! ### One suffix -/

variable (span : Span) (hread : Bare.expression read = Bare.expression base)

include hread

theorem regains_stringArgument (hstring : argument.isString = true) :
    Regains c lack (Render.expression argument ++ rest) (g.call levels start read) Bare.expression
      (.stringCall base argument span) rest := by
  cases argument with
  | string =>
    refine .token fun _ => .no rfl (.no rfl (.advance rfl (.quiet fun _ => .pure ?_)))
    simp only [Bare.expression, hread]
    rfl
  | _ => cases hstring

theorem regains_memberSuffix :
    Regains c lack (Render.sign .dot :: Render.name key :: rest) (g.suffix levels start read) Bare.expression
      (.member base .dot key span) rest := by
  refine .token fun _ => .no rfl (.consume rfl (regains_identifier.bind fun key' hkey => .pure ?_))
  rw [Bare.expression, Bare.expression, hread, hkey]

variable (hg : g.Rereads mode c depth) (hl : levels < depth)

include hg hl

theorem regains_arguments {args : List Expr} (hargs : WellFormed.expressions mode args) :
    Regains c (levels < 2 * (Render.expressions args).length + 2)
      (Render.sign .leftParen :: Render.expressions args ++ Render.sign .rightParen :: rest) (g.call levels start read)
      Bare.expression (.call base args span) rest := by
  refine .token fun _ => .yes rfl (.openBracket ?_)
  refine (regains_optionalValues hg hl hargs (.of_none rfl rfl rfl) rfl).bind fun found hfound => ?_
  refine .closeBracket rfl (.quiet fun _ => .pure ?_)
  rw [Bare.expression, Bare.expression, hread, hfound]

theorem regains_tableArgument {table : Table} (htable : WellFormed.table mode table) :
    Regains c (levels + 1 < 2 * (Render.table table).length) (Render.table table ++ rest) (g.call levels start read)
      Bare.expression (.tableCall base table span) rest := by
  have htable : Regains c _ (_ ++ rest) _ _ _ _ := regains_table hg hl htable
  obtain ⟨fs, span⟩ := table
  refine .token fun _ => .no rfl (.yes rfl (htable.bind fun found hfound => .quiet fun _ => .pure ?_))
  rw [Bare.expression, Bare.expression, hread, hfound]

theorem regains_call (hcallee : e.callee? = some base) (he : WellFormed.expression mode false e) :
    Regains c (levels + 1 < 2 * (Render.arguments e).length) (Render.arguments e ++ rest) (g.call levels start read)
      Bare.expression e rest := by
  cases e with
  | call callee args span =>
    obtain rfl : callee = base := Option.some.inj hcallee
    simp only [Render.arguments, cons_append, append_assoc, length_cons, length_append]
    exact (regains_arguments span hread hg hl he.2).weaken fun _ => by omega
  | tableCall callee table span =>
    obtain rfl : callee = base := Option.some.inj hcallee
    exact regains_tableArgument span hread hg hl he.2
  | stringCall callee argument span =>
    obtain rfl : callee = base := Option.some.inj hcallee
    exact regains_stringArgument span hread he.2.1
  | _ => cases hcallee

theorem regains_callSuffix (hcallee : e.callee? = some base) (he : WellFormed.expression mode false e) :
    Regains c (levels + 1 < 2 * (Render.arguments e).length) (Render.arguments e ++ rest) (g.suffix levels start read)
      Bare.expression e rest := by
  obtain ⟨first, tail, hhead, hfirst⟩ := Render.exists_head_arguments hcallee he
  have hcall : Regains c _ (_ ++ rest) (g.call levels start read) _ _ _ := regains_call hread hg hl hcallee he
  rw [hhead] at hcall ⊢
  exact .token fun _ => .no hfirst.bracket (.consume_other hfirst.dot (.consume_other hfirst.colon hcall))

theorem regains_methodSuffix (hcallee : e.callee? = some (.member base .colon key span))
    (he : WellFormed.expression mode false e) :
    Regains c (levels + 1 < 2 * (Render.arguments e).length) (Render.sign .colon :: Render.name key :: Render.arguments e ++ rest)
      (g.suffix levels start read) Bare.expression e rest := by
  refine .token fun _ => .no rfl (.consume_other rfl (.consume rfl ?_))
  refine regains_identifier.bind fun key' hkey => regains_call ?_ hg hl hcallee he
  rw [Bare.expression, Bare.expression, hread, hkey]

theorem regains_indexSuffix {key : Expr} (hkey : WellFormed.expression mode false key) :
    Regains c (levels < 2 * (Render.expression key).length)
      (Render.sign .leftBracket :: Render.expression key ++ Render.sign .rightBracket :: rest) (g.suffix levels start read)
      Bare.expression (.index base key span) rest := by
  refine .token fun _ => .yes rfl (.openBracket ?_)
  refine (regains_value hg hl hkey (.of_none rfl rfl)).bind fun found hfound => ?_
  refine .closeBracket rfl (.quiet fun _ => .pure ?_)
  rw [Bare.expression, Bare.expression, hread, hfound]

omit hread hg hl

/-! ### All suffixes -/

theorem sizeOf_callee (h : e.callee? = some base) : sizeOf base < sizeOf e := by
  cases e with
  | call | tableCall | stringCall =>
    obtain rfl := Option.some.inj h
    simp
    omega
  | _ => cases h

theorem ofChain_callee (h : e.callee? = some base) : Ending.ofChain e = .call := by
  cases e with
  | call | tableCall | stringCall => rfl
  | _ => cases h

theorem wellFormed_callee (h : e.callee? = some base) (he : WellFormed.expression mode false e) :
    (∃ inner key span, base = .member inner .colon key span ∧ WellFormed.expression mode false inner) ∨
      WellFormed.expression mode false base := by
  have hbase : WellFormed.expression mode true base := by
    cases e with
    | call | tableCall | stringCall =>
      obtain rfl := Option.some.inj h
      exact he.1
    | _ => cases h
  cases base with
  | member inner ix key span =>
    cases ix with
    | colon => exact .inl ⟨inner, key, span, rfl, hbase.2.1⟩
    | dot => exact .inr ⟨nofun, hbase.2⟩
  | _ => exact .inr hbase

theorem yields_nextSuffix {ending : Ending} (next : Ending) (hfirst : Ending.ofSuffix? first.token = some next)
    (hzero : levels = 0 → lack)
    (hsuffix : ∀ below, levels = below + 1 → Regains c lack (first :: ws) (g.suffix below start read) Bare.expression e rest)
    (hbehind : ∀ longer below, levels = below + 1 → Bare.expression longer = Bare.expression e →
      Yields c lack rest (g.leftSuffixes start longer next below) good out) :
    Yields c lack (first :: ws) (g.leftSuffixes start read ending levels) good out := by
  refine levels.casesOn (fun hzero _ _ => ?_) (fun levels hzero hsuffix hbehind => ?_) hzero hsuffix hbehind
  · refine .token fun span => .yes ?_ (.tooManyLevels (hzero rfl))
    exact Option.isSome_of_eq_some hfirst
  · refine .token fun span => ?_
    have hnext : Ending.ofSuffix? (first.at span) = some next := hfirst
    simp only [hnext]
    exact (hsuffix levels rfl).bind fun longer => hbehind longer levels rfl

/-- All goes well from the start of a chain on if it does once the chain has been read. A suffix spends a level and is a
token long at least. -/
theorem yields_trail {rest : List Spelling} (hg : g.Rereads mode c depth) (e : Expr) (hl : levels ≤ depth)
    (he : WellFormed.expression mode false e) (hread : Bare.expression read = Bare.expression e.chainRoot)
    (hlack : levels < 2 * (Render.trail e).length → lack)
    (hbehind : ∀ longer below, Bare.expression longer = Bare.expression e → below ≤ levels →
      levels ≤ below + (Render.trail e).length →
        Yields c lack rest (g.leftSuffixes start longer (.ofChain e) below) good out) :
    Yields c lack (Render.trail e ++ rest) (g.leftSuffixes start read (.ofChain e.chainRoot) levels) good out := by
  cases hcallee : e.callee? with
  | some base =>
    rw [Render.trail_of_callee hcallee] at hlack hbehind ⊢
    rw [Render.chainRoot_of_callee hcallee] at hread ⊢
    rw [ofChain_callee hcallee] at hbehind
    simp only [length_append] at hlack hbehind
    have hshorter := sizeOf_callee hcallee
    obtain ⟨first, tail, hhead, hfirst⟩ := Render.exists_head_arguments hcallee he
    obtain ⟨inner, key, span, rfl, hinner⟩ | hbase := wellFormed_callee hcallee he
    · -- A method call is one suffix, although it makes two nodes.
      have hinnermost : sizeOf inner < sizeOf e := by
        rw [Expr.member.sizeOf_spec] at hshorter
        omega
      rw [Render.trail, append_assoc, append_assoc]
      simp only [Render.trail, length_append, length_cons, length_nil] at hlack hbehind
      refine yields_trail hg inner hl hinner hread (fun hlt => hlack (by omega)) fun longer below hlonger hle hge => ?_
      refine yields_nextSuffix .call rfl (fun hzero => hlack (by omega)) (fun left hleft => ?_) fun longest left hleft hlongest =>
        hbehind longest left hlongest (by omega) (by omega)
      exact (regains_methodSuffix span hlonger hg (by omega) hcallee he).weaken fun hlt => hlack (by omega)
    · rw [append_assoc]
      have hpositive : 0 < (Render.arguments e).length := by rw [hhead]; exact Nat.succ_pos _
      refine yields_trail hg base hl hbase hread (fun hlt => hlack (by omega)) fun longer below hlonger hle hge => ?_
      have hsuffix : ∀ left, below = left + 1 →
          Regains c lack (Render.arguments e ++ rest) (g.suffix left start longer) Bare.expression e rest :=
        fun left hleft => (regains_callSuffix hlonger hg (by omega) hcallee he).weaken fun hlt => hlack (by omega)
      rw [hhead, cons_append] at hsuffix ⊢
      exact yields_nextSuffix .call hfirst.ending (fun hzero => hlack (by omega)) hsuffix fun longest left hleft hlongest =>
        hbehind longest left hlongest (by omega) (by omega)
  | none =>
    cases e with
    | member base ix key span =>
      obtain ⟨hindexer, hbase, -⟩ := he
      cases ix with
      | colon => cases hindexer rfl
      | dot =>
        rw [Render.trail, append_assoc]
        simp only [Render.trail, length_append, length_cons, length_nil] at hlack hbehind
        refine yields_trail hg base hl hbase hread (fun hlt => hlack (by omega)) fun longer below hlonger hle hge => ?_
        exact yields_nextSuffix .assignable rfl (fun hzero => hlack (by omega)) (fun _ _ => regains_memberSuffix span hlonger)
          fun longest left hleft hlongest => hbehind longest left hlongest (by omega) (by omega)
    | index base key span =>
      rw [Render.trail, append_assoc, append_assoc]
      simp only [Render.trail, length_append, length_cons, length_nil] at hlack hbehind
      refine yields_trail hg base hl he.1 hread (fun hlt => hlack (by omega)) fun longer below hlonger hle hge => ?_
      refine yields_nextSuffix .assignable rfl (fun hzero => hlack (by omega)) (fun left hleft => ?_)
        fun longest left hleft hlongest => hbehind longest left hlongest (by omega) (by omega)
      exact (regains_indexSuffix span hlonger hg (by omega) he.2).weaken fun hlt => hlack (by omega)
    | call | tableCall | stringCall => cases hcallee
    | name | string | number | boolean | nil | vararg | binary | logical | unary | table | function =>
      exact hbehind read levels hread le_rfl le_rfl
termination_by sizeOf e

theorem yields_noSuffix {ending : Ending} (hfirst : startsSuffix first.token = false) :
    Yields c lack (first :: rest) (g.leftSuffixes start read ending levels) (· = ⟨[read], ending, levels⟩) (first :: rest) := by
  have hnone : ∀ span, Ending.ofSuffix? (first.at span) = none := by
    intro span
    rw [startsSuffix_eq] at hfirst
    exact Option.not_isSome_iff_eq_none.mp (ne_true_of_eq_false hfirst)
  cases levels with
  | zero => exact .token fun span => .no (by rw [hnone]; rfl) (.pure rfl)
  | succ =>
    refine .token fun span => ?_
    simp only [hnone]
    exact .pure rfl

theorem yields_leftSuffixes (hg : g.Rereads mode c depth) (hl : levels ≤ depth) (he : WellFormed.expression mode false e)
    (hread : Bare.expression read = Bare.expression e.chainRoot) (hrest : Stops precedence rest) :
    Yields c (levels < 2 * (Render.trail e).length) (Render.trail e ++ rest)
      (g.leftSuffixes start read (.ofChain e.chainRoot) levels)
      (fun side => ∃ longer below, side = ⟨[longer], .ofChain e, below⟩ ∧ Bare.expression longer = Bare.expression e ∧
        below ≤ levels ∧ levels ≤ below + (Render.trail e).length) rest := by
  refine yields_trail hg e hl he hread id fun longer below hlonger hle hge => ?_
  cases rest with
  | nil => exact hrest.elim
  | cons => exact (yields_noSuffix hrest.1).imp fun side hside => ⟨longer, below, hside, hlonger, hle, hge⟩

theorem regains_suffixes (hg : g.Rereads mode c depth) (hl : levels ≤ depth) (he : WellFormed.expression mode false e)
    (hread : Bare.expression read = Bare.expression e.chainRoot) (hrest : Stops precedence rest) :
    Regains c (levels < 2 * (Render.trail e).length) (Render.trail e ++ rest) (g.suffixes start read levels) Bare.expression e
      rest := by
  rw [suffixes_eq_map read (.ofChain e.chainRoot)]
  refine (yields_leftSuffixes hg hl he hread hrest).map ?_
  rintro _ ⟨longer, below, rfl, hlonger, -⟩
  exact hlonger

/-! ### Operands -/

theorem wellFormed_chainRoot {isCallee : Bool} (e : Expr) (h : WellFormed.expression mode isCallee e) :
    WellFormed.expression mode false e.chainRoot := by
  cases e with
  | member base => exact wellFormed_chainRoot base h.2.1
  | index base | call base | tableCall base | stringCall base => exact wellFormed_chainRoot base h.1
  | name | string | number | boolean | nil | vararg | binary | logical | unary | table | function => exact h

variable (hg : g.Rereads mode c depth) (hl : levels < depth) (he : WellFormed.expression mode false e)

include hg hl he in
theorem regains_parenthesized :
    Regains c (levels < 2 * (Render.expression e).length)
      (Render.sign .leftParen :: Render.expression e ++ Render.sign .rightParen :: rest) (g.parenthesized levels)
      Bare.expression e rest := by
  refine .openBracket ((regains_value hg hl he (.of_none rfl rfl)).bind fun found hfound => ?_)
  exact .closeBracket rfl (.pure hfound)

include hg hl he in
theorem finds_chain (hrest : Stops precedence rest) :
    Finds c (levels + 1 < 2 * (Render.parens (!e.isPrefix) (Render.expression e)).length)
      (Render.parens (!e.isPrefix) (Render.expression e) ++ rest) (g.chain? levels) Bare.expression e rest := by
  rw [Render.parens_eq_root, length_append]
  cases levels with
  | zero =>
    obtain ⟨first, tail, hroot, -⟩ := Render.exists_head_root e
    refine .tooManyLevels ?_
    rw [hroot, length_cons]
    omega
  | succ =>
    obtain ⟨id, hname, hroot⟩ | ⟨-, hroot⟩ := Render.root_cases e
    · rw [hroot, length_singleton]
      refine .token fun _ => .yes rfl ?_
      refine regains_identifier.bind fun read hread => (regains_reference hread).bind fun used hused => ?_
      have hbase : Bare.expression (.name used) = Bare.expression e.chainRoot := by
        rw [hname, Bare.expression, Bare.expression, hused]
      exact (regains_suffixes hg (by omega) he hbase hrest).step (by omega) fun read hread => .pure ⟨read, rfl, hread⟩
    · rw [hroot]
      simp only [cons_append, append_assoc, nil_append, length_cons, length_append, length_nil]
      refine .token fun _ => .no rfl (.yes rfl ?_)
      refine (regains_parenthesized hg (by omega) (wellFormed_chainRoot e he)).step (by omega) fun base hbase => ?_
      exact (regains_suffixes hg (by omega) he hbase hrest).step (by omega) fun read hread => .pure ⟨read, rfl, hread⟩

include hg hl he in
theorem finds_primary (hprimary : e.isPrimary = true) :
    Finds c (levels + 1 < 2 * (Render.expression e).length) (Render.expression e ++ rest) (g.primary? levels) Bare.expression e
      rest := by
  cases e with
  | string | number | boolean | nil | vararg =>
    exact .token fun _ => .quiet fun _ => .advance rfl (.pure ⟨_, rfl, rfl⟩)
  | table t =>
    have hread : Regains c _ (_ ++ rest) _ _ _ _ := regains_table hg hl he
    obtain ⟨fs, span⟩ := t
    refine .token fun _ => .no rfl (.yes rfl (hread.bind fun found hfound => .pure ⟨_, rfl, ?_⟩))
    rw [Bare.expression, Bare.expression, hfound]
  | function =>
    rw [Render.expression, length_cons]
    refine .token fun _ => .yes rfl (.enter rfl ?_)
    refine (regains_functionBody hg hl he false).step (by omega) fun found hfound => .pure ⟨_, rfl, ?_⟩
    rw [Bare.expression, Bare.expression, hfound]
  | _ => cases hprimary

theorem literal?_at (h : (literal? first.token).isNone = true) (span : Span) : literal? (first.at span) = none := by
  obtain ⟨kind, text⟩ := first
  cases kind with
  | string | number | boolean | nil | vararg => cases h
  | _ => rfl

theorem yields_noPrimary (hliteral : (literal? first.token).isNone = true)
    (hfunction : first.token.isKeyword .functionKw = false) (hbrace : first.token.isSymbol .leftBrace = false) :
    Yields c lack (first :: rest) (g.primary? levels) (· = none) (first :: rest) := by
  refine .token fun span => ?_
  simp only [literal?_at hliteral]
  exact .no hfunction (.no hbrace (.pure rfl))

theorem unaryOp_token (op : UnaryOp) : UnaryOp.ofToken? (Render.unary op).token = some op := by
  cases op <;> rfl

include hg hl he in
theorem finds_chainOperand (hrest : Stops precedence rest) :
    Finds c (levels + 1 < 2 * (Render.parens (!e.isPrefix) (Render.expression e)).length)
      (Render.parens (!e.isPrefix) (Render.expression e) ++ rest) (g.operand? levels) Bare.expression e rest := by
  obtain ⟨⟨kind, text⟩, tail, hroot, hfirst⟩ := Render.exists_head_root e
  have hchain := finds_chain hg hl he hrest
  rw [Render.parens_eq_root, hroot, cons_append] at hchain ⊢
  obtain rfl | rfl := hfirst
  · refine .token fun _ => (yields_noPrimary rfl rfl rfl).bind ?_
    rintro _ rfl
    exact hchain
  · refine .token fun _ => (yields_noPrimary rfl rfl rfl).bind ?_
    rintro _ rfl
    exact hchain

theorem finds_unaryOperand {op : UnaryOp} {span : Span} (hg : g.Rereads mode c depth) (hl : levels < depth)
    (he : WellFormed.expression mode false argument) (hrest : Stops UnaryOp.operandPrecedence rest) :
    Finds c (levels + 1 < 2 * (Render.expression (.unary op argument span)).length)
      (Render.expression (.unary op argument span) ++ rest) (g.operand? levels) Bare.expression (.unary op argument span) rest := by
  rw [Render.expression, length_cons]
  refine .token fun span => ?_
  have hop : UnaryOp.ofToken? ((Render.unary op).at span) = some op := unaryOp_token op
  simp only [hop]
  refine .advance (by cases op <;> rfl) ?_
  refine (regains_expected (hg.expression hl (by decide) he hrest)).step (by omega) fun found hfound => ?_
  refine .quiet fun _ => .pure ⟨_, rfl, ?_⟩
  rw [Bare.expression, Bare.expression, hfound]

include hg hl he in
theorem finds_primaryOperand (hprimary : e.isPrimary = true) :
    Finds c (levels + 1 < 2 * (Render.expression e).length) (Render.expression e ++ rest) (g.operand? levels) Bare.expression e
      rest := by
  obtain ⟨first, tail, hhead, hfirst⟩ := Render.exists_head_primary hprimary
  have hread : Finds c _ (_ ++ rest) _ _ _ _ := finds_primary hg hl he hprimary
  rw [hhead] at hread ⊢
  refine .token fun span => ?_
  have hnone : UnaryOp.ofToken? (first.at span) = none := hfirst
  simp only [hnone]
  refine hread.bind ?_
  rintro _ ⟨read, rfl, hsame⟩
  exact .pure ⟨read, rfl, hsame⟩

include hg hl he in
theorem finds_operand {needed : Bool} (hneeded : needed = true → e.isPrefix = false) (hop : needed = false → e.dyadicOp? = none)
    (hrest : Stops (if needed then 12 else e.openness) rest) :
    Finds c (levels + 1 < 2 * (Render.parens needed (Render.expression e)).length)
      (Render.parens needed (Render.expression e) ++ rest) (g.operand? levels) Bare.expression e rest := by
  cases needed with
  | true =>
    have hparens : true = !e.isPrefix := by rw [hneeded rfl]; rfl
    rw [hparens]
    exact finds_chainOperand hg hl he hrest
  | false =>
    obtain hchain | hprimary | ⟨op, argument, span, rfl⟩ := Expr.operand_cases (hop rfl)
    · have hparens : false = !e.isPrefix := by rw [hchain]; rfl
      rw [hparens]
      exact finds_chainOperand hg hl he hrest
    · exact finds_primaryOperand hg hl he hprimary
    · exact finds_unaryOperand hg hl he hrest

/-! ### Operators -/

theorem operators?_eq (levels precedence : Nat) :
    g.operators? (levels + 1) precedence = (do
      let t ← token
      let r ← g.operand? levels
      r.mapM (g.moreOperators precedence t.span.start · (levels + 1))) := by
  simp only [operators?, moreOperators]
  refine bind_congr fun t => bind_congr fun r => ?_
  cases r with
  | none => rfl
  | some left =>
    rw [Option.mapM_some, map_bind]
    refine bind_congr fun found => ?_
    cases found with
    | none => simp
    | some => simp

theorem yields_operatorAbove (habove : precedence < op.precedence) :
    Yields c lack (Render.dyadic op :: rest) (operatorAbove? precedence) (· = some op) (Render.dyadic op :: rest) := by
  refine .token fun span => .pure ?_
  have hop : DyadicOp.ofToken? ((Render.dyadic op).at span) = some op := op.ofToken?_dyadic
  simp [hop, habove]

theorem yields_noOperatorAbove (hrest : Stops precedence rest) :
    Yields c lack rest (operatorAbove? precedence) (· = none) rest := by
  cases rest with
  | nil => exact hrest.elim
  | cons first =>
    refine .token fun span => .pure ?_
    rw [Option.filter_eq_none_iff]
    intro op hop
    simpa using hrest.2 op hop

theorem regains_extend {span : Span} (hg : g.Rereads mode c depth) (hl : levels < depth)
    (hright : WellFormed.expression mode false right) (hread : Bare.expression read = Bare.expression left)
    (hrest : Stops op.rightPrecedence rest) :
    Regains c (levels < 2 * (Render.parens (right.isLooser op.rightPrecedence) (Render.expression right)).length)
      (Render.dyadic op :: (Render.parens (right.isLooser op.rightPrecedence) (Render.expression right) ++ rest))
      (g.extend levels start read op) Bare.expression (.dyadic op left right span) rest := by
  refine .advance (by cases op <;> rfl) ?_
  refine (regains_expected (hg.expression hl op.rightPrecedence_le hright hrest)).bind fun found hfound => ?_
  refine .quiet fun _ => .pure ?_
  rw [Bare.expression_dyadic, Bare.expression_dyadic, hread, hfound]

theorem regains_noOperator {read : Expr} (hread : Bare.expression read = Bare.expression e) (hrest : Stops precedence rest) :
    Regains c lack rest (g.moreOperators precedence start read levels) Bare.expression e rest := by
  cases levels with
  | zero | succ =>
    refine (yields_noOperatorAbove hrest).bind ?_
    rintro _ rfl
    exact .pure hread

theorem yields_nextOperator {good : Expr → Prop} (span : Span) (hg : g.Rereads mode c depth) (hl : levels ≤ depth)
    (hright : WellFormed.expression mode false right) (hread : Bare.expression read = Bare.expression left)
    (habove : precedence < op.precedence) (hrest : Stops op.rightPrecedence rest)
    (hlack : levels ≤ 2 * (Render.parens (right.isLooser op.rightPrecedence) (Render.expression right)).length → lack)
    (hbehind : ∀ longer below, levels = below + 1 →
      Bare.expression longer = Bare.expression (.dyadic op left right span) →
        Yields c lack rest (g.moreOperators precedence start longer below) good out) :
    Yields c lack (Render.dyadic op :: (Render.parens (right.isLooser op.rightPrecedence) (Render.expression right) ++ rest))
      (g.moreOperators precedence start read levels) good out := by
  cases levels with
  | zero =>
    refine (yields_operatorAbove habove).bind ?_
    rintro _ rfl
    exact .tooManyLevels (hlack (Nat.zero_le _))
  | succ levels =>
    refine (yields_operatorAbove habove).bind ?_
    rintro _ rfl
    exact (regains_extend hg hl hright hread hrest).step hlack fun longer => hbehind longer levels rfl

/-- The operators of an expression are read from its first operand on. If all goes well behind the expression, then all
goes well behind the first operand. -/
theorem yields_spine {good : Expr → Prop} {rest : List Spelling} {needed : Bool} (e : Expr)
    (hg : g.Rereads mode c depth) (hl : levels < depth) (he : WellFormed.expression mode false e)
    (hneeded : needed = true → e.isPrefix = false) (hstrong : needed = false → e.isLooser precedence = false)
    (hrest : Stops (if needed then 12 else e.openness) rest)
    (hlack : levels + 1 < 2 * (Render.parens needed (Render.expression e)).length → lack)
    (hbehind : ∀ read below, Bare.expression read = Bare.expression e → below ≤ levels + 1 →
      levels + 1 < below + (Render.parens needed (Render.expression e)).length →
        Yields c lack rest (g.moreOperators precedence start read below) good out) :
    Yields c lack (Render.parens needed (Render.expression e) ++ rest)
      (do
        let r ← g.operand? levels
        r.mapM (g.moreOperators precedence start · (levels + 1)))
      (fun r => ∃ read, r = some read ∧ good read) out := by
  by_cases hop : needed = false → e.dyadicOp? = none
  · refine (finds_operand hg hl he hneeded hop hrest).step hlack ?_
    rintro _ ⟨read, rfl, hread⟩
    have := Render.length_parens_pos needed e
    exact (hbehind read _ hread le_rfl (by omega)).map fun longer hlonger => ⟨longer, rfl, hlonger⟩
  · obtain ⟨hbare, hop⟩ := Classical.not_imp.mp hop
    obtain ⟨op, left, right, span, rfl⟩ | hnone := e.dyadic_or
    · subst hbare
      rw [Expr.isLooser_dyadic] at hstrong
      have habove : precedence < op.precedence := by simpa using hstrong rfl
      rw [if_neg Bool.false_ne_true, Expr.openness_dyadic] at hrest
      rw [WellFormed.expression_dyadic] at he
      have hsize := Expr.sizeOf_left op left right span
      simp only [Render.parens_false, Render.expression_dyadic, length_append, length_cons] at hlack hbehind
      rw [Render.parens_false, Render.expression_dyadic, append_assoc]
      refine yields_spine left hg hl he.1 Expr.isPrefix_of_isLooserThan (fun h => Expr.isLooser_left h habove) ?_ ?_ ?_
      · split
        next => exact op.stops_dyadic
        next h => exact Expr.stops_left (by simpa using h)
      · exact fun _ => hlack (by omega)
      · intro read below hread hbelow hspent
        refine yields_nextOperator span hg (by omega) he.2 hread habove hrest (fun _ => hlack (by omega)) ?_
        intro longer below hlevels hlonger
        exact hbehind longer below hlonger (by omega) (by omega)
    · exact absurd hnone hop
termination_by sizeOf e

/-- An expression is read again where only operators above `precedence` are read, in parentheses if it is not strong
enough. -/
theorem finds_operators (hg : g.Rereads mode c depth) (hl : levels ≤ depth) (hp : precedence ≤ 11)
    (he : WellFormed.expression mode false e) (hrest : Stops precedence rest) :
    Finds c (levels < 2 * (Render.parens (e.isLooser precedence) (Render.expression e)).length)
      (Render.parens (e.isLooser precedence) (Render.expression e) ++ rest) (g.operators? levels precedence) Bare.expression e
      rest := by
  have hpositive := Render.length_parens_pos (e.isLooser precedence) e
  cases levels with
  | zero => exact .tooManyLevels (by omega)
  | succ =>
    rw [operators?_eq]
    have hbehind : Stops (if e.isLooser precedence then 12 else e.openness) rest := by
      split
      next => exact hrest.mono (by omega)
      next h => exact Expr.stops_openness hrest hp (by simpa using h)
    exact .quiet fun _ => yields_spine e hg hl he Expr.isPrefix_of_isLooser id hbehind id
      fun read below hread _ _ => regains_noOperator hread hrest

theorem yields_noOperand (hfirst : first.token.startsNothing = true) :
    Yields c (levels < 1) (first :: rest) (g.operand? levels) (· = none) (first :: rest) := by
  simp only [startsNothing, Bool.and_eq_true, Bool.not_eq_true'] at hfirst
  obtain ⟨⟨⟨⟨⟨hunary, hliteral⟩, hfunction⟩, hbrace⟩, hid⟩, hparen⟩ := hfirst
  refine .token fun span => ?_
  have hnone : UnaryOp.ofToken? (first.at span) = none := Option.isNone_iff_eq_none.mp hunary
  simp only [hnone]
  refine (yields_noPrimary hliteral hfunction hbrace).bind ?_
  rintro _ rfl
  cases levels with
  | zero => exact .tooManyLevels Nat.one_pos
  | succ => exact .token fun _ => .no hid (.no hparen (.pure rfl))

theorem yields_noExpression (hfirst : first.token.startsNothing = true) :
    Yields c (levels < 2) (first :: rest) (g.operators? levels precedence) (· = none) (first :: rest) := by
  cases levels with
  | zero => exact .tooManyLevels (by omega)
  | succ levels =>
    refine .token fun _ => (yields_noOperand hfirst).step (by omega) ?_
    rintro _ rfl
    exact .pure rfl

end Grammar

end CartLua
