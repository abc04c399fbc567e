import CartLua.Proofs.Derivation
import CartLua.Proofs.Termination
/-!
# The grammar derives what it gives

Whenever a parser of the grammar gives a tree, there is a derivation of it. Every parser is taken apart here once; behind
this module a run is known by its derivation.
-/

namespace CartLua

open Parse Session Outcome

variable {α : Type} {c : Settings} {s t u : Session}

/-! ### Tokens and loops -/

namespace Parse

variable {terminal : Terminal} {motive : Session → List α → Prop}

theorem is_of_consume {found : Bool} (h : (consume terminal).run c s = .ok found t) :
    s.window.token.is terminal = found := (consume_cases h).1

theorem consume_eq_false (h : (consume terminal).run c s = .ok false t) : t = s := (consume_cases h).2.2 rfl

theorem consume_of_advance (his : s.window.token.is terminal = true) (h : advance.run c s = .ok () t) :
    (consume terminal).run c s = .ok true t := by
  simp only [consume, run_bind_eq_ok, run_token, ok.injEq]
  exact ⟨_, _, ⟨rfl, rfl⟩, by rw [his]; exact run_bind_eq_ok.mpr ⟨(), t, h, rfl⟩⟩

theorem advance_of_consume (h : (consume terminal).run c s = .ok true t) : advance.run c s = .ok () t :=
  (consume_cases h).2.1 rfl

theorem many_induction {step : Parse (Option α)} (hend : motive t [])
    (hstep : ∀ {s u r rest}, step.run c s = .ok r u → motive u rest → motive s (r.toList ++ rest))
    {found : List α} (h : (many step).run c s = .ok found t) : motive s found := by
  refine collect_induction (fun {s u found more rest} hrun hmore hdone => ?_) h
  obtain ⟨_ | a, _, hr, ⟨⟩⟩ := run_bind_eq_ok.mp hrun
  · obtain ⟨rfl, rfl⟩ := hdone rfl
    exact hstep hr hend
  · exact hstep hr (hmore rfl)

end Parse

namespace Grammar

variable {g : Grammar} {levels left : Nat} {cs : List Clause} {ids : List Identifier} {rounds : Nat}

/-- The parts of a grammar derive what they give. Where there is no expression nothing has happened. -/
structure Derived (c : Settings) (g : Grammar) : Prop where
  expression : ∀ {levels precedence s e t}, (g.expression levels precedence).run c s = .ok (some e) t →
    Derives c s (.expression levels e) t
  none : ∀ {levels precedence s t}, (g.expression levels precedence).run c s = .ok none t → t = s ∧ 0 < levels
  statement : ∀ {levels s stmt t}, (g.statement levels).run c s = .ok (some stmt) t →
    Derives c s (.statement levels stmt) t
  empty : ∀ {levels s t}, (g.statement levels).run c s = .ok Option.none t →
    s.window.token.kind = .symbol .semicolon ∧ advance.run c s = .ok () t

/-! ### Names -/

theorem span_identifier {id : Identifier} (h : identifier.run c s = .ok id t) :
    id.span = s.window.token.span ∧ advance.run c s = .ok () t := by
  obtain ⟨-, rfl, hadvance⟩ := identifier_cases h
  exact ⟨rfl, hadvance⟩

theorem window_checkVararg {k : Token} {a : Unit} (h : (checkVararg k).run c s = .ok a t) : t.window = s.window := by
  simp only [checkVararg, run_bind_eq_ok, run_look, ok.injEq, run_ite] at h
  obtain ⟨_, _, ⟨rfl, rfl⟩, h⟩ := h
  split_ifs at h <;> cases h <;> rfl

theorem derives_moreNames (h : (moreNames identifier).run c s = .ok ids t) :
    Derives c s (.moreNames ids) t := by
  refine many_induction (motive := fun s ids => Derives c s (.moreNames ids) t) .noMoreNames
    (fun {s u r ids} hrun hids => ?_) h
  obtain ⟨_ | _, v, hcomma, hname⟩ := run_bind_eq_ok.mp hrun
  · cases hname
    rwa [consume_eq_false hcomma] at hids
  · obtain ⟨_, _, hid, ⟨⟩⟩ := run_bind_eq_ok.mp hname
    exact .moreNames hcomma hid hids

theorem derives_moreLocals (h : (moreNames localName).run c s = .ok ids t) :
    Derives c s (.moreLocals ids) t := by
  refine many_induction (motive := fun s ids => Derives c s (.moreLocals ids) t) .noMoreLocals
    (fun {s u r ids} hrun hids => ?_) h
  obtain ⟨_ | _, v, hcomma, hname⟩ := run_bind_eq_ok.mp hrun
  · cases hname
    rwa [consume_eq_false hcomma] at hids
  · simp only [if_true, localName, run_bind_eq_ok, run_pure, ok.injEq] at hname
    obtain ⟨_, _, ⟨_, _, hid, _, _, hlocal, rfl, rfl⟩, rfl, rfl⟩ := hname
    exact .moreLocals hcomma hid hlocal hids

theorem functionKey_cases {name e : Expr} {indexer : Indexer} {p : Position} (hstart : name.span.start = p)
    (h : (functionKey name indexer).run c s = .ok e t) :
    ∃ key, identifier.run c s = .ok key t ∧ e = .member name indexer key ⟨p, key.span.stop⟩ := by
  obtain ⟨key, u, hkey, ⟨⟩⟩ := run_bind_eq_ok.mp h
  exact ⟨key, hkey, by rw [hstart]⟩

variable {first : Session}

theorem derives_functionKeyRounds {name e : Expr} (hstart : name.span.start = first.here)
    (hname : Derives c first (.dottedName name) s) (h : (functionKeyRounds name rounds).run c s = .ok e t) :
    e.span.start = first.here ∧ Derives c first (.dottedName e) t := by
  induction rounds generalizing s name with
  | zero => cases h
  | succ rounds ih =>
    obtain ⟨_ | _, u, hdot, h⟩ := run_bind_eq_ok.mp h
    · cases h
      rw [consume_eq_false hdot]
      exact ⟨hstart, hname⟩
    · obtain ⟨longer, v, hlonger, hrest⟩ := run_bind_eq_ok.mp h
      obtain ⟨key, hkey, rfl⟩ := functionKey_cases hstart hlonger
      exact ih rfl (.dottedMember hname hdot hkey) hrest

theorem derives_functionName {e : Expr} (h : functionName.run c s = .ok e t) : Derives c s (.functionName e) t := by
  simp only [functionName, functionKeys, run_bind_eq_ok, run_settings, ok.injEq] at h
  obtain ⟨id, _, hid, id', _, hreference, name, _, ⟨_, _, ⟨rfl, rfl⟩, hkeys⟩, colon, u, hcolon, h⟩ := h
  have hstart : (Expr.name id').span.start = s.here := by
    cases hreference
    exact congrArg Span.start (span_identifier hid).1
  obtain ⟨hstart', hname⟩ := derives_functionKeyRounds hstart (.dottedName hid hreference) hkeys
  cases colon with
  | true =>
    obtain ⟨key, hkey, rfl⟩ := functionKey_cases hstart' h
    exact .methodName hname hcolon hkey
  | false =>
    cases h
    rw [consume_eq_false hcolon]
    exact .functionName hname

theorem derives_parameters {ps : List Parameter} (h : parameters.run c s = .ok ps t) :
    ∃ u, (expect Symbol.leftParen).run c s = .ok () u ∧ Derives c u (.parameters ps) t := by
  obtain ⟨_, u, hopen, h⟩ := run_bind_eq_ok.mp h
  refine ⟨u, hopen, ?_⟩
  obtain ⟨_ | _, v, hclose, h⟩ := run_bind_eq_ok.mp h
  · rw [consume_eq_false hclose] at h
    refine collect_induction (motive := fun s ps => Derives c s (.parameters ps) t)
      (fun {s u found more ps} hrun hmore hdone => ?_) h
    obtain ⟨_, _, ⟨⟩, hrun⟩ := run_bind_eq_ok.mp hrun
    split_ifs at hrun with hid hvararg
    · simp only [run_bind_eq_ok] at hrun
      obtain ⟨id, _, hid, id', _, hdeclare, _ | _, w, hcomma, hrun⟩ := hrun
      · obtain ⟨_, _, hclose, ⟨⟩⟩ := run_bind_eq_ok.mp hrun
        obtain ⟨rfl, rfl⟩ := hdone rfl
        rw [consume_eq_false hcomma] at hclose
        exact .lastParameter hid hdeclare hclose
      · cases hrun
        exact .parameters hid hdeclare hcomma (hmore rfl)
    · simp only [run_bind_eq_ok, run_pure, ok.injEq] at hrun
      obtain ⟨_, _, hallow, _, _, hadvance, _, _, hclose, ⟨⟩, rfl⟩ := hrun
      obtain ⟨rfl, rfl⟩ := hdone rfl
      refine .varargParameter ?_ hallow hadvance hclose
      split at hvararg
      next hkind => exact hkind
      next => cases hvararg
    · cases hrun
  · cases h
    exact .noParameters hclose

/-- How the left side ends tells what its last expression is. -/
def Ending.Fits : Ending → Expr → Prop
  | .assignable, e => e.isTarget = true
  | .parenthesized, _ => True
  | .call, e => e.isCall = true

theorem ending_eq {t : Token} {ending : Ending} (h : Ending.ofSuffix? t = some ending) :
    ending = if t.isSymbol .leftBracket || t.is Symbol.dot then .assignable else .call := by
  unfold Ending.ofSuffix? at h
  split at h <;> cases h <;> rename_i hkind <;> simp [Token.is, Token.isSymbol, hkind]

variable {precedence : Nat}

theorem operatorAbove?_eq {r : Option DyadicOp} (h : (operatorAbove? precedence).run c s = .ok r t) :
    t = s ∧ ∀ op, r = some op → DyadicOp.ofToken? s.window.token = some op := by
  obtain ⟨_, _, ⟨⟩, ⟨⟩⟩ := run_bind_eq_ok.mp h
  exact ⟨rfl, fun op hop => (Option.filter_eq_some_iff.mp hop).1⟩

theorem elseClause_cases {p : Parse Block} (h : (elseClause p).run c s = .ok cs t) :
    (cs = [] ∧ t = s) ∨ ∃ u body v span, Opens c Keyword.elseKw s u ∧ p.run c u = .ok body v ∧
      finish.run c v = .ok span t ∧ cs = [.otherwise body span] := by
  obtain ⟨_, _, ⟨⟩, h⟩ := run_bind_eq_ok.mp h
  split at h
  next helse =>
    simp only [run_bind_eq_ok, run_pure, ok.injEq] at h
    obtain ⟨_, _, hmark, _, _, hadvance, body, _, hbody, span, _, hfinish, rfl, rfl⟩ := h
    exact .inr ⟨_, body, _, span, ⟨Token.is_iff_kind.mp helse, _, hmark, hadvance⟩, hbody, hfinish, rfl⟩
  next =>
    cases h
    exact .inl ⟨rfl, rfl⟩

/-! ### Expressions -/

section

variable (hg : g.Derived c) {es : List Expr} {r : Option Expr} {side : LeftSide}

include hg

theorem derives_expected {e : Expr} (h : (expected (g.expression levels precedence)).run c s = .ok e t) :
    Derives c s (.expression levels e) t := by
  obtain ⟨_ | e, u, hr, ⟨⟩⟩ := run_bind_eq_ok.mp h
  exact hg.expression hr

theorem derives_valueBehindComma (h : (g.valueBehindComma? levels).run c s = .ok r t) :
    Derives c s (.moreValues levels r.toList) t := by
  obtain ⟨_ | _, u, hcomma, h⟩ := run_bind_eq_ok.mp h
  · cases h
    rw [consume_eq_false hcomma]
    exact .noMoreValues
  · obtain ⟨e, v, he, ⟨⟩⟩ := run_bind_eq_ok.mp h
    exact .moreValues hcomma (derives_expected hg he) .noMoreValues

theorem derives_moreValues (h : (g.moreValues levels).run c s = .ok es t) :
    Derives c s (.moreValues levels es) t := by
  refine many_induction (motive := fun s es => Derives c s (.moreValues levels es) t) .noMoreValues
    (fun {s u r es} hrun hes => ?_) h
  cases r with
  | none =>
    cases derives_valueBehindComma hg hrun
    exact hes
  | some =>
    cases derives_valueBehindComma hg hrun with
    | moreValues hcomma he hrest =>
      cases hrest
      exact .moreValues hcomma he hes

theorem derives_values (h : (g.values levels).run c s = .ok es t) :
    es ≠ [] ∧ Derives c s (.values levels es) t := by
  simp only [values, run_bind_eq_ok, run_pure, ok.injEq] at h
  obtain ⟨first, _, hfirst, more, _, hmore, rfl, rfl⟩ := h
  exact ⟨List.cons_ne_nil _ _, .values (derives_expected hg hfirst) (derives_moreValues hg hmore)⟩

theorem derives_optionalValues (h : (g.optionalValues levels).run c s = .ok es t) :
    0 < levels ∧ Derives c s (.values levels es) t := by
  obtain ⟨_ | first, u, hr, h⟩ := run_bind_eq_ok.mp h
  · cases h
    obtain ⟨rfl, hlevels⟩ := hg.none hr
    exact ⟨hlevels, .noValues⟩
  · obtain ⟨more, v, hmore, ⟨⟩⟩ := run_bind_eq_ok.mp h
    have hfirst := hg.expression hr
    refine ⟨?_, .values hfirst (derives_moreValues hg hmore)⟩
    cases hfirst
    exact Nat.succ_pos _

theorem derives_field {r : Option Field} {v : Session} (hmark : mark.run c v = .ok () s)
    (h : (g.field? levels).run c s = .ok r t) :
    (r = none ∧ t = s) ∨ ∃ f, r = some f ∧ Derives c v (.field levels f) t := by
  obtain ⟨_ | _, u, hbracket, h⟩ := run_bind_eq_ok.mp h
  · rw [consume_eq_false hbracket] at h
    simp only [Bool.false_eq_true, if_false, run_bind_eq_ok, run_token, run_lookahead, ok.injEq] at h
    obtain ⟨_, _, ⟨rfl, rfl⟩, _, _, ⟨rfl, rfl⟩, h⟩ := h
    split at h
    next hassign =>
      simp only [run_bind_eq_ok, run_pure, ok.injEq] at h
      obtain ⟨key, _, hkey, _, _, hpass, value, _, hvalue, span, _, hfinish, rfl, rfl⟩ := h
      exact .inr ⟨_, rfl, .namedField hmark hkey (Bool.and_eq_true_iff.mp hassign).2 hpass (derives_expected hg hvalue)
        hfinish⟩
    next =>
      obtain ⟨_ | value, w, hr, h⟩ := run_bind_eq_ok.mp h
      · cases h
        exact .inl ⟨rfl, (hg.none hr).1⟩
      · obtain ⟨span, x, hfinish, ⟨⟩⟩ := run_bind_eq_ok.mp h
        exact .inr ⟨_, rfl, .positionalField hmark (hg.expression hr) hfinish⟩
  · simp only [if_true, run_bind_eq_ok, run_pure, ok.injEq] at h
    obtain ⟨key, _, hkey, _, _, hclose, _, _, hassign, value, _, hvalue, span, _, hfinish, rfl, rfl⟩ := h
    exact .inr ⟨_, rfl, .keyedField hmark hbracket (derives_expected hg hkey) hclose hassign (derives_expected hg hvalue)
      hfinish⟩

theorem derives_table {tbl : Table} (h : (g.table levels).run c s = .ok tbl t) : Derives c s (.table levels tbl) t := by
  simp only [table, run_bind_eq_ok, run_pure, ok.injEq] at h
  obtain ⟨_, u, hmark, outer, v, hopen, fields, w, hfields, _, _, hclose, span, _, hfinish, rfl, rfl⟩ := h
  refine .table hmark hopen ?_ hclose hfinish
  refine collect_induction (motive := fun s fs => Derives c s (.fields levels fs) w)
    (fun {s u found more fs} hrun hmore hdone => ?_) hfields
  simp only [fieldStep, run_bind_eq_ok] at hrun
  obtain ⟨_, x, hmark, r, y, hfield, hrun⟩ := hrun
  obtain ⟨rfl, rfl⟩ | ⟨f, rfl, hf⟩ := derives_field hg hmark hfield
  · cases hmark
    cases hrun
    obtain ⟨rfl, rfl⟩ := hdone rfl
    exact .noFields
  · have hrest : Derives c u (.fields levels fs) w := by
      cases more with
      | false =>
        obtain ⟨rfl, rfl⟩ := hdone rfl
        exact .noFields
      | true => exact hmore rfl
    obtain ⟨_ | _, z, hcomma, hrun⟩ := run_bind_eq_ok.mp hrun
    · obtain ⟨_, _, hsemicolon, ⟨⟩⟩ := run_bind_eq_ok.mp hrun
      rw [consume_eq_false hcomma] at hsemicolon
      exact .fields hf rfl hsemicolon hrest
    · cases hrun
      exact .fields hf rfl hcomma hrest

/-! ### Chains and operators -/

section

variable {first : Session} {start : Nat} {base e : Expr}

theorem derives_call (hbase : Derives c first (.callee start levels base) s)
    (h : (g.call levels first.here base).run c s = .ok e t) :
    Derives c first (.chain start levels e) t ∧ e.isCall = true := by
  obtain ⟨_, _, ⟨⟩, h⟩ := run_bind_eq_ok.mp h
  split_ifs at h
  · simp only [run_bind_eq_ok, run_spanFrom, run_pure, ok.injEq] at h
    obtain ⟨outer, _, hopen, args, _, hargs, _, _, hclose, _, _, ⟨rfl, rfl⟩, rfl, rfl⟩ := h
    exact ⟨.call hbase hopen (derives_optionalValues hg hargs).2 hclose, rfl⟩
  · simp only [run_bind_eq_ok, run_spanFrom, run_pure, ok.injEq] at h
    obtain ⟨argument, _, hargument, _, _, ⟨rfl, rfl⟩, rfl, rfl⟩ := h
    exact ⟨.tableCall hbase (derives_table hg hargument), rfl⟩
  · split at h
    next hkind =>
      simp only [run_bind_eq_ok, run_spanFrom, run_pure, ok.injEq] at h
      obtain ⟨_, _, hadvance, _, _, ⟨rfl, rfl⟩, rfl, rfl⟩ := h
      exact ⟨.stringCall hbase hkind hadvance, rfl⟩
    next => cases h

variable (hbase : Derives c first (.chain start (levels + 1) base) s)

include hbase

theorem derives_suffix (h : (g.suffix levels first.here base).run c s = .ok e t) :
    Derives c first (.chain start levels e) t ∧
      ∀ ending, Ending.ofSuffix? s.window.token = some ending → ending.Fits e := by
  obtain ⟨_, _, ⟨⟩, h⟩ := run_bind_eq_ok.mp h
  split at h
  next hbracket =>
    simp only [run_bind_eq_ok, run_spanFrom, run_pure, ok.injEq] at h
    obtain ⟨outer, _, hopen, key, _, hkey, _, _, hclose, _, _, ⟨rfl, rfl⟩, rfl, rfl⟩ := h
    refine ⟨.index hbase hopen (derives_expected hg hkey) hclose, fun ending hending => ?_⟩
    rw [ending_eq hending, show s.window.token.isSymbol .leftBracket = true from hbracket]
    rfl
  next hbracket =>
    obtain ⟨dot, u, hdot, h⟩ := run_bind_eq_ok.mp h
    have hending : ∀ ending, Ending.ofSuffix? s.window.token = some ending → ending = if dot then .assignable else .call := by
      intro ending hending
      rw [ending_eq hending, show s.window.token.isSymbol .leftBracket = false from eq_false_of_ne_true hbracket,
        is_of_consume hdot, Bool.false_or]
    cases dot with
    | true =>
      obtain ⟨key, v, hkey, ⟨⟩⟩ := run_bind_eq_ok.mp h
      exact ⟨.member hbase hdot hkey, fun ending h => by rw [hending ending h]; rfl⟩
    | false =>
      rw [consume_eq_false hdot] at h
      obtain ⟨colon, v, hcolon, h⟩ := run_bind_eq_ok.mp h
      have hcall : Derives c first (.chain start levels e) t ∧ e.isCall = true := by
        cases colon with
        | true =>
          obtain ⟨key, w, hkey, hcall⟩ := run_bind_eq_ok.mp h
          exact derives_call hg (.method hbase hcolon hkey) hcall
        | false =>
          rw [consume_eq_false hcolon] at h
          exact derives_call hg (.plainCallee hbase) h
      exact ⟨hcall.1, fun ending h => by rw [hending ending h]; exact hcall.2⟩

end

variable {start : Nat}

theorem derives_suffixes {base e : Expr} (hbase : Derives c first (.chain start levels base) s)
    (h : (g.suffixes first.here base levels).run c s = .ok e t) : ∃ left, Derives c first (.chain start left e) t := by
  induction levels generalizing s base with
  | zero =>
    obtain ⟨_, _, ⟨⟩, h⟩ := run_bind_eq_ok.mp h
    split at h
    · cases h
    · cases h
      exact ⟨_, hbase⟩
  | succ levels ih =>
    obtain ⟨_, _, ⟨⟩, h⟩ := run_bind_eq_ok.mp h
    split at h
    · obtain ⟨e, v, hsuffix, hrest⟩ := run_bind_eq_ok.mp h
      exact ih (derives_suffix hg hbase hsuffix).1 hrest
    · cases h
      exact ⟨_, hbase⟩

theorem derives_parenthesized {e : Expr} (h : (g.parenthesized levels).run c s = .ok e t) :
    Derives c s (.chain levels levels e) t := by
  simp only [parenthesized, run_bind_eq_ok, run_pure, ok.injEq] at h
  obtain ⟨outer, _, hopen, e, _, he, _, _, hclose, rfl, rfl⟩ := h
  exact .parenthesized hopen (derives_expected hg he) hclose

theorem derives_extend {left e : Expr} {op : DyadicOp}
    (hleft : Derives c first (.operators start (levels + 1) left) s) (hop : DyadicOp.ofToken? s.window.token = some op)
    (h : (g.extend levels first.here left op).run c s = .ok e t) : Derives c first (.operators start levels e) t := by
  simp only [extend, run_bind_eq_ok, run_spanFrom, run_pure, ok.injEq] at h
  obtain ⟨_, _, hadvance, right, _, hright, _, _, ⟨rfl, rfl⟩, rfl, rfl⟩ := h
  exact .dyadic hleft hop hadvance (derives_expected hg hright)

theorem derives_moreOperators {left e : Expr}
    (hleft : Derives c first (.operators start levels left) s)
    (h : (g.moreOperators precedence first.here left levels).run c s = .ok e t) :
    ∃ rest, Derives c first (.operators start rest e) t := by
  induction levels generalizing s left with
  | zero =>
    obtain ⟨_ | op, u, hoperator, ⟨⟩⟩ := run_bind_eq_ok.mp h
    obtain ⟨rfl, -⟩ := operatorAbove?_eq hoperator
    exact ⟨_, hleft⟩
  | succ levels ih =>
    obtain ⟨_ | op, u, hoperator, hnext⟩ := run_bind_eq_ok.mp h
    · cases hnext
      obtain ⟨rfl, -⟩ := operatorAbove?_eq hoperator
      exact ⟨_, hleft⟩
    · obtain ⟨rfl, hop⟩ := operatorAbove?_eq hoperator
      obtain ⟨e, v, hextend, hrest⟩ := run_bind_eq_ok.mp hnext
      exact ih (derives_extend hg hleft (hop op rfl) hextend) hrest

/-! ### Assignments and calls -/

/-- A chain on the left side of a statement, and how it ends. Only a chain with a suffix ends as a call. -/
theorem derives_leftSuffixes {base : Expr} {ending : Ending}
    (hbase : Derives c first (.chain start levels base) s) (hle : levels ≤ start) (hfits : ending.Fits base)
    (hcall : ending = .call → levels < start) (h : (g.leftSuffixes first.here base ending levels).run c s = .ok side t) :
    ∃ e, side.targets = [e] ∧ Derives c first (.chain start side.levels e) t ∧ side.ending.Fits e ∧
      (side.ending = .call → side.levels < start) := by
  induction levels generalizing s base ending with
  | zero =>
    obtain ⟨_, _, ⟨⟩, h⟩ := run_bind_eq_ok.mp h
    split at h
    · cases h
    · cases h
      exact ⟨base, rfl, hbase, hfits, hcall⟩
  | succ levels ih =>
    obtain ⟨_, _, ⟨⟩, h⟩ := run_bind_eq_ok.mp h
    cases hsuffix : Ending.ofSuffix? s.window.token with
    | some next =>
      rw [hsuffix] at h
      obtain ⟨longer, u, hlonger, h⟩ := run_bind_eq_ok.mp h
      obtain ⟨hlonger, hnext⟩ := derives_suffix hg hbase hlonger
      exact ih hlonger (Nat.le_of_succ_le hle) (hnext next hsuffix) (fun _ => hle) h
    | none =>
      rw [hsuffix] at h
      cases h
      exact ⟨base, rfl, hbase, hfits, hcall⟩

theorem derives_leftExpression (h : (g.leftExpression levels).run c s = .ok side t) :
    ∃ e, side.targets = [e] ∧ Derives c s (.chain levels side.levels e) t ∧ side.ending.Fits e ∧
      (side.ending = .call → side.levels < levels) := by
  obtain ⟨_, _, ⟨⟩, h⟩ := run_bind_eq_ok.mp h
  split_ifs at h
  · simp only [run_bind_eq_ok] at h
    obtain ⟨id, _, hid, id', _, hreference, h⟩ := h
    have hname : Ending.Fits .assignable (.name id') := rfl
    exact derives_leftSuffixes hg (.name hid hreference) le_rfl hname Ending.noConfusion h
  · obtain ⟨e, u, he, h⟩ := run_bind_eq_ok.mp h
    have hopen : Ending.Fits .parenthesized e := trivial
    exact derives_leftSuffixes hg (derives_parenthesized hg he) le_rfl hopen Ending.noConfusion h
  · cases h

theorem derives_leftRounds (h : (g.leftRounds levels rounds).run c s = .ok side t) :
    side.targets ≠ [] ∧ (side.ending = .assignable → Derives c s (.targets levels side.levels side.targets) t) ∧
      ∀ e, side.ending = .call → side.targets = [e] →
        Derives c s (.chain levels side.levels e) t ∧ e.isCall = true ∧ side.levels < levels := by
  induction rounds generalizing levels s side with
  | zero => cases h
  | succ rounds ih =>
    obtain ⟨first, u, hfirst, h⟩ := run_bind_eq_ok.mp h
    obtain ⟨e, he, hchain, hfits, hless⟩ := derives_leftExpression hg hfirst
    obtain ⟨_, _, ⟨⟩, h⟩ := run_bind_eq_ok.mp h
    split_ifs at h with hcomma hending
    · cases h
      rw [he]
      refine ⟨List.cons_ne_nil _ _, fun hassignable => ?_, fun e' hcall h => ?_⟩
      · rw [hassignable] at hfits
        exact .target hchain hfits
      · cases h
        rw [hcall] at hfits
        exact ⟨hchain, hfits, hless hcall⟩
    · cases h
    · simp only [run_bind_eq_ok, run_pure, ok.injEq] at h
      obtain ⟨_, _, hadvance, more, _, hmore, rfl, rfl⟩ := h
      obtain ⟨hne, htargets, -⟩ := ih hmore
      rw [not_not.mp hending] at hfits
      have hcomma : u.window.token.is Symbol.comma = true := by simpa [Token.is] using hcomma
      rw [he]
      refine ⟨List.cons_ne_nil _ _, fun hassignable => ?_, fun e' _ h => ?_⟩
      · exact .moreTargets hchain hfits (consume_of_advance hcomma hadvance) (htargets hassignable)
      · exact absurd (List.cons.inj h).2 hne

theorem derives_assignmentOrCall {stmt : Stmt} (h : (g.assignmentOrCall levels).run c s = .ok stmt t) :
    Derives c s (.proper levels stmt) t := by
  simp only [assignmentOrCall, leftSide, run_bind_eq_ok, run_settings, ok.injEq] at h
  obtain ⟨_, u, hmark, side, v, ⟨_, _, ⟨rfl, rfl⟩, hside⟩, h⟩ := h
  obtain ⟨-, htargets, hcall⟩ := derives_leftRounds hg hside
  split at h
  next e hending he =>
    obtain ⟨span, w, hfinish, ⟨⟩⟩ := run_bind_eq_ok.mp h
    obtain ⟨hchain, hcall, hleft⟩ := hcall e hending he
    exact .callStatement hmark hchain hcall hleft hfinish
  next hending =>
    obtain ⟨_, _, ⟨⟩, h⟩ := run_bind_eq_ok.mp h
    cases hop : AssignOp.ofToken? v.window.token with
    | none =>
      rw [hop] at h
      cases h
    | some =>
      rw [hop] at h
      simp only [run_bind_eq_ok, run_pure, ok.injEq] at h
      obtain ⟨_, _, hadvance, values, _, hvalues, span, _, hfinish, rfl, rfl⟩ := h
      unfold assignedValues at hvalues
      split at hvalues
      · obtain ⟨e, _, he, ⟨⟩⟩ := run_bind_eq_ok.mp hvalues
        have hvalues := Derives.values (derives_expected hg he) .noMoreValues
        exact .assignment hmark (htargets hending) hop hadvance hvalues (List.cons_ne_nil e []) (fun _ => rfl) hfinish
      next hplain =>
        obtain ⟨hvalued, hvalues⟩ := derives_values hg hvalues
        exact .assignment hmark (htargets hending) hop hadvance hvalues hvalued (absurd · hplain) hfinish
  next => cases h

variable [Balanced c g]

/-! ### Blocks and functions -/

theorem blockStep_cases {found : List Stmt} {more : Bool}
    (h : (blockStep (g.statement levels)).run c s = .ok (found, more) t) :
    (found = [] ∧ more = false ∧ t = s) ∨
    (found = [] ∧ more = true ∧ s.window.token.kind = .symbol .semicolon ∧ advance.run c s = .ok () t) ∨
    (∃ stmt, found = [stmt] ∧ more = !stmt.isReturn ∧ s.window.token.isNewline = false ∧
      Derives c s (.statement levels stmt) t ∧ (s.Orderly c → t.remaining c < s.remaining c)) ∨
    (found = [] ∧ GivesUp c s t) := by
  have hreach := reaches h
  have hmarkers : t.markers.starts = s.markers.starts := congrArg Nesting.markers (Neat.kept h).nesting
  obtain ⟨_, _, ⟨⟩, h⟩ := run_bind_eq_ok.mp h
  split at h
  · cases h
    exact .inl ⟨rfl, rfl, rfl⟩
  next hopen =>
    simp only [Bool.or_eq_true, not_or, Bool.not_eq_true] at hopen
    obtain ⟨_, _, ⟨⟩, h⟩ := run_bind_eq_ok.mp h
    obtain ⟨r, v, hattempt, h⟩ := run_bind_eq_ok.mp h
    obtain ⟨_ | stmt, rfl, hrun⟩ | ⟨d, rfl, hrun⟩ := run_attempt_eq_ok.mp hattempt
    · cases h
      exact .inr (.inl ⟨rfl, rfl, hg.empty hrun⟩)
    · have hstmt := hg.statement hrun
      have hspent hs := Advances.remaining_lt hs (Token.isEof_of_closesBlock hopen.1) hrun
      refine .inr (.inr (.inl ?_))
      cases stmt <;> cases h <;> exact ⟨_, rfl, rfl, hopen.2, hstmt, hspent⟩
    · obtain ⟨_, w, ⟨⟩, h⟩ := run_bind_eq_ok.mp h
      have hbehind := reaches h
      obtain ⟨_, _, _, h⟩ := run_bind_eq_ok.mp h
      obtain ⟨_, _, _, ⟨⟩⟩ := run_bind_eq_ok.mp h
      refine .inr (.inr (.inr ⟨rfl, hreach, hmarkers, fun hclean => ?_⟩))
      have hflow := hclean.of_reaches hbehind d (by simp [Session.report])
      rw [isFlow_of_fault hrun] at hflow
      cases hflow

theorem derives_block {body : Block} (h : (g.block levels).run c s = .ok body t) : Derives c s (.block levels body) t := by
  refine collect_induction (motive := fun s body => Derives c s (.block levels body) t)
    (fun {s u found more body} hrun hmore hdone => ?_) h
  have hrest : Derives c u (.block levels body) t := by
    cases more with
    | false =>
      obtain ⟨rfl, rfl⟩ := hdone rfl
      exact .endBlock
    | true => exact hmore rfl
  obtain ⟨rfl, -, rfl⟩ | ⟨rfl, -, hkind, hadvance⟩ | ⟨stmt, rfl, rfl, hline, hstmt, hspent⟩ | ⟨rfl, hfault⟩ :=
    blockStep_cases hg hrun
  · exact hrest
  · exact .emptyStatement hkind hadvance hrest
  · exact .block hline hstmt hspent (fun hreturn => (hdone (by rw [hreturn]; rfl)).1) hrest
  · exact .givenUp hfault hrest

theorem derives_functionBody {isMethod : Bool} {f : FunctionBody} (h : (g.functionBody levels isMethod).run c s = .ok f t) :
    ∃ ps body span u, f = ⟨ps, body, span⟩ ∧ Derives c s (.function levels isMethod ps body) u ∧
      finish.run c u = .ok span t := by
  simp only [functionBody, run_bind_eq_ok, run_newlines, run_pure, ok.injEq] at h
  obtain ⟨_, _, ⟨rfl, rfl⟩, _, _, hhide, _, _, henter, _, _, hblock, _, _, hscope, _, _, hself, ps, _, hps, body, _, hbody,
    _, _, hclose, _, _, hscope', _, _, hblock', _, _, hleave, span, _, hfinish, rfl, rfl⟩ := h
  obtain ⟨_, hopen, hps⟩ := derives_parameters hps
  exact ⟨ps, body, span, _, rfl, .function hhide henter hblock hscope hself hopen hps (derives_block hg hbody) hclose
    hscope' hblock' hleave, hfinish⟩

/-! ### Operands -/

theorem derives_primary (h : (g.primary? levels).run c s = .ok r t) :
    (r = none ∧ t = s) ∨ ∃ e, r = some e ∧ Derives c s (.operand levels e) t := by
  obtain ⟨_, _, ⟨⟩, h⟩ := run_bind_eq_ok.mp h
  cases hliteral : literal? s.window.token with
  | some e =>
    rw [hliteral] at h
    simp only [run_bind_eq_ok, run_pure, ok.injEq] at h
    obtain ⟨_, _, hcheck, _, _, hadvance, rfl, rfl⟩ := h
    exact .inr ⟨e, rfl, .literal hliteral hcheck hadvance⟩
  | none =>
    rw [hliteral] at h
    split_ifs at h with hfunction
    · simp only [run_bind_eq_ok, run_pure, ok.injEq] at h
      obtain ⟨_, _, hmark, _, _, hadvance, f, _, hf, rfl, rfl⟩ := h
      obtain ⟨ps, body, span, u, rfl, hf, hfinish⟩ := derives_functionBody hg hf
      exact .inr ⟨_, rfl, .functionValue ⟨Token.is_iff_kind.mp hfunction, _, hmark, hadvance⟩ hf hfinish⟩
    · obtain ⟨tbl, _, htable, ⟨⟩⟩ := run_bind_eq_ok.mp h
      exact .inr ⟨_, rfl, .tableValue (derives_table hg htable)⟩
    · cases h
      exact .inl ⟨rfl, rfl⟩

theorem derives_operand (h : (g.operand? levels).run c s = .ok r t) :
    (r = none ∧ t = s) ∨ ∃ e, r = some e ∧ Derives c s (.operand levels e) t := by
  obtain ⟨_, _, ⟨⟩, h⟩ := run_bind_eq_ok.mp h
  cases hop : UnaryOp.ofToken? s.window.token with
  | some =>
    rw [hop] at h
    simp only [run_bind_eq_ok, run_spanFrom, run_pure, ok.injEq] at h
    obtain ⟨_, _, hadvance, argument, _, hargument, _, _, ⟨rfl, rfl⟩, rfl, rfl⟩ := h
    exact .inr ⟨_, rfl, .unary hop hadvance (derives_expected hg hargument)⟩
  | none =>
    rw [hop] at h
    obtain ⟨r, u, hprimary, hchain⟩ := run_bind_eq_ok.mp h
    obtain ⟨rfl, rfl⟩ | ⟨e, rfl, he⟩ := derives_primary hg hprimary
    · cases levels with
      | zero => cases hchain
      | succ =>
        obtain ⟨_, _, ⟨⟩, h⟩ := run_bind_eq_ok.mp hchain
        split_ifs at h
        · simp only [run_bind_eq_ok, run_pure, ok.injEq] at h
          obtain ⟨id, _, hid, id', _, hreference, e, _, hsuffixes, rfl, rfl⟩ := h
          obtain ⟨left, he⟩ := derives_suffixes hg (.name hid hreference) hsuffixes
          exact .inr ⟨e, rfl, .chain he⟩
        · simp only [run_bind_eq_ok, run_pure, ok.injEq] at h
          obtain ⟨base, _, hbase, e, _, hsuffixes, rfl, rfl⟩ := h
          obtain ⟨left, he⟩ := derives_suffixes hg (derives_parenthesized hg hbase) hsuffixes
          exact .inr ⟨e, rfl, .chain he⟩
        · cases h
          exact .inl ⟨rfl, rfl⟩
    · cases hchain
      exact .inr ⟨e, rfl, he⟩

theorem derives_operators (h : (g.operators? levels precedence).run c s = .ok r t) :
    (r = none ∧ t = s ∧ 0 < levels) ∨ ∃ e, r = some e ∧ Derives c s (.expression levels e) t := by
  cases levels with
  | zero => cases h
  | succ =>
    obtain ⟨_, _, ⟨⟩, h⟩ := run_bind_eq_ok.mp h
    obtain ⟨r, u, hoperand, hrest⟩ := run_bind_eq_ok.mp h
    obtain ⟨rfl, rfl⟩ | ⟨left, rfl, hleft⟩ := derives_operand hg hoperand
    · cases hrest
      exact .inl ⟨rfl, rfl, Nat.succ_pos _⟩
    · obtain ⟨_ | op, v, hoperator, h⟩ := run_bind_eq_ok.mp hrest
      · cases h
        obtain ⟨rfl, -⟩ := operatorAbove?_eq hoperator
        exact .inr ⟨left, rfl, .expression (.operand hleft)⟩
      · obtain ⟨rfl, hop⟩ := operatorAbove?_eq hoperator
        simp only [run_bind_eq_ok, run_pure, ok.injEq] at h
        obtain ⟨e, _, hextend, e', _, hmore, rfl, rfl⟩ := h
        obtain ⟨rest, he⟩ := derives_moreOperators hg (derives_extend hg (.operand hleft) (hop op rfl) hextend) hmore
        exact .inr ⟨e', rfl, .expression he⟩

/-! ### Statements -/

theorem derives_scopedBlock {isLoop : Bool} {body : Block} (h : (g.scopedBlock levels isLoop).run c s = .ok body t) :
    Derives c s (.scopedBlock levels isLoop body) t := by
  simp only [scopedBlock, run_bind_eq_ok, run_pure, ok.injEq] at h
  obtain ⟨_, _, hblock, _, _, hscope, body, _, hbody, _, _, hscope', _, _, hblock', rfl, rfl⟩ := h
  exact .scopedBlock hblock hscope (derives_block hg hbody) hscope' hblock'

theorem derives_elseIfClauses (h : (g.elseIfClauses levels).run c s = .ok cs t) :
    Derives c s (.elseIfs levels cs) t := by
  refine many_induction (motive := fun s cs => Derives c s (.elseIfs levels cs) t) .noElseIfs
    (fun {s u r cs} hrun hcs => ?_) h
  obtain ⟨_, _, ⟨⟩, hrun⟩ := run_bind_eq_ok.mp hrun
  split at hrun
  next helseif =>
    simp only [run_bind_eq_ok, run_pure, ok.injEq] at hrun
    obtain ⟨_, _, hmark, _, _, hadvance, condition, _, hcondition, _, _, hthen, body, _, hbody, span, _, hfinish, rfl,
      rfl⟩ := hrun
    exact .elseIfs ⟨Token.is_iff_kind.mp helseif, _, hmark, hadvance⟩ (derives_expected hg hcondition) hthen
      (derives_scopedBlock hg hbody) hfinish hcs
  next =>
    cases hrun
    exact hcs

theorem derives_elseClause (h : (elseClause (g.scopedBlock levels false)).run c s = .ok cs t) :
    Derives c s (.elseClause levels cs) t := by
  obtain ⟨rfl, rfl⟩ | ⟨u, body, v, span, hopen, hbody, hfinish, rfl⟩ := elseClause_cases h
  · exact .noElse
  · exact .elseClause hopen (derives_scopedBlock hg hbody) hfinish

theorem derives_oneLineElse (h : (elseClause (g.oneLineElse levels)).run c s = .ok cs t) :
    Derives c s (.oneLineElse levels cs) t := by
  obtain ⟨rfl, rfl⟩ | ⟨u, body, v, span, hopen, hbody, hfinish, rfl⟩ := elseClause_cases h
  · exact .noOneLineElse
  · simp only [oneLineElse, run_bind_eq_ok, run_token, ok.injEq] at hbody
    obtain ⟨_, _, ⟨rfl, rfl⟩, hbody⟩ := hbody
    split at hbody
    next hline =>
      simp only [run_bind_eq_ok, run_pure, ok.injEq] at hbody
      obtain ⟨_, _, hhide, body, _, hbody, _, _, hend, rfl, rfl⟩ := hbody
      exact .blockElse hopen hline hhide (derives_scopedBlock hg hbody) hend hfinish
    next hline => exact .oneLineElse hopen (eq_false_of_ne_true hline) (derives_scopedBlock hg hbody) hfinish

section

variable {stmt : Stmt}

theorem derives_forStatement (hkind : s.window.token.kind = .keyword .forKw)
    (h : (g.forStatement levels).run c s = .ok stmt t) : Derives c s (.proper levels stmt) t := by
  simp only [forStatement, forBody, run_bind_eq_ok] at h
  obtain ⟨_, _, hmark, _, _, hadvance, id, _, hid, _, _, hblock, _, _, hscope, _ | _, _, hassign, h⟩ := h
  · rw [consume_eq_false hassign] at h
    simp only [Bool.false_eq_true, if_false, run_bind_eq_ok, run_pure, ok.injEq] at h
    obtain ⟨others, _, hothers, _, _, hin, iterators, _, hiterators, _, _, hdo, names, _, hnames, body, _, ⟨_, _, hbody, _, _,
      hend, _, _, hscope', _, _, hblock', rfl, rfl⟩, span, _, hfinish, rfl, rfl⟩ := h
    exact .forGeneric ⟨hkind, _, hmark, hadvance⟩ hid hblock hscope (derives_moreNames hothers) hin
      (derives_values hg hiterators).2 hdo hnames (derives_block hg hbody) hend hscope' hblock' hfinish
  · simp only [if_true, run_bind_eq_ok, run_pure, ok.injEq] at h
    obtain ⟨first, _, hfirst, _, _, hcomma, last, _, hlast, step, _, hstep, _, _, hdo, counter, _, hcounter, body, _, ⟨_, _,
      hbody, _, _, hend, _, _, hscope', _, _, hblock', rfl, rfl⟩, span, _, hfinish, rfl, rfl⟩ := h
    exact .forNumeric ⟨hkind, _, hmark, hadvance⟩ hid hblock hscope hassign (derives_expected hg hfirst) hcomma
      (derives_expected hg hlast) (derives_valueBehindComma hg hstep) hdo hcounter (derives_block hg hbody) hend hscope'
      hblock' hfinish

theorem derives_ifStatement (hkind : s.window.token.kind = .keyword .ifKw)
    (h : (g.ifStatement levels).run c s = .ok stmt t) : Derives c s (.proper levels stmt) t := by
  simp only [ifStatement, oneLineIf, blockIf, run_bind_eq_ok, run_token, run_previous, ok.injEq] at h
  obtain ⟨_, _, hmark, _, _, hadvance, _, _, hagain, _, _, ⟨rfl, rfl⟩, condition, _, hcondition, _, _, ⟨rfl, rfl⟩, _, _,
    ⟨rfl, rfl⟩, h⟩ := h
  split at h
  next hparen =>
    simp only [Bool.and_eq_true] at hparen
    simp only [run_bind_eq_ok, run_newlines, run_pure, ok.injEq] at h
    obtain ⟨_, _, ⟨rfl, rfl⟩, _, _, hshow, body, _, hbody, span, _, hfinish, last, _, hlast, _, _, hback, span', _, hfinish',
      rfl, rfl⟩ := h
    exact .oneLineIf ⟨hkind, _, hmark, hadvance⟩ hagain (derives_expected hg hcondition) hparen.1.2 hshow
      (derives_scopedBlock hg hbody) hfinish (derives_oneLineElse hg hlast) hback hfinish'
  · simp only [run_bind_eq_ok, run_pure, ok.injEq] at h
    obtain ⟨_, _, hthen, body, _, hbody, span, _, hfinish, others, _, hothers, last, _, hlast, _, _, hend, span', _, hfinish',
      rfl, rfl⟩ := h
    exact .blockIf ⟨hkind, _, hmark, hadvance⟩ hagain (derives_expected hg hcondition) hthen (derives_scopedBlock hg hbody)
      hfinish (derives_elseIfClauses hg hothers) (derives_elseClause hg hlast) hend hfinish'

theorem derives_localStatement (hkind : s.window.token.kind = .keyword .localKw)
    (h : (g.localStatement levels).run c s = .ok stmt t) : Derives c s (.proper levels stmt) t := by
  simp only [localStatement, run_bind_eq_ok, run_token, ok.injEq] at h
  obtain ⟨_, _, hmark, _, _, hadvance, _, _, ⟨rfl, rfl⟩, h⟩ := h
  have hopen : Opens c Keyword.localKw s _ := ⟨hkind, _, hmark, hadvance⟩
  split at h
  · simp only [localVariables, localName, initialValues, run_bind_eq_ok, run_pure, ok.injEq] at h
    obtain ⟨_, _, ⟨first, _, hfirst, _, _, hlocal, rfl, rfl⟩, others, _, hothers, values, _, ⟨_ | _, _, hassign, hvalues⟩, names,
      _, hnames, span, _, hfinish, rfl, rfl⟩ := h
    · cases hvalues
      exact .declare hopen hfirst hlocal (derives_moreLocals hothers) hassign .noValues hnames hfinish
    · exact .declare hopen hfirst hlocal (derives_moreLocals hothers) hassign (derives_values hg hvalues).2 hnames hfinish
  · obtain ⟨_ | _, u, hkeyword, h⟩ := run_bind_eq_ok.mp h
    · cases h
    · simp only [if_true, run_bind_eq_ok, run_pure, ok.injEq] at h
      obtain ⟨id, _, hid, id', _, hdeclare, f, _, hf, rfl, rfl⟩ := h
      obtain ⟨ps, body, span, v, rfl, hf, hfinish⟩ := derives_functionBody hg hf
      exact .localFunction hopen hkeyword hid hdeclare hf hfinish

theorem derives_properStatement (h : (g.properStatement levels).run c s = .ok stmt t) : Derives c s (.proper levels stmt) t := by
  obtain ⟨_, _, ⟨⟩, h⟩ := run_bind_eq_ok.mp h
  split at h
  next hkind => exact derives_localStatement hg hkind h
  next hkind => exact derives_ifStatement hg hkind h
  next hkind =>
    simp only [returnStatement, run_bind_eq_ok, run_pure, ok.injEq] at h
    obtain ⟨_, _, hmark, _, _, hadvance, values, _, hvalues, _, _, hsemicolon, span, _, hfinish, rfl, rfl⟩ := h
    exact .ret ⟨hkind, _, hmark, hadvance⟩ (derives_optionalValues hg hvalues).2 hsemicolon hfinish
  next hkind =>
    simp only [functionStatement, run_bind_eq_ok, run_pure, ok.injEq] at h
    obtain ⟨_, _, hmark, _, _, hadvance, name, _, hname, f, _, hf, rfl, rfl⟩ := h
    obtain ⟨ps, body, span, v, rfl, hf, hfinish⟩ := derives_functionBody hg hf
    exact .functionStatement ⟨hkind, _, hmark, hadvance⟩ (derives_functionName hname) hf hfinish
  next hkind =>
    simp only [whileStatement, run_bind_eq_ok, run_pure, ok.injEq] at h
    obtain ⟨_, _, hmark, _, _, hadvance, condition, _, hcondition, _, _, hdo, body, _, hbody, _, _, hend, span, _, hfinish,
      rfl, rfl⟩ := h
    exact .whileLoop ⟨hkind, _, hmark, hadvance⟩ (derives_expected hg hcondition) hdo (derives_scopedBlock hg hbody) hend
      hfinish
  next hkind => exact derives_forStatement hg hkind h
  next hkind =>
    simp only [repeatStatement, run_bind_eq_ok, run_pure, ok.injEq] at h
    obtain ⟨_, _, hmark, _, _, hadvance, _, _, hblock, _, _, hscope, body, _, hbody, _, _, huntil, condition, _, hcondition,
      _, _, hscope', _, _, hblock', span, _, hfinish, rfl, rfl⟩ := h
    exact .repeatLoop ⟨hkind, _, hmark, hadvance⟩ hblock hscope (derives_block hg hbody) huntil
      (derives_expected hg hcondition) hscope' hblock' hfinish
  next hkind =>
    simp only [breakStatement, run_bind_eq_ok, run_token, run_pure, ok.injEq] at h
    obtain ⟨_, _, hmark, _, _, ⟨rfl, rfl⟩, _, _, hadvance, _, _, hcheck, span, _, hfinish, rfl, rfl⟩ := h
    have hopen : Opens c Keyword.breakKw s _ := ⟨hkind, _, hmark, hadvance⟩
    cases hmark
    exact .breakLoop hopen hcheck hfinish
  next hkind =>
    simp only [doStatement, run_bind_eq_ok, run_pure, ok.injEq] at h
    obtain ⟨_, _, hmark, _, _, hadvance, body, _, hbody, _, _, hend, span, _, hfinish, rfl, rfl⟩ := h
    exact .doBlock ⟨hkind, _, hmark, hadvance⟩ (derives_scopedBlock hg hbody) hend hfinish
  next hkind =>
    simp only [gotoStatement, run_bind_eq_ok, run_pure, ok.injEq] at h
    obtain ⟨_, _, hmark, _, _, hadvance, id, _, hid, _, _, hgoto, span, _, hfinish, rfl, rfl⟩ := h
    exact .goto ⟨hkind, _, hmark, hadvance⟩ hid hgoto hfinish
  next hkind =>
    simp only [printStatement, run_bind_eq_ok, run_token, run_pure, ok.injEq] at h
    obtain ⟨_, _, hmark, _, _, ⟨rfl, rfl⟩, _, _, hadvance, callee, _, hreference, arguments, _, harguments, span, _, hfinish,
      rfl, rfl⟩ := h
    obtain ⟨hlevels, harguments⟩ := derives_optionalValues hg harguments
    have hopen : Opens c Symbol.question s _ := ⟨hkind, _, hmark, hadvance⟩
    cases hmark
    exact .print hlevels hopen hreference harguments hfinish
  next => exact derives_assignmentOrCall hg h

end

theorem derives_anyStatement {r : Option Stmt} (h : (g.anyStatement levels).run c s = .ok r t) :
    (r = none ∧ s.window.token.kind = .symbol .semicolon ∧ advance.run c s = .ok () t) ∨
      ∃ stmt, r = some stmt ∧ Derives c s (.statement levels stmt) t := by
  cases levels with
  | zero => cases h
  | succ =>
    obtain ⟨_, _, ⟨⟩, h⟩ := run_bind_eq_ok.mp h
    split at h
    next hkind =>
      obtain ⟨stmt, hstmt, rfl⟩ := run_map_eq_ok.mp h
      simp only [includeLine, run_bind_eq_ok, run_token, run_pure, ok.injEq] at hstmt
      obtain ⟨_, _, ⟨rfl, rfl⟩, _, _, hpass, rfl, rfl⟩ := hstmt
      exact .inr ⟨_, rfl, .inclusion hkind hpass⟩
    next hkind =>
      obtain ⟨stmt, hstmt, rfl⟩ := run_map_eq_ok.mp h
      simp only [labelStatement, run_bind_eq_ok, run_pure, ok.injEq] at hstmt
      obtain ⟨_, _, hmark, _, _, hadvance, id, _, hid, _, _, hclose, _, _, hlabel, span, _, hfinish, rfl, rfl⟩ := hstmt
      exact .inr ⟨_, rfl, .label ⟨hkind, _, hmark, hadvance⟩ hid hclose hlabel hfinish⟩
    next hkind =>
      obtain ⟨_, _, hadvance, ⟨⟩⟩ := run_bind_eq_ok.mp h
      exact .inl ⟨rfl, hkind, hadvance⟩
    next =>
      obtain ⟨_, u, hraise, h⟩ := run_bind_eq_ok.mp h
      obtain ⟨stmt, hstmt, rfl⟩ := run_map_eq_ok.mp h
      exact .inr ⟨stmt, rfl, .proper hraise (derives_properStatement hg hstmt)⟩

end

theorem derived_grammar (c : Settings) (depth : Nat) : (grammar depth).Derived c := by
  induction depth with
  | zero => exact ⟨nofun, nofun, nofun, nofun⟩
  | succ depth ih =>
    refine ⟨fun h => ?_, fun h => ?_, fun h => ?_, fun h => ?_⟩
    · obtain ⟨⟨⟩, -⟩ | ⟨e, ⟨⟩, he⟩ := derives_operators ih h
      exact he
    · obtain ⟨-, ht, hlevels⟩ | ⟨e, ⟨⟩, -⟩ := derives_operators ih h
      exact ⟨ht, hlevels⟩
    · obtain ⟨⟨⟩, -⟩ | ⟨stmt, ⟨⟩, hstmt⟩ := derives_anyStatement ih h
      exact hstmt
    · obtain ⟨-, hempty⟩ | ⟨stmt, ⟨⟩, -⟩ := derives_anyStatement ih h
      exact hempty

end Grammar

namespace Program

theorem derives_wholeText {levels : Nat} {body : Block} (h : (wholeText levels).run c s = .ok body t) :
    ∃ u v w x, (openBlock false).run c s = .ok () u ∧ openScope.run c u = .ok () v ∧ Derives c v (.text levels body) w ∧
      closeScope.run c w = .ok () x ∧ closeBlock.run c x = .ok () t := by
  simp only [wholeText, run_bind_eq_ok, run_pure, ok.injEq] at h
  obtain ⟨_, u, hblock, _, v, hscope, body, w, hbody, _, x, hscope', _, _, hblock', rfl, rfl⟩ := h
  refine ⟨u, v, w, x, hblock, hscope, ?_, hscope', hblock'⟩
  have hg := Grammar.derived_grammar c (levels + 1)
  refine collect_induction (motive := fun s body => Derives c s (.text levels body) w)
    (fun {s u found more rest} hrun hmore hdone => ?_) hbody
  simp only [textStep, run_bind_eq_ok, run_token, ok.injEq] at hrun
  obtain ⟨body, v, hblock, _, _, ⟨rfl, rfl⟩, hrun⟩ := hrun
  split at hrun
  · cases hrun
    obtain ⟨rfl, rfl⟩ := hdone rfl
    rw [List.append_nil]
    exact .text (Grammar.derives_block hg hblock)
  · simp only [run_bind_eq_ok, run_look, run_pure, ok.injEq] at hrun
    obtain ⟨_, _, ⟨rfl, rfl⟩, _, w, hreport, _, _, hskip, ⟨⟩, rfl⟩ := hrun
    refine .moreText (Grammar.derives_block hg hblock) ⟨(reaches hreport).trans (reaches hskip), ?_, fun hclean => ?_⟩
      (hmore rfl)
    · have hkept : w.markers.starts = v.markers.starts := by
        cases hreport
        rfl
      exact (congrArg Nesting.markers (Neat.kept hskip).nesting).trans hkept
    · cases hreport
      have hflow := hclean.of_reaches (reaches hskip) v.unexpectedToken (by simp [Session.report])
      rw [Session.isFlow_unexpectedToken] at hflow
      cases hflow

end Program

end CartLua
