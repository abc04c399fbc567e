import CartLua.Grammar.Program
import CartLua.Proofs.Render
import CartLua.Proofs.Stream
import CartLua.Proofs.Words
/-!
# Derivations

What a run of the grammar that gives a tree consists of, said once for all that is proved of such runs. A phrase is a part
of a program with the tree that is read for it, and `Derives c s phrase t` says that it is read between the sessions `s` and
`t`. There is one rule for each way to read a phrase; its premises are the runs of the parsers of single tokens and the
derivations of the parts, in the order of the text. So a fact about all runs is proved by induction over derivations, with
no look at how the grammar is written.

A chain and the operands between operators grow from their left end, and what has been read behind an operand becomes a part
of the next one. Their phrases therefore have two numbers: the levels that are left before the first operand, and those that
are left now.
-/

namespace CartLua

open Parse Session

def Session.here (s : Session) : Position := s.window.token.span.start

def Session.behind (s : Session) : Position := s.window.previous.span.stop

/-- A part of a program, with the levels that are left for it and the tree that is read. -/
inductive Phrase where
  | expression (levels : Nat) (e : Expr)
  /-- Operands with operators between them. -/
  | operators (levels left : Nat) (e : Expr)
  /-- An operand with the unary operators before it. -/
  | operand (levels : Nat) (e : Expr)
  /-- A name or an expression in parentheses with its suffixes. -/
  | chain (levels left : Nat) (e : Expr)
  /-- What is called: a chain, or a method of one. -/
  | callee (levels left : Nat) (e : Expr)
  /-- Names with points between them. -/
  | dottedName (e : Expr)
  | functionName (e : Expr)
  | values (levels : Nat) (es : List Expr)
  /-- Expressions, each behind a comma. -/
  | moreValues (levels : Nat) (es : List Expr)
  /-- The left side of an assignment. -/
  | targets (levels left : Nat) (es : List Expr)
  | field (levels : Nat) (f : Field)
  | fields (levels : Nat) (fs : List Field)
  | table (levels : Nat) (tbl : Table)
  /-- Parameters, behind the opening parenthesis. -/
  | parameters (ps : List Parameter)
  /-- The parameters and the body of a function. -/
  | function (levels : Nat) (isMethod : Bool) (ps : List Parameter) (body : Block)
  /-- Names, each behind a comma. -/
  | moreNames (ids : List Identifier)
  /-- Names that control flow takes note of, each behind a comma. -/
  | moreLocals (ids : List Identifier)
  | block (levels : Nat) (body : Block)
  | scopedBlock (levels : Nat) (isLoop : Bool) (body : Block)
  /-- The clauses behind the first one that have a condition. -/
  | elseIfs (levels : Nat) (cs : List Clause)
  /-- The last clause of an if statement that has an end. -/
  | elseClause (levels : Nat) (cs : List Clause)
  /-- The last clause of an if statement that ends with its line. -/
  | oneLineElse (levels : Nat) (cs : List Clause)
  /-- A statement that is neither an include line nor a label nor empty. -/
  | proper (levels : Nat) (stmt : Stmt)
  | statement (levels : Nat) (stmt : Stmt)
  /-- Blocks with tokens between them that close none. -/
  | text (levels : Nat) (body : Block)

/-- The first token of a construct is passed, and a marker is left before it. -/
def Opens (c : Settings) (terminal : Terminal) (s t : Session) : Prop :=
  s.window.token.kind = terminal.kind ∧ ∃ u, mark.run c s = .ok () u ∧ advance.run c u = .ok () t

/-- Tokens are skipped because of a fault, which is on record then. -/
structure GivesUp (c : Settings) (s t : Session) : Prop where
  reaches : Reaches c s t
  markers : t.markers.starts = s.markers.starts
  fault : ¬ t.Clean

/-- The phrase is read between two sessions. -/
inductive Derives (c : Settings) : Session → Phrase → Session → Prop
  -- Expressions.
  | expression {levels left e s t} (he : Derives c s (.operators levels left e) t) :
      Derives c s (.expression (levels + 1) e) t
  | operand {levels e s t} (he : Derives c s (.operand levels e) t) : Derives c s (.operators levels (levels + 1) e) t
  | dyadic {levels left op e r s u v t} (he : Derives c s (.operators levels (left + 1) e) u)
      (hop : DyadicOp.ofToken? u.window.token = some op) (hadvance : advance.run c u = .ok () v)
      (hr : Derives c v (.expression left r) t) :
      Derives c s (.operators levels left (.dyadic op e r ⟨s.here, t.behind⟩)) t
  | literal {levels e s u t} (he : Grammar.literal? s.window.token = some e)
      (hcheck : (Grammar.checkVararg s.window.token).run c s = .ok () u) (hadvance : advance.run c u = .ok () t) :
      Derives c s (.operand levels e) t
  | functionValue {levels ps body span s u v t} (hopen : Opens c Keyword.functionKw s u)
      (hf : Derives c u (.function levels false ps body) v) (hfinish : finish.run c v = .ok span t) :
      Derives c s (.operand levels (.function ⟨ps, body, span⟩)) t
  | tableValue {levels tbl s t} (htable : Derives c s (.table levels tbl) t) :
      Derives c s (.operand levels (.table tbl)) t
  | unary {levels op e s u t} (hop : UnaryOp.ofToken? s.window.token = some op) (hadvance : advance.run c s = .ok () u)
      (he : Derives c u (.expression levels e) t) :
      Derives c s (.operand levels (.unary op e ⟨s.here, t.behind⟩)) t
  | chain {levels left e s t} (he : Derives c s (.chain levels left e) t) : Derives c s (.operand (levels + 1) e) t
  -- Chains.
  | name {levels id id' s u t} (hid : identifier.run c s = .ok id u) (hreference : (reference id).run c u = .ok id' t) :
      Derives c s (.chain levels levels (.name id')) t
  | parenthesized {levels outer e s u v t} (hopen : (openBracket .leftParen).run c s = .ok outer u)
      (he : Derives c u (.expression levels e) v) (hclose : (closeBracket Symbol.rightParen outer).run c v = .ok () t) :
      Derives c s (.chain levels levels e) t
  | index {levels left outer base key s u v w t} (hbase : Derives c s (.chain levels (left + 1) base) u)
      (hopen : (openBracket .leftBracket).run c u = .ok outer v) (hkey : Derives c v (.expression left key) w)
      (hclose : (closeBracket Symbol.rightBracket outer).run c w = .ok () t) :
      Derives c s (.chain levels left (.index base key ⟨s.here, t.behind⟩)) t
  | member {levels left base key s u v t} (hbase : Derives c s (.chain levels (left + 1) base) u)
      (hdot : (consume Symbol.dot).run c u = .ok true v) (hkey : identifier.run c v = .ok key t) :
      Derives c s (.chain levels left (.member base .dot key ⟨s.here, key.span.stop⟩)) t
  | plainCallee {levels left base s t} (hbase : Derives c s (.chain levels (left + 1) base) t) :
      Derives c s (.callee levels left base) t
  | method {levels left base key s u v t} (hbase : Derives c s (.chain levels (left + 1) base) u)
      (hcolon : (consume Symbol.colon).run c u = .ok true v) (hkey : identifier.run c v = .ok key t) :
      Derives c s (.callee levels left (.member base .colon key ⟨s.here, key.span.stop⟩)) t
  | call {levels left outer base arguments s u v w t} (hbase : Derives c s (.callee levels left base) u)
      (hopen : (openBracket .leftParen).run c u = .ok outer v) (harguments : Derives c v (.values left arguments) w)
      (hclose : (closeBracket Symbol.rightParen outer).run c w = .ok () t) :
      Derives c s (.chain levels left (.call base arguments ⟨s.here, t.behind⟩)) t
  | tableCall {levels left base tbl s u t} (hbase : Derives c s (.callee levels left base) u)
      (htable : Derives c u (.table left tbl) t) :
      Derives c s (.chain levels left (.tableCall base tbl ⟨s.here, t.behind⟩)) t
  | stringCall {levels left base value s u t} (hbase : Derives c s (.callee levels left base) u)
      (hkind : u.window.token.kind = .string value) (hadvance : advance.run c u = .ok () t) :
      Derives c s (.chain levels left (.stringCall base (.string value u.window.token.text u.window.token.span)
        ⟨s.here, t.behind⟩)) t
  -- Lists of expressions.
  | noMoreValues {levels s} : Derives c s (.moreValues levels []) s
  | moreValues {levels e es s u v t} (hcomma : (consume Symbol.comma).run c s = .ok true u)
      (he : Derives c u (.expression levels e) v) (hes : Derives c v (.moreValues levels es) t) :
      Derives c s (.moreValues levels (e :: es)) t
  | noValues {levels s} : Derives c s (.values levels []) s
  | values {levels e es s u t} (he : Derives c s (.expression levels e) u) (hes : Derives c u (.moreValues levels es) t) :
      Derives c s (.values levels (e :: es)) t
  | target {levels left e s t} (he : Derives c s (.chain levels left e) t) (htarget : e.isTarget = true) :
      Derives c s (.targets levels left [e]) t
  | moreTargets {levels between left e es s u v t} (he : Derives c s (.chain levels between e) u)
      (htarget : e.isTarget = true) (hcomma : (consume Symbol.comma).run c u = .ok true v)
      (hes : Derives c v (.targets between left es) t) : Derives c s (.targets levels left (e :: es)) t
  -- Tables.
  | keyedField {levels key value span s u v w x y z t} (hmark : mark.run c s = .ok () u)
      (hopen : (consume Symbol.leftBracket).run c u = .ok true v) (hkey : Derives c v (.expression levels key) w)
      (hclose : (expect Symbol.rightBracket).run c w = .ok () x) (hassign : (expect Symbol.assign).run c x = .ok () y)
      (hvalue : Derives c y (.expression levels value) z) (hfinish : finish.run c z = .ok span t) :
      Derives c s (.field levels (.keyed key value span)) t
  | namedField {levels key value span s u v w x t} (hmark : mark.run c s = .ok () u) (hkey : identifier.run c u = .ok key v)
      (hassign : u.window.lookahead.isSymbol .assign = true) (hadvance : advance.run c v = .ok () w)
      (hvalue : Derives c w (.expression levels value) x) (hfinish : finish.run c x = .ok span t) :
      Derives c s (.field levels (.named key value span)) t
  | positionalField {levels value span s u v t} (hmark : mark.run c s = .ok () u)
      (hvalue : Derives c u (.expression levels value) v) (hfinish : finish.run c v = .ok span t) :
      Derives c s (.field levels (.positional value span)) t
  | noFields {levels s} : Derives c s (.fields levels []) s
  | fields {levels f fs sign found s u v t} (hf : Derives c s (.field levels f) u) (hsign : (Terminal.symbol sign).word? = none)
      (hseparator : (consume (.symbol sign)).run c u = .ok found v) (hfs : Derives c v (.fields levels fs) t) :
      Derives c s (.fields levels (f :: fs)) t
  | table {levels outer fs span s u v w x t} (hmark : mark.run c s = .ok () u)
      (hopen : (openBracket .leftBrace).run c u = .ok outer v) (hfs : Derives c v (.fields levels fs) w)
      (hclose : (closeBracket Symbol.rightBrace outer).run c w = .ok () x) (hfinish : finish.run c x = .ok span t) :
      Derives c s (.table levels ⟨fs, span⟩) t
  -- Functions.
  | noParameters {s t} (hclose : (consume Symbol.rightParen).run c s = .ok true t) : Derives c s (.parameters []) t
  | lastParameter {id id' s u v t} (hid : identifier.run c s = .ok id u) (hdeclare : (declareInFlow id).run c u = .ok id' v)
      (hclose : (expect Symbol.rightParen).run c v = .ok () t) : Derives c s (.parameters [.name id']) t
  | parameters {id id' ps s u v w t} (hid : identifier.run c s = .ok id u)
      (hdeclare : (declareInFlow id).run c u = .ok id' v) (hcomma : (consume Symbol.comma).run c v = .ok true w)
      (hps : Derives c w (.parameters ps) t) : Derives c s (.parameters (.name id' :: ps)) t
  | varargParameter {s u v t} (hkind : s.window.token.kind = .vararg) (hallow : allowVararg.run c s = .ok () u)
      (hadvance : advance.run c u = .ok () v) (hclose : (expect Symbol.rightParen).run c v = .ok () t) :
      Derives c s (.parameters [.vararg s.window.token.span]) t
  | function {levels isMethod ps body s s₁ s₂ s₃ s₄ s₅ s₆ s₇ s₈ s₉ s₁₀ s₁₁ t}
      (hhide : (setNewlines false).run c s = .ok () s₁) (henter : enterFunction.run c s₁ = .ok () s₂)
      (hblock : (openBlock false).run c s₂ = .ok () s₃) (hscope : openScope.run c s₃ = .ok () s₄)
      (hself : (Grammar.declareSelf isMethod).run c s₄ = .ok () s₅)
      (hopen : (expect Symbol.leftParen).run c s₅ = .ok () s₆) (hps : Derives c s₆ (.parameters ps) s₇)
      (hbody : Derives c s₇ (.block levels body) s₈)
      (hclose : (closeBracket Keyword.endKw s.window.newlines).run c s₈ = .ok () s₉)
      (hscope' : closeScope.run c s₉ = .ok () s₁₀) (hblock' : closeBlock.run c s₁₀ = .ok () s₁₁)
      (hleave : leaveFunction.run c s₁₁ = .ok () t) : Derives c s (.function levels isMethod ps body) t
  | dottedName {id id' s u t} (hid : identifier.run c s = .ok id u) (hreference : (reference id).run c u = .ok id' t) :
      Derives c s (.dottedName (.name id')) t
  | dottedMember {base key s u v t} (hbase : Derives c s (.dottedName base) u)
      (hdot : (consume Symbol.dot).run c u = .ok true v) (hkey : identifier.run c v = .ok key t) :
      Derives c s (.dottedName (.member base .dot key ⟨s.here, key.span.stop⟩)) t
  | functionName {e s t} (he : Derives c s (.dottedName e) t) : Derives c s (.functionName e) t
  | methodName {base key s u v t} (hbase : Derives c s (.dottedName base) u)
      (hcolon : (consume Symbol.colon).run c u = .ok true v) (hkey : identifier.run c v = .ok key t) :
      Derives c s (.functionName (.member base .colon key ⟨s.here, key.span.stop⟩)) t
  -- Blocks.
  | endBlock {levels s} : Derives c s (.block levels []) s
  | block {levels stmt body s u t} (hline : s.window.token.isNewline = false)
      (hstmt : Derives c s (.statement levels stmt) u) (hspent : s.Orderly c → u.remaining c < s.remaining c)
      (hreturn : stmt.isReturn = true → body = []) (hbody : Derives c u (.block levels body) t) :
      Derives c s (.block levels (stmt :: body)) t
  | emptyStatement {levels body s u t} (hkind : s.window.token.kind = .symbol .semicolon)
      (hadvance : advance.run c s = .ok () u) (hbody : Derives c u (.block levels body) t) :
      Derives c s (.block levels body) t
  | givenUp {levels body s u t} (hfault : GivesUp c s u) (hbody : Derives c u (.block levels body) t) :
      Derives c s (.block levels body) t
  | scopedBlock {levels isLoop body s u v w x t} (hblock : (openBlock isLoop).run c s = .ok () u)
      (hscope : openScope.run c u = .ok () v) (hbody : Derives c v (.block levels body) w)
      (hscope' : closeScope.run c w = .ok () x) (hblock' : closeBlock.run c x = .ok () t) :
      Derives c s (.scopedBlock levels isLoop body) t
  | text {levels body s t} (hbody : Derives c s (.block levels body) t) : Derives c s (.text levels body) t
  | moreText {levels body more s u v t} (hbody : Derives c s (.block levels body) u) (hfault : GivesUp c u v)
      (hmore : Derives c v (.text levels more) t) : Derives c s (.text levels (body ++ more)) t
  -- Branches.
  | noElseIfs {levels s} : Derives c s (.elseIfs levels []) s
  | elseIfs {levels condition body span cs s u v w x y t} (hopen : Opens c Keyword.elseifKw s u)
      (hcondition : Derives c u (.expression levels condition) v) (hthen : (expect Keyword.thenKw).run c v = .ok () w)
      (hbody : Derives c w (.scopedBlock levels false body) x) (hfinish : finish.run c x = .ok span y)
      (hcs : Derives c y (.elseIfs levels cs) t) : Derives c s (.elseIfs levels (.elseIf condition body span :: cs)) t
  | noElse {levels s} : Derives c s (.elseClause levels []) s
  | elseClause {levels body span s u v t} (hopen : Opens c Keyword.elseKw s u)
      (hbody : Derives c u (.scopedBlock levels false body) v) (hfinish : finish.run c v = .ok span t) :
      Derives c s (.elseClause levels [.otherwise body span]) t
  | noOneLineElse {levels s} : Derives c s (.oneLineElse levels []) s
  | oneLineElse {levels body span s u v t} (hopen : Opens c Keyword.elseKw s u) (hline : u.window.token.isNewline = false)
      (hbody : Derives c u (.scopedBlock levels false body) v) (hfinish : finish.run c v = .ok span t) :
      Derives c s (.oneLineElse levels [.otherwise body span]) t
  | blockElse {levels body span s u v w x t} (hopen : Opens c Keyword.elseKw s u)
      (hline : u.window.token.isNewline = true) (hhide : (setNewlines false).run c u = .ok () v)
      (hbody : Derives c v (.scopedBlock levels false body) w) (hend : (expect Keyword.endKw).run c w = .ok () x)
      (hfinish : finish.run c x = .ok span t) : Derives c s (.oneLineElse levels [.otherwise body span]) t
  -- Statements.
  | breakLoop {levels span s u v t} (hopen : Opens c Keyword.breakKw s u)
      (hcheck : (Grammar.checkBreak s.window.token.span).run c u = .ok () v) (hfinish : finish.run c v = .ok span t) :
      Derives c s (.proper levels (.breakLoop span)) t
  | goto {levels id span s u v w t} (hopen : Opens c Keyword.gotoKw s u) (hid : identifier.run c u = .ok id v)
      (hgoto : (addGoto id.name id.span).run c v = .ok () w) (hfinish : finish.run c w = .ok span t) :
      Derives c s (.proper levels (.goto id span)) t
  | ret {levels values found span s u v w t} (hopen : Opens c Keyword.returnKw s u)
      (hvalues : Derives c u (.values levels values) v) (hsemicolon : (consume Symbol.semicolon).run c v = .ok found w)
      (hfinish : finish.run c w = .ok span t) : Derives c s (.proper levels (.ret values span)) t
  | doBlock {levels body span s u v w t} (hopen : Opens c Keyword.doKw s u)
      (hbody : Derives c u (.scopedBlock levels false body) v) (hend : (expect Keyword.endKw).run c v = .ok () w)
      (hfinish : finish.run c w = .ok span t) : Derives c s (.proper levels (.block body span)) t
  | whileLoop {levels condition body span s u v w x y t} (hopen : Opens c Keyword.whileKw s u)
      (hcondition : Derives c u (.expression levels condition) v) (hdo : (expect Keyword.doKw).run c v = .ok () w)
      (hbody : Derives c w (.scopedBlock levels true body) x) (hend : (expect Keyword.endKw).run c x = .ok () y)
      (hfinish : finish.run c y = .ok span t) : Derives c s (.proper levels (.whileLoop condition body span)) t
  | repeatLoop {levels body condition span s s₁ s₂ s₃ s₄ s₅ s₆ s₇ s₈ t} (hopen : Opens c Keyword.repeatKw s s₁)
      (hblock : (openBlock true).run c s₁ = .ok () s₂) (hscope : openScope.run c s₂ = .ok () s₃)
      (hbody : Derives c s₃ (.block levels body) s₄) (huntil : (expect Keyword.untilKw).run c s₄ = .ok () s₅)
      (hcondition : Derives c s₅ (.expression levels condition) s₆) (hscope' : closeScope.run c s₆ = .ok () s₇)
      (hblock' : closeBlock.run c s₇ = .ok () s₈) (hfinish : finish.run c s₈ = .ok span t) :
      Derives c s (.proper levels (.repeatLoop body condition span)) t
  | forNumeric {levels id counter first last step body span}
      {s s₁ s₂ s₃ s₄ s₅ s₆ s₇ s₈ s₉ s₁₀ s₁₁ s₁₂ s₁₃ s₁₄ s₁₅ t} (hopen : Opens c Keyword.forKw s s₁)
      (hid : identifier.run c s₁ = .ok id s₂) (hblock : (openBlock true).run c s₂ = .ok () s₃)
      (hscope : openScope.run c s₃ = .ok () s₄) (hassign : (consume Symbol.assign).run c s₄ = .ok true s₅)
      (hfirst : Derives c s₅ (.expression levels first) s₆) (hcomma : (expect Symbol.comma).run c s₆ = .ok () s₇)
      (hlast : Derives c s₇ (.expression levels last) s₈) (hstep : Derives c s₈ (.moreValues levels step.toList) s₉)
      (hdo : (expect Keyword.doKw).run c s₉ = .ok () s₁₀) (hcounter : (declareInFlow id).run c s₁₀ = .ok counter s₁₁)
      (hbody : Derives c s₁₁ (.block levels body) s₁₂) (hend : (expect Keyword.endKw).run c s₁₂ = .ok () s₁₃)
      (hscope' : closeScope.run c s₁₃ = .ok () s₁₄) (hblock' : closeBlock.run c s₁₄ = .ok () s₁₅)
      (hfinish : finish.run c s₁₅ = .ok span t) :
      Derives c s (.proper levels (.forNumeric counter first last step body span)) t
  | forGeneric {levels id others names iterators body span} {s s₁ s₂ s₃ s₄ s₅ s₆ s₇ s₈ s₉ s₁₀ s₁₁ s₁₂ s₁₃ t}
      (hopen : Opens c Keyword.forKw s s₁) (hid : identifier.run c s₁ = .ok id s₂)
      (hblock : (openBlock true).run c s₂ = .ok () s₃) (hscope : openScope.run c s₃ = .ok () s₄)
      (hothers : Derives c s₄ (.moreNames others) s₅) (hin : (expect Keyword.inKw).run c s₅ = .ok () s₆)
      (hiterators : Derives c s₆ (.values levels iterators) s₇) (hdo : (expect Keyword.doKw).run c s₇ = .ok () s₈)
      (hnames : ((id :: others).mapM declareInFlow).run c s₈ = .ok names s₉)
      (hbody : Derives c s₉ (.block levels body) s₁₀) (hend : (expect Keyword.endKw).run c s₁₀ = .ok () s₁₁)
      (hscope' : closeScope.run c s₁₁ = .ok () s₁₂) (hblock' : closeBlock.run c s₁₂ = .ok () s₁₃)
      (hfinish : finish.run c s₁₃ = .ok span t) :
      Derives c s (.proper levels (.forGeneric names iterators body span)) t
  | noMoreNames {s} : Derives c s (.moreNames []) s
  | moreNames {id ids s u v t} (hcomma : (consume Symbol.comma).run c s = .ok true u) (hid : identifier.run c u = .ok id v)
      (hids : Derives c v (.moreNames ids) t) : Derives c s (.moreNames (id :: ids)) t
  | noMoreLocals {s} : Derives c s (.moreLocals []) s
  | moreLocals {id ids s u v w t} (hcomma : (consume Symbol.comma).run c s = .ok true u)
      (hid : identifier.run c u = .ok id v) (hlocal : (addLocal id.name).run c v = .ok () w)
      (hids : Derives c w (.moreLocals ids) t) : Derives c s (.moreLocals (id :: ids)) t
  | oneLineIf {levels condition body last span span' s s₁ s₂ s₃ s₄ s₅ s₆ s₇ s₈ t} (hopen : Opens c Keyword.ifKw s s₁)
      (hagain : markAgain.run c s₁ = .ok () s₂) (hcondition : Derives c s₂ (.expression levels condition) s₃)
      (hparen : s₃.window.previous.isSymbol .rightParen = true)
      (hshow : (setNewlines true).run c s₃ = .ok () s₄) (hbody : Derives c s₄ (.scopedBlock levels false body) s₅)
      (hfinish : finish.run c s₅ = .ok span s₆) (hlast : Derives c s₆ (.oneLineElse levels last) s₇)
      (hback : (setNewlines s₃.window.newlines).run c s₇ = .ok () s₈) (hfinish' : finish.run c s₈ = .ok span' t) :
      Derives c s (.proper levels (.branch (.ifThen condition body span :: last) true span')) t
  | blockIf {levels condition body others last span span' s s₁ s₂ s₃ s₄ s₅ s₆ s₇ s₈ s₉ t}
      (hopen : Opens c Keyword.ifKw s s₁) (hagain : markAgain.run c s₁ = .ok () s₂)
      (hcondition : Derives c s₂ (.expression levels condition) s₃) (hthen : (expect Keyword.thenKw).run c s₃ = .ok () s₄)
      (hbody : Derives c s₄ (.scopedBlock levels false body) s₅) (hfinish : finish.run c s₅ = .ok span s₆)
      (hothers : Derives c s₆ (.elseIfs levels others) s₇) (hlast : Derives c s₇ (.elseClause levels last) s₈)
      (hend : (expect Keyword.endKw).run c s₈ = .ok () s₉) (hfinish' : finish.run c s₉ = .ok span' t) :
      Derives c s (.proper levels (.branch (.ifThen condition body span :: others ++ last) false span')) t
  | declare {levels id others found values names span s s₁ s₂ s₃ s₄ s₅ s₆ s₇ t} (hopen : Opens c Keyword.localKw s s₁)
      (hid : identifier.run c s₁ = .ok id s₂) (hlocal : (addLocal id.name).run c s₂ = .ok () s₃)
      (hothers : Derives c s₃ (.moreLocals others) s₄) (hassign : (consume Symbol.assign).run c s₄ = .ok found s₅)
      (hvalues : Derives c s₅ (.values levels values) s₆)
      (hnames : ((id :: others).mapM Parse.declare).run c s₆ = .ok names s₇) (hfinish : finish.run c s₇ = .ok span t) :
      Derives c s (.proper levels (.declare names values span)) t
  | localFunction {levels id id' ps body span s u v w x y t} (hopen : Opens c Keyword.localKw s u)
      (hkeyword : (consume Keyword.functionKw).run c u = .ok true v) (hid : identifier.run c v = .ok id w)
      (hdeclare : (declareInFlow id).run c w = .ok id' x) (hf : Derives c x (.function levels false ps body) y)
      (hfinish : finish.run c y = .ok span t) :
      Derives c s (.proper levels (.function (.name id') true ⟨ps, body, span⟩)) t
  | functionStatement {levels name ps body span s u v w t} (hopen : Opens c Keyword.functionKw s u)
      (hname : Derives c u (.functionName name) v) (hf : Derives c v (.function levels name.isMethod ps body) w)
      (hfinish : finish.run c w = .ok span t) : Derives c s (.proper levels (.function name false ⟨ps, body, span⟩)) t
  | print {levels callee arguments span s u v w t} (hlevels : 0 < levels) (hopen : Opens c Symbol.question s u)
      (hreference : (reference { name := "print", span := s.window.token.span }).run c u = .ok callee v)
      (harguments : Derives c v (.values levels arguments) w) (hfinish : finish.run c w = .ok span t) :
      Derives c s (.proper levels (.call (.call (.name callee) arguments span) span)) t
  | callStatement {levels left e span s u v t} (hmark : mark.run c s = .ok () u) (he : Derives c u (.chain levels left e) v)
      (hcall : e.isCall = true) (hleft : left < levels) (hfinish : finish.run c v = .ok span t) :
      Derives c s (.proper levels (.call e span)) t
  | assignment {levels left targets op values span s u v w x t} (hmark : mark.run c s = .ok () u)
      (htargets : Derives c u (.targets levels left targets) v) (hop : AssignOp.ofToken? v.window.token = some op)
      (hadvance : advance.run c v = .ok () w) (hvalues : Derives c w (.values left values) x) (hvalued : values ≠ [])
      (hone : op.isCompound = true → values.length = 1) (hfinish : finish.run c x = .ok span t) :
      Derives c s (.proper levels (.assignment targets op values span)) t
  | inclusion {levels s t} (hkind : s.window.token.kind = .directive) (hpass : passInclude.run c s = .ok () t) :
      Derives c s (.statement (levels + 1) (.inclusion s.window.token.text s.window.token.span)) t
  | label {levels id span s u v w x t} (hopen : Opens c Symbol.doubleColon s u) (hid : identifier.run c u = .ok id v)
      (hclose : (expect Symbol.doubleColon).run c v = .ok () w) (hlabel : (addLabel id.name id.span).run c w = .ok () x)
      (hfinish : finish.run c x = .ok span t) : Derives c s (.statement (levels + 1) (.label id span)) t
  | proper {levels stmt s u t} (hraise : raiseDeferred.run c s = .ok () u) (hstmt : Derives c u (.proper levels stmt) t) :
      Derives c s (.statement (levels + 1) stmt) t

end CartLua
