import CartLua.Proofs.Laying
import CartLua.Proofs.ProgramReading
/-!
# The layout of a program

Every phrase is laid out between its first token and the last one it passes, and so is a whole program without include
lines, whatever faults it has.
-/

namespace CartLua

open Parse Session

/-- The nodes that a phrase puts into the tree. -/
def Phrase.layout : Phrase → List Layout
  | .expression _ e | .operators _ _ e | .operand _ e | .chain _ _ e | .callee _ _ e | .dottedName e | .functionName e =>
    [Layout.expression e]
  | .values _ es | .moreValues _ es | .targets _ _ es => Layout.expressions es
  | .field _ f => [Layout.field f]
  | .fields _ fs => Layout.fields fs
  | .table _ tbl => [Layout.table tbl]
  | .parameters ps => ps.map Layout.parameter
  | .function _ _ ps body => ps.map Layout.parameter ++ Layout.statements body
  | .moreNames ids | .moreLocals ids => ids.map Layout.identifier
  | .block _ body | .scopedBlock _ _ body | .text _ body => Layout.statements body
  | .elseIfs _ cs | .elseClause _ cs | .oneLineElse _ cs => Layout.clauses cs
  | .proper _ stmt | .statement _ stmt => [Layout.statement stmt]

variable {c : Settings} {s t u v w : Session} {id id' : Identifier} {phrase : Phrase}

/-! ### Names and literals -/

theorem layout_literal {k : Token} {e : Expr} (h : Grammar.literal? k = some e) : Layout.expression e = .leaf k.span := by
  unfold Grammar.literal? at h
  split at h <;> cases h <;> rw [Layout.expression]

theorem lays_reference (hid : identifier.run c s = .ok id u)
    (h : (reference id).run c u = .ok id' t) : Lays c s t [Layout.expression (.name id')] := by
  have hread := (lays_identifier hid).pass h
  cases h
  exact hread

theorem lays_declaration (hid : identifier.run c s = .ok id u)
    (h : (declareInFlow id).run c u = .ok id' t) : Lays c s t [Layout.identifier id'] := by
  have hread := (lays_identifier hid).pass h
  obtain ⟨_, _, -, rfl, -⟩ := h
  exact hread

theorem layout_mapM {f : Identifier → Parse Identifier}
    (hf : ∀ {s id id' t}, (f id).run c s = .ok id' t → id'.span = id.span) {ids names : List Identifier}
    (h : (ids.mapM f).run c s = .ok names t) : names.map Layout.identifier = ids.map Layout.identifier := by
  induction ids generalizing s names with
  | nil =>
    cases h
    rfl
  | cons id rest ih =>
    simp only [List.mapM_cons, run_bind_eq_ok, run_pure, Outcome.ok.injEq] at h
    obtain ⟨id', _, hid, others, _, hothers, rfl, rfl⟩ := h
    rw [List.map_cons, List.map_cons, ih hothers, Layout.identifier, Layout.identifier, hf hid]

theorem span_declareInFlow (h : (declareInFlow id).run c s = .ok id' t) : id'.span = id.span := by
  obtain ⟨_, _, -, rfl, -⟩ := h
  rfl

theorem lays_member {base : Expr} {key : Identifier} (indexer : Indexer) (hbase : Lays c s u [Layout.expression base])
    (hkey : identifier.run c u = .ok key t) :
    Lays c s t [Layout.expression (.member base indexer key ⟨s.here, key.span.stop⟩)] := by
  have hlays := hbase.trans (lays_identifier hkey)
  obtain ⟨hspan, hadvance⟩ := Grammar.span_identifier hkey
  have hstop : s.Ordered → key.span.stop = t.behind := by
    intro hs
    obtain ⟨hu, -, -⟩ := hbase.reaches.ordered hs
    rw [hspan, behind, previous_of_advance hu.plain hadvance]
  refine hlays.node (fun _ => .refl _) (fun hs => ?_) (fun hs => ?_) (fun hs => ?_)
  · rw [hstop hs]
    exact hlays.passes.before hs
  · rw [hstop hs]
    exact .refl _
  · rw [hstop hs]
    exact hlays.laid hs

/-! ### Branches -/

theorem lays_branch {xs ys : List Layout} {span span' : Span} {x : Session} (hopen : Opens c Keyword.ifKw s u)
    (hagain : markAgain.run c u = .ok () v) (hfirst : Lays c v w xs) (hfinish : finish.run c w = .ok span t)
    (hothers : Lays c t x ys) {y : Session} (hfinish' : finish.run c x = .ok span' y) :
    Lays c s y [.node span' (.node span xs :: ys)] ∧ span'.start = s.here := by
  obtain ⟨-, first, hmark, hadvance⟩ := hopen
  have hopened := (passes_advance hadvance).right (reaches hagain)
  have hkept : u.markers.starts = first.markers.starts := (lays_advance hadvance).markers
  have hmarkers : v.markers.starts = first.here :: first.markers.starts := by
    have hstarts : first.markers.starts = first.here :: s.markers.starts := by
      cases hmark
      rfl
    cases hagain
    show u.markers.reuse.starts = _
    unfold MarkerStack.reuse
    rw [hkept, hstarts]
  have hclauses := (Lays.closed hopened.reaches hmarkers hfirst (hopened.right hfirst.reaches) hfinish).1.trans hothers
  exact Lays.marked hmark hclauses hclauses.passes hfinish'

/-! ### All phrases -/

/-- The phrase is laid out where it is read, and a statement starts at its first token. -/
def Phrase.Lies (c : Settings) (s t : Session) : Phrase → Prop
  | .proper _ stmt | .statement _ stmt => Lays c s t [Layout.statement stmt] ∧ stmt.span.start = s.here
  | phrase => Lays c s t phrase.layout

theorem Derives.lies (h : Derives c s phrase t) : phrase.Lies c s t := by
  induction h with
  | expression _ ih | operand _ ih | chain _ ih | plainCallee _ ih | functionName _ ih | text _ ih => exact ih
  | noMoreValues | noValues | noFields | noMoreNames | noMoreLocals | endBlock | noElseIfs | noElse | noOneLineElse =>
    exact Lays.refl _
  | @dyadic _ _ op e r _ _ _ _ _ _ hadvance _ ihe ihr =>
    have hlays := Lays.trans ihe (.behind hadvance ihr)
    show Lays _ _ _ [Layout.expression (.dyadic op e r _)]
    rw [Layout.expression_dyadic]
    exact hlays.spanned hlays.passes
  | literal he hcheck hadvance =>
    have hread := Lays.behind hcheck (lays_advance hadvance)
    rw [Grammar.window_checkVararg hcheck, ← layout_literal he] at hread
    exact hread
  | functionValue hopen _ hfinish ih =>
    exact (lays_construct hopen ih hfinish).1
  | tableValue _ ih =>
    exact ih
  | unary _ hadvance _ ih =>
    have hlays := Lays.behind hadvance ih
    exact hlays.spanned hlays.passes
  | name hid hreference | dottedName hid hreference => exact lays_reference hid hreference
  | parenthesized hopen _ hclose ih => exact (Lays.behind hopen ih).pass hclose
  | index _ hopen _ hclose ihbase ihkey =>
    have hlays := (ihbase.trans (.behind hopen ihkey)).pass hclose
    exact hlays.spanned hlays.passes
  | member _ hdot hkey ih | dottedMember _ hdot hkey ih => exact lays_member .dot (ih.pass hdot) hkey
  | method _ hcolon hkey ih | methodName _ hcolon hkey ih => exact lays_member .colon (ih.pass hcolon) hkey
  | call _ hopen _ hclose ihbase iharguments =>
    have hlays := (ihbase.trans (.behind hopen iharguments)).pass hclose
    exact hlays.spanned hlays.passes
  | tableCall _ _ ihbase ihtable =>
    have hlays := ihbase.trans ihtable
    exact hlays.spanned hlays.passes
  | stringCall _ _ hadvance ih =>
    have hlays := ih.trans (lays_advance hadvance)
    exact hlays.spanned hlays.passes
  | moreValues hcomma _ _ ihe ihes => exact .behind hcomma (ihe.trans ihes)
  | values _ _ ihe ihes => exact ihe.trans ihes
  | target _ _ ih => exact ih
  | moreTargets _ _ hcomma _ ihe ihes => exact ihe.trans (.behind hcomma ihes)
  | keyedField hmark hopen _ hclose hassign _ hfinish ihkey ihvalue =>
    have hlays := Lays.behind hopen (((ihkey.pass hclose).pass hassign).trans ihvalue)
    exact (Lays.marked hmark hlays hlays.passes hfinish).1
  | namedField hmark hkey _ hadvance _ hfinish ih =>
    have hlays := ((lays_identifier hkey).pass hadvance).trans ih
    exact (Lays.marked hmark hlays hlays.passes hfinish).1
  | positionalField hmark _ hfinish ih =>
    exact (Lays.marked hmark ih ih.passes hfinish).1
  | fields _ _ hseparator _ ihf ihfs => exact (ihf.pass hseparator).trans ihfs
  | table hmark hopen _ hclose hfinish ih =>
    exact (Lays.marked hmark (Lays.behind hopen (ih.pass hclose))
      ((passes_openBracket hopen).right (ih.reaches.trans (reaches hclose))) hfinish).1
  | noParameters hclose => exact lays_nothing hclose
  | lastParameter hid hdeclare hclose => exact (lays_declaration hid hdeclare).pass hclose
  | parameters hid hdeclare hcomma _ ih => exact ((lays_declaration hid hdeclare).pass hcomma).trans ih
  | varargParameter _ hallow hadvance hclose =>
    have hread := (Lays.behind hallow (lays_advance hadvance)).pass hclose
    cases hallow
    exact hread
  | function hhide henter hblock hscope hself hopen _ _ hclose hscope' hblock' hleave ihps ihbody =>
    have hread := (((ihps.trans ihbody).pass hclose).pass hscope').pass hblock' |>.pass hleave
    exact .behind hhide (.behind henter (.behind hblock (.behind hscope (.behind hself (.behind hopen hread)))))
  | block _ _ _ _ _ ihstmt ihbody => exact ihstmt.1.trans ihbody
  | emptyStatement _ hadvance _ ih => exact .behind hadvance ih
  | givenUp hfault _ ih => exact (Lays.silent hfault.reaches hfault.markers).trans ih
  | scopedBlock hblock hscope _ hscope' hblock' ih =>
    exact .behind hblock (.behind hscope ((ih.pass hscope').pass hblock'))
  | moreText _ hfault _ ihbody ihmore =>
    show Lays _ _ _ (Layout.statements _)
    rw [Layout.statements_append]
    exact ihbody.trans ((Lays.silent hfault.reaches hfault.markers).trans ihmore)
  | elseIfs hopen _ hthen _ hfinish _ ihcondition ihbody ihcs =>
    exact (lays_construct hopen ((ihcondition.pass hthen).trans ihbody) hfinish).1.trans ihcs
  | elseClause hopen _ hfinish ih | oneLineElse hopen _ _ hfinish ih =>
    exact (lays_construct hopen ih hfinish).1
  | blockElse hopen _ hhide _ hend hfinish ih =>
    exact (lays_construct hopen (.behind hhide (ih.pass hend)) hfinish).1
  | breakLoop hopen hcheck hfinish =>
    exact lays_construct hopen (lays_nothing hcheck) hfinish
  | goto hopen hid hgoto hfinish =>
    exact lays_construct hopen ((lays_identifier hid).pass hgoto) hfinish
  | ret hopen _ hsemicolon hfinish ih =>
    exact lays_construct hopen (ih.pass hsemicolon) hfinish
  | doBlock hopen _ hend hfinish ih =>
    exact lays_construct hopen (ih.pass hend) hfinish
  | whileLoop hopen _ hdo _ hend hfinish ihcondition ihbody =>
    exact lays_construct hopen (((ihcondition.pass hdo).trans ihbody).pass hend) hfinish
  | repeatLoop hopen hblock hscope _ huntil _ hscope' hblock' hfinish ihbody ihcondition =>
    have hread := (((ihbody.pass huntil).trans ihcondition).pass hscope').pass hblock'
    exact lays_construct hopen (.behind hblock (.behind hscope hread)) hfinish
  | forNumeric hopen hid hblock hscope hassign _ hcomma _ _ hdo hcounter _ hend hscope' hblock' hfinish ihfirst ihlast
      ihstep ihbody =>
      change Lays _ _ _ (Layout.expressions _) at ihstep
      rw [Layout.expressions_toList] at ihstep
      have hname := (((lays_identifier hid).pass hblock).pass hscope).pass hassign
      have hvalues := ((ihfirst.pass hcomma).trans ihlast).trans ihstep
      have hbody := ((ihbody.pass hend).pass hscope').pass hblock'
      rw [Phrase.Lies, Layout.statement, Layout.identifier, span_declareInFlow hcounter]
      exact lays_construct hopen ((hname.trans ((hvalues.pass hdo).pass hcounter)).trans hbody) hfinish
  | forGeneric hopen hid hblock hscope _ hin _ hdo hnames _ hend hscope' hblock' hfinish ihothers ihiterators ihbody =>
    have hids := (((lays_identifier hid).pass hblock).pass hscope).trans ihothers
    have hbody := ((ihbody.pass hend).pass hscope').pass hblock'
    rw [Phrase.Lies, Layout.statement, layout_mapM span_declareInFlow hnames]
    exact lays_construct hopen (((((hids.pass hin).trans ihiterators).pass hdo).pass hnames).trans hbody) hfinish
  | moreNames hcomma hid _ ih => exact .behind hcomma ((lays_identifier hid).trans ih)
  | moreLocals hcomma hid hlocal _ ih => exact .behind hcomma (((lays_identifier hid).pass hlocal).trans ih)
  | oneLineIf hopen hagain _ _ hshow _ hfinish _ hback hfinish' ihcondition ihbody ihlast =>
    rw [Phrase.Lies, Layout.statement, Layout.clauses, Layout.clause]
    exact lays_branch hopen hagain ((ihcondition.pass hshow).trans ihbody) hfinish (ihlast.pass hback) hfinish'
  | blockIf hopen hagain _ hthen _ hfinish _ _ hend hfinish' ihcondition ihbody ihothers ihlast =>
    rw [Phrase.Lies, Layout.statement, List.cons_append, Layout.clauses, Layout.clause, Layout.clauses_append]
    exact lays_branch hopen hagain ((ihcondition.pass hthen).trans ihbody) hfinish ((ihothers.trans ihlast).pass hend)
      hfinish'
  | declare hopen hid hlocal _ hassign _ hnames hfinish ihothers ihvalues =>
    have hspan : ∀ {s id id' t}, (Parse.declare id).run c s = .ok id' t → id'.span = id.span := by
      rintro s id id' t ⟨⟩
      rfl
    have hids := ((lays_identifier hid).pass hlocal).trans ihothers
    rw [Phrase.Lies, Layout.statement, layout_mapM hspan hnames]
    exact lays_construct hopen (((hids.pass hassign).trans ihvalues).pass hnames) hfinish
  | localFunction hopen hkeyword hid hdeclare _ hfinish ih =>
    rw [Phrase.Lies, Layout.statement, Layout.expression]
    exact lays_construct hopen (.behind hkeyword ((lays_declaration hid hdeclare).trans ih)) hfinish
  | functionStatement hopen _ _ hfinish ihname ihf =>
    rw [Phrase.Lies, Layout.statement]
    exact lays_construct hopen (ihname.trans ihf) hfinish
  | print _ hopen hreference _ hfinish ih =>
    -- The callee stands where the question mark does.
    obtain ⟨-, v, hmark, hadvance⟩ := hopen
    have hlays := ((lays_advance hadvance).pass hreference).trans ih
    have hcall := Lays.marked hmark hlays hlays.passes hfinish
    cases hmark
    cases hreference
    rw [Phrase.Lies, Layout.statement_call, Layout.expression, Layout.expression]
    exact ⟨hcall.1.wrapped, hcall.2⟩
  | callStatement hmark _ _ _ hfinish ih =>
    rw [Phrase.Lies, Layout.statement_call]
    exact Lays.marked hmark ih ih.passes hfinish
  | assignment hmark _ _ hadvance _ _ _ hfinish ihtargets ihvalues =>
    rw [Phrase.Lies, Layout.statement]
    exact Lays.marked hmark (ihtargets.trans (.behind hadvance ihvalues))
      (.left ihtargets.reaches ((passes_advance hadvance).right ihvalues.reaches)) hfinish
  | inclusion hkind hpass =>
    -- Include lines are excluded.
    have hnothing := lays_nothing hpass
    refine ⟨⟨hnothing.reaches, hnothing.markers, fun hs => ?_⟩, rfl⟩
    have hdirective := hs.plain.window.tokenKind
    simp [Token.isDirective, hkind] at hdirective
  | label hopen hid hclose hlabel hfinish =>
    rw [Phrase.Lies, Layout.statement]
    exact lays_construct hopen (((lays_identifier hid).pass hclose).pass hlabel) hfinish
  | proper hraise _ ih =>
    refine ⟨.behind hraise ih.1, ih.2.trans ?_⟩
    cases hraise
    rfl

theorem Derives.lays (h : Derives c s phrase t) : Lays c s t phrase.layout := by
  have hlies := h.lies
  cases phrase with
  | proper | statement => exact hlies.1
  | _ => exact hlies

theorem Derives.reaches (h : Derives c s phrase t) : Reaches c s t := h.lays.reaches

namespace Program

theorem lays_wholeText {levels : Nat} {body : Block} (h : (wholeText levels).run c s = .ok body t) :
    Session.Lays c s t (Layout.statements body) := by
  obtain ⟨u, v, w, x, hblock, hscope, hbody, hscope', hblock'⟩ := derives_wholeText h
  exact .behind hblock (.behind hscope ((hbody.lays.pass hscope').pass hblock'))

variable {options : Options} {source name : String}

theorem laid_parse (h : IsAlone options source) {p : Program} (hp : parse options source name = p) :
    p.span.start.Before p.span.stop ∧ Layout.Laid p.span.start p.span.stop (Layout.statements p.body) := by
  have hstart : (start options source name).Ordered :=
    ⟨plain_start h, Window.start_ordered options.encoding source 0⟩
  obtain ⟨body, last, hrun⟩ := exists_run_eq_ok options source name
  have hlays := lays_wholeText hrun
  obtain ⟨hlast, hhere, -⟩ := hlays.reaches.ordered hstart
  have hend := hlast.window.token
  rw [parse, hrun] at hp
  rw [← hp]
  exact ⟨hhere.trans hend, (hlays.laid hstart).mono (.refl _) (hlast.behind_before_here.trans hend)⟩

/-- In a program without include lines every span encloses the spans of the parts of its node, which do not overlap and
stand in the order of the text, whether there are errors or not. -/
theorem layout_parse_nested (h : IsAlone options source) : (parse options source name).layout.Nested := by
  obtain ⟨hproper, hlaid⟩ := laid_parse h rfl
  exact hlaid.node hproper

/-- A program with an if statement on one line whose last clause goes on, a fault in a table, a call without its closing
parenthesis and a method. -/
def ragged : String :=
  "if(a)?(b).c'd' else\nx,y[1]=\x7b1,k=,2\x7d\nf(\nlocal z=function(p,...)return -p^2 end\nend function t.u:m()end"

/-- The spans of a program nest also where statements of it are wrong. -/
theorem layout_parse_nested_ragged : IsAlone {} ragged ∧ (parse {} ragged "main.lua").errors.length = 2 ∧
    (parse {} ragged "main.lua").body.length = 2 ∧ (parse {} ragged "main.lua").layout.Nested := by
  have halone : IsAlone {} ragged := by
    unfold IsAlone
    decide +kernel
  have hfaults : (parse {} ragged "main.lua").errors.length = 2 ∧ (parse {} ragged "main.lua").body.length = 2 := by
    decide +kernel
  exact ⟨halone, hfaults.1, hfaults.2, layout_parse_nested halone⟩

end Program

end CartLua
