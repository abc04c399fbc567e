import CartLua.Proofs.Sight
/-!
# Names in phrases

Every phrase reads the places that its tree mentions, and a statement declares what the statements behind it see. A value
may turn out to be bound to a name, or to be the key of a field, only when it has been read. So what is said of an
expression counts for both, and the key that it would make is among its places.
-/

namespace CartLua

open Parse Session List

theorem Mention.expression_dyadic (sight : List Identifier) (bound : Bool) (op : DyadicOp) (left right : Expr) (span : Span) :
    Mention.expression sight bound (.dyadic op left right span) =
      Mention.expression sight false left ++ Mention.expression sight false right := by
  cases op <;> rw [Expr.dyadic, Mention.expression]

theorem Expr.keyMentions_dyadic (op : DyadicOp) (left right : Expr) (span : Span) :
    (Expr.dyadic op left right span).keyMentions = [] := by
  cases op <;> rfl

theorem Mention.clauses_append (sight : List Identifier) (cs cs' : List Clause) :
    Mention.clauses sight (cs ++ cs') = Mention.clauses sight cs ++ Mention.clauses sight cs' := by
  induction cs with
  | nil =>
    rfl
  | cons clause rest ih => rw [cons_append, Mention.clauses, Mention.clauses, ih, append_assoc]

theorem Mention.values_unbound (sight : List Identifier) (es : List Expr) :
    Mention.values sight [] es = Mention.expressions sight es := by
  induction es with
  | nil => rw [Mention.values, Mention.expressions]
  | cons e rest ih => rw [Mention.values, Mention.expressions, ih]

theorem Mention.values_toList (sight : List Identifier) (step : Option Expr) :
    Mention.values sight [] step.toList = Mention.optionalExpression sight step := by
  cases step <;> simp [Mention.values, Mention.optionalExpression]

variable {c : Settings} {s t u : Session} {e : Expr}

/-! ### Expressions -/

/-- The run from `s` to `t` reads an expression, whether it will be bound to a name or be the key of a field. -/
def Says (c : Settings) (s t : Session) (e : Expr) : Prop :=
  ∀ bound, Mentions c s t [] fun sight => Mention.expression sight bound e ++ e.keyMentions

theorem Says.mentions (h : Says c s t e) (bound : Bool) :
    Mentions c s t [] fun sight => Mention.expression sight bound e :=
  (h bound).as rfl fun _ _ => by simp

theorem Says.value (h : Says c s t e) : Mentions c s t [] fun sight => Mention.expression sight false e :=
  h.mentions false

theorem Says.pass {α : Type} {p : Parse α} [ScopeFree c p] {a : α} (h : Says c s t e) (hrun : p.run c t = .ok a u) :
    Says c s u e := fun bound => (h bound).pass hrun

theorem says_of_mentions (hkey : e.keyMentions = [])
    (h : ∀ bound, Mentions c s t [] fun sight => Mention.expression sight bound e) : Says c s t e := by
  intro bound
  rw [hkey]
  simpa using h bound

theorem says_literal {a : Unit} (hliteral : Grammar.literal? s.window.token = some e) (h : advance.run c s = .ok a t) :
    Says c s t e := by
  have hsolid : s.window.token.isSolid = true := by
    rw [Token.isSolid_iff, Token.isEof, Token.isNewline]
    unfold Grammar.literal? at hliteral
    split at hliteral <;> simp_all
  have hread := mentions_advance hsolid h (m := fun _ => .fieldKey s.window.token.span) (fun _ => rfl) fun _ _ _ => trivial
  intro bound
  refine hread.as rfl fun sight m => ?_
  unfold Grammar.literal? at hliteral
  split at hliteral <;> cases hliteral <;> rw [Mention.expression, Expr.keyMentions, Expr.span, nil_append] <;>
    split <;> simp

theorem says_reference {id id' : Identifier} (hid : identifier.run c s = .ok id u)
    (h : (reference id).run c u = .ok id' t) : Says c s t (.name id') :=
  says_of_mentions rfl fun _ => (mentions_reference hid h)

theorem says_member {base : Expr} {key : Identifier} (indexer : Indexer) (hbase : Says c s u base)
    (hkey : identifier.run c u = .ok key t) : Says c s t (.member base indexer key ⟨s.here, key.span.stop⟩) := by
  have hread := hbase.value.andThen
    (mentions_identifier hkey (m := fun _ => .part ⟨s.here, key.span.stop⟩) (fun _ => rfl) fun _ _ _ => trivial)
  refine says_of_mentions rfl fun bound => hread.as rfl fun sight m => ?_
  rw [Mention.expression, count_append, count_append]
  split <;> simp

theorem mentions_values {es : List Expr} (he : Says c s u e)
    (hes : ∀ bound, Mentions c u t [] fun sight => Mention.values sight bound es) (bound : List Bool) :
    Mentions c s t [] fun sight => Mention.values sight bound (e :: es) := by
  cases bound with
  | nil => exact (he.value.andThen (hes []))
  | cons first others => exact ((he.mentions first).andThen (hes others))

/-! ### Statements -/

instance (k : Token) : ScopeFree c (Grammar.checkVararg k) := by
  unfold Grammar.checkVararg
  infer_instance

instance (keyword : Span) : ScopeFree c (Grammar.checkBreak keyword) := by
  unfold Grammar.checkBreak
  infer_instance

theorem mentions_opens {terminal : Terminal} (h : Opens c terminal s t) : Mentions c s t [] fun _ => [] := by
  obtain ⟨-, u, hmark, hadvance⟩ := h
  exact .behind hmark (mentions_nothing hadvance)

theorem mentions_print {callee : Identifier} (hopen : Opens c Symbol.question s u)
    (h : (reference { name := "print", span := s.window.token.span }).run c u = .ok callee t) :
    Mentions c s t [] fun sight => [.reference callee (nearest? sight callee.name)] := by
  obtain ⟨hkind, v, hmark, hadvance⟩ := hopen
  have hwindow : v.window = s.window := by
    cases hmark
    rfl
  have hsolid : v.window.token.isSolid = true := by
    rw [hwindow, Token.isSolid_iff, Token.isEof, Token.isNewline]
    simp [Terminal.kind, hkind]
  have hname : '.' ∉ "print".toList := by decide
  have hcallee : Mentions c v u [] fun sight => [.reference
      { name := "print", isLocal := u.visible.contains "print", span := s.window.token.span } (nearest? sight "print")] :=
    mentions_advance hsolid hadvance (fun _ => by rw [hwindow]; rfl) fun _ sight hsees => ⟨hname, fun hself =>
      (hsees.of_scopes (Leaves.unchanged hadvance)).visible "print" hself⟩
  refine ((Mentions.behind hmark hcallee).pass h).as rfl fun sight m => ?_
  cases h
  rfl

/-! ### All phrases -/

/-- The phrase reads what its tree mentions between two sessions. -/
def Phrase.Mentioned (c : Settings) (s t : Session) : Phrase → Prop
  | .expression _ e | .operators _ _ e | .operand _ e | .chain _ _ e | .callee _ _ e | .dottedName e | .functionName e =>
    Says c s t e
  | .values _ es | .moreValues _ es => ∀ bound, Mentions c s t [] fun sight => Mention.values sight bound es
  | .targets _ _ es => Mentions c s t [] fun sight => Mention.expressions sight es
  | .field _ f => ∀ bound, Mentions c s t [] fun sight => Mention.field sight bound f
  | .fields _ fs => ∀ bound, Mentions c s t [] fun sight => Mention.fields sight bound fs
  | .table _ tbl => ∀ bound, Mentions c s t [] fun sight => Mention.table sight bound tbl
  | .parameters ps => Mentions c s t (parameterNames ps).reverse fun _ => (parameterNames ps).map .declaration
  | .function _ _ ps body => Mentions c s t [] fun sight => Mention.functionBody sight ⟨ps, body, default⟩
  | .moreNames ids | .moreLocals ids =>
    Mentions c s t [] fun _ => ids.map fun id => .declaration { id with isLocal := true }
  | .block _ body | .text _ body => Mentions c s t (sightBehind [] body) fun sight => Mention.statements sight body
  | .scopedBlock _ _ body => Mentions c s t [] fun sight => Mention.statements sight body
  | .elseIfs _ cs | .elseClause _ cs | .oneLineElse _ cs => Mentions c s t [] fun sight => Mention.clauses sight cs
  | .proper _ stmt | .statement _ stmt => Mentions c s t stmt.declared fun sight => Mention.statement sight stmt

theorem Derives.mentioned {phrase : Phrase} (h : Derives c s phrase t) : phrase.Mentioned c s t := by
  induction h with
  | expression _ ih | operand _ ih | chain _ ih | plainCallee _ ih | functionName _ ih | text _ ih => exact ih
  | dyadic _ _ hadvance _ ihe ihr =>
    have hread := (ihe.value.pass hadvance).andThen ihr.value
    exact says_of_mentions (Expr.keyMentions_dyadic ..) fun bound => hread.as rfl fun sight m => by
      rw [Mention.expression_dyadic]
  | literal he hcheck hadvance =>
    rw [← Grammar.window_checkVararg hcheck] at he
    exact fun bound => .behind hcheck (says_literal he hadvance bound)
  | functionValue hopen _ hfinish ih =>
    exact says_of_mentions rfl fun bound => ((mentions_opens hopen).before (ih.pass hfinish))
  | tableValue _ ih => exact says_of_mentions rfl fun bound => (ih bound)
  | unary _ hadvance _ ih =>
    exact says_of_mentions rfl fun bound => (Mentions.behind hadvance ih.value)
  | name hid hreference | dottedName hid hreference => exact says_reference hid hreference
  | parenthesized hopen _ hclose ih => exact fun bound => (Mentions.behind hopen (ih bound)).pass hclose
  | index _ hopen _ hclose ihbase ihkey =>
    have hread := (ihbase.value.andThen (.behind hopen ihkey.value)).pass hclose
    exact says_of_mentions rfl fun bound => hread
  | member _ hdot hkey ih | dottedMember _ hdot hkey ih => exact says_member .dot (ih.pass hdot) hkey
  | method _ hcolon hkey ih | methodName _ hcolon hkey ih => exact says_member .colon (ih.pass hcolon) hkey
  | call _ hopen _ hclose ihbase iharguments =>
    have hread := (ihbase.value.andThen (.behind hopen (iharguments []))).pass hclose
    exact says_of_mentions rfl fun bound => hread.as rfl fun sight m => by
      rw [Mention.expression, Mention.values_unbound]
  | tableCall _ _ ihbase ihtable =>
    have hread := ihbase.value.andThen (ihtable false)
    exact says_of_mentions rfl fun bound => hread
  | stringCall _ _ hadvance ih =>
    exact says_of_mentions rfl fun bound => (ih.value.pass hadvance).as rfl fun sight m => by
      rw [Mention.expression, Mention.expression, append_nil]
  | noMoreValues | noValues => exact fun bound => (Mentions.refl _)
  | moreValues hcomma _ _ ihe ihes => exact fun bound => .behind hcomma (mentions_values ihe ihes bound)
  | values _ _ ihe ihes => exact mentions_values ihe ihes
  | target _ _ ih =>
    exact ih.value.as rfl fun sight m => by rw [Mention.expressions, Mention.expressions, append_nil]
  | moreTargets _ _ hcomma _ ihe ihes =>
    exact ((ihe.value.pass hcomma).andThen ihes)
  | @keyedField _ key _ _ _ _ _ _ _ _ _ _ hmark hopen _ hclose hassign _ hfinish ihkey ihvalue =>
    intro bound
    have hpair := (((ihkey false).pass hclose).pass hassign).andThen (ihvalue.mentions (bound && key.stringKey?.isSome))
    refine (Mentions.behind hmark (.behind hopen (hpair.pass hfinish))).as rfl fun sight m => ?_
    rw [Mention.field, Expr.keyMentions]
    cases key.stringKey?.isSome <;> cases bound <;> simp +arith [count_append, count_cons]
  | @namedField _ key _ _ _ _ _ _ _ _ hmark hkey _ hadvance _ hfinish ih =>
    intro bound
    have hname := mentions_identifier hkey (m := fun _ => .fieldKey key.span) (fun _ => rfl) fun _ _ _ => trivial
    refine (Mentions.behind hmark (((hname.pass hadvance).andThen (ih.mentions bound)).pass hfinish)).as rfl fun sight m => ?_
    rw [Mention.field]
    cases bound <;> simp [count_cons]
  | positionalField hmark _ hfinish ih =>
    exact fun bound => (Mentions.behind hmark (ih.value.pass hfinish))
  | noFields => exact fun bound => (Mentions.refl _)
  | fields _ _ hseparator _ ihf ihfs =>
    exact fun bound => (((ihf bound).pass hseparator).andThen (ihfs bound))
  | table hmark hopen _ hclose hfinish ih =>
    exact fun bound => (Mentions.behind hmark (.behind hopen (((ih bound).pass hclose).pass hfinish)))
  | noParameters hclose => exact mentions_nothing hclose
  | lastParameter hid hdeclare hclose =>
    obtain ⟨rfl, hlocal⟩ := mentions_declareInFlow hdeclare
    exact ((mentions_declaration hid).andThen hlocal).pass hclose
  | parameters hid hdeclare hcomma _ ih =>
    obtain ⟨rfl, hlocal⟩ := mentions_declareInFlow hdeclare
    exact ((((mentions_declaration hid).andThen hlocal).pass hcomma).trans ih).as reverse_cons.symm fun _ _ => le_rfl
  | varargParameter _ hallow hadvance hclose => exact .behind hallow (.behind hadvance (mentions_nothing hclose))
  | function hhide henter hblock hscope hself hopen _ _ hclose hscope' hblock' hleave ihps ihbody =>
    have hinner := (mentions_declareSelf hself).before (.behind hopen ((ihps.trans ihbody).pass hclose))
    have hread := ((Mentions.inScope hscope hinner hscope').pass hblock').pass hleave
    exact (Mentions.behind hhide (.behind henter (.behind hblock hread)))
  | endBlock => exact (Mentions.refl _)
  | block _ _ _ _ _ ihstmt ihbody =>
    exact (ihstmt.trans ihbody).as (Scoping.sightBehind_cons ..).symm fun sight m => by rw [Mention.statements]
  | emptyStatement _ hadvance _ ih => exact .behind hadvance ih
  | givenUp hfault _ ih =>
    exact ⟨hfault.reaches.trans ih.reaches, fun _ hclean _ _ => absurd (hclean.of_reaches ih.reaches) hfault.fault⟩
  | scopedBlock hblock hscope _ hscope' hblock' ih =>
    exact .behind hblock ((Mentions.inScope hscope ih hscope').pass hblock')
  | moreText _ hfault _ ihbody ihmore =>
    exact ⟨ihbody.reaches.trans (hfault.reaches.trans ihmore.reaches),
      fun _ hclean _ _ => absurd (hclean.of_reaches ihmore.reaches) hfault.fault⟩
  | noElseIfs | noElse | noOneLineElse => exact (Mentions.refl _)
  | elseIfs hopen _ hthen _ hfinish _ ihcondition ihbody ihcs =>
    have hclause := ((ihcondition.value.pass hthen).andThen ihbody).pass hfinish
    exact ((mentions_opens hopen).before (hclause.andThen ihcs))
  | elseClause hopen _ hfinish ih | oneLineElse hopen _ _ hfinish ih =>
    refine ((mentions_opens hopen).before (ih.pass hfinish)).as rfl fun sight m => ?_
    rw [Mention.clauses, Mention.clause, Mention.clauses, append_nil]
  | blockElse hopen _ hhide _ hend hfinish ih =>
    refine ((mentions_opens hopen).before (.behind hhide ((ih.pass hend).pass hfinish))).as rfl fun sight m => ?_
    rw [Mention.clauses, Mention.clause, Mention.clauses, append_nil]
  | breakLoop hopen hcheck hfinish =>
    exact (((mentions_opens hopen).pass hcheck).pass hfinish)
  | goto hopen hid hgoto hfinish =>
    exact ((((mentions_opens hopen).pass hid).pass hgoto).pass hfinish)
  | ret hopen _ hsemicolon hfinish ih =>
    refine ((mentions_opens hopen).before (((ih []).pass hsemicolon).pass hfinish)).as rfl fun sight m => ?_
    rw [Mention.statement, Mention.values_unbound]
  | doBlock hopen _ hend hfinish ih =>
    exact ((mentions_opens hopen).before ((ih.pass hend).pass hfinish))
  | whileLoop hopen _ hdo _ hend hfinish ihcondition ihbody =>
    have hread := (((ihcondition.value.pass hdo).andThen ihbody).pass hend).pass hfinish
    exact ((mentions_opens hopen).before hread)
  | repeatLoop hopen hblock hscope _ huntil _ hscope' hblock' hfinish ihbody ihcondition =>
    -- The condition sees the locals of the body.
    have hread := Mentions.inScope hscope ((ihbody.pass huntil).trans ihcondition.value) hscope'
    refine ((mentions_opens hopen).before (.behind hblock ((hread.pass hblock').pass hfinish))).as rfl fun sight m => ?_
    rw [Mention.statement, Scoping.sightBehind_eq]
  | forNumeric hopen hid hblock hscope hassign _ hcomma _ _ hdo hcounter _ hend hscope' hblock' hfinish ihfirst ihlast
      ihstep ihbody =>
      obtain ⟨rfl, hdeclare⟩ := mentions_declareInFlow hcounter
      have hvalues := ((ihfirst.value.pass hcomma).andThen ihlast.value).andThen (ihstep [])
      have hinner := Mentions.behind hassign (((hvalues.pass hdo).andThen hdeclare).trans (ihbody.pass hend))
      have hread := ((Mentions.inScope hscope hinner hscope').pass hblock').pass hfinish
      refine ((mentions_opens hopen).before (((mentions_declaration hid).pass hblock).andThen hread)).as rfl fun sight m => ?_
      rw [Mention.statement, ← Mention.values_toList]
      simp [count_append, count_cons]
      omega
  | forGeneric hopen hid hblock hscope _ hin _ hdo hnames _ hend hscope' hblock' hfinish ihothers ihiterators ihbody =>
    obtain ⟨rfl, hdeclare⟩ := mentions_mapM mentions_declareInFlow hnames
    have hvalues := (ihothers.pass hin).andThen ((ihiterators []).pass hdo)
    have hinner := (hvalues.andThen hdeclare).trans (ihbody.pass hend)
    have hread := ((Mentions.inScope hscope hinner hscope').pass hblock').pass hfinish
    refine ((mentions_opens hopen).before (((mentions_declaration hid).pass hblock).andThen hread)).as rfl fun sight m => ?_
    rw [Mention.statement, ← Mention.values_unbound]
    simp [count_append, count_cons, Function.comp_def]
    omega
  | noMoreNames | noMoreLocals => exact .refl _
  | moreNames hcomma hid _ ih => exact .behind hcomma ((mentions_declaration hid).andThen ih)
  | moreLocals hcomma hid hlocal _ ih => exact .behind hcomma (((mentions_declaration hid).pass hlocal).andThen ih)
  | oneLineIf hopen hagain _ _ hshow _ hfinish _ hback hfinish' ihcondition ihbody ihlast =>
    have hfirst := ((ihcondition.value.pass hshow).andThen ihbody).pass hfinish
    have hread := ((hfirst.andThen ihlast).pass hback).pass hfinish'
    exact ((mentions_opens hopen).before (.behind hagain hread))
  | blockIf hopen hagain _ hthen _ hfinish _ _ hend hfinish' ihcondition ihbody ihothers ihlast =>
    have hfirst := ((ihcondition.value.pass hthen).andThen ihbody).pass hfinish
    have hread := (((hfirst.andThen ihothers).andThen ihlast).pass hend).pass hfinish'
    refine ((mentions_opens hopen).before (.behind hagain hread)).as rfl fun sight m => ?_
    rw [Mention.statement, cons_append, Mention.clauses, Mention.clause, Mention.clauses_append, ← append_assoc]
  | @declare _ id others _ _ _ _ _ _ _ _ _ _ _ _ _ hopen hid hlocal _ hassign _ hnames hfinish ihothers ihvalues =>
    -- Local variables are in sight behind their values.
    obtain ⟨rfl, hdeclare⟩ := mentions_mapM mentions_declare hnames
    have hids := (((mentions_declaration hid).pass hlocal).andThen ihothers).pass hassign
    have hread := (hids.andThen (ihvalues ((id :: others).map fun _ => true))).andThen (hdeclare.pass hfinish)
    refine ((mentions_opens hopen).before hread).as rfl fun sight m => ?_
    rw [Mention.statement]
    simp [count_append, count_cons, Function.comp_def]
    omega
  | localFunction hopen hkeyword hid hdeclare _ hfinish ih =>
    obtain ⟨rfl, hlocal⟩ := mentions_declareInFlow hdeclare
    have hname := Mentions.behind hkeyword ((mentions_declaration hid).andThen hlocal)
    refine ((mentions_opens hopen).before (hname.trans (ih.pass hfinish))).as rfl fun sight m => ?_
    rw [Mention.statement, Mention.functionBody, Mention.functionBody]
    simp [localName?, Expr.asName?]
  | functionStatement hopen _ _ hfinish ihname ihf =>
    refine ((mentions_opens hopen).before (ihname.value.andThen (ihf.pass hfinish))).as rfl fun sight m => ?_
    rw [Mention.statement, Mention.functionBody, Mention.functionBody]
    simp [localName?]
  | print _ hopen hreference _ hfinish ih =>
    refine ((mentions_print hopen hreference).andThen ((ih []).pass hfinish)).as rfl fun sight m => ?_
    rw [Mention.statement_call, Mention.expression, Mention.expression, Mention.values_unbound]
  | callStatement hmark _ _ _ hfinish ih =>
    exact (Mentions.behind hmark (ih.value.pass hfinish))
  | @assignment _ _ targets _ _ _ _ _ _ _ _ _ hmark _ _ hadvance _ _ _ hfinish ihtargets ihvalues =>
    have hvalues := (ihvalues (targets.map (·.segments?.isSome))).pass hfinish
    exact (Mentions.behind hmark ((ihtargets.pass hadvance).andThen hvalues))
  | inclusion _ hpass => exact (mentions_nothing hpass)
  | label hopen hid hclose hlabel hfinish =>
    exact (((((mentions_opens hopen).pass hid).pass hclose).pass hlabel).pass hfinish)
  | proper hraise _ ih => exact .behind hraise ih

end CartLua
