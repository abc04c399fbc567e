import CartLua.Proofs.Reading
/-!
# What a program reads

Every phrase reads the words and the cues of its tree. So a program without include lines and without syntax faults is read
from its first token to its last, and its tree holds all its words.
-/

namespace CartLua

open Parse Session Token Window

variable {c : Settings} {s t u v : Session} {nl : Bool} {a : Unit} {k : Token} {span : Span}

/-! ### Phrases -/

@[simp] def Phrase.words : Phrase → List Word
  | .expression _ e | .operators _ _ e | .operand _ e | .chain _ _ e | .callee _ _ e | .dottedName e | .functionName e =>
    Words.expression e
  | .values _ es | .moreValues _ es | .targets _ _ es => Words.expressions es
  | .field _ f => Words.field f
  | .fields _ fs => Words.fields fs
  | .table _ tbl => Words.table tbl
  | .parameters ps => ps.map Parameter.word
  | .function _ _ ps body => ps.map Parameter.word ++ Words.statements body
  | .moreNames ids | .moreLocals ids => Words.names ids
  | .block _ body | .scopedBlock _ _ body | .text _ body => Words.statements body
  | .elseIfs _ cs | .elseClause _ cs | .oneLineElse _ cs => Words.clauses cs
  | .proper _ stmt | .statement _ stmt => Words.statement stmt

/-- The cues of a phrase, where line ends are shown as `newlines` says. -/
@[simp] def Phrase.cues (ts : List Token) (newlines : Bool) : Phrase → List Cue
  | .expression _ e | .operators _ _ e | .operand _ e | .chain _ _ e | .callee _ _ e | .dottedName e | .functionName e =>
    Cues.expression ts e
  | .values _ es | .moreValues _ es | .targets _ _ es => Cues.expressions ts es
  | .field _ f => Cues.field ts f
  | .fields _ fs => Cues.fields ts fs
  | .table _ tbl => Cues.table ts tbl
  | .parameters ps => ps.map Cues.parameter
  | .function _ _ ps body => Cues.function ts ⟨ps, body, default⟩
  | .moreNames _ => []
  | .moreLocals ids => Cues.locals ids
  | .block _ body | .text _ body => Cues.statements ts newlines body
  | .scopedBlock _ isLoop body => .openBlock isLoop :: Cues.statements ts newlines body ++ [.closeBlock]
  | .elseIfs _ cs | .elseClause _ cs | .oneLineElse _ cs => Cues.clauses ts newlines newlines cs
  | .proper _ stmt => Cues.statement ts newlines stmt
  | .statement _ stmt => Cues.opening stmt ++ Cues.statement ts newlines stmt

/-- The words and the cues of the phrase are read between two sessions. Line ends are not shown in a table. In the last
clause of an if statement on one line it depends on its first line whether they are; none is passed over at its end. -/
def Phrase.Read (c : Settings) (s t : Session) : Phrase → Prop
  | .field _ f => Reads c false false (Words.field f) (fun ts => Cues.field ts f) s t
  | .fields _ fs => Reads c false false (Words.fields fs) (fun ts => Cues.fields ts fs) s t
  | .oneLineElse _ cs => (∃ after, Accounts c true after (Words.clauses cs)
      (fun ts => Cues.clauses ts (!endsLine ts s.behind) (!endsLine ts s.behind) cs) s t) ∧
        (s.Plain → t.Clean → s.window.newlines = true → t.window = s.window ∨ t.window.Joined)
  | phrase => ∀ nl, Reads c nl nl phrase.words (fun ts => phrase.cues ts nl) s t

/-! ### Names and operators -/

theorem reads_fieldKey {key : Identifier} {u : Session} (hassign : s.window.lookahead.isSymbol .assign = true)
    (hkey : identifier.run c s = .ok key u) (hadvance : advance.run c u = .ok a t) :
    Reads c false false [.name key.name] (fun _ => []) s t := by
  have hkeyed : Reads c false false _ _ _ _ := reads_identifier hkey
  refine .intro (hkeyed.toOutlines.pass (.silent (reaches hadvance) fun _ => track_advance hadvance)) fun hplain hnl => ?_
  have his : u.window.token.is (.symbol .assign) = true := by
    have hline : s.window.atLineEnd = false := by simp [atLineEnd, hnl]
    rw [(isWritten_identifier hplain hkey).2, next_token, hline]
    exact hassign
  exact hkeyed.trans (reads_pass rfl his hadvance)

theorem word?_of_literal {e : Expr} (h : Grammar.literal? k = some e) :
    k.isSolid = true ∧ k.word?.toList = Words.expression e := by
  unfold Grammar.literal? at h
  split at h <;> cases h <;>
    (rename_i hkind; simp [isSolid, isEof, isNewline, word?, Words.expression, hkind])

theorem reads_checkVararg {e : Expr} (hliteral : Grammar.literal? s.window.token = some e)
    (h : (Grammar.checkVararg s.window.token).run c s = .ok a t) :
    t.window = s.window ∧ Reads c nl nl [] (fun ts => Cues.expression ts e) s t := by
  have hreach := reaches h
  obtain ⟨allowed, u, hlook, h⟩ := run_bind_eq_ok.mp h
  cases hlook
  unfold Grammar.literal? at hliteral
  split at hliteral <;> cases hliteral <;> rename_i hkind <;> simp only [hkind, Bool.false_and, Bool.true_and] at h
  case h_5 =>
    cases hallowed : s.flow.allowVararg with
    | true =>
      rw [hallowed] at h
      cases h
      exact ⟨rfl, .cue (fun _ => Cue.noConfusion) hreach rfl (by simp [Session.track, Track.follow, hallowed])⟩
    | false =>
      rw [hallowed] at h
      cases h
      refine ⟨rfl, .intro (.of_error hreach (fun _ _ => List.not_mem_nil) ?_ (by simp [Session.report])) fun hplain _ =>
        .cue (fun _ => Cue.noConfusion) hreach rfl ?_⟩
      · simp [Cues.expression]
      have hdots := (hplain.window.token (by simp [isNewline, hkind])).dots hkind
      simp [Session.track, Session.report, Track.follow, hallowed, hdots]
  all_goals
    cases h
    exact ⟨rfl, .refl⟩

theorem strings_name (id : Identifier) (value : Option String) (text : String)
    (hmem : .string value text ∈ Words.expression (.name id)) :
    ∃ u, Reaches c s u ∧ u.window.token.kind = .string value := by
  rw [Words.expression] at hmem
  split at hmem <;> simp at hmem

theorem reads_name {id : Identifier} (h : identifier.run c s = .ok id t) :
    Reads c nl nl (Words.expression (.name id)) (fun _ => []) s t := by
  have hread : Reads c nl nl _ _ _ _ := reads_identifier h
  refine .intro ⟨reaches h, strings_name id, hread.statements, hread.calm⟩ fun hplain _ => hread.as ⟨?_, fun _ => rfl⟩
  simp [Words.expression, (isWritten_identifier hplain h).1]

theorem reads_reference {id id' : Identifier} {u : Session} (hid : identifier.run c s = .ok id u)
    (h : (reference id).run c u = .ok id' t) :
    Reads c nl nl (Words.expression (.name id')) (fun ts => Cues.expression ts (.name id')) s t := by
  refine ((reads_name hid).trans (reads_use h)).as ⟨?_, fun ts => ?_⟩
  · cases h
    simp [Words.expression, Identifier.isWritten]
  · simp [Cues.expression]

theorem word?_of_unary {op : UnaryOp} (h : UnaryOp.ofToken? k = some op) :
    k.isSolid = true ∧ k.word? = some op.word := by
  unfold UnaryOp.ofToken? at h
  split at h
  next sign hkind =>
    refine ⟨by simp [isSolid, isEof, isNewline, hkind], ?_⟩
    cases sign <;> cases h <;> simp [word?, hkind] <;> rfl
  next word hkind =>
    refine ⟨by simp [isSolid, isEof, isNewline, hkind], ?_⟩
    cases word <;> cases h
    simp [word?, hkind]
    rfl
  next => cases h

theorem word?_of_dyadic {op : DyadicOp} (h : DyadicOp.ofToken? k = some op) (left right : Expr) (span : Span) :
    k.isSolid = true ∧
      Words.expression (.dyadic op left right span) =
        Words.expression left ++ k.word?.toList ++ Words.expression right := by
  rw [Words.expression_dyadic]
  unfold DyadicOp.ofToken? at h
  split at h
  next sign hkind =>
    refine ⟨by simp [isSolid, isEof, isNewline, hkind], ?_⟩
    obtain ⟨op, hop, rfl⟩ := Option.map_eq_some_iff.mp h
    simp [DyadicOp.word, word?, hkind, Symbol.word?, hop]
  next word hkind =>
    refine ⟨by simp [isSolid, isEof, isNewline, hkind], ?_⟩
    obtain ⟨op, hop, rfl⟩ := Option.map_eq_some_iff.mp h
    cases word <;> cases hop <;> simp [DyadicOp.word, word?, hkind, Keyword.word?, LogicalOp.keyword]
  next => cases h

theorem word?_of_assign {op : AssignOp} (h : AssignOp.ofToken? k = some op) :
    k.isSolid = true ∧ k.word?.toList = op.words := by
  unfold AssignOp.ofToken? at h
  split at h
  next sign hkind =>
    refine ⟨by simp [isSolid, isEof, isNewline, hkind], ?_⟩
    cases sign <;> cases h <;> simp [word?, hkind] <;> rfl
  next => cases h

instance (isMethod : Bool) : Silent c (Grammar.declareSelf isMethod) := by
  unfold Grammar.declareSelf
  infer_instance

/-! ### Statements -/

theorem reads_checkBreak {keyword : Span} (h : (Grammar.checkBreak keyword).run c s = .ok a t) :
    t.window = s.window ∧ t.markers = s.markers ∧
      Reads c nl nl [] (fun _ => [.breakLoop s.window.token.text keyword]) s t ∧
      ∀ (near : List Token → String) (span : Span), Outlines c [] (fun ts => [.breakLoop (near ts) span]) s t := by
  have hreach := reaches h
  simp only [Grammar.checkBreak, run_bind_eq_ok, run_look, Outcome.ok.injEq] at h
  obtain ⟨_, _, ⟨rfl, rfl⟩, h⟩ := h
  cases hloop : s.flow.inLoop with
  | true =>
    rw [hloop] at h
    cases h
    refine ⟨rfl, rfl, .cue (fun _ => Cue.noConfusion) hreach rfl (by simp [Session.track, Track.follow, hloop]),
      fun near span => ⟨hreach, fun _ _ hmem => absurd hmem List.not_mem_nil, by simp, ?_⟩⟩
    simp [Session.track, Track.follow, hloop]
  | false =>
    rw [hloop] at h
    cases h
    exact ⟨rfl, rfl, .cue (fun _ => Cue.noConfusion) hreach rfl (by simp [Session.track, Session.report, Track.follow, hloop]),
      fun near span => .of_error hreach (fun _ _ => List.not_mem_nil) (by simp) (by simp [Session.report])⟩

theorem text_next {w : Window} {front ts : List Token} (hsolid : w.token.isSolid = true) (hstream : w.stream = .ok ts)
    (hordered : (front ++ ts).Pairwise Token.Before) :
    w.next.2.token.text = nearText (front ++ ts) w.newlines w.token.span.stop := by
  obtain ⟨tail, rfl⟩ := stream_solid hsolid hstream
  unfold nearText
  rw [tokensFrom_append hordered (List.cons_ne_nil _ _), next_token, atLineEnd_solid hsolid]
  simp only [Bool.and_eq_true, decide_eq_true_eq]
  split <;> rfl

theorem reads_break (hopen : Opens c Keyword.breakKw s u)
    (hcheck : (Grammar.checkBreak s.window.token.span).run c u = .ok a v) (hfinish : finish.run c v = .ok span t) :
    Reads c nl nl [] (fun ts => [.breakLoop (nearText ts nl span.stop) span]) s t := by
  have hstart : Reads c nl nl _ _ _ _ := reads_opens rfl hopen
  obtain ⟨hkind, w, hmark, hadvance⟩ := hopen
  have hchecked : _ ∧ _ ∧ Reads c nl nl _ _ _ _ ∧ _ := reads_checkBreak hcheck
  obtain ⟨hwindow, hmarkers, hchecked, hany⟩ := hchecked
  have hends : Reads c nl nl _ _ _ _ := reads_silent hfinish
  have houtlines := hstart.toOutlines.behind ((hany (nearText · nl span.stop) span).pass hends.toOutlines)
  refine .intro houtlines fun hplain hnl => ?_
  obtain ⟨-, rfl⟩ := advance_eq ((reaches hmark).plain hplain) hadvance
  cases hmark
  have hspan : span = s.window.token.span := by
    cases hfinish
    simp [hwindow, hmarkers, MarkerStack.mark]
  refine (Reads.behind hstart (hchecked.pass hends)).asHere houtlines fun front ts _ _ _ hstream hordered => ?_
  have hsolid : s.window.token.isSolid = true := by simp [isSolid, isEof, isNewline, Terminal.kind, hkind]
  rw [hspan, ← hnl, ← text_next hsolid hstream hordered]

theorem reads_mapM {f : Identifier → Parse Identifier} (cue : Identifier → Option Cue)
    (hf : ∀ {s id id' t}, (f id).run c s = .ok id' t →
      id' = { id with isLocal := true } ∧ Reads c nl nl [] (fun _ => (cue id).toList) s t)
    {ids names : List Identifier} (h : (ids.mapM f).run c s = .ok names t) :
    names = ids.map (fun id => { id with isLocal := true }) ∧
      Reads c nl nl [] (fun _ => ids.filterMap cue) s t := by
  induction ids generalizing names s with
  | nil =>
    cases h
    exact ⟨rfl, .refl⟩
  | cons id ids ih =>
    simp only [List.mapM_cons, run_bind_eq_ok, run_pure, Outcome.ok.injEq] at h
    obtain ⟨first, _, hfirst, others, _, hothers, rfl, rfl⟩ := h
    obtain ⟨rfl, hlocal⟩ := hf hfirst
    obtain ⟨rfl, hreads⟩ := ih hothers
    refine ⟨rfl, (hlocal.trans hreads).as ⟨rfl, fun _ => ?_⟩⟩
    cases hcue : cue id <;> simp [hcue]

theorem reads_lastClause {body : Block} (hopen : Opens c Keyword.elseKw s u)
    (hbody : Reads c true (!u.window.token.isNewline) (Words.statements body)
      (fun ts => .openBlock false :: Cues.statements ts (!u.window.token.isNewline) body ++ [.closeBlock]) u v)
    (hshown : ∀ shown : List Token → Bool, Outlines c (Words.statements body)
      (fun ts => .openBlock false :: Cues.statements ts (shown ts) body ++ [.closeBlock]) u v)
    (hfinish : finish.run c v = .ok span t) : ∃ after, Accounts c true after (Words.clauses [.otherwise body span])
      (fun ts => Cues.clauses ts (!endsLine ts s.behind) (!endsLine ts s.behind) [.otherwise body span]) s t := by
  have hstart : Reads c true true _ _ _ _ := reads_opens rfl hopen
  have hends (nl : Bool) : Reads c nl nl [] (fun _ => []) v t := reads_silent hfinish
  have houtlines := hstart.toOutlines.behind ((hshown (!endsLine · s.behind)).pass (hends true).toOutlines)
  rw [Words.clauses, Words.clause, Words.clauses, List.append_nil]
  simp only [Cues.clauses, Cues.clause, List.append_nil]
  refine ⟨!u.window.token.isNewline, Reads.toAccounts (.intro houtlines fun hplain hnl => ?_)⟩
  obtain ⟨hkind, w, hmark, hadvance⟩ := hopen
  have hsolid : s.window.token.isSolid = true := by simp [isSolid, isEof, isNewline, Terminal.kind, hkind]
  have hline : u.window.token.isNewline =
      decide (s.window.token.span.stop.line < s.window.lookahead.span.start.line) := by
    obtain ⟨-, rfl⟩ := advance_eq ((reaches hmark).plain hplain) hadvance
    cases hmark
    rw [next_token, atLineEnd_solid hsolid, hnl]
    split
    next hend =>
      rw [decide_eq_true (by simpa using hend)]
      rfl
    next hend =>
      rw [hplain.window.lookahead.newline]
      simpa using hend
  refine (Reads.behind hstart (hbody.pass (hends _))).asHere houtlines fun front ts _ _ hpassed hstream hordered => ?_
  obtain ⟨tail, rfl⟩ := stream_solid hsolid hstream
  have hline' : endsLine (front ++ s.window.token :: s.window.lookahead :: tail) s.behind = u.window.token.isNewline := by
    rw [endsLine, behind, hpassed _ (List.cons_ne_nil _ _) hordered, hline]
  simp only [hline']

theorem previous_expect {terminal : Terminal} (hplain : s.Plain) (h : (expect terminal).run c s = .ok a t) :
    t.window.previous.is terminal = true := by
  obtain ⟨_ | _, u, hconsume, ⟨⟩⟩ := run_bind_eq_ok.mp h
  obtain ⟨-, rfl⟩ := advance_eq hplain (advance_of_consume hconsume)
  rw [next_previous]
  exact is_of_consume hconsume

theorem stop_of_finish (h : finish.run c s = .ok span t) :
    span.stop = s.window.previous.span.stop ∧ t.window = s.window := by
  cases h
  refine ⟨?_, rfl⟩
  split <;> rfl

theorem isWritten_print {callee : Identifier} (hplain : s.Plain) (hkind : s.window.token.kind = .symbol .question)
    (h : (reference { name := "print", span := s.window.token.span }).run c u = .ok callee v) : callee.isWritten = false := by
  have hshort := (hplain.window.token (by simp [isNewline, hkind])).short .question hkind
  cases h
  simp only [Identifier.isWritten, beq_eq_false_iff_ne, ne_eq]
  change _ ≤ _ + 1 at hshort
  change ¬_ = _ + 5
  omega

theorem track_passInclude (h : passInclude.run c s = .ok a t) (ht : t.errors = #[]) : t.track = s.track := by
  refine (reaches h).track_eq ?_ ?_ ?_ ht <;>
  · unfold Parse.passInclude at h
    dsimp only at h
    split at h
    · cases h
      unfold Session.passInclude openInclude
      dsimp only
      split
      · rfl
      · split <;> rfl
    · cases h
      rfl

theorem GivesUp.reads (h : GivesUp c s t) : Reads c nl nl [] (fun _ => []) s t := by
  have herrors : t.errors ≠ #[] := fun ht => h.fault (by simp [Session.Clean, ht])
  exact ⟨⟨.of_error h.reaches nofun (by simp) herrors, fun _ hclean _ => absurd hclean h.fault⟩,
    fun _ hclean _ => absurd hclean h.fault⟩

theorem Derives.opening {levels : Nat} {stmt : Stmt} (h : Derives c s (.proper levels stmt) t) :
    Cues.opening stmt = [.proper stmt] := by
  cases h <;> rfl

/-! ### All phrases -/

theorem Derives.reads {phrase : Phrase} (h : Derives c s phrase t) : phrase.Read c s t := by
  induction h with
  | expression _ ih | operand _ ih | chain _ ih | plainCallee _ ih | functionName _ ih | text _ ih => exact ih
  | noMoreValues | noValues | noMoreNames | noMoreLocals | endBlock | noElseIfs | noElse => exact fun nl => .refl
  | noFields => exact .refl
  | noOneLineElse => exact ⟨⟨true, Reads.refl.toAccounts⟩, fun _ _ _ => .inl rfl⟩
  | @dyadic _ _ _ e r s _ _ t _ hop hadvance _ ihe ihr =>
    obtain ⟨hsolid, hwords⟩ := word?_of_dyadic hop e r ⟨s.here, t.behind⟩
    refine fun nl => ((ihe nl).trans <| (reads_advance hsolid hadvance).trans (ihr nl)).as ?_
    simp [hwords, Cues.expression_dyadic]
  | literal he hcheck hadvance =>
    obtain ⟨hsolid, hword⟩ := word?_of_literal he
    refine fun nl => ?_
    obtain ⟨hwindow, hread⟩ := reads_checkVararg he hcheck
    refine (hread.trans (reads_advance (hwindow ▸ hsolid) hadvance)).as ?_
    simp [hwindow, hword]
  | functionValue hopen _ hfinish ih =>
    exact fun nl => (Reads.behind (reads_opens rfl hopen) ((ih nl).pass (reads_silent hfinish)))
  | tableValue _ ih =>
    exact fun nl => (ih nl)
  | unary hop hadvance _ ih =>
    obtain ⟨hsolid, hword⟩ := word?_of_unary hop
    refine fun nl => ((reads_advance hsolid hadvance).trans (ih nl)).as ?_
    simp [Words.expression, hword, Cues.expression]
  | name hid hreference | dottedName hid hreference => exact fun nl => reads_reference hid hreference
  | parenthesized hopen _ hclose ih => exact fun nl => reads_bracketed rfl rfl hopen (ih false) hclose
  | index _ hopen _ hclose ihbase ihkey =>
    exact fun nl => (ihbase nl).trans (reads_bracketed rfl rfl hopen (ihkey false) hclose)
  | member _ hdot hkey ih | dottedMember _ hdot hkey ih =>
    refine fun nl => (((ih nl).pass (reads_consume rfl hdot)).trans (reads_identifier hkey)).as ?_
    simp [Words.expression, Cues.expression]
  | method _ hcolon hkey ih | methodName _ hcolon hkey ih =>
    refine fun nl => (((ih nl).pass (reads_consume rfl hcolon)).trans (reads_identifier hkey)).as ?_
    simp [Words.expression, Cues.expression]
  | call _ hopen _ hclose ihbase iharguments =>
    exact fun nl => (ihbase nl).trans (reads_bracketed rfl rfl hopen (iharguments false) hclose)
  | tableCall _ _ ihbase ihtable => exact fun nl => (ihbase nl).trans (ihtable nl)
  | stringCall _ hkind hadvance ih =>
    refine fun nl => ((ih nl).trans (reads_advance ?_ hadvance)).as ?_
    · simp [isSolid, isEof, isNewline, hkind]
    · simp [Words.expression, word?, hkind, Cues.expression]
  | moreValues hcomma _ _ ihe ihes => exact fun nl => .behind (reads_consume rfl hcomma) ((ihe nl).trans (ihes nl))
  | values _ _ ihe ihes => exact fun nl => (ihe nl).trans (ihes nl)
  | target _ _ ih =>
    refine fun nl => (ih nl).as ?_
    simp [Words.expressions, Cues.expressions]
  | moreTargets _ _ hcomma _ ihe ihes =>
    exact fun nl => ((ihe nl).pass (reads_consume rfl hcomma)).trans (ihes nl)
  | keyedField hmark hopen _ hclose hassign _ hfinish ihkey ihvalue =>
    exact .behind (reads_silent hmark) <| .behind (reads_consume rfl hopen) <|
      (((ihkey false).pass (reads_expect rfl hclose)).pass (reads_expect rfl hassign)).trans
        ((ihvalue false).pass (reads_silent hfinish))
  | namedField hmark hkey hassign hadvance _ hfinish ih =>
    exact .behind (reads_silent hmark) <| (reads_fieldKey hassign hkey hadvance).trans <| (ih false).pass
      (reads_silent hfinish)
  | positionalField hmark _ hfinish ih => exact .behind (reads_silent hmark) ((ih false).pass (reads_silent hfinish))
  | fields _ hsign hseparator _ ihf ihfs => exact (ihf.pass (reads_consume hsign hseparator)).trans ihfs
  | table hmark hopen _ hclose hfinish ih =>
    exact fun nl => .behind (reads_silent hmark) <| (reads_bracketed rfl rfl hopen ih hclose).pass (reads_silent hfinish)
  | noParameters hclose => exact fun nl => reads_consume rfl hclose
  | lastParameter hid hdeclare hclose =>
    obtain rfl := declareInFlow_eq hdeclare
    exact fun nl => ((reads_identifier hid).trans (reads_declareInFlow hdeclare)).pass (reads_expect rfl hclose)
  | parameters hid hdeclare hcomma _ ih =>
    obtain rfl := declareInFlow_eq hdeclare
    exact fun nl => (((reads_identifier hid).trans (reads_declareInFlow hdeclare)).pass (reads_consume rfl hcomma)).trans
      (ih nl)
  | varargParameter hkind hallow hadvance hclose =>
    refine fun nl => ((reads_allowVararg hallow).trans <| (reads_advance ?_ hadvance).pass (reads_expect rfl hclose)).as ?_
    · cases hallow
      simp [isSolid, isEof, isNewline, hkind]
    · cases hallow
      simp [word?, hkind, Parameter.word, Cues.parameter]
  | function hhide henter hblock hscope hself hopen _ _ hclose hscope' hblock' hleave ihps ihbody =>
    refine fun nl => ((reads_enclosed rfl hhide ((reads_enterFunction henter).trans <| (reads_openBlock hblock).trans <|
      .behind (reads_silent hscope) <| .behind (reads_silent hself) <| .behind (reads_expect rfl hopen) <|
      (ihps false).trans (ihbody false)) hclose).trans <| .behind (reads_silent hscope') <|
      (reads_closeBlock hblock').trans (reads_leaveFunction hleave)).as ?_
    simp [Cues.function]
  | block _ _ _ _ _ ihstmt ihbody => exact fun nl => (ihstmt nl).trans (ihbody nl)
  | emptyStatement hkind hadvance _ ih =>
    have his : is _ Symbol.semicolon = true := is_iff_kind.mpr hkind
    exact fun nl => .behind (reads_pass rfl his hadvance) (ih nl)
  | givenUp hfault _ ih => exact fun nl => .behind hfault.reads (ih nl)
  | scopedBlock hblock hscope _ hscope' hblock' ih =>
    refine fun nl => ((reads_openBlock hblock).trans <| .behind (reads_silent hscope) <|
      ((ih nl).pass (reads_silent hscope')).trans (reads_closeBlock hblock')).as ?_
    simp
  | moreText _ hfault _ ihbody ihmore =>
    refine fun nl => ((ihbody nl).trans (.behind hfault.reads (ihmore nl))).as ?_
    simp [Words.statements_append, Cues.statements_append]
  | elseIfs hopen _ hthen _ hfinish _ ihcondition ihbody ihcs =>
    refine fun nl => (Reads.behind (reads_opens rfl hopen) <| ((ihcondition nl).pass (reads_expect rfl hthen)).trans <|
      ((ihbody nl).pass (reads_silent hfinish)).trans (ihcs nl)).as ?_
    simp [Words.clauses, Words.clause, Cues.clauses, Cues.clause]
  | elseClause hopen _ hfinish ih =>
    refine fun nl => (Reads.behind (reads_opens rfl hopen) ((ih nl).pass (reads_silent hfinish))).as ?_
    simp [Words.clauses, Words.clause, Cues.clauses, Cues.clause]
  | oneLineElse hopen hline _ hfinish ih =>
    have hstart : Reads c true true _ _ _ _ := reads_opens rfl hopen
    have hread := hstart.trans ((ih true).pass (reads_silent hfinish))
    refine ⟨reads_lastClause hopen ?_ (fun shown => ?_) hfinish, fun hplain hclean hnl => ?_⟩
    · rw [hline]
      exact ih true
    · exact ⟨(ih true).reaches, (ih true).strings, fun ts => (ih (shown ts)).statements ts,
        fun ht ts => (ih (shown ts)).calm ht ts⟩
    · exact (hread.lines hplain hclean hnl).imp_right fun hline => hline (hread.account hplain hclean hnl).newlines
  | blockElse hopen hline hhide _ hend hfinish ih =>
    have hstart : Reads c true false _ _ _ _ := reads_hiding hhide
    have hends : Reads c false false _ _ _ _ := reads_expect rfl hend
    refine ⟨reads_lastClause hopen ?_ (fun shown => ?_) hfinish, fun hplain _ _ => .inr (.inr (.inr ?_))⟩
    · rw [hline]
      exact hstart.behind ((ih false).pass hends)
    · refine hstart.toOutlines.behind (.pass ?_ hends.toOutlines)
      exact ⟨(ih true).reaches, (ih true).strings, fun ts => (ih (shown ts)).statements ts,
        fun ht ts => (ih (shown ts)).calm ht ts⟩
    · have hopened : Reads c true true _ _ _ _ := reads_opens rfl hopen
      have hreach := hopened.reaches.trans (hstart.reaches.trans (ih true).reaches)
      rw [(stop_of_finish hfinish).2]
      exact previous_expect (hreach.plain hplain) hend
  | breakLoop hopen hcheck hfinish =>
    exact fun nl => (reads_break hopen hcheck hfinish)
  | goto hopen hid hgoto hfinish =>
    exact fun nl => (Reads.behind (reads_opens rfl hopen) <| (reads_identifier hid).trans <|
      (reads_addGoto hgoto).pass (reads_silent hfinish))
  | ret hopen _ hsemicolon hfinish ih =>
    exact fun nl => (Reads.behind (reads_opens rfl hopen) <|
      ((ih nl).pass (reads_consume rfl hsemicolon)).pass (reads_silent hfinish))
  | doBlock hopen _ hend hfinish ih =>
    exact fun nl => (Reads.behind (reads_opens rfl hopen) <|
      ((ih nl).pass (reads_expect rfl hend)).pass (reads_silent hfinish))
  | whileLoop hopen _ hdo _ hend hfinish ihcondition ihbody =>
    refine fun nl => (Reads.behind (reads_opens rfl hopen) <| ((ihcondition nl).pass (reads_expect rfl hdo)).trans <|
      ((ihbody nl).pass (reads_expect rfl hend)).pass (reads_silent hfinish)).as ?_
    simp [Words.statement, Cues.statement]
  | repeatLoop hopen hblock hscope _ huntil _ hscope' hblock' hfinish ihbody ihcondition =>
    refine fun nl => (Reads.behind (reads_opens rfl hopen) <| ((reads_openBlock hblock).pass (reads_silent hscope)).trans <|
      ((ihbody nl).pass (reads_expect rfl huntil)).trans <| ((ihcondition nl).pass (reads_silent hscope')).trans <|
      (reads_closeBlock hblock').pass (reads_silent hfinish)).as ?_
    simp [Words.statement, Cues.statement]
  | forNumeric hopen hid hblock hscope hassign _ hcomma _ _ hdo hcounter _ hend hscope' hblock' hfinish ihfirst ihlast
      ihstep ihbody =>
      obtain rfl := declareInFlow_eq hcounter
      refine fun nl => (Reads.behind (reads_opens rfl hopen) <| (reads_identifier hid).trans <|
        ((reads_openBlock hblock).pass (reads_silent hscope)).trans <| .behind (reads_consume rfl hassign) <|
        ((ihfirst nl).pass (reads_expect rfl hcomma)).trans <| (ihlast nl).trans <|
        ((ihstep nl).pass (reads_expect rfl hdo)).trans <| (reads_declareInFlow hcounter).trans <|
        (((ihbody nl).pass (reads_expect rfl hend)).pass (reads_silent hscope')).trans <|
        (reads_closeBlock hblock').pass (reads_silent hfinish)).as ?_
      simp [Words.statement, Words.expressions_toList, Cues.statement, Cues.expressions_toList]
  | forGeneric hopen hid hblock hscope _ hin _ hdo hnames _ hend hscope' hblock' hfinish ihothers ihiterators ihbody =>
    refine fun nl => ?_
    obtain ⟨rfl, hdeclared⟩ := reads_mapM (fun id => some (.addLocal id.name))
      (fun hdeclare => ⟨declareInFlow_eq hdeclare, reads_declareInFlow hdeclare⟩) hnames
    refine (Reads.behind (reads_opens rfl hopen) <| (reads_identifier hid).trans <|
      ((reads_openBlock hblock).pass (reads_silent hscope)).trans <| ((ihothers nl).pass (reads_expect rfl hin)).trans <|
      ((ihiterators nl).pass (reads_expect rfl hdo)).trans <| hdeclared.trans <|
      (((ihbody nl).pass (reads_expect rfl hend)).pass (reads_silent hscope')).trans <|
      (reads_closeBlock hblock').pass (reads_silent hfinish)).as ?_
    simp [Words.statement, Words.names, Cues.statement, Cues.locals]
  | moreNames hcomma hid _ ih =>
    exact fun nl => .behind (reads_consume rfl hcomma) ((reads_identifier hid).trans (ih nl))
  | moreLocals hcomma hid hlocal _ ih =>
    exact fun nl => .behind (reads_consume rfl hcomma) <|
      ((reads_identifier hid).trans (reads_addLocal hlocal)).trans (ih nl)
  | oneLineIf hopen hagain _ _ hshow _ hfinish _ hback hfinish' ihcondition ihbody ihlast =>
    obtain ⟨hstop, hwindow⟩ := stop_of_finish hfinish
    obtain ⟨⟨after, hlast⟩, hend⟩ := ihlast
    have hfirst := (ihbody true).pass (reads_silent hfinish)
    have hlines := fun hplain hclean hnl => hfirst.joined hplain hclean hnl hlast.reaches hend
    refine fun nl => (Reads.behind (reads_opens rfl hopen) <| .behind (reads_silent hagain) <| (ihcondition nl).trans <|
      (reads_showing hshow (hfirst.toAccounts.trans hlast) hlines hback).pass (reads_silent hfinish')).as ?_
    simp [Words.statement, Words.clauses, Words.clause, Cues.statement, Cues.clauses, Cues.clause, Cues.shownInElse,
      Clause.span, hstop, hwindow, behind]
  | blockIf hopen hagain _ hthen _ hfinish _ _ hend hfinish' ihcondition ihbody ihothers ihlast =>
    refine fun nl => (Reads.behind (reads_opens rfl hopen) <| .behind (reads_silent hagain) <|
      ((ihcondition nl).pass (reads_expect rfl hthen)).trans <| ((ihbody nl).pass (reads_silent hfinish)).trans <|
      (ihothers nl).trans <| ((ihlast nl).pass (reads_expect rfl hend)).pass (reads_silent hfinish')).as ?_
    simp [Words.statement, Words.clauses, Words.clauses_append, Words.clause, Cues.statement, Cues.clauses,
      Cues.clauses_append, Cues.clause]
  | declare hopen hid hlocal _ hassign _ hnames hfinish ihothers ihvalues =>
    refine fun nl => ?_
    obtain ⟨rfl, hdeclared⟩ := reads_mapM (fun _ => none)
      (fun hdeclare => ⟨by cases hdeclare; rfl, reads_silent hdeclare⟩) hnames
    refine (Reads.behind (reads_opens rfl hopen) <| ((reads_identifier hid).trans (reads_addLocal hlocal)).trans <|
      ((ihothers nl).pass (reads_consume rfl hassign)).trans <| (ihvalues nl).trans <| hdeclared.pass
      (reads_silent hfinish)).as ?_
    simp [Words.statement, Words.names, Cues.statement, Cues.locals]
  | localFunction hopen hkeyword hid hdeclare _ hfinish ih =>
    obtain rfl := declareInFlow_eq hdeclare
    exact fun nl => (Reads.behind (reads_opens rfl hopen) <| .behind (reads_consume rfl hkeyword) <|
      (reads_name hid).trans <| (reads_declareInFlow hdeclare).trans <| (ih nl).pass (reads_silent hfinish))
  | functionStatement hopen _ _ hfinish ihname ihf =>
    exact fun nl => (Reads.behind (reads_opens rfl hopen) <| (ihname nl).trans <| (ihf nl).pass
      (reads_silent hfinish))
  | @print _ callee _ _ _ _ _ _ _ _ hopen hreference _ hfinish ih =>
    refine fun nl => ?_
    have hread := Reads.behind (reads_opens rfl hopen) <| (reads_use hreference).trans <|
      (ih nl).pass (reads_silent hfinish)
    refine .intro ⟨hread.reaches, fun value text hmem => ?_, fun ts => ?_, fun ht ts => ?_⟩ fun hplain _ => hread.as ?_
    · rw [Phrase.words, Words.statement, Words.expression] at hmem
      exact (List.mem_append.mp hmem).elim (strings_name callee value text) (hread.strings value text)
    · simpa [Cues.statement, Cues.expression] using hread.statements ts
    · simpa [Cues.statement, Cues.expression] using hread.calm ht ts
    simp [Words.statement, Words.expression, isWritten_print hplain hopen.1 hreference, Cues.statement, Cues.expression]
  | callStatement hmark _ _ _ hfinish ih =>
    exact fun nl => (Reads.behind (reads_silent hmark) ((ih nl).pass (reads_silent hfinish)))
  | assignment hmark _ hop hadvance _ _ _ hfinish ihtargets ihvalues =>
    obtain ⟨hsolid, hword⟩ := word?_of_assign hop
    refine fun nl => (Reads.behind (reads_silent hmark) <| (ihtargets nl).trans <|
      (reads_advance hsolid hadvance).trans <| (ihvalues nl).pass (reads_silent hfinish)).as ?_
    simp [Words.statement, hword, Cues.statement]
  | inclusion hkind hpass =>
    -- Include lines are excluded where words and cues are accounted for.
    refine fun nl => .intro (.silent (reaches hpass) (track_passInclude hpass)) fun hplain _ => ?_
    have hdirective := hplain.window.tokenKind
    simp [isDirective, hkind] at hdirective
  | label hopen hid hclose hlabel hfinish =>
    exact fun nl => (Reads.behind (reads_opens rfl hopen) <| ((reads_identifier hid).pass (reads_expect rfl hclose)).trans <|
      (reads_addLabel hlabel).pass (reads_silent hfinish))
  | proper hraise hstmt ih =>
    refine fun nl => (reads_proper hraise hstmt (ih nl)).as ?_
    simp [hstmt.opening]

namespace Program

theorem reads_wholeText (nl : Bool) {levels : Nat} {body : Block} (h : (wholeText levels).run c s = .ok body t) :
    Session.Reads c nl nl (Words.statements body)
      (fun ts => .openBlock false :: Cues.statements ts nl body ++ [.closeBlock]) s t ∧ t.window.token.isEof = true := by
  refine ⟨?_, isEof_of_wholeText h⟩
  obtain ⟨u, v, w, x, hblock, hscope, hbody, hscope', hblock'⟩ := derives_wholeText h
  refine ((reads_openBlock hblock).trans <| .behind (reads_silent hscope) <|
    ((hbody.reads nl).pass (reads_silent hscope')).trans (reads_closeBlock hblock')).as ?_
  simp

/-! ### From the first token to the last -/

variable {options : Options} {source name : String}

/-- No token of the program is an include line. Wrong tokens are left out. -/
def IsAlone (options : Options) (source : String) : Prop :=
  ∀ t ∈ (Cartridge.code source.toList 0).readable options.encoding, t.isDirective = false

theorem plain_start (h : IsAlone options source) : (start options source name).Plain :=
  ⟨rfl, start_plain h⟩

theorem hasPassed_start : (start options source name).HasPassed [] := by
  intro rest _ _
  have hprevious : (start options source name).window.previous = eof { file := 0 } := by
    show (ofText options.encoding source 0).start.2.previous = _
    rw [start_eq, fetch_previous, atFirst]
    exact fetch_previous _
  rw [List.nil_append, hprevious, tokensFrom]
  cases rest with
  | nil => rfl
  | cons => exact List.dropWhile_cons_of_neg (by simp [eof, Span.point])

theorem account_parse (halone : IsAlone options source)
    (hclean : ∀ d ∈ (parse options source name).errors, d.fault.isFlow = true) :
    ∃ ts, tokenize options.encoding source 0 = .ok ts ∧ words ts = Words.statements (parse options source name).body ∧
      (parse options source name).errors =
        (Track.along ⟨{ allowVararg := true }, [], [], []⟩
          (.openBlock false :: Cues.statements ts false (parse options source name).body ++ [.closeBlock])).errors := by
  obtain ⟨body, last, hrun⟩ := exists_run_eq_ok options source name
  rw [parse_eq hrun] at hclean ⊢
  have hlast : last.Clean := hclean
  obtain ⟨hread, heof⟩ := reads_wholeText false hrun
  have hplain : (start options source name).Plain := plain_start halone
  have hnone : (ofText options.encoding source 0).start.1 = none := by
    have hfirst : (start options source name).Clean := hlast.of_reaches (reaches hrun)
    cases hfault : (ofText options.encoding source 0).start.1 with
    | none => rfl
    | some d =>
      have hflow := hfirst d (by simp [start, hfault])
      rw [Fault.isFlow_of_isLexical (isLexical_of_start hfault)] at hflow
      cases hflow
  have hend : last.window.stream = .ok [last.window.token] := by rw [stream, if_pos heof]
  obtain ⟨used, hstream, hwords, -, htrack⟩ := (hread.account hplain hlast newlines_start).used _ hend
  have htokens : tokenize options.encoding source 0 = .ok (used ++ [last.window.token]) :=
    (start_stream hnone).symm.trans hstream
  refine ⟨_, htokens, ?_, ?_⟩
  · have hkind : last.window.token.word? = none := word?_of_isEof heof
    rw [words_append, hwords]
    simp [words, hkind, ofSessions]
  · have hordered := (Cursor.ordered_of_tokens htokens).1
    have htrack := htrack [] hasPassed_start hordered
    have hfirst : (start options source name).track = ⟨{ allowVararg := true }, [], [], []⟩ := by
      simp [Session.track, start, hnone]
    rw [hfirst] at htrack
    exact congrArg Track.errors htrack

/-- A program that is read without errors has all its words in its tree, in the order of the text. -/
theorem words_parse (options : Options) (source name : String) (halone : IsAlone options source)
    (herrors : (parse options source name).errors = []) :
    ∃ ts, tokenize options.encoding source 0 = .ok ts ∧
      Words.statements (parse options source name).body = Token.words ts := by
  obtain ⟨ts, htokens, hwords, -⟩ := account_parse halone (isFlow_of_errors_nil herrors)
  exact ⟨ts, htokens, hwords.symm⟩

/-- A program with a branch on one line whose last clause is a regular block, and with most kinds of words. -/
def braided : String := "if(a!=b)x+=1 else\n?-y..'z'\nend\nfunction t.f:m(q,...)return ...,\x7b[#q]=0x1f,n=nil\x7dend"

/-- The words of a program that mixes blocks with a statement on one line. -/
theorem words_parse_braided : IsAlone {} braided ∧ (parse {} braided "main.lua").errors = [] ∧
    (Words.statements (parse {} braided "main.lua").body).length = 21 ∧
    ∃ ts, tokenize .discard braided 0 = .ok ts ∧
      Words.statements (parse {} braided "main.lua").body = Token.words ts := by
  have halone : IsAlone {} braided := by
    unfold IsAlone
    decide +kernel
  have herrors : (parse {} braided "main.lua").errors = [] := by decide +kernel
  exact ⟨halone, herrors, by decide +kernel, words_parse {} braided "main.lua" halone herrors⟩

end Program

end CartLua
