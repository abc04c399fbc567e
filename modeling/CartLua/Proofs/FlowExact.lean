import CartLua.Proofs.FlowLaw
import CartLua.Proofs.ProgramReading
/-!
# Control flow finds what is wrong with the tree

Following the cues of a tree finds what is wrong with the tree and nothing else. For a part of the tree that leaves the
open blocks as they are this is `Settles`, for the statements of a block `Fills`, both by induction on the tree from the
conserved sum of what is found and what will be found.
-/

namespace CartLua

open List

namespace Track

/-! ### Parts of a tree -/

/-- From `t` to `t'` only `found` is reported, in some order. -/
structure Raises (t t' : Track) (found : List Diagnostic) : Prop where
  flow : t'.flow = t.flow
  outer : t'.outer = t.outer
  errors : (t'.errors : Multiset Diagnostic) = t.errors + found

/-- The cues of a part that is not touched by the blocks around it. -/
def Raising (varargs : Bool) (cues : List Cue) (found : List Diagnostic) : Prop :=
  ∀ t : Track, t.flow.allowVararg = varargs → Raises t (t.along cues) found

/-- The cues of a part that leaves the blocks around it as they are. -/
def Settles (varargs : Bool) (around : List Frame) (cues : List Cue) (found : List Diagnostic) : Prop :=
  ∀ (t : Track) (levels : List Level), t.flow.Stands levels → levels.map Level.frame = around → levels ≠ [] →
    t.flow.allowVararg = varargs → Conserves t (t.along cues) levels levels found

/-- The cues of the statements `ss` of a block, up to its end. -/
def Fills (varargs : Bool) (around : List Frame) (isLoop : Bool) (before ss : List Stmt) (cues : List Cue)
    (found : List Diagnostic) : Prop :=
  ∀ (t : Track) (outer : List Level) (scope : FlowScope),
    t.flow.Stands (⟨scope, ⟨before, ss, isLoop⟩⟩ :: outer) → outer.map Level.frame = around →
    t.flow.allowVararg = varargs → ∃ scope', Conserves t (t.along cues) (⟨scope, ⟨before, ss, isLoop⟩⟩ :: outer)
      (⟨scope', ⟨before ++ ss, [], isLoop⟩⟩ :: outer) found

variable {varargs isLoop : Bool} {around : List Frame} {cues cues' : List Cue} {found found' : List Diagnostic} {t : Track}

theorem Raises.conserves {t' : Track} {levels : List Level} (h : Raises t t' found) (hstands : t.flow.Stands levels) :
    Conserves t t' levels levels found := by
  refine ⟨h.outer, by rw [h.flow], h.flow ▸ hstands, ?_⟩
  rw [h.errors, h.flow]
  abel

theorem Raising.nil : Raising varargs [] [] := fun _ _ => ⟨rfl, rfl, by simp⟩

theorem Raising.append (h : Raising varargs cues found) (h' : Raising varargs cues' found') :
    Raising varargs (cues ++ cues') (found ++ found') := by
  intro t ht
  have first := h t ht
  have second := h' (t.along cues) (by rw [first.flow, ht])
  rw [Track.along_append]
  refine ⟨second.flow.trans first.flow, second.outer.trans first.outer, ?_⟩
  rw [second.errors, first.errors, ← Multiset.coe_add]
  abel

theorem Raising.settles (h : Raising varargs cues found) (around : List Frame) : Settles varargs around cues found :=
  fun t _ hstands _ _ ht => (h t ht).conserves hstands

theorem Settles.append (h : Settles varargs around cues found) (h' : Settles varargs around cues' found') :
    Settles varargs around (cues ++ cues') (found ++ found') := by
  intro t levels hstands haround hne ht
  have first := h t levels hstands haround hne ht
  rw [Track.along_append]
  exact first.trans (h' _ levels first.stands haround hne (first.allowVararg.trans ht))

theorem Settles.as (h : Settles varargs around cues found) (hcues : cues = cues') (hfound : found = found') :
    Settles varargs around cues' found' := by
  subst hcues hfound
  exact h

theorem raising_vararg (span : Span) (varargs : Bool) :
    Raising varargs [.vararg span] (if varargs then [] else [{ fault := .varargNotAllowed "...", span }]) := by
  intro t ht
  rw [Track.along_cons, Track.along_nil, Track.follow, ht]
  split
  · exact ⟨rfl, rfl, by simp⟩
  · exact ⟨rfl, rfl, (Multiset.coe_add ..).symm⟩

theorem raising_reference (id : Identifier) : Raising varargs [.reference id] [] := by
  intro t _
  rw [Track.along_cons, Track.along_nil, Track.follow]
  split <;> exact ⟨rfl, rfl, by simp⟩

/-! ### Blocks -/

variable {body : List Stmt} {before rest : List Stmt}

/-- A block in its own scope, with the locals `names` at its start and with parts before and behind its statements. -/
theorem Fills.settles {header footer : List Cue} {found'' : List Diagnostic}
    (hheader : Raising varargs header found) (names : List String) (h : Fills varargs around isLoop [] body cues found')
    (hfooter : Raising varargs footer found'') :
    Settles varargs around
      (.openBlock isLoop :: (header ++ (names.map .addLocal ++ (cues ++ footer))) ++ [.closeBlock])
      (found ++ (found' ++ found'')) := by
  intro t levels hstands haround _ ht
  have hopen := conserves_openBlock hstands isLoop body
  have hraise := hheader (t.follow (.openBlock isLoop)) (hopen.allowVararg.trans ht)
  have hread := hraise.conserves hopen.stands
  have hreach : ∀ g ∈ ((t.follow (.openBlock isLoop)).along header).flow.pending, g.reach ≤ levels.length := by
    rw [hraise.flow]
    exact fun g hg => (hstands.reach g hg).2
  have hlocals := conserves_addLocals hread.stands rfl hreach names
  have hallow := hlocals.allowVararg.trans (hread.allowVararg.trans (hopen.allowVararg.trans ht))
  obtain ⟨scope, hfills⟩ := h _ _ _ hlocals.stands haround hallow
  have hfoot := (hfooter _ (hfills.allowVararg.trans hallow)).conserves hfills.stands
  have hclose := conserves_closeBlock hfoot.stands rfl
  have hall := hopen.trans <| hread.trans <| hlocals.trans <| hfills.trans <| hfoot.trans hclose
  simp only [cons_append, Track.along_cons, Track.along_append, Track.along_nil]
  exact hall.as (by simp)

theorem Fills.settles_plain (h : Fills varargs around isLoop [] body cues found) :
    Settles varargs around (.openBlock isLoop :: cues ++ [.closeBlock]) found := by
  have hsettles := Fills.settles Raising.nil [] h Raising.nil
  simpa using hsettles

theorem along_parameters {scope : FlowScope} (h : t.flow.scopes = [scope]) (ps : List Parameter) :
    ∃ names, t.along (ps.map Cues.parameter) =
      { t with
        flow :=
          { t.flow with
            scopes := [{ scope with locals := scope.locals ++ names }]
            allowVararg := t.flow.allowVararg || ps.any (·.isVararg) } } := by
  induction ps generalizing t scope with
  | nil => exact ⟨[], by simp [← h]⟩
  | cons p ps ih =>
    cases p with
    | name id =>
      have hstep : (t.follow (.addLocal id.name)).flow.scopes = [{ scope with locals := scope.locals ++ [id.name] }] := by
        simp [Track.follow, Flow.addLocal, h]
      obtain ⟨names, hnames⟩ := ih hstep
      refine ⟨id.name :: names, ?_⟩
      rw [map_cons, Cues.parameter, Track.along_cons, hnames]
      simp [Track.follow, Flow.addLocal, h, Parameter.isVararg]
    | vararg =>
      obtain ⟨names, hnames⟩ := ih (t := t.follow .allowVararg) h
      refine ⟨names, ?_⟩
      rw [map_cons, Cues.parameter, Track.along_cons, hnames]
      simp [Track.follow, Parameter.isVararg]

theorem debt_nil {f : Flow} (h : f.Stands []) : f.debt [] = 0 := by
  have hpending : f.pending = [] := by
    refine eq_nil_iff_forall_not_mem.mpr fun g hg => ?_
    obtain ⟨hpos, hle⟩ := h.reach g hg
    exact absurd hpos (Nat.not_lt.mpr hle)
  simp [Flow.debt, hpending, verdicts]

theorem stands_first (names : List String) (body : List Stmt) (varargs : Bool) :
    Flow.Stands { scopes := [{ locals := names }], allowVararg := varargs } [⟨{ locals := names }, ⟨[], body, false⟩⟩] :=
  ⟨rfl, fun _ hg => absurd hg not_mem_nil, ⟨fun _ => rfl, rfl, fun _ hg => absurd hg not_mem_nil,
    fun _ hg => absurd hg not_mem_nil⟩, trivial⟩

theorem Fills.outermost {names : List String} (h : Fills varargs [] false [] body cues found)
    (hflow : t.flow = { scopes := [{ locals := names }], allowVararg := varargs }) :
    (t.along (cues ++ [.closeBlock])).outer = t.outer ∧
      ((t.along (cues ++ [.closeBlock])).errors : Multiset Diagnostic) = t.errors + found := by
  obtain ⟨scope, hfills⟩ := h t [] { locals := names } (hflow ▸ stands_first names body varargs) rfl (by rw [hflow])
  have hall := hfills.trans (conserves_closeBlock hfills.stands rfl)
  have hsum := hall.sum
  rw [debt_nil hall.stands, hflow] at hsum
  rw [Track.along_append]
  refine ⟨hall.outer, ?_⟩
  simpa [Flow.debt, verdicts] using hsum

theorem Fills.raising {ps : List Parameter}
    (h : Fills (ps.any (·.isVararg)) [] false [] body cues found) (varargs : Bool) :
    Raising varargs ([.enterFunction, .openBlock false] ++ ps.map Cues.parameter ++ cues ++ [.closeBlock, .leaveFunction])
      found := by
  intro t _
  obtain ⟨names, hps⟩ := along_parameters (t := (t.follow .enterFunction).follow (.openBlock false)) rfl ps
  generalize hinside : ((t.follow .enterFunction).follow (.openBlock false)).along (ps.map Cues.parameter) = inside at hps
  have hflow : inside.flow = { scopes := [{ locals := names }], allowVararg := ps.any (·.isVararg) } := by
    rw [hps]
    simp [Track.follow, Flow.pushScope]
  have hentered : inside.outer = t.flow :: t.outer ∧ inside.errors = t.errors := by
    rw [hps]
    exact ⟨rfl, rfl⟩
  obtain ⟨houter, herrors⟩ := h.outermost hflow
  have hall : t.along ([.enterFunction, .openBlock false] ++ ps.map Cues.parameter ++ cues ++
      [.closeBlock, .leaveFunction]) = (inside.along (cues ++ [.closeBlock])).follow .leaveFunction := by
    simp [hinside]
  rw [hall, Track.follow, houter, hentered.1]
  exact ⟨rfl, rfl, by rw [herrors, hentered.2]⟩

/-! ### The statements of a block -/

theorem Fills.nil {before : List Stmt} : Fills varargs around isLoop before [] [] [] := by
  intro t outer scope hstands _ _
  rw [append_nil]
  exact ⟨scope, .refl hstands⟩

theorem Fills.label {id : Identifier} {span : Span}
    (h : Fills varargs around isLoop (before ++ [.label id span]) rest cues found) :
    Fills varargs around isLoop before (.label id span :: rest) (.label id :: cues)
      (Flaws.label (⟨before, rest, isLoop⟩ :: around) id ++ found) := by
  intro t outer scope hstands haround ht
  obtain ⟨scope', hlabel⟩ := conserves_label hstands
  obtain ⟨scope'', hrest⟩ := h _ outer scope' hlabel.stands haround (hlabel.allowVararg.trans ht)
  rw [haround] at hlabel
  refine ⟨scope'', ?_⟩
  simpa using hlabel.trans hrest

/-- A statement that is no label: control flow takes note of it, then of its locals, and then goes through it. -/
theorem Fills.cons {s : Stmt} {inside : List Cue} (hlabel : s.label? = none)
    (hinside : Settles varargs (⟨before, rest, isLoop⟩ :: around) inside found)
    (h : Fills varargs around isLoop (before ++ [s]) rest cues found') :
    Fills varargs around isLoop before (s :: rest) (Cues.opening s ++ (s.locals.map .addLocal ++ inside) ++ cues)
      (found ++ found') := by
  intro t outer scope hstands haround ht
  obtain ⟨scope', hopening, hdeferred⟩ : ∃ scope', Conserves t (t.along (Cues.opening s))
      (⟨scope, ⟨before, s :: rest, isLoop⟩⟩ :: outer) (⟨scope', ⟨before, s :: rest, isLoop⟩⟩ :: outer) [] ∧
        (s.isProper = true → scope'.deferred = []) := by
    rw [Cues.opening_eq]
    split
    next hs => exact ⟨_, conserves_proper hstands hs rfl, fun _ => rfl⟩
    next hs => exact ⟨scope, .refl hstands, fun h => absurd h hs⟩
  have hpass := conserves_pass hopening.stands rfl hlabel hdeferred
  have hallow := hpass.allowVararg.trans (hopening.allowVararg.trans ht)
  have hthrough := hinside _ _ hpass.stands (by simp [haround]) (cons_ne_nil _ _) hallow
  have hleave := conserves_leave hthrough.stands hlabel
  obtain ⟨scope'', hrest⟩ := h _ outer _ hleave.stands haround (hthrough.allowVararg.trans hallow)
  refine ⟨scope'', ?_⟩
  have hall := hopening.trans <| hpass.trans <| hthrough.trans <| hleave.trans hrest
  simpa using hall

theorem settles_breakLoop (ts : List Token) (newlines : Bool) (span : Span) :
    Settles varargs around [.breakLoop (nearText ts newlines span.stop) span]
      (Flaws.breakLoop ts newlines around span) := by
  intro t levels hstands haround _ _
  subst haround
  exact conserves_breakLoop hstands ts newlines span

theorem settles_goto (id : Identifier) : Settles varargs around [.goto id] (Flaws.goto around id) := by
  intro t levels hstands haround hne _
  subst haround
  exact conserves_goto hstands hne id

/-! ### The whole tree -/

variable (ts : List Token)

mutual

theorem raising_expression (varargs : Bool) (e : Expr) :
    Raising varargs (Cues.expression ts e) (Flaws.expression ts varargs e) := by
  cases e with
  | vararg span => exact raising_vararg span varargs
  | binary op left right | logical op left right => exact (raising_expression varargs left).append (raising_expression varargs right)
  | unary op argument => exact raising_expression varargs argument
  | member base => exact raising_expression varargs base
  | index base key => exact (raising_expression varargs base).append (raising_expression varargs key)
  | call base arguments =>
    exact (raising_expression varargs base).append (raising_expressions varargs arguments)
  | tableCall base argument => exact (raising_expression varargs base).append (raising_table varargs argument)
  | stringCall base argument =>
    exact (raising_expression varargs base).append (raising_expression varargs argument)
  | table t => exact raising_table varargs t
  | function f => exact raising_function varargs f
  | name id => exact raising_reference id
  | string | number | boolean | nil => exact .nil

theorem raising_expressions (varargs : Bool) (es : List Expr) :
    Raising varargs (Cues.expressions ts es) (Flaws.expressions ts varargs es) := by
  cases es with
  | nil => exact .nil
  | cons e rest => exact (raising_expression varargs e).append (raising_expressions varargs rest)

theorem raising_optionalExpression (varargs : Bool) (e : Option Expr) :
    Raising varargs (Cues.optionalExpression ts e) (Flaws.optionalExpression ts varargs e) := by
  cases e with
  | none => exact .nil
  | some e => exact raising_expression varargs e

theorem raising_table (varargs : Bool) (tbl : Table) :
    Raising varargs (Cues.table ts tbl) (Flaws.table ts varargs tbl) := by
  cases tbl with
  | mk fs => exact raising_fields varargs fs

theorem raising_fields (varargs : Bool) (fs : List Field) :
    Raising varargs (Cues.fields ts fs) (Flaws.fields ts varargs fs) := by
  cases fs with
  | nil => exact .nil
  | cons f rest => exact (raising_field varargs f).append (raising_fields varargs rest)

theorem raising_field (varargs : Bool) (f : Field) :
    Raising varargs (Cues.field ts f) (Flaws.field ts varargs f) := by
  cases f with
  | keyed key value => exact (raising_expression varargs key).append (raising_expression varargs value)
  | named key value | positional value => exact raising_expression varargs value

theorem raising_function (varargs : Bool) (f : FunctionBody) :
    Raising varargs (Cues.function ts f) (Flaws.function ts f) := by
  cases f with
  | mk ps body =>
    exact (fills_statements { varargs := ps.any (·.isVararg), newlines := false } false [] body).raising varargs

theorem fills_statements (place : Flaws.Place) (isLoop : Bool) (before ss : List Stmt) :
    Fills place.varargs place.around isLoop before ss (Cues.statements ts place.newlines ss)
      (Flaws.statements ts place isLoop before ss) := by
  cases ss with
  | nil => exact .nil
  | cons s rest =>
    have hrest := fills_statements place isLoop (before ++ [s]) rest
    cases hlabel : s.label? with
    | some =>
      cases s <;> cases hlabel
      exact hrest.label
    | none =>
      obtain ⟨inside, hcues, hinside⟩ := settles_statement (place.within ⟨before, rest, isLoop⟩) s hlabel
      rw [Cues.statements, Flaws.statements]
      rw [show Cues.statement ts place.newlines s = s.locals.map .addLocal ++ inside from hcues]
      exact Fills.cons hlabel hinside hrest

theorem settles_clauses (place : Flaws.Place) (later : Bool) (cs : List Clause) :
    Settles place.varargs place.around (Cues.clauses ts place.newlines later cs) (Flaws.clauses ts place later cs) := by
  cases cs with
  | nil => exact Raising.nil.settles _
  | cons c rest =>
    exact (settles_clause place c).append (settles_clauses { place with newlines := later } later rest)

theorem settles_clause (place : Flaws.Place) (c : Clause) :
    Settles place.varargs place.around (Cues.clause ts place.newlines c) (Flaws.clause ts place c) := by
  cases c with
  | ifThen condition body | elseIf condition body =>
    have hcondition := (raising_expression place.varargs condition).settles place.around
    exact (hcondition.append (fills_statements place false [] body).settles_plain).as (by simp [Cues.clause]) rfl
  | otherwise body => exact (fills_statements place false [] body).settles_plain

theorem settles_statement (place : Flaws.Place) (s : Stmt) (hlabel : s.label? = none) :
    ∃ inside, Cues.statement ts place.newlines s = s.locals.map .addLocal ++ inside ∧
      Settles place.varargs place.around inside (Flaws.statement ts place s) := by
  cases s with
  | assignment targets op values =>
    have htargets := raising_expressions place.varargs targets
    exact ⟨_, rfl, (htargets.append (raising_expressions place.varargs values)).settles place.around⟩
  | declare ids values =>
    exact ⟨_, by simp [Cues.statement, Cues.locals, Stmt.locals], (raising_expressions place.varargs values).settles _⟩
  | call e => exact ⟨_, rfl, (raising_expression place.varargs e).settles _⟩
  | block body => exact ⟨_, rfl, (fills_statements place false [] body).settles_plain⟩
  | whileLoop condition body =>
    have hcondition := (raising_expression place.varargs condition).settles place.around
    exact ⟨_, rfl, (hcondition.append (fills_statements place true [] body).settles_plain).as
      (by simp) rfl⟩
  | repeatLoop body condition =>
    have hbody := fills_statements place true [] body
    exact ⟨_, rfl, (Fills.settles .nil [] hbody (raising_expression place.varargs condition)).as (by simp) rfl⟩
  | branch cs oneLine =>
    cases oneLine with
    | true => exact ⟨_, rfl, settles_clauses { place with newlines := true } (Cues.shownInElse ts cs) cs⟩
    | false => exact ⟨_, rfl, settles_clauses place place.newlines cs⟩
  | forNumeric counter first last step body =>
    have hheader := ((raising_expression place.varargs first).append (raising_expression place.varargs last)).append
      (raising_optionalExpression place.varargs step)
    have hbody := fills_statements place true [] body
    exact ⟨_, rfl, (Fills.settles hheader [counter.name] hbody .nil).as (by simp) (by simp [Flaws.statement])⟩
  | forGeneric ids iterators body =>
    have hbody := fills_statements place true [] body
    refine ⟨_, rfl, (Fills.settles (raising_expressions place.varargs iterators) (ids.map (·.name)) hbody .nil).as
      ?_ (by simp [Flaws.statement])⟩
    simp [Cues.locals]
  | function name isLocal f =>
    cases isLocal with
    | true =>
      refine ⟨_, ?_, (raising_function place.varargs f).settles _⟩
      cases hroot : name.root? <;> simp [Cues.statement, Stmt.locals, hroot]
    | false =>
      have hname := raising_expression place.varargs name
      exact ⟨_, rfl, (hname.append (raising_function place.varargs f)).settles _⟩
  | ret values => exact ⟨_, rfl, (raising_expressions place.varargs values).settles _⟩
  | breakLoop span => exact ⟨_, rfl, settles_breakLoop ts place.newlines span⟩
  | goto id => exact ⟨_, rfl, settles_goto id⟩
  | label => cases hlabel
  | inclusion => exact ⟨_, rfl, Raising.nil.settles _⟩

end

end Track

namespace Program

/-- The errors of control flow are those of the tree, as often as they are there. -/
theorem errors_parse_perm_flaws (options : Options) (source name : String) (halone : IsAlone options source)
    (hflow : ∀ d ∈ (parse options source name).errors, d.fault.isFlow = true) :
    ∃ ts, tokenize options.encoding source 0 = .ok ts ∧
      (parse options source name).errors.Perm (Flaws.program ts (parse options source name).body) := by
  obtain ⟨ts, htokens, -, herrors⟩ := account_parse halone hflow
  refine ⟨ts, htokens, ?_⟩
  have hbody := Track.fills_statements ts { varargs := true, newlines := false } false [] (parse options source name).body
  obtain ⟨-, hsum⟩ := hbody.outermost (t := Track.follow ⟨{ allowVararg := true }, [], [], []⟩ (.openBlock false)) rfl
  rw [← Multiset.coe_eq_coe, herrors, List.cons_append, Track.along_cons, hsum]
  exact zero_add _

/-- A program with a jump over a local to a label that is there twice, and with a break, a goto and a `...` where they
cannot be. -/
def tangled : String :=
  "goto a\nlocal x\n::a::\n::a::\nprint(1)\nif y then break end\ngoto b\nfunction f(z) return z, ... end"

/-- The errors of a program in which everything goes wrong that can. -/
theorem errors_parse_perm_flaws_tangled : IsAlone {} tangled ∧
    (∀ d ∈ (parse {} tangled "main.lua").errors, d.fault.isFlow = true) ∧
    (parse {} tangled "main.lua").errors.length = 5 ∧
    ∃ ts, tokenize .discard tangled 0 = .ok ts ∧
      (parse {} tangled "main.lua").errors.Perm (Flaws.program ts (parse {} tangled "main.lua").body) := by
  have halone : IsAlone {} tangled := by
    unfold IsAlone
    decide +kernel
  have hflow : ∀ d ∈ (parse {} tangled "main.lua").errors, d.fault.isFlow = true := by decide +kernel
  exact ⟨halone, hflow, by decide +kernel, errors_parse_perm_flaws {} tangled "main.lua" halone hflow⟩

end Program

end CartLua
