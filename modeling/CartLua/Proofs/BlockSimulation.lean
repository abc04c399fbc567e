import CartLua.Proofs.Render
import CartLua.Proofs.Simulation
/-!
# Blocks that keep pace

A block is a loop over statements, and one that is given up costs a line. Where errors count, both runs give up the same
statements and go on at the same place. Where they do not, the end of the first program may be inside a block; all but
the blocks of if statements on one line need a word behind them, which is missing then. What such an if statement looks
like when the rest of the second program can become a part of it is said by `Stmt.Dangles`.
-/

namespace CartLua

open List Outcome

/-- The statement may be read in another way when something follows it. The mark says whether it is the body of an if
statement on one line that it ends. -/
inductive Stmt.Dangles (lineless followed faulty : Prop) : (inLine : Bool) → Stmt → Prop where
  /-- A return statement takes the semicolon behind it. -/
  | ret (h : faulty) (values : List Expr) (span : Span) : Dangles lineless followed faulty false (.ret values span)
  /-- An if statement on one line goes on as long as the end of its line is not seen. -/
  | unseen (h : lineless) (inLine : Bool) (clauses : List Clause) (span : Span) :
    Dangles lineless followed faulty inLine (.branch clauses true span)
  /-- An if statement on one line that has no body takes what stands on the next line. -/
  | empty (h : followed) (inLine : Bool) (condition : Expr) (inner span : Span) :
    Dangles lineless followed faulty inLine (.branch [.ifThen condition [] inner] true span)
  /-- An `else` at the end of a line opens a regular block. -/
  | emptyElse (inLine : Bool) (first : Clause) (inner span : Span) :
    Dangles lineless followed faulty inLine (.branch [first, .otherwise [] inner] true span)
  /-- Behind a regular block that ends an if statement the line is not seen to end. -/
  | blockElse (h : followed) (first : Clause) (body : Block) (inner span : Span) :
    Dangles lineless followed faulty true (.branch [first, .otherwise body inner] true span)
  /-- The statement ends with another one. -/
  | nested (inLine : Bool) {clauses : List Clause} {clause : Clause} {last : Stmt} (span : Span)
    (hclause : clauses.getLast? = some clause) (hbody : clause.body.getLast? = some last)
    (hlast : Dangles lineless followed faulty true last) : Dangles lineless followed faulty inLine (.branch clauses true span)

namespace Mask

variable {m : Mask} {γ : Type} {t t' : Token} {r r' : Option Stmt}

theorem congr_kind (h : m.token t = m.token t') {f : TokenKind → γ}
    (hmask : ∀ kind, f (m.kind kind) = f kind) : f t.kind = f t'.kind := by
  rw [← hmask t.kind, ← hmask t'.kind, (token_inj h).1]

theorem isEof_eq (h : m.token t = m.token t') : t.isEof = t'.isEof :=
  congr_kind h (f := fun kind => (⟨kind, "", default⟩ : Token).isEof) fun kind => by cases kind <;> rfl

theorem isNewline_eq (h : m.token t = m.token t') : t.isNewline = t'.isNewline :=
  congr_kind h (f := fun kind => (⟨kind, "", default⟩ : Token).isNewline) fun kind => by cases kind <;> rfl

theorem isSymbol_eq (h : m.token t = m.token t') (sign : Symbol) : t.isSymbol sign = t'.isSymbol sign :=
  congr_kind h (f := fun kind => (⟨kind, "", default⟩ : Token).isSymbol sign) fun kind => by cases kind <;> rfl

theorem closesBlock_eq (h : m.token t = m.token t') : t.closesBlock = t'.closesBlock :=
  congr_kind h (f := fun kind => (⟨kind, "", default⟩ : Token).closesBlock) fun kind => by cases kind <;> rfl

theorem isReturn_statement (s : Stmt) : (m.statement s).isReturn = s.isReturn := by
  cases s <;> simp only [statement, Stmt.isReturn]

theorem any_isReturn (h : r.map m.statement = r'.map m.statement) : r.any Stmt.isReturn = r'.any Stmt.isReturn := by
  have hmask : ∀ r : Option Stmt, (r.map m.statement).any Stmt.isReturn = r.any Stmt.isReturn := by
    intro r
    cases r with
    | none => rfl
    | some s => exact isReturn_statement s
  rw [← hmask r, ← hmask r', h]

theorem toList_statement (h : r.map m.statement = r'.map m.statement) :
    r.toList.map m.statement = r'.toList.map m.statement := by
  cases r <;> cases r' <;> simp_all

end Mask

theorem Session.Ended.closes {s : Session} (h : s.Ended) :
    (s.window.token.closesBlock || s.window.token.isNewline) = true := by
  simp [Token.closesBlock, Token.kind_of_isEof h.token]

namespace Parse

theorem run_blockStep (statement : Parse (Option Stmt)) (c : Settings) (s : Session) : (blockStep statement).run c s =
    if s.window.token.closesBlock || s.window.token.isNewline then .ok ([], false) s
    else match statement.run c s with
      | .ok r t => .ok (r.toList, !r.any Stmt.isReturn) t
      | .fault d t => Parse.run (do
          report [d]
          restore s.checkpoint
          return ([], ← recover s.checkpoint)) c t
      | .exhausted => .exhausted := by
  unfold blockStep
  rw [run_bind, run_token, andThen_ok, run_ite]
  split
  · rfl
  · rw [run_bind, run_checkpoint, andThen_ok, run_bind, attempt]
    dsimp only
    cases statement.run c s with
    | ok r =>
      cases r with
      | none => rfl
      | some stmt => cases stmt <;> rfl
    | fault => rfl
    | exhausted => rfl

variable {s : Session}

theorem run_collectRounds_closed (statement : Parse (Option Stmt)) (c : Settings)
    (hs : (s.window.token.closesBlock || s.window.token.isNewline) = true) (rounds : Nat) :
    (collectRounds (blockStep statement) rounds).run c s = .exhausted ∨
      (collectRounds (blockStep statement) rounds).run c s = .ok [] s := by
  cases rounds with
  | zero => exact .inl rfl
  | succ =>
    right
    unfold collectRounds
    rw [run_bind, run_blockStep, if_pos hs]
    rfl

end Parse

namespace Comparison

open Session Parse

variable {α β : Type} {k : Comparison} {s s' t t' : Session} {P : Window → Prop} {V : α → β → Prop}
  {O : α → Session → Outcome β → Prop} {inLine : Bool}

/-! ### Giving up a statement -/

section Strict

variable [k.Lawful] (hstrict : ¬k.lenient)

include hstrict

omit [k.Lawful] in
theorem not_over_of_strict (s : Session) : ¬k.Over s := fun hover => hstrict hover.1

theorem agree_skipToken : k.Sim (fun w => w.token.isEof = false) (fun _ _ => True) (k.ends False) skipToken skipToken := by
  intro s s' hs heof
  obtain hmoves | ⟨-, hover⟩ | ⟨-, hover, -⟩ := Lawful.advance hs.abreast heof fun h => absurd h hstrict
  · obtain ⟨hlenient, -⟩ | ⟨hrel, habreast⟩ := hmoves
    · exact absurd hlenient hstrict
    have hrelated : k.Related (s.resume s.window.next.2) (s'.resume s'.window.next.2) :=
      ⟨habreast, fun h => alike_resume (hs.alike h) _ _⟩
    unfold skipToken attempt
    rw [run_bind, run_bind]
    dsimp only
    rw [run_advance, run_advance]
    revert hrel
    generalize s.window.next.1 = r, s'.window.next.1 = r'
    rintro (hblames | _)
    · exact .inr (.inr (.inl ⟨(), _, rfl, trivial, hblames.report hrelated⟩))
    · exact .ok trivial hrelated
  · exact absurd hover.1 hstrict
  · exact absurd hover.1 hstrict

theorem agree_setNewlines (shown : Bool) :
    k.Agree (fun _ _ => True) (setNewlines shown) (setNewlines shown) := by
  intro s s' hs _
  exact matches_setNewlines (p := pure ()) (q := pure ()) hs (.inl (not_over_of_strict hstrict s))
    fun t u htu _ _ => .ok trivial htu

theorem agree_skipLineRounds (file : FileId) (consumed : Bool) (rounds rounds' : Nat) :
    k.Agree (· = ·) (skipLineRounds file consumed rounds) (skipLineRounds file consumed rounds') := by
  induction rounds generalizing consumed rounds' with
  | zero => exact fun _ _ _ _ => trivial
  | succ rounds ih =>
    cases rounds' with
    | zero => exact fun _ _ _ _ => matches_exhausted _
    | succ rounds' =>
      have hstep : k.Agree (· = ·) (skipLineStep file consumed) (skipLineStep file consumed) := by
        intro s s' hs _
        have htoken := akin_token hs hstrict
        have hfile := (Lawful.files hstrict hs.abreast).1
        unfold skipLineStep
        rw [run_bind, run_bind, run_token, run_token, andThen_ok, andThen_ok, ← hfile,
          ← Mask.isNewline_eq htoken, ← Mask.isEof_eq htoken, ← Mask.closesBlock_eq htoken]
        split
        · exact .ok rfl hs
        split
        · exact .ok rfl hs
        next hopen =>
          refine (agree_skipToken hstrict).andThen (fun _ _ _ => .pure rfl) s s' hs ?_
          simp only [Bool.or_eq_true, not_or] at hopen
          simpa using hopen.1
      unfold skipLineRounds
      refine hstep.andThen ?_
      rintro r _ rfl
      cases r with
      | none => exact ih true rounds'
      | some => exact .pure rfl

theorem matches_recover {c c' : Checkpoint} (hs : k.Related s s')
    (hleaves : s.window.token.closesBlock = false →
      (s.window.token.span.start != c.start && (s.window.previous.span.stop.line < s.window.token.span.start.line ||
          s.window.previous.span.stop.file != s.window.token.span.file)) =
        (s'.window.token.span.start != c'.start && (s'.window.previous.span.stop.line < s'.window.token.span.start.line ||
          s'.window.previous.span.stop.file != s'.window.token.span.file))) :
    k.Matches (· = ·) (k.ends False) ((recover c).run k.first s) ((recover c').run k.second s') := by
  have htoken := akin_token hs hstrict
  have hmode := (Lawful.newlines hs.abreast).resolve_right fun h => hstrict h.1.1
  have hfile := (Lawful.files hstrict hs.abreast).2
  -- The rest of the line is skipped by two loops that see the same tokens.
  have hskip : ∀ file outer, k.Preserves id
      (do
        setNewlines true
        let goesOn ← skipLine file
        if (← look (·.window.file)) == file then
          setNewlines outer
          return goesOn
        else return goesOn) := by
    intro file outer
    refine (agree_setNewlines hstrict true).before ?_
    have hline : k.Agree (· = ·) (skipLine file) (skipLine file) :=
      fun s s' hs hP => agree_skipLineRounds hstrict file false k.first.rounds k.second.rounds s s' hs hP
    refine hline.andThen ?_
    rintro goesOn _ rfl v w hvw _
    rw [run_bind, run_bind, run_look, run_look, andThen_ok, andThen_ok,
      (Lawful.files hstrict hvw.abreast).2]
    split
    · exact (agree_setNewlines hstrict _).andThen (fun _ _ _ => .pure rfl) v w hvw trivial
    · exact .ok rfl hvw
  unfold recover
  rw [run_bind, run_bind, run_token, run_token, andThen_ok, andThen_ok, run_bind, run_bind, run_previous,
    run_previous, andThen_ok, andThen_ok, ← Mask.closesBlock_eq htoken]
  cases hcloses : s.window.token.closesBlock with
  | true => exact .ok rfl hs
  | false =>
    rw [if_neg Bool.false_ne_true, if_neg Bool.false_ne_true, ← hleaves hcloses]
    split
    · exact .ok rfl hs
    · rw [run_bind, run_bind, run_look, run_look, andThen_ok, andThen_ok, run_bind, run_bind,
        run_newlines, run_newlines, andThen_ok, andThen_ok, ← hfile, ← hmode]
      exact hskip _ _ s s' hs trivial

theorem matches_giveUp {d e : Diagnostic} (hs : k.Related s s') (hsolid : s.window.token.isSolid = true)
    (hreach : Reaches k.first s t) (hreach' : Reaches k.second s' t') (ht : k.Related t t') (hblames : k.Blames d e) :
    k.Matches (fun a b => a.1 = [] ∧ b.1 = [] ∧ a.2 = b.2) (k.ends False)
      (Parse.run (do
        report [d]
        restore s.checkpoint
        return (([] : List Stmt), ← recover s.checkpoint)) k.first t)
      (Parse.run (do
        report [e]
        restore s'.checkpoint
        return (([] : List Stmt), ← recover s'.checkpoint)) k.second t') := by
  have hreport : k.Related (t.report [d]) (t'.report [e]) := hblames.report ht
  have hstacks : k.Related ((t.report [d]).restoreStacks s.checkpoint) ((t'.report [e]).restoreStacks s'.checkpoint) :=
    hreport.still (.of_eq rfl rfl rfl rfl) (.single (.restore _ _)) (.of_eq rfl rfl rfl rfl) (.single (.restore _ _))
      fun h => (hs.alike h).restoreStacks (hreport.alike h)
  have hmode : s.checkpoint.newlines = s'.checkpoint.newlines :=
    (Lawful.newlines hs.abreast).resolve_right fun h => hstrict h.1.1
  have hback : Reaches k.first s ((t.report [d]).restoreStacks s.checkpoint) :=
    (hreach.act (.report t [d])).act (.restore _ s.checkpoint)
  have hback' : Reaches k.second s' ((t'.report [e]).restoreStacks s'.checkpoint) :=
    (hreach'.act (.report t' [e])).act (.restore _ s'.checkpoint)
  rw [run_bind, run_bind, run_report, run_report, andThen_ok, andThen_ok]
  unfold restore
  rw [hmode]
  refine matches_setNewlines (p := do return (([] : List Stmt), ← recover s.checkpoint))
    (q := do return (([] : List Stmt), ← recover s'.checkpoint)) hstacks (.inl (not_over_of_strict hstrict _))
    fun u u' hu hrun hrun' => ?_
  have hleaves := Lawful.leaves hstrict hs.abreast hsolid (hback.trans (reaches hrun)) (hback'.trans (reaches hrun')) hu.abreast
  refine (matches_recover hstrict hu hleaves).bind (fun _ _ _ h => h.1.elim) ?_
  rintro goesOn _ v w rfl hvw - -
  exact .ok ⟨rfl, rfl, rfl⟩ hvw

end Strict

/-! ### Rounds -/

/-- The window shows line ends or does not, as far as that is known. -/
def InLine (k : Comparison) (inLine : Bool) (w : Window) : Prop := k.lineless ∨ w.newlines = inLine

/-- How a statement may end openly: what follows can become a part of it, or the second run has passed the semicolon that
follows, and in the body of an if statement on one line it has come to the end of the line. -/
def Trails (k : Comparison) (inLine : Bool) (r : Option Stmt) (t : Session) (o : Outcome (Option Stmt)) : Prop :=
  k.Over t ∧ ((k.lineless ∧ inLine = true) ∨
    (∃ stmt, r = some stmt ∧ stmt.Dangles k.lineless k.followed k.faulty inLine) ∨
    ¬k.followed ∧ ∃ r' u, o = .ok r' u ∧ r.map k.mask.statement = r'.map k.mask.statement ∧
      (inLine = true → u.window.token.isNewline = true))

/-- How a statement that is not empty may end openly. -/
def StatementTrails (k : Comparison) (inLine : Bool) (stmt : Stmt) (t : Session) (o : Outcome Stmt) : Prop :=
  k.Trails inLine (some stmt) t (o.andThen fun stmt' u => .ok (some stmt') u)

/-- How a block may end openly. If it is the body of an if statement on one line, it does so with a statement that what
follows can become a part of, or the second run has come to the end of the line. -/
def BlockTrails (k : Comparison) (isBody : Prop) (body : Block) (t : Session) (o : Outcome Block) : Prop :=
  k.Over t ∧ (isBody → k.lineless ∨
    (∃ last, body.getLast? = some last ∧ last.Dangles k.lineless k.followed k.faulty true) ∨
    ¬k.followed ∧ ∃ body' u, o = .ok body' u ∧ body.map k.mask.statement = body'.map k.mask.statement ∧
      u.window.token.isNewline = true)

/-- The statement parser of the second run passes a semicolon. -/
def PassesSemicolon (k : Comparison) (statement : Parse (Option Stmt)) : Prop :=
  ∀ s : Session, s.window.token.kind = .symbol .semicolon → s.window.next.1 = none →
    statement.run k.second s = .ok none (s.resume s.window.next.2)

theorem InLine.of_kept [k.Lawful] {p : Parse α} [hp : Balanced k.first p] {a : α} (hs : k.Related s s')
    (h : k.InLine inLine s.window) (hrun : p.run k.first s = .ok a t) : k.InLine inLine t.window := by
  by_cases hlineless : k.lineless
  · exact .inl hlineless
  · right
    rw [(hp.kept hrun).newlines (Lawful.undisturbed hlineless hs.abreast (reaches hrun))]
    exact h.resolve_left hlineless

variable {statement : Parse (Option Stmt)}

theorem matches_blockStep [k.Lawful]
    (hstatement : k.Sim (k.InLine inLine) (Same (Option.map k.mask.statement)) (k.Trails inLine)
      statement statement) (hs : k.Related s s') (hmode : k.InLine inLine s.window) (hover : ¬k.Over s) :
    k.Matches (fun a b => a.1.map k.mask.statement = b.1.map k.mask.statement ∧ a.2 = b.2)
      (fun a t o => k.Over t ∧ (inLine = true → k.lineless ∨
        (∃ last, a.1 = [last] ∧ last.Dangles k.lineless k.followed k.faulty true) ∨
        ¬k.followed ∧ ∃ b u, o = .ok b u ∧ a.1.map k.mask.statement = b.1.map k.mask.statement ∧ a.2 = b.2 ∧
          u.window.token.isNewline = true))
      ((blockStep statement).run k.first s) ((blockStep statement).run k.second s') := by
  have htoken := (Lawful.token hs.abreast).resolve_right fun h => hover h.1
  rw [run_blockStep, run_blockStep, ← Mask.closesBlock_eq htoken, ← Mask.isNewline_eq htoken]
  split
  · exact .ok ⟨rfl, rfl⟩ hs
  next hopen =>
    have hmatch := hstatement s s' hs hmode
    cases hrun : statement.run k.first s with
    | exhausted => trivial
    | fault d t =>
      rw [hrun] at hmatch
      by_cases hlenient : k.lenient
      · refine matches_of_lost (s := t.report [d]) ⟨hlenient, by simp [Session.report]⟩ (do
          restore s.checkpoint
          return (([] : List Stmt), ← recover s.checkpoint)) _
      · obtain h | h | ⟨e, u, h, hblames, hrelated⟩ := hmatch
        · exact absurd h hlenient
        · rw [h]
          exact matches_exhausted _
        · rw [h]
          have hsolid : s.window.token.isSolid = true := by
            simp only [Bool.or_eq_true, not_or] at hopen
            exact Token.isSolid_iff.mpr ⟨Token.isEof_of_closesBlock (by simpa using hopen.1), by simpa using hopen.2⟩
          refine (matches_giveUp hlenient hs hsolid (reaches_of_fault hrun) (reaches_of_fault h) hrelated hblames).mono ?_
            fun _ _ _ h => h.1.elim
          rintro ⟨found, more⟩ ⟨found', more'⟩ ⟨hfound, hfound', hmore⟩
          dsimp only at hfound hfound' hmore
          exact ⟨by rw [hfound, hfound'], hmore⟩
    | ok r t =>
      rw [hrun] at hmatch
      obtain h | h | ⟨r', u, h, hr, hrelated⟩ | ⟨hover, htrails⟩ := hmatch
      · exact .inl h
      · -- The second run has given up the statement, if it has not run out of rounds.
        cases hrun' : statement.run k.second s' with
        | ok => exact (hrun' ▸ h : k.Fails t (.ok _ _)).elim
        | exhausted => exact .inr (.inl trivial)
        | fault d u =>
          obtain ⟨hbroken, hover⟩ : k.broken ∧ k.Over t := (hrun' ▸ h : k.Fails t (.fault d u))
          exact .opens ⟨hover, fun _ => .inl (Lawful.broken hbroken)⟩
      · rw [h]
        exact .ok ⟨Mask.toList_statement hr, by rw [Mask.any_isReturn hr]⟩ hrelated
      · refine .opens ⟨hover, fun hline => ?_⟩
        obtain ⟨hlineless, -⟩ | ⟨stmt, rfl, hdangles⟩ | ⟨hfollowed, r', u, h, hr, hnewline⟩ := htrails
        · exact .inl hlineless
        · rw [hline] at hdangles
          exact .inr (.inl ⟨stmt, rfl, hdangles⟩)
        · rw [h]
          exact .inr (.inr ⟨hfollowed, _, u, rfl, Mask.toList_statement hr, by rw [Mask.any_isReturn hr], hnewline hline⟩)

/-- At the end of the first program the block of an if statement on one line ends in both runs. -/
theorem matches_lineEnd [k.Lawful] (hpasses : k.PassesSemicolon statement)
    (isBody : Prop) (hs : k.Related s s') (hlines : ¬k.lineless) (hover : k.Over s) (hmode : s.window.newlines = true)
    (rounds rounds' : Nat) :
    k.Matches (Same (map k.mask.statement)) (k.BlockTrails isBody)
      ((collectRounds (blockStep statement) rounds).run k.first s)
      ((collectRounds (blockStep statement) rounds').run k.second s') := by
  obtain hfirst | hfirst := run_collectRounds_closed statement k.first hover.2.closes rounds
  · rw [hfirst]
    trivial
  rw [hfirst]
  obtain hnewline | ⟨hfollowed, hkind, hnext, hnewline⟩ := Lawful.lineEnd hlines hs.abreast hover hmode
  · obtain hsecond | hsecond := run_collectRounds_closed statement k.second (Bool.or_eq_true_iff.mpr (.inr hnewline)) rounds'
    · exact .inr (.inl (hsecond ▸ trivial))
    · exact .inr (.inr (.inl ⟨[], s', hsecond, rfl, hs⟩))
  · cases rounds' with
    | zero => exact matches_exhausted _
    | succ rounds' =>
      have hopen : (s'.window.token.closesBlock || s'.window.token.isNewline) = false := by
        simp [Token.closesBlock, Token.isNewline, hkind]
      unfold collectRounds
      rw [run_bind, run_blockStep, hopen, if_neg Bool.false_ne_true, hpasses s' hkind hnext, andThen_ok]
      show k.Matches _ _ _ (((collectRounds (blockStep statement) rounds').run k.second (s'.resume s'.window.next.2)).andThen
        fun rest u => .ok rest u)
      obtain hsecond | hsecond := run_collectRounds_closed statement k.second (Bool.or_eq_true_iff.mpr (.inr hnewline)) rounds'
      · rw [hsecond]
        exact .inr (.inl trivial)
      · rw [hsecond]
        exact .opens ⟨hover, fun _ => .inr (.inr ⟨hfollowed, [], _, rfl, rfl, hnewline⟩)⟩

theorem sim_blockRounds [k.Lawful] (isBody : Prop) [Balanced k.first statement]
    (hstatement : k.Sim (k.InLine inLine) (Same (Option.map k.mask.statement)) (k.Trails inLine)
      statement statement) (hbody : isBody → inLine = true ∧ k.PassesSemicolon statement) (rounds rounds' : Nat) :
    k.Sim (k.InLine inLine) (Same (map k.mask.statement)) (k.BlockTrails isBody)
      (collectRounds (blockStep statement) rounds) (collectRounds (blockStep statement) rounds') := by
  induction rounds generalizing rounds' with
  | zero => exact fun _ _ _ _ => trivial
  | succ rounds ih =>
    intro s s' hs hmode
    by_cases hover : k.Over s
    · by_cases hopen : isBody → k.lineless
      · obtain hfirst | hfirst := run_collectRounds_closed statement k.first hover.2.closes (rounds + 1)
        · rw [hfirst]
          trivial
        · rw [hfirst]
          exact .opens ⟨hover, fun hthis => .inl (hopen hthis)⟩
      · obtain ⟨hthis, hlines⟩ := Classical.not_imp.mp hopen
        obtain ⟨rfl, hpasses⟩ := hbody hthis
        exact matches_lineEnd hpasses isBody hs hlines hover (hmode.resolve_left hlines) (rounds + 1) rounds'
    cases rounds' with
    | zero => exact matches_exhausted _
    | succ rounds' =>
      unfold collectRounds
      refine (matches_blockStep hstatement hs hmode hover).bind ?_ ?_
      · rintro ⟨found, more⟩ t o ⟨hover', hlast⟩
        -- The first run is over behind this round, so that the next one ends its block.
        have hfirst : Parse.run (if more then do return found ++ (← collectRounds (blockStep statement) rounds)
            else return found) k.first t = .exhausted ∨
          Parse.run (if more then do return found ++ (← collectRounds (blockStep statement) rounds)
            else return found) k.first t = .ok found t := by
          rw [run_ite]
          split
          · rw [run_bind]
            obtain hrest | hrest := run_collectRounds_closed statement k.first hover'.2.closes rounds
            · exact .inl (by rw [hrest]; rfl)
            · exact .inr (by rw [hrest, andThen_ok, append_nil]; rfl)
          · exact .inr rfl
        obtain hfirst | hfirst := hfirst
        · exact Eq.mpr (congrArg (fun x => k.Matches _ _ x _) hfirst) trivial
        refine Eq.mpr (congrArg (fun x => k.Matches _ _ x _) hfirst) ?_
        by_cases hthis : isBody
        · obtain hlineless | ⟨last, hfound, hdangles⟩ | ⟨hfollowed, ⟨found', more'⟩, u, rfl, hfound, hmore, hnewline⟩ :=
            hlast (hbody hthis).1
          · exact .opens ⟨hover', fun _ => .inl hlineless⟩
          · refine .opens ⟨hover', fun _ => .inr (.inl ⟨last, ?_, hdangles⟩)⟩
            dsimp only at hfound
            rw [hfound]
            rfl
          · -- The second run is at the end of the line, where its block ends too.
            rw [andThen_ok, run_ite]
            have hend : k.BlockTrails isBody found t (.ok found' u) :=
              ⟨hover', fun _ => .inr (.inr ⟨hfollowed, found', u, rfl, hfound, hnewline⟩)⟩
            split
            · rw [run_bind]
              obtain hrest | hrest := run_collectRounds_closed statement k.second (Bool.or_eq_true_iff.mpr (.inr hnewline)) rounds'
              · rw [hrest]
                exact .inr (.inl trivial)
              · rw [hrest, andThen_ok, append_nil]
                exact .opens hend
            · exact .opens hend
        · exact .opens ⟨hover', fun h => absurd h hthis⟩
      · rintro ⟨found, more⟩ ⟨found', more'⟩ t u ⟨hfound, hmore⟩ htu hrun -
        dsimp only at hfound hmore ⊢
        subst hmore
        rw [run_ite, run_ite]
        split
        · refine (ih rounds' t u htu (hmode.of_kept hs hrun)).bind ?_ ?_
          · rintro rest v o ⟨hover', hlast⟩
            refine .opens ⟨hover', fun hthis => (hlast hthis).imp id (.imp ?_ ?_)⟩
            · rintro ⟨last, hrest, hdangles⟩
              exact ⟨last, by rw [getLast?_append, hrest]; rfl, hdangles⟩
            · rintro ⟨hfollowed, rest', w, rfl, hrest, hnewline⟩
              refine ⟨hfollowed, found' ++ rest', w, rfl, ?_, hnewline⟩
              rw [map_append, map_append, hfound, hrest]
          · rintro rest rest' v w hrest hvw - -
            refine .ok ?_ hvw
            show map _ (found ++ rest) = map _ (found' ++ rest')
            rw [map_append, map_append, hfound, hrest]
        · exact .ok hfound htu

theorem sim_block [k.Lawful] [Balanced k.first statement]
    (hstatement : ∀ inLine, k.Sim (k.InLine inLine) (Same (Option.map k.mask.statement))
      (k.Trails inLine) statement statement) :
    k.Sim (fun _ => True) (Same (map k.mask.statement)) (k.ends True)
      (block statement) (block statement) := by
  intro s s' hs _
  have hrounds := sim_blockRounds False (hstatement s.window.newlines) False.elim k.first.rounds k.second.rounds s s' hs
    (.inr rfl)
  exact hrounds.mono (fun _ _ => id) fun _ _ _ h => ⟨trivial, h.1⟩

theorem sim_lineBlock [k.Lawful] [Balanced k.first statement]
    (hstatement : k.Sim (k.InLine true) (Same (Option.map k.mask.statement)) (k.Trails true)
      statement statement) (hpasses : k.PassesSemicolon statement) :
    k.Sim (k.InLine true) (Same (map k.mask.statement)) (k.BlockTrails True)
      (block statement) (block statement) :=
  fun s s' hs hP => sim_blockRounds True hstatement (fun _ => ⟨rfl, hpasses⟩) k.first.rounds k.second.rounds s s' hs hP

end Comparison

end CartLua
