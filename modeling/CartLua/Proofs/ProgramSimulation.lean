import CartLua.Proofs.GrammarSimulation
/-!
# A program that goes on

Two runs are compared of which the first one meets no error and comes to the end of its program, where the second one goes
on. At the top level every statement of the first program is found in the second one as well. Only the last one may be
lost or changed, where what follows can become a part of it or is broken.
-/

namespace CartLua

open List

namespace Comparison

open Session Parse

variable {k : Comparison} {s s' t u : Session} {statement : Parse (Option Stmt)} {xs zs : Block}

/-- What the statements `xs` of the first program are to the statements `zs` of the second one. The first run ends with the
session `t`, the second one with `u`. -/
inductive Reappears (k : Comparison) (statement : Parse (Option Stmt)) (xs zs : Block) (t u : Session) : Prop where
  /-- The second run has read the same statements and goes on with its block. -/
  | goesOn (ys ws : Block) (v : Session) (rounds : Nat) (hsame : xs.map k.mask.statement = ys.map k.mask.statement)
    (hrelated : k.Related t v) (hrun : (collectRounds (blockStep statement) rounds).run k.second v = .ok ws u)
    (hzs : zs = ys ++ ws)
  /-- A return statement ends both blocks. -/
  | returns (last : Stmt) (hlast : xs.getLast? = some last) (hreturn : last.isReturn = true)
    (hsame : xs.map k.mask.statement = zs.map k.mask.statement)
  /-- The first program has come to its end with its last statement, and the second run may have read another one. -/
  | openEnd (hfront : xs.dropLast.map k.mask.statement <+: zs.map k.mask.statement)
    (hlast : k.broken ∨ (∃ last, xs.getLast? = some last ∧ last.Dangles k.lineless k.followed k.faulty false) ∨
      (¬k.followed ∧ xs.map k.mask.statement <+: zs.map k.mask.statement))

theorem Reappears.append (h : k.Reappears statement xs zs t u) {found found' : Block}
    (hfound : found.map k.mask.statement = found'.map k.mask.statement) :
    k.Reappears statement (found ++ xs) (found' ++ zs) t u := by
  have hinside : ∀ {front : Block}, front.map k.mask.statement <+: zs.map k.mask.statement →
      (found ++ front).map k.mask.statement <+: (found' ++ zs).map k.mask.statement := by
    intro front hfront
    rw [map_append, map_append, hfound]
    exact (prefix_append_right_inj _).mpr hfront
  have hgetLast : ∀ {last : Stmt}, xs.getLast? = some last → (found ++ xs).getLast? = some last := by
    intro last hlast
    rw [getLast?_append, hlast]
    rfl
  cases h with
  | goesOn ys ws v rounds hsame hrelated hrun hzs =>
    refine .goesOn (found' ++ ys) ws v rounds ?_ hrelated hrun (by rw [hzs, append_assoc])
    rw [map_append, map_append, hfound, hsame]
  | returns last hlast hreturn hsame =>
    refine .returns last (hgetLast hlast) hreturn ?_
    rw [map_append, map_append, hfound, hsame]
  | openEnd hfront hlast =>
    refine .openEnd ?_ (hlast.imp id (.imp ?_ (.imp id hinside)))
    · have hdrop : (found ++ xs).dropLast <+: found ++ xs.dropLast := by
        cases xs with
        | nil => simpa using dropLast_prefix found
        | cons x xs => rw [dropLast_append_of_ne_nil (cons_ne_nil x xs)]
      exact (hdrop.map _).trans (hinside hfront)
    · rintro ⟨last, hlast, hdangles⟩
      exact ⟨last, hgetLast hlast, hdangles⟩

theorem Reappears.dropLast_prefix (h : k.Reappears statement xs zs t u) :
    xs.dropLast.map k.mask.statement <+: zs.map k.mask.statement := by
  have hfront : xs.dropLast.map k.mask.statement <+: xs.map k.mask.statement := (List.dropLast_prefix xs).map _
  cases h with
  | goesOn ys ws v rounds hsame hrelated hrun hzs =>
    rw [hzs, List.map_append, ← hsame]
    exact hfront.trans (List.prefix_append ..)
  | returns last hlast hreturn hsame =>
    rw [← hsame]
    exact hfront
  | openEnd hfront => exact hfront

/-- The last statement is there too, unless what follows is broken or becomes a part of it. -/
theorem Reappears.isPrefix (h : k.Reappears statement xs zs t u) (hbroken : ¬k.broken)
    (hdangles : ∀ last, xs.getLast? = some last → ¬last.Dangles k.lineless k.followed k.faulty false) :
    xs.map k.mask.statement <+: zs.map k.mask.statement := by
  cases h with
  | goesOn ys ws v rounds hsame hrelated hrun hzs =>
    rw [hzs, map_append, ← hsame]
    exact prefix_append ..
  | returns last hlast hreturn hsame => rw [hsame]
  | openEnd hfront hlast =>
    obtain h | ⟨last, hlast, h⟩ | ⟨-, h⟩ := hlast
    · exact absurd h hbroken
    · exact absurd h (hdangles last hlast)
    · exact h

theorem Reappears.goes_on (h : k.Reappears statement xs zs t u) (hbroken : ¬k.broken) (hfollowed : k.followed)
    (hlast : ∀ last, xs.getLast? = some last →
      last.isReturn = false ∧ ¬last.Dangles k.lineless k.followed k.faulty false) :
    ∃ ys ws v rounds, xs.map k.mask.statement = ys.map k.mask.statement ∧ k.Related t v ∧
      (collectRounds (blockStep statement) rounds).run k.second v = .ok ws u ∧ zs = ys ++ ws := by
  cases h with
  | goesOn ys ws v rounds hsame hrelated hrun hzs => exact ⟨ys, ws, v, rounds, hsame, hrelated, hrun, hzs⟩
  | returns last hthis hreturn =>
    rw [(hlast last hthis).1] at hreturn
    cases hreturn
  | openEnd _ hopen =>
    obtain hthis | ⟨last, hthis, hdangles⟩ | ⟨hthis, -⟩ := hopen
    · exact absurd hthis hbroken
    · exact absurd hdangles (hlast last hthis).2
    · exact absurd hfollowed hthis

theorem lost_of_giveUp {c : Settings} (hlenient : k.lenient) {d : Diagnostic} {p : Parse (List Stmt × Bool)}
    {r : List Stmt × Bool} (h : Parse.run (do report [d]; p) c s = .ok r t) : k.Lost t := by
  obtain ⟨_, _, hreport, hrest⟩ := run_bind_eq_ok.mp h
  cases hreport
  exact Lost.of_reaches (s := s.report [d]) ⟨hlenient, by simp [Session.report]⟩ (reaches hrest)

/-- The rounds of the block at the top level. The first run ends with the first program and counts. -/
theorem reappears_rounds [k.Lawful] [Balanced k.first statement] (hlenient : k.lenient)
    (hends : ∀ {s s'}, k.Abreast s s' → s.window.token.isEof = true → s.Ended)
    (hstatement : k.Sim (k.InLine false) (Same (Option.map k.mask.statement)) (k.Trails false)
      statement statement) (rounds rounds' : Nat) (hs : k.Related s s') (hmode : k.InLine false s.window)
    (hrun : (collectRounds (blockStep statement) rounds).run k.first s = .ok xs t)
    (hrun' : (collectRounds (blockStep statement) rounds').run k.second s' = .ok zs u) (hlost : ¬k.Lost t)
    (heof : t.window.token.isEof = true) : k.Reappears statement xs zs t u := by
  induction rounds generalizing rounds' s s' xs zs with
  | zero => cases hrun
  | succ rounds ih =>
    by_cases hover : k.Over s
    · obtain hended | hended := run_collectRounds_closed statement k.first hover.2.closes (rounds + 1)
      · rw [hended] at hrun
        cases hrun
      · rw [hended] at hrun
        cases hrun
        exact .goesOn [] zs s' rounds' rfl hs hrun' rfl
    cases rounds' with
    | zero => cases hrun'
    | succ rounds' =>
      obtain ⟨⟨found, more⟩, t₁, hstep, hrest⟩ := run_bind_eq_ok.mp hrun
      obtain ⟨⟨found', more'⟩, u₁, hstep', hrest'⟩ := run_bind_eq_ok.mp hrun'
      have hkept : k.InLine false t₁.window := hmode.of_kept hs hstep
      have hlost₁ : ¬k.Lost t₁ := fun h => hlost (h.of_reaches (reaches hrest))
      have htoken := (Lawful.token hs.abreast).resolve_right fun h => hover h.1
      rw [run_blockStep] at hstep hstep'
      rw [← Mask.closesBlock_eq htoken, ← Mask.isNewline_eq htoken] at hstep'
      split at hstep
      · -- A token that closes the block ends the first run, and it is not the end of the text.
        cases hstep
        cases hrest
        exact absurd ⟨hlenient, hends hs.abreast heof⟩ hover
      next hopen =>
        rw [if_neg hopen] at hstep'
        have hmatch := hstatement s s' hs hmode
        cases hread : statement.run k.first s with
        | exhausted =>
          rw [hread] at hstep
          cases hstep
        | fault =>
          rw [hread] at hstep
          exact absurd (lost_of_giveUp hlenient hstep) hlost₁
        | ok r =>
          rw [hread] at hstep hmatch
          cases hstep
          -- Behind the end of the first program its block ends.
          have hlast : k.Over t₁ → xs = r.toList := by
            intro hover
            rw [run_ite] at hrest
            split at hrest
            · obtain ⟨rest, w, hmore, hpure⟩ := run_bind_eq_ok.mp hrest
              obtain hended | hended := run_collectRounds_closed statement k.first hover.2.closes rounds
              · rw [hended] at hmore
                cases hmore
              · rw [hended] at hmore
                cases hmore
                cases hpure
                exact append_nil _
            · cases hrest
              rfl
          have hfront : r.toList.dropLast = [] := by cases r <;> rfl
          obtain h | h | ⟨r', w, h, hr, hrelated⟩ | ⟨hover', htrails⟩ := hmatch
          · exact absurd h hlost₁
          · cases hread' : statement.run k.second s' with
            | ok => exact (hread' ▸ h : k.Fails t₁ (.ok _ _)).elim
            | exhausted =>
              rw [hread'] at hstep'
              cases hstep'
            | fault d w =>
              obtain ⟨hbroken, hover'⟩ : k.broken ∧ k.Over t₁ := (hread' ▸ h : k.Fails t₁ (.fault d w))
              refine .openEnd ?_ (.inl hbroken)
              rw [hlast hover', hfront]
              exact nil_prefix
          · rw [h] at hstep'
            cases hstep'
            rw [Mask.any_isReturn hr] at hrest
            cases hreturn : r'.any Stmt.isReturn with
            | false =>
              rw [hreturn] at hrest hrest'
              obtain ⟨rest, w, hmore, hpure⟩ := run_bind_eq_ok.mp hrest
              obtain ⟨rest', w', hmore', hpure'⟩ := run_bind_eq_ok.mp hrest'
              cases hpure
              cases hpure'
              exact (ih rounds' hrelated hkept hmore hmore').append (Mask.toList_statement hr)
            | true =>
              rw [hreturn] at hrest hrest'
              cases hrest
              cases hrest'
              rw [← Mask.any_isReturn hr] at hreturn
              cases r with
              | none => cases hreturn
              | some stmt => exact .returns stmt rfl hreturn (Mask.toList_statement hr)
          · refine .openEnd (by rw [hlast hover', hfront]; exact nil_prefix) (.inr ?_)
            obtain ⟨-, hline⟩ | ⟨stmt, rfl, hdangles⟩ | ⟨hfollowed, r', w, h, hr, -⟩ := htrails
            · cases hline
            · exact .inl ⟨stmt, by rw [hlast hover']; rfl, hdangles⟩
            · rw [h] at hstep'
              cases hstep'
              refine .inr ⟨hfollowed, ?_⟩
              rw [hlast hover', Mask.toList_statement hr]
              rw [run_ite] at hrest'
              split at hrest'
              · obtain ⟨rest, _, -, hpure⟩ := run_bind_eq_ok.mp hrest'
                cases hpure
                exact (prefix_append _ _).map _
              · cases hrest'
                exact prefix_rfl

end Comparison

namespace Program

open Parse Session

variable {c : Settings} {s t : Session} {levels : Nat} {body : Block}

/-- The session in which the block of a program is read. -/
def opened (s : Session) : Session := ({ s with flow := s.flow.pushScope false } : Session).openScope

theorem exists_block_of_wholeText (h : (wholeText levels).run c s = .ok body t) :
    ∃ xs u, ((grammar (levels + 1)).block levels).run c (opened s) = .ok xs u ∧ xs <+: body ∧ Reaches c u t ∧
      (u.window.token.isEof = true → body = xs) ∧ (t.errors.toList = [] → u.window.token.isEof = true) := by
  simp only [wholeText, run_bind_eq_ok, run_pure, Outcome.ok.injEq] at h
  obtain ⟨_, _, hopen, _, _, hscope, _, v, hbody, _, _, hscope', _, last, hclose, hsame, hlast⟩ := h
  subst hsame hlast
  cases hopen
  cases hscope
  obtain ⟨_, _, hsettings, hrounds⟩ := run_bind_eq_ok.mp hbody
  cases hsettings
  have hbehind : Reaches c v last := (reaches hscope').trans (reaches hclose)
  cases hrounds' : c.rounds with
  | zero =>
    rw [hrounds'] at hrounds
    cases hrounds
  | succ =>
    rw [hrounds'] at hrounds
    obtain ⟨⟨found, more⟩, w, hstep, hrest⟩ := run_bind_eq_ok.mp hrounds
    obtain ⟨xs, u, hblock, hend⟩ := run_bind_eq_ok.mp hstep
    rw [run_bind, run_token, Outcome.andThen_ok, run_ite] at hend
    have hreach : Reaches c w v := reaches hrest
    split at hend
    next heof =>
      cases hend
      cases hrest
      exact ⟨_, _, hblock, prefix_rfl, hbehind, fun _ => rfl, fun _ => heof⟩
    next heof =>
      simp only [run_bind_eq_ok, run_look, run_pure, Outcome.ok.injEq] at hend
      obtain ⟨_, _, ⟨rfl, rfl⟩, _, _, hreport, _, _, hskip, hfound, rfl⟩ := hend
      cases hreport
      cases hfound
      obtain ⟨rest, _, -, hpure⟩ := run_bind_eq_ok.mp hrest
      cases hpure
      have hmet : Reaches c (u.report [u.unexpectedToken]) last := (reaches hskip).trans (hreach.trans hbehind)
      refine ⟨_, u, hblock, prefix_append .., (Reaches.single (.report ..)).trans hmet, fun h => absurd h heof, ?_⟩
      intro herrors
      have hinside := hmet.errors_prefix
      rw [herrors, prefix_nil] at hinside
      simp [Session.report] at hinside

end Program

end CartLua
