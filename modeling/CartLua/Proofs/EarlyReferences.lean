import CartLua.Proofs.Resolution
/-!
# Early references

What is not found on a walk waits to its end. A plain name waits for a global, whatever scope it stands in, and nothing
is reported before the end. Then a name that is neither a global nor a builtin is reported as undefined; since settling
one reference makes no global of another plain name but a builtin, the order of the references does not matter.
-/

namespace CartLua

namespace CrossReference

namespace Builder

variable {b b' : Builder} {name : String} {r : EarlyReference} {written : Option String} {spans : List Span}

/-! ### The walk -/

theorem Acts.proper (h : Acts written b spans b') (hb : ∀ r ∈ b.early.toList, r.Proper) :
    ∀ r ∈ b'.early.toList, r.Proper := by
  induction h with
  | nil => exact hb
  | cons hact _ ih =>
    apply ih
    cases hact with
    | usage | write | define => exact hb
    | wait _ hproper =>
      rw [Array.toList_push]
      exact List.forall_mem_append.mpr ⟨hb, List.forall_mem_singleton.mpr hproper⟩

theorem Acts.warnings (h : Acts written b spans b') : b'.warnings = b.warnings := by
  induction h with
  | nil => rfl
  | cons hact _ ih =>
    rw [ih]
    cases hact <;> rfl

theorem proper_walk (body : Block) : (∀ r ∈ waiting body, r.Proper) ∧
    ((Walk.chunk below body).foldl step {}).warnings.toList.filterMap undefinedSpan? = [] := by
  refine walk_induction (P := fun b _ => (∀ r ∈ b.early.toList, r.Proper) ∧
    b.warnings.toList.filterMap undefinedSpan? = []) ?_ ⟨nofun, rfl⟩
  rintro b l layers event hfollows hopen - ⟨hproper, hquiet⟩
  rcases hfollows.step_cases hopen event with ⟨node, ctx, rfl⟩ | ⟨node, ctx, rfl⟩ | ⟨d, hstep, -⟩ | ⟨hacts, -⟩
  · obtain ⟨_, _, henter, -⟩ := exists_enter b node ctx
    rw [step, henter]
    exact ⟨hproper, hquiet⟩
  · rw [step, (sameNames_leave b).early, undefined_leave]
    exact ⟨hproper, hquiet⟩
  · rw [hstep, early_declare, warnings_declare]
    exact ⟨hproper, hquiet⟩
  · rw [hacts.warnings]
    exact ⟨hacts.proper hproper, hquiet⟩

/-! ### Settling -/

theorem mem_warnings_settle (b : Builder) (hr : r.Proper) (w : Warning) :
    w ∈ (b.settle r).warnings.toList ↔ w ∈ b.warnings.toList ∨
      r.isPath = false ∧ isBuiltin r.name = false ∧ b.nonLocal? 0 r.name = none ∧
        w = ⟨.undefinedVariable r.name, r.span⟩ := by
  unfold settle
  rcases hr with ⟨hpath, -⟩ | ⟨hpath, hhome⟩
  · split
    · simp [hpath]
    · simp [hpath, define, addSymbol, modifyScope, addEntry]
  · rw [hhome]
    cases hglobal : b.nonLocal? 0 r.name with
    | some => simp
    | none =>
      cases hbuiltin : isBuiltin r.name with
      | true => simp [hpath, addSymbol, modifyScope, addEntry]
      | false => simp [hpath]

/-- A symbol may be replaced only if it is that of a local, by a path that belongs to the scope or by a builtin. -/
theorem symbolAt?_settle (b : Builder) (r : EarlyReference) (id : ScopeId) (name : String) :
    (b.settle r).symbolAt? id name = b.symbolAt? id name ∨
      b.nonLocal? id name = none ∧ r.name = name ∧
        (r.isPath = true ∧ r.home = id ∨ r.isPath = false ∧ isBuiltin name = true ∧ id = 0) := by
  rcases settle_cases b r with ⟨i, -, hsettle⟩ | ⟨hhome, hglobal, ⟨hpath, hsettle⟩ | ⟨hpath, hbuiltin, hsettle⟩ |
    ⟨-, -, hsettle⟩⟩
  · exact .inl (by simp [hsettle, symbolAt?, scope?])
  · by_cases hsame : r.home = id ∧ r.name = name
    · obtain ⟨rfl, rfl⟩ := hsame
      exact .inr ⟨hhome, rfl, .inl ⟨hpath, rfl⟩⟩
    · rw [hsettle]
      exact .inl (symbolAt?_addSymbol_of_ne _ _ fun hboth => hsame ⟨hboth.1, hboth.2.symm⟩)
  · by_cases hsame : 0 = id ∧ r.name = name
    · obtain ⟨rfl, rfl⟩ := hsame
      exact .inr ⟨hglobal, rfl, .inr ⟨hpath, hbuiltin, rfl⟩⟩
    · rw [hsettle]
      exact .inl (symbolAt?_addSymbol_of_ne _ _ fun hboth => hsame ⟨hboth.1, hboth.2.symm⟩)
  · exact .inl (by rw [hsettle]; rfl)

theorem nonLocal?_settle (hname : '.' ∉ name.toList) (hbuiltin : isBuiltin name = false) (hr : r.Proper) :
    (b.settle r).nonLocal? 0 name = b.nonLocal? 0 name := by
  rw [nonLocal?_eq_filter, nonLocal?_eq_filter, (extends_settle b r).declared]
  rcases symbolAt?_settle b r 0 name with hsame | ⟨-, rfl, ⟨hpath, -⟩ | ⟨-, hknown, -⟩⟩
  · rw [hsame]
  · rcases hr with ⟨-, hdotted⟩ | ⟨hplain, -⟩
    · exact absurd hdotted hname
    · cases hpath.symm.trans hplain
  · cases hknown.symm.trans hbuiltin

theorem mem_warnings_settleAll (hname : '.' ∉ name.toList) {rs : List EarlyReference} (hrs : ∀ r ∈ rs, r.Proper)
    (span : Span) :
    ⟨.undefinedVariable name, span⟩ ∈ (rs.foldl settle b).warnings.toList ↔
      ⟨.undefinedVariable name, span⟩ ∈ b.warnings.toList ∨
        isBuiltin name = false ∧ b.nonLocal? 0 name = none ∧ ∃ r ∈ rs, r.name = name ∧ r.span = span := by
  induction rs generalizing b with
  | nil => simp
  | cons r rest ih =>
    obtain ⟨hr, hrest⟩ := List.forall_mem_cons.mp hrs
    rw [List.foldl_cons, ih hrest, mem_warnings_settle b hr]
    have hplain (heq : r.name = name) : r.isPath = false := by
      rcases hr with ⟨-, hdotted⟩ | ⟨hpath, -⟩
      · exact absurd (heq ▸ hdotted) hname
      · exact hpath
    cases hbuiltin : isBuiltin name with
    | true =>
      simp only [Bool.true_eq_false, false_and, or_false]
      refine ⟨?_, .inl⟩
      rintro (hold | ⟨-, hknown, -, heq⟩)
      · exact hold
      · cases heq
        rw [hbuiltin] at hknown
        cases hknown
    | false =>
      rw [nonLocal?_settle hname hbuiltin hr]
      constructor
      · rintro ((hold | ⟨-, -, hnone, heq⟩) | ⟨-, hnone, r', hr', hplace⟩)
        · exact .inl hold
        · cases heq
          exact .inr ⟨rfl, hnone, r, List.mem_cons_self, rfl, rfl⟩
        · exact .inr ⟨rfl, hnone, r', List.mem_cons_of_mem _ hr', hplace⟩
      · rintro (hold | ⟨-, hnone, r', hr', hplace⟩)
        · exact .inl (.inl hold)
        · rcases List.mem_cons.mp hr' with rfl | hr'
          · obtain ⟨rfl, rfl⟩ := hplace
            exact .inl (.inr ⟨hplain rfl, hbuiltin, hnone, rfl⟩)
          · exact .inr ⟨rfl, hnone, r', hr', hplace⟩

end Builder

end CrossReference

end CartLua
