import CartLua.Proofs.Freshness
import CartLua.Proofs.Scoping
/-!
# Names in sight of a parser

While a program is read, the session keeps the names of the locals that are visible. They are the names of the
declarations in sight, as the tree has them, as long as no statement is given up. `Mentions` says of a part of a run which
places of the tree it has read: a name in use is marked as a local there if a declaration of it is in sight, and no two
of the places end at the same position.
-/

namespace CartLua

open List

/-- A name has no points in it, and where it is used it is marked as a local if a declaration of it is in sight. Methods
have a local `self` that no name of the tree declares. -/
def Mention.Fits : Mention → Prop
  | .declaration id => '.' ∉ id.name.toList
  | .reference id nearest => '.' ∉ id.name.toList ∧ (id.name ≠ "self" → id.isLocal = nearest.isSome)
  | .part _ | .fieldKey _ => True

/-- The key that a string would be in a table. -/
def Expr.keyMentions (e : Expr) : List Mention := if e.stringKey?.isSome then [.fieldKey e.span] else []

namespace Session

variable {c : Settings} {s t u v : Session} {declared declared' sight : List Identifier} {ms ms' : List Identifier → List Mention}

/-- The names visible in the innermost scope are those of the declarations in sight. -/
structure Sees (s : Session) (sight : List Identifier) : Prop where
  inScope : s.scopes ≠ []
  visible : ∀ name, name ≠ "self" → s.visible.contains name = (nearest? sight name).isSome

theorem Sees.of_scopes (h : s.Sees sight) (hscopes : t.scopes = s.scopes) : t.Sees sight := by
  refine ⟨hscopes ▸ h.inScope, fun name hself => ?_⟩
  have hvisible : t.visible = s.visible := by rw [Session.visible, Session.visible, hscopes]
  rw [hvisible, h.visible name hself]

/-- What a part of a run has read when `sight` was in sight before it: the places `ms`, with declarations for what
follows. -/
structure Said (s t : Session) (sight declared : List Identifier) (ms : List Mention) : Prop where
  outer : t.scopes.tail = s.scopes.tail
  sees : t.Sees (declared ++ sight)
  fits : ∀ m ∈ ms, m.Fits
  fresh : Fresh s t (ms.map (·.span.stop))

/-- The run from `s` to `t` reads the places `ms` and declares `declared`, latest first, if there are no syntax faults. The
places depend on what is in sight. -/
structure Mentions (c : Settings) (s t : Session) (declared : List Identifier) (ms : List Identifier → List Mention) : Prop where
  reaches : Reaches c s t
  said : s.Regular c → t.Clean → ∀ sight, s.Sees sight → Said s t sight declared (ms sight)

namespace Mentions

theorem nothing (hreach : Reaches c s t) (hscopes : t.scopes = s.scopes) : Mentions c s t [] fun _ => [] :=
  ⟨hreach, fun _ _ _ hsees => ⟨congrArg tail hscopes, hsees.of_scopes hscopes, nofun, .nil s t⟩⟩

theorem refl (s : Session) : Mentions c s s [] fun _ => [] := nothing .refl rfl

theorem trans (hst : Mentions c s t declared ms) (htu : Mentions c t u declared' ms') :
    Mentions c s u (declared' ++ declared) fun sight => ms sight ++ ms' (declared ++ sight) := by
  refine ⟨hst.reaches.trans htu.reaches, fun hs hclean sight hsees => ?_⟩
  have first := hst.said hs (hclean.of_reaches htu.reaches) sight hsees
  have second := htu.said (hst.reaches.regular hs) hclean _ first.sees
  refine ⟨second.outer.trans first.outer, ?_, ?_, ?_⟩
  · rw [append_assoc]
    exact second.sees
  · intro m hm
    exact (mem_append.mp hm).elim (first.fits m) (second.fits m)
  · rw [map_append]
    exact .append hs hst.reaches htu.reaches first.fresh second.fresh

theorem as (h : Mentions c s t declared ms) (hdeclared : declared = declared')
    (hms : ∀ sight m, (ms' sight).count m ≤ (ms sight).count m) : Mentions c s t declared' ms' := by
  subst hdeclared
  refine ⟨h.reaches, fun hs hclean sight hsees => ?_⟩
  obtain ⟨outer, sees, fits, fresh⟩ := h.said hs hclean sight hsees
  have hsubperm : (ms' sight).Subperm (ms sight) := subperm_ext_iff.mpr fun m _ => hms sight m
  refine ⟨outer, sees, fun m hm => fits m (hsubperm.subset hm), ?_⟩
  obtain ⟨l, hperm, hsub⟩ := hsubperm
  exact (fresh.sublist (hsub.map _)).perm (hperm.map _)

theorem andThen (hst : Mentions c s t [] ms) (htu : Mentions c t u declared ms') :
    Mentions c s u declared fun sight => ms sight ++ ms' sight :=
  (hst.trans htu).as (append_nil _) fun _ _ => le_rfl

theorem after (hst : Mentions c s t declared ms) (htu : Mentions c t u [] fun _ => []) : Mentions c s u declared ms :=
  (hst.trans htu).as (nil_append _) fun sight m => by rw [append_nil]

theorem before (hst : Mentions c s t [] fun _ => []) (htu : Mentions c t u declared ms) : Mentions c s u declared ms :=
  hst.andThen htu

theorem inScope {a b : Unit} (hopen : Parse.openScope.run c s = .ok a u) (h : Mentions c u v declared ms)
    (hclose : Parse.closeScope.run c v = .ok b t) : Mentions c s t [] ms := by
  have hfirst := Parse.reaches hopen
  have hlast := Parse.reaches hclose
  refine ⟨hfirst.trans (h.reaches.trans hlast), fun hs hclean sight hsees => ?_⟩
  have hu := hfirst.regular hs
  cases hopen
  cases hclose
  have hopened : s.openScope.Sees sight := ⟨cons_ne_nil _ _, hsees.visible⟩
  obtain ⟨outer, -, fits, fresh⟩ := h.said hu (hclean.of_reaches hlast) sight hopened
  have hscopes : v.closeScope.scopes = s.scopes := outer
  exact ⟨congrArg tail hscopes, hsees.of_scopes hscopes, fits, fresh.mono hs hfirst (h.reaches.regular hu) hlast⟩

end Mentions

end Session

namespace Parse

open Session

variable {α β : Type} {c : Settings} {s t u : Session} {a : α} {m : List Identifier → Mention}

/-! ### Parsers that leave the scopes alone -/

/-- The parser leaves the scopes of names alone. -/
abbrev ScopeFree (c : Settings) (p : Parse α) : Prop := Leaves c Session.scopes p

namespace ScopeFree

theorem of_fault {p : Parse α} (d : Session → Diagnostic) (hrun : ∀ s, p.run c s = .fault (d s) s) : ScopeFree c p where
  unchanged h := by
    rw [hrun] at h
    cases h

instance (f : Session → α) : ScopeFree c (look f) := .of_ok f id (fun _ => rfl) fun _ => rfl

instance : ScopeFree c token := inferInstanceAs (ScopeFree c (look _))

instance : ScopeFree c newlines := inferInstanceAs (ScopeFree c (look _))

instance (word : String) : ScopeFree c (missingWord word : Parse α) := of_fault _ fun _ => rfl

instance (part : String) : ScopeFree c (missing part : Parse α) := of_fault _ fun _ => rfl

instance : ScopeFree c advance where
  unchanged h := by
    rw [run_advance] at h
    split at h <;> cases h
    rfl

theorem scopes_openInclude (c : Settings) (s : Session) (target : String) (span : Span) :
    (openInclude c s target span).scopes = s.scopes := by
  unfold openInclude
  dsimp only
  split
  · rfl
  · split <;> rfl

instance : ScopeFree c passInclude where
  unchanged h := by
    unfold passInclude at h
    dsimp only at h
    split at h <;> cases h
    · exact scopes_openInclude _ _ _ _
    · rfl

instance (shown : Bool) : ScopeFree c (setNewlines shown) := .of_ok _ _ (fun _ => rfl) fun _ => rfl

instance (ds : List Diagnostic) : ScopeFree c (report ds) := .of_ok _ _ (fun _ => rfl) fun _ => rfl

instance : ScopeFree c mark := .of_ok _ _ (fun _ => rfl) fun _ => rfl

instance : ScopeFree c markAgain := .of_ok _ _ (fun _ => rfl) fun _ => rfl

instance : ScopeFree c finish := .of_ok _ _ (fun _ => rfl) fun _ => rfl

instance (isLoop : Bool) : ScopeFree c (openBlock isLoop) := .of_ok _ _ (fun _ => rfl) fun _ => rfl

instance : ScopeFree c closeBlock := .of_ok _ _ (fun _ => rfl) fun _ => rfl

instance (name : String) : ScopeFree c (addLocal name) := .of_ok _ _ (fun _ => rfl) fun _ => rfl

instance (target : String) (span : Span) : ScopeFree c (addGoto target span) := .of_ok _ _ (fun _ => rfl) fun _ => rfl

instance (name : String) (span : Span) : ScopeFree c (addLabel name span) := .of_ok _ _ (fun _ => rfl) fun _ => rfl

instance : ScopeFree c raiseDeferred := .of_ok _ _ (fun _ => rfl) fun _ => rfl

instance : ScopeFree c allowVararg := .of_ok _ _ (fun _ => rfl) fun _ => rfl

instance : ScopeFree c enterFunction := .of_ok _ _ (fun _ => rfl) fun _ => rfl

instance : ScopeFree c leaveFunction := by
  refine .of_ok _ _ (fun _ => rfl) fun s => ?_
  dsimp only [Session.leaveFunction]
  split <;> rfl

instance (id : Identifier) : ScopeFree c (reference id) := by
  refine .of_ok _ _ (fun _ => rfl) fun s => ?_
  dsimp only [Session.addGlobal]
  split <;> rfl

instance (terminal : Terminal) : ScopeFree c (consume terminal) := by
  unfold consume
  infer_instance

instance (terminal : Terminal) : ScopeFree c (expect terminal) := by
  unfold expect
  infer_instance

instance : ScopeFree c identifier := by
  unfold identifier
  infer_instance

instance (bracket : Symbol) : ScopeFree c (openBracket bracket) := by
  unfold openBracket
  infer_instance

instance (bracket : Terminal) (outer : Bool) : ScopeFree c (closeBracket bracket outer) := by
  unfold closeBracket
  infer_instance

end ScopeFree

theorem mentions_nothing {p : Parse α} [hp : ScopeFree c p] (h : p.run c s = .ok a t) : Mentions c s t [] fun _ => [] :=
  .nothing (reaches h) (hp.unchanged h)

/-! ### Tokens -/

theorem mentions_advance {a : Unit} (hsolid : s.window.token.isSolid = true) (h : advance.run c s = .ok a t)
    (hstop : ∀ sight, (m sight).span.stop = s.window.token.span.stop)
    (hfits : s.window.token.Sound → ∀ sight, s.Sees sight → (m sight).Fits) :
    Mentions c s t [] fun sight => [m sight] := by
  have hscopes : t.scopes = s.scopes := Leaves.unchanged h
  refine ⟨reaches h, fun hs _ sight hsees => ⟨congrArg tail hscopes, hsees.of_scopes hscopes, ?_, ?_⟩⟩
  · rw [forall_mem_singleton]
    exact hfits hs.window.token sight hsees
  · obtain ⟨hahead, hpassed⟩ := ahead_advance hs hsolid h
    rw [map_singleton, hstop]
    exact ⟨forall_mem_singleton.mpr hahead, forall_mem_singleton.mpr hpassed, nodup_singleton _⟩

variable {id : Identifier} {id' : Identifier}

theorem mentions_identifier (h : identifier.run c s = .ok id t)
    (hstop : ∀ sight, (m sight).span.stop = id.span.stop)
    (hfits : '.' ∉ id.name.toList → ∀ sight, s.Sees sight → (m sight).Fits) :
    Mentions c s t [] fun sight => [m sight] := by
  obtain ⟨hid, rfl, hadvance⟩ := identifier_cases h
  exact mentions_advance (Token.isSolid_of_isIdentifier hid) hadvance hstop fun hsound => hfits (hsound.no_point hid)

theorem mentions_declaration (h : identifier.run c s = .ok id t) :
    Mentions c s t [] fun _ => [.declaration { id with isLocal := true }] :=
  mentions_identifier h (fun _ => rfl) fun hname _ _ => hname

theorem mentions_reference (hid : identifier.run c s = .ok id u)
    (h : (reference id).run c u = .ok id' t) : Mentions c s t [] fun sight => Mention.expression sight false (.name id') := by
  have hnothing : Mentions c u t [] fun _ => [] := mentions_nothing h
  have hscopes : u.scopes = s.scopes := Leaves.unchanged hid
  cases h
  have hname : Mentions c s u [] fun sight =>
      [.reference { id with isLocal := u.visible.contains id.name } (nearest? sight id.name)] := by
    refine mentions_identifier hid (fun _ => rfl) fun hname sight hsees => ⟨hname, fun hself => ?_⟩
    exact (hsees.of_scopes hscopes).visible id.name hself
  refine (hname.after hnothing).as rfl fun sight m => ?_
  rw [Mention.expression]

/-! ### Declaring names -/

theorem scopes_addName (s : Session) (name : String) (h : s.scopes ≠ []) :
    (s.addName name).scopes = (s.addName name).visible :: s.scopes.tail ∧
      ∀ other, (s.addName name).visible.contains other = (name == other || s.visible.contains other) := by
  obtain ⟨scope, rest, hscopes⟩ := exists_cons_of_ne_nil h
  refine ⟨by simp [Session.addName, visible, hscopes], fun other => ?_⟩
  simp only [Session.addName, visible, hscopes, head?_cons, Option.getD_some]
  split
  next hmem =>
    by_cases heq : name = other
    · subst heq
      simpa using hmem
    · simp [heq]
  next => rw [contains_cons, Bool.beq_comm]

theorem mentions_declareSelf {isMethod : Bool} {a : Unit} (h : (Grammar.declareSelf isMethod).run c s = .ok a t) :
    Mentions c s t [] fun _ => [] := by
  have hreach := reaches h
  cases isMethod with
  | false =>
    cases h
    exact .refl _
  | true =>
    cases h
    refine ⟨hreach, fun _ _ sight hsees => ?_⟩
    obtain ⟨hscopes, hvisible⟩ := scopes_addName s "self" hsees.inScope
    refine ⟨by rw [hscopes, tail_cons], ⟨by simp [hscopes], fun name hself => ?_⟩, nofun, .nil _ _⟩
    rw [hvisible, nil_append, ← hsees.visible name hself, beq_false_of_ne (Ne.symm hself), Bool.false_or]

theorem mentions_declare (h : (declare id).run c s = .ok id' t) :
    id' = { id with isLocal := true } ∧ Mentions c s t [id'] fun _ => [] := by
  have hreach := reaches h
  cases h
  refine ⟨rfl, hreach, fun _ _ sight hsees => ?_⟩
  obtain ⟨hscopes, hvisible⟩ := scopes_addName s id.name hsees.inScope
  refine ⟨by rw [hscopes, tail_cons], ⟨by simp [hscopes], fun name hself => ?_⟩, nofun, .nil _ _⟩
  rw [hvisible, hsees.visible name hself]
  simp only [nearest?, singleton_append, find?_cons]
  cases id.name == name <;> rfl

theorem mentions_declareInFlow (h : (declareInFlow id).run c s = .ok id' t) :
    id' = { id with isLocal := true } ∧ Mentions c s t [id'] fun _ => [] := by
  obtain ⟨_, u, hlocal, hdeclare⟩ := run_bind_eq_ok.mp h
  obtain ⟨hid, hmentions⟩ := mentions_declare hdeclare
  exact ⟨hid, (mentions_nothing hlocal).before hmentions⟩

theorem mentions_mapM {f : Identifier → Parse Identifier}
    (hf : ∀ {s id id' t}, (f id).run c s = .ok id' t →
      id' = { id with isLocal := true } ∧ Mentions c s t [id'] fun _ => [])
    {ids names : List Identifier} (h : (ids.mapM f).run c s = .ok names t) :
    names = ids.map (fun id => { id with isLocal := true }) ∧ Mentions c s t names.reverse fun _ => [] := by
  induction ids generalizing s names with
  | nil =>
    cases h
    exact ⟨rfl, .refl _⟩
  | cons id rest ih =>
    simp only [mapM_cons, run_bind_eq_ok, run_pure, Outcome.ok.injEq] at h
    obtain ⟨id', _, hid, others, _, hothers, rfl, rfl⟩ := h
    obtain ⟨rfl, hfirst⟩ := hf hid
    obtain ⟨rfl, hrest⟩ := ih hothers
    exact ⟨rfl, (hfirst.trans hrest).as reverse_cons.symm fun _ _ => le_rfl⟩

end Parse

namespace Session.Mentions

variable {α : Type} {c : Settings} {s t u : Session} {p : Parse α} [Parse.ScopeFree c p] {a : α} {declared : List Identifier}
  {ms : List Identifier → List Mention}

theorem pass (h : Mentions c s t declared ms) (hrun : p.run c t = .ok a u) : Mentions c s u declared ms :=
  h.after (Parse.mentions_nothing hrun)

theorem behind (hrun : p.run c s = .ok a t) (h : Mentions c t u declared ms) : Mentions c s u declared ms :=
  (Parse.mentions_nothing hrun).before h

end Session.Mentions

end CartLua
