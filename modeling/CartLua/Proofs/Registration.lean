import CartLua.Proofs.Undefined
/-!
# The symbols of scopes

While a walk goes on, a symbol is given to a scope in two ways. A declaration gives the innermost scope a symbol, also if
there is one already. What is done for chains and fields gives a symbol only if the name is found in none of the open scopes. So the name of a local keeps the symbol of its last declaration,
as long as the walk goes on.

At the end the early references are settled, and this is where a symbol may be lost: a builtin that was referred to before
a local of the program itself was declared takes the place of the local.
-/

namespace CartLua

open List

namespace CrossReference

/-- Whether settling a reference may replace a local of the program itself: it is a builtin, or a path that belongs to the
global scope. -/
def EarlyReference.replaces (r : EarlyReference) (name : String) : Bool :=
  r.name == name && if r.isPath then r.home == 0 else isBuiltin name

variable {d : Identifier} {i : EntryId}

namespace Builder

open Scoping

variable {b b' b'' : Builder} {l : Ledger} {layers : List Layer} {allowed : ScopeId → String → EntryId → Prop} {home : ScopeId} {path : String} {rs : List EarlyReference}

/-! ### The walk -/

/-- A builder keeps the locals of all scopes, open or closed, as a ledger does. -/
structure Registers (b : Builder) (l : Ledger) : Prop where
  openScopes : b.openScopes = l.stack
  size : b.index.scopes.size = l.nodes.length
  kind : b.kindAt? 0 = some .global
  scopes : ∀ k node, l.nodes[k]? = some node → ∃ s, b.scope? k = some s ∧ s.kind = node.kind ∧ s.span = node.span?
  names : ∀ k name d, nearest? (l.locals k) name = some d → ∃ i, b.symbolAt? k name = some i ∧ b.index.MadeFor i d
  globals : ∀ name d, nearest? (l.locals 0) name = some d → b.nonLocal? 0 name = none
  closed : ∀ k s, b.scope? k = some s → k ∉ b.openScopes → s.declared = [] ∨ s.kind = .global ∨ s.kind = .table

variable {id : ScopeId}

theorem exists_of_frame {s : Scope} (hframe : (b'.scope? id).map Scope.frame = (b.scope? id).map Scope.frame)
    (hs : b.scope? id = some s) : ∃ symbols, b'.scope? id = some { s with symbols } := by
  rw [hs, Option.map_some] at hframe
  obtain ⟨s', hs', heq⟩ := Option.map_eq_some_iff.mp hframe
  refine ⟨s'.symbols, hs'.trans ?_⟩
  obtain ⟨⟩ := s
  obtain ⟨⟩ := s'
  simp_all [Scope.frame]

theorem Registers.acts {written : Option String} {spans : List Span} (h : b.Registers l)
    (hacts : Acts written b spans b') : b'.Registers l := by
  have hextends := hacts.extends
  refine ⟨hextends.openScopes.trans h.openScopes, hextends.size.trans h.size, (hextends.kinds 0).trans h.kind, ?_, ?_, ?_, ?_⟩
  · intro k node hnode
    obtain ⟨s, hs, hscope⟩ := h.scopes k node hnode
    obtain ⟨symbols, hs'⟩ := exists_of_frame (hextends.frame k) hs
    exact ⟨_, hs', hscope⟩
  · intro k name d hd
    obtain ⟨i, hi, hmade⟩ := h.names k name d hd
    exact ⟨i, hacts.symbolAt? hi, hextends.grows.isOf hmade⟩
  · intro name d hd
    obtain ⟨i, hi, -⟩ := h.names 0 name d hd
    have hnone := h.globals name d hd
    rw [nonLocal?_eq_filter, hi] at hnone
    rwa [nonLocal?_eq_filter, hacts.symbolAt? hi, hextends.declared]
  · intro k s hs hk
    obtain ⟨symbols, hs'⟩ := exists_of_frame (hextends.frame k).symm hs
    exact h.closed k { s with symbols } hs' (hextends.openScopes ▸ hk)

theorem Registers.declare (h : b.Registers l) {outer : List ScopeId}
    (hids : b.openScopes = id :: outer) (hvalid : id < b.index.scopes.size) (d : Identifier) (isParameter : Bool) :
    (b.declare d isParameter).Registers (l.declare [d]) := by
  have hnew : (b.declare d isParameter).index.MadeFor b.index.entries.size d := by
    rw [MadeFor, entries_declare hids]
    exact ⟨_, getElem?_define b id d.name d.span, rfl, rfl, rfl⟩
  -- The name of the new local is the nearest one in its scope; what else is in sight was there before.
  have hnearest {k : ScopeId} {name : String} {d' : Identifier}
      (hd' : nearest? ((l.declare [d]).locals k) name = some d') :
      id = k ∧ name = d.name ∧ d = d' ∨ ¬(id = k ∧ name = d.name) ∧ nearest? (l.locals k) name = some d' := by
    rw [Ledger.declare, ← h.openScopes, hids, head?_cons] at hd'
    simp only [Option.some.injEq] at hd'
    by_cases hk : id = k
    · rw [if_pos hk, singleton_append, nearest?_cons] at hd'
      split at hd'
      next hname => exact .inl ⟨hk, hname, Option.some.inj hd'⟩
      next hname => exact .inr ⟨fun hboth => hname hboth.2, hd'⟩
    · rw [if_neg hk] at hd'
      exact .inr ⟨fun hboth => hk hboth.1, hd'⟩
  refine ⟨(openScopes_declare d isParameter b).trans h.openScopes, (size_declare d isParameter b).trans h.size,
    (kindAt?_declare d isParameter b 0).trans h.kind, ?_, ?_, ?_, ?_⟩
  · intro k node hnode
    obtain ⟨s, hs, hscope⟩ := h.scopes k node hnode
    rw [scope?_declare hids, hs]
    split
    · exact ⟨_, rfl, hscope⟩
    · exact ⟨s, rfl, hscope⟩
  · intro k name d' hd'
    rw [symbolAt?_declare hids hvalid]
    rcases hnearest hd' with ⟨hk, hname, rfl⟩ | ⟨hother, hd'⟩
    · exact ⟨_, if_pos ⟨hk, hname⟩, hnew⟩
    · obtain ⟨i, hi, hmade⟩ := h.names k name d' hd'
      exact ⟨i, (if_neg hother).trans hi, (grows_declare hids d isParameter).isOf hmade⟩
  · intro name d' hd'
    rw [nonLocal?_eq_filter, symbolAt?_declare hids hvalid, declaredAt_declare hids hvalid]
    rcases hnearest hd' with ⟨hk, hname, rfl⟩ | ⟨hother, hd'⟩
    · simp [hk, hname]
    · have hnone := h.globals name d' hd'
      rw [nonLocal?_eq_filter] at hnone
      rw [if_neg hother]
      simp_all [Option.filter_eq_none_iff]
  · intro k s hs hk
    rw [openScopes_declare] at hk
    have hne : id ≠ k := by
      rintro rfl
      exact hk (hids ▸ mem_cons_self)
    rw [scope?_declare hids, if_neg hne] at hs
    exact h.closed k s hs hk

variable {name : String} {r : EarlyReference}

theorem Registers.names_sameNames (h : b.Registers l) (hsame : SameNames b b') {k : ScopeId}
    (hd : nearest? (l.locals k) name = some d) : ∃ i, b'.symbolAt? k name = some i ∧ b'.index.MadeFor i d := by
  obtain ⟨i, hi, hmade⟩ := h.names k name d hd
  exact ⟨i, (hsame.symbols k name).trans hi, hsame.grows.isOf hmade⟩

theorem Registers.globals_sameNames (h : b.Registers l) (hsame : SameNames b b')
    (hd : nearest? (l.locals 0) name = some d) : b'.nonLocal? 0 name = none := by
  rw [nonLocal?_eq_filter, hsame.symbols, hsame.declared h.kind, ← nonLocal?_eq_filter]
  exact h.globals name d hd

theorem Registers.scopes_sameNames (h : b.Registers l) (hsame : SameNames b b') {k : ScopeId} {node : ScopeNode}
    (hnode : l.nodes[k]? = some node) : ∃ s, b'.scope? k = some s ∧ s.kind = node.kind ∧ s.span = node.span? := by
  obtain ⟨s, hs, hscope⟩ := h.scopes k node hnode
  obtain ⟨_, hs', _, _, rfl, -⟩ := hsame.scopes k s hs
  exact ⟨_, hs', hscope⟩

theorem Registers.enter (h : b.Registers l) (node : ScopeNode) (ctx : Context) :
    (b.enter node ctx).Registers (l.step (.enter node ctx)) := by
  have hsame := sameNames_enter b node ctx
  have hlocals {k : ScopeId} {name : String} {d : Identifier}
      (hd : nearest? ((l.step (.enter node ctx)).locals k) name = some d) : nearest? (l.locals k) name = some d := by
    simp only [Ledger.step] at hd
    split at hd
    · cases hd
    · exact hd
  obtain ⟨scope, scopes, henter, hsize, hscopes, hkind, hspan, -⟩ := exists_enter b node ctx
  refine ⟨?_, ?_, hsame.kind h.kind, fun k node' hnode => ?_, fun _ _ _ hd => h.names_sameNames hsame (hlocals hd),
    fun _ _ hd => h.globals_sameNames hsame (hlocals hd), fun k s hs hk => ?_⟩
  · rw [openScopes_enter, h.openScopes, h.size]
    rfl
  · rw [henter, hsize, h.size]
    simp [Ledger.step]
  · rw [Ledger.nodes_step, Event.opened?, Option.toList_some] at hnode
    by_cases hk : k = l.nodes.length
    · rw [hk, List.getElem?_concat_length] at hnode
      obtain rfl := Option.some.inj hnode
      refine ⟨scope, ?_, hkind, hspan⟩
      rw [henter, scope?, hscopes, if_pos (hk.trans h.size.symm)]
    · have hlt : k < l.nodes.length := by
        obtain ⟨hlt, -⟩ := List.getElem?_eq_some_iff.mp hnode
        rw [List.length_append, List.length_singleton] at hlt
        exact Nat.lt_of_le_of_ne (Nat.le_of_lt_succ hlt) hk
      rw [List.getElem?_append_left hlt] at hnode
      exact h.scopes_sameNames hsame hnode
  · rw [openScopes_enter, List.mem_cons, not_or] at hk
    rw [henter, scope?, hscopes, if_neg hk.1] at hs
    obtain ⟨s', hs', rfl⟩ := Option.map_eq_some_iff.mp hs
    have hclosed := h.closed k s' hs' hk.2
    split
    · exact hclosed
    · exact hclosed

theorem Registers.leave (h : b.Registers l) (node : ScopeNode) (ctx : Context) :
    b.leave.Registers (l.step (.leave node ctx)) := by
  have hsame := sameNames_leave b
  obtain ⟨scopes, hleave, hsize, hscopes⟩ := exists_leave b
  refine ⟨?_, ?_, hsame.kind h.kind, fun _ _ hnode => h.scopes_sameNames hsame hnode,
    fun _ _ _ hd => h.names_sameNames hsame hd, fun _ _ hd => h.globals_sameNames hsame hd, fun k s hs hk => ?_⟩
  · rw [openScopes_leave, h.openScopes]
    rfl
  · rw [hleave, hsize, h.size]
    rfl
  · rw [openScopes_leave] at hk
    rw [hleave, scope?, hscopes] at hs
    split at hs
    next =>
      obtain ⟨s', -, rfl⟩ := Option.map_eq_some_iff.mp hs
      rcases s'.close_eq with ⟨hclose, hkind⟩ | ⟨hclose, -⟩
      · rw [hclose]
        exact .inr hkind
      · rw [hclose]
        exact .inl rfl
    next hhead =>
      apply h.closed k s hs
      intro hmem
      cases hids : b.openScopes with
      | nil => simp [hids] at hmem
      | cons => simp_all

theorem Registers.step (h : b.Registers l) (hfollows : b.Follows layers) (hopen : layers ≠ []) (event : Event) :
    (b.step event).Registers (l.step event) := by
  rcases hfollows.step_cases hopen event with ⟨node, ctx, rfl⟩ | ⟨node, ctx, rfl⟩ | ⟨d, hstep, -, hledger, -⟩ |
    ⟨hacts, -, hledger, -⟩
  · exact h.enter node ctx
  · exact h.leave node ctx
  · obtain ⟨id, outer, hids, hvalid⟩ := hfollows.exists_cons hopen
    rw [hstep, hledger]
    exact h.declare hids hvalid d event.isParameter
  · rw [hledger]
    exact h.acts hacts

theorem registers_start (body : Block) :
    (({} : Builder).enter (.chunk body) {}).Registers (({} : Ledger).step (.enter (.chunk body) {})) := by
  have hlocals (k : ScopeId) : (({} : Ledger).step (.enter (.chunk body) {})).locals k = [] := ite_self []
  refine ⟨rfl, rfl, rfl, ?_, ?_, ?_, ?_⟩
  · intro k node hnode
    obtain ⟨rfl, rfl⟩ : k = 0 ∧ ScopeNode.chunk body = node := by
      simpa [Ledger.step, getElem?_singleton] using hnode
    exact ⟨_, rfl, rfl, rfl⟩
  · intro k name d hd
    rw [hlocals] at hd
    cases hd
  · intro name d hd
    cases hd
  · intro k s hs hk
    obtain ⟨hlt, -⟩ := Array.getElem?_eq_some_iff.mp hs
    obtain rfl : k = 0 := Nat.lt_one_iff.mp hlt
    exact absurd mem_cons_self hk

theorem registers_walk (body : Block) : ((Walk.chunk below body).foldl Builder.step {}).Registers
    (Ledger.ofEvents (Walk.chunk below body)) :=
  walk_induction (fun _ _ _ event hfollows hopen _ h => h.step hfollows hopen event) (registers_start body)

/-! ### Settling -/

theorem nonLocal?_settle_of_some (h : b.nonLocal? id name = some i) (r : EarlyReference) :
    (b.settle r).nonLocal? id name = some i := by
  rcases symbolAt?_settle b r id name with hsame | ⟨hnone, -⟩
  · rwa [nonLocal?_eq_filter, hsame, (extends_settle b r).declared, ← nonLocal?_eq_filter]
  · cases hnone.symm.trans h

theorem nonLocal?_settleAll (h : b.nonLocal? id name = some i) (rs : List EarlyReference) :
    (rs.foldl settle b).nonLocal? id name = some i := by
  induction rs generalizing b with
  | nil => exact h
  | cons r rest ih => exact ih (nonLocal?_settle_of_some h r)

theorem symbolAt?_settleAll (h : ∀ r ∈ rs, r.replaces name = false) :
    (rs.foldl settle b).symbolAt? 0 name = b.symbolAt? 0 name := by
  induction rs generalizing b with
  | nil => rfl
  | cons r rest ih =>
    obtain ⟨hr, hrest⟩ := forall_mem_cons.mp h
    rw [foldl_cons, ih hrest]
    rcases symbolAt?_settle b r 0 name with hsame | ⟨-, rfl, ⟨hpath, hhome⟩ | ⟨hpath, hbuiltin, -⟩⟩
    · exact hsame
    · simp [EarlyReference.replaces, hpath, hhome] at hr
    · simp [EarlyReference.replaces, hpath, hbuiltin] at hr

theorem extends_settleAll (rs : List EarlyReference) : Extends (fun _ _ _ => True) b (rs.foldl settle b) := by
  induction rs generalizing b with
  | nil => exact .refl _ b
  | cons r rest ih => exact ((extends_settle b r).mono fun _ _ _ _ => trivial).trans ih

/-! ### Builtins -/

theorem plain_of_isBuiltin (h : isBuiltin name = true) : '.' ∉ name.toList := by
  have hall : ∀ builtin ∈ builtins, '.' ∉ builtin.toList := by decide +kernel
  exact hall name (contains_iff_mem.mp h)

/-- The symbol of a name in the global scope is that of an entry without definitions. -/
def Undeclared (b : Builder) (name : String) : Prop :=
  ∃ i e, b.symbolAt? 0 name = some i ∧ b.index.entries[i]? = some e ∧ e.definitions = #[]

theorem undeclared_settle (hi : b.symbolAt? 0 name = some i) (hnone : b.nonLocal? 0 name = none)
    (hbuiltin : isBuiltin name = true) (hr : r.Proper) (hname : r.name = name) : (b.settle r).Undeclared name := by
  obtain ⟨hpath, hhome⟩ : r.isPath = false ∧ r.home = 0 := by
    rcases hr with ⟨-, hdotted⟩ | hplain
    · exact absurd (hname ▸ hdotted) (plain_of_isBuiltin hbuiltin)
    · exact hplain
  obtain ⟨s, hs, -⟩ := Option.bind_eq_some_iff.mp hi
  rw [scope?] at hs
  refine ⟨b.index.entries.size, { name, usages := #[r.span] }, ?_, ?_, rfl⟩
  · simp [settle, hhome, hname, hnone, hpath, hbuiltin, symbolAt?, addSymbol, modifyScope, scope?, addEntry,
      Array.getElem?_modify, hs]
  · simp [settle, hhome, hname, hnone, hpath, hbuiltin, addSymbol, modifyScope, addEntry, modify_push]

theorem definitions_settle (r : EarlyReference) {e : Entry} (he : b.index.entries[i]? = some e) :
    ∃ e', (b.settle r).index.entries[i]? = some e' ∧ e'.definitions = e.definitions := by
  have hlt : i < b.index.entries.size := (Array.getElem?_eq_some_iff.mp he).1
  have hne : i ≠ b.index.entries.size := hlt.ne
  rcases settle_cases b r with ⟨j, -, hsettle⟩ | ⟨-, -, ⟨-, hsettle⟩ | ⟨-, -, hsettle⟩ | ⟨-, -, hsettle⟩⟩
  · by_cases hij : j = i
    · exact ⟨{ e with usages := e.usages.push r.span }, by simp [hsettle, Array.getElem?_modify, hij, he], rfl⟩
    · exact ⟨e, by simp [hsettle, Array.getElem?_modify, hij, he], rfl⟩
  · exact ⟨e, by rw [hsettle, entries_define, Array.getElem?_push, if_neg hne, he], rfl⟩
  · refine ⟨e, ?_, rfl⟩
    rw [hsettle, addSymbol, modifyScope, entries_addEntry_addUsage, Array.getElem?_push, if_neg hne, he]
  · exact ⟨e, by rw [hsettle]; exact he, rfl⟩

theorem Undeclared.settle (h : b.Undeclared name) (hbuiltin : isBuiltin name = true)
    (hr : r.Proper) : (b.settle r).Undeclared name := by
  obtain ⟨i, e, hi, he, hempty⟩ := h
  rcases symbolAt?_settle b r 0 name with hsame | ⟨hnone, hname, -⟩
  · obtain ⟨e', he', hdefinitions⟩ := definitions_settle r he
    exact ⟨i, e', hsame.trans hi, he', hdefinitions.trans hempty⟩
  · exact undeclared_settle hi hnone hbuiltin hr hname

theorem Undeclared.settleAll (h : b.Undeclared name) (hbuiltin : isBuiltin name = true)
    (hrs : ∀ r ∈ rs, r.Proper) : (rs.foldl Builder.settle b).Undeclared name := by
  induction rs generalizing b with
  | nil => exact h
  | cons r rest ih =>
    obtain ⟨hr, hrest⟩ := forall_mem_cons.mp hrs
    exact ih (h.settle hbuiltin hr) hrest

theorem undeclared_settleAll (hi : b.symbolAt? 0 name = some i) (hnone : b.nonLocal? 0 name = none)
    (hbuiltin : isBuiltin name = true) (hrs : ∀ r ∈ rs, r.Proper) (hname : ∃ r ∈ rs, r.name = name) :
    (rs.foldl settle b).Undeclared name := by
  induction rs generalizing b with
  | nil => exact absurd hname (by simp)
  | cons r rest ih =>
    obtain ⟨hr, hrest⟩ := forall_mem_cons.mp hrs
    by_cases hsame : r.name = name
    · exact (undeclared_settle hi hnone hbuiltin hr hsame).settleAll hbuiltin hrest
    · have hsymbol : (b.settle r).symbolAt? 0 name = b.symbolAt? 0 name := by
        rcases symbolAt?_settle b r 0 name with hsymbol | ⟨-, hname, -⟩
        · exact hsymbol
        · exact absurd hname hsame
      apply ih (hsymbol.trans hi) _ hrest (by simpa [hsame] using hname)
      rwa [nonLocal?_eq_filter, hsymbol, (extends_settle b r).declared, ← nonLocal?_eq_filter]

end Builder

open Builder Scoping

variable {k : ScopeId} {node : ScopeNode}

theorem lookup_visible {x : CrossReference} {s : Scope} (hs : x.scopes[k]? = some s)
    (hi : s.symbols.get? name = some i) : (x.visible k).lookup name = some i := by
  have hown : s.symbols.pairs.filter (!([] : List String).contains ·.1) = s.symbols.pairs := by simp
  rw [visible, visibleFrom, hs]
  dsimp only
  rw [hown]
  split
  · exact hi
  · rw [lookup_append, show s.symbols.pairs.lookup name = some i from hi]
    rfl

theorem isChunk_of_kind (h : node.kind = .global) : node.isChunk = true := by
  cases node <;> first | rfl | cases h

theorem declared_of_kind (h : node.kind = .table) : node.declared = [] := by
  cases node <;> first | rfl | cases h

/-- When a program has been walked through, the symbol of a name that is declared in a scope other than the global one is
not that of an open local any more. -/
theorem nonLocal?_walk {body : Block} (hk : k ≠ 0) (hnode : (openedScopes body)[k]? = some node) (hd : nearest? node.declared name = some d)
    (hi : ((Walk.chunk below body).foldl step {}).symbolAt? k name = some i) :
    ((Walk.chunk below body).foldl step {}).nonLocal? k name = some i := by
  have hregisters := registers_walk body
  obtain ⟨hlocals, hchunk⟩ := ledger_chunk body hnode
  rw [← nodes_chunk] at hnode
  obtain ⟨s, hs, hkind, -⟩ := hregisters.scopes k node hnode
  have hclosed : k ∉ ((Walk.chunk below body).foldl step {}).openScopes := by
    rw [hregisters.openScopes, (encloses_chunk body).stack]
    exact not_mem_nil
  have hempty : s.declared = [] := by
    rcases hregisters.closed k s hs hclosed with hempty | hglobal | htable
    · exact hempty
    · exact absurd (hchunk (isChunk_of_kind (hkind ▸ hglobal))) hk
    · rw [declared_of_kind (hkind ▸ htable)] at hd
      cases hd
  rw [nonLocal?_eq_filter, hi, declaredAt, hs]
  simp [hempty]

/-- Names stay visible in the scope that they are declared in. Every scope of a program is that of a node. A name that is
declared directly in it has a symbol there, which is shown among the visible ones, and the entry is that of the last
declaration. The global scope makes an exception: a reference that was not found on the walk may have replaced the symbol.
It has if it refers to a builtin; then the entry has no definition at all. -/
theorem visible_of_declared (body : Block) {k : ScopeId} (hk : k < (build body).1.scopes.size) :
    ∃ node s, (openedScopes body)[k]? = some node ∧ (build body).1.scopes[k]? = some s ∧ s.kind = node.kind ∧
      s.span = node.span? ∧ ∀ name d, nearest? node.declared name = some d →
        ∃ i e, s.symbols.get? name = some i ∧ ((build body).1.visible k).lookup name = some i ∧
          (build body).1.entries[i]? = some e ∧
          ((k = 0 → ∀ r ∈ waiting body, r.replaces name = false) → e.IsOf d) ∧
          (k = 0 → isBuiltin name = true → (∃ r ∈ waiting body, r.name = name) → e.definitions = #[]) := by
  have hregisters := registers_walk body
  obtain ⟨hproper, -⟩ := proper_walk body
  rw [(build_eq body).1] at hk ⊢
  have hextends : Extends (fun _ _ _ => True) _ ((waiting body).foldl settle ((Walk.chunk below body).foldl step {})) :=
    extends_settleAll (waiting body)
  rw [hextends.size, hregisters.size, nodes_chunk] at hk
  have hnode : (openedScopes body)[k]? = some (openedScopes body)[k] := List.getElem?_eq_getElem hk
  obtain ⟨hlocals, -⟩ := ledger_chunk body hnode
  obtain ⟨s, hs, hkind, hspan⟩ := hregisters.scopes k _ (by rw [nodes_chunk, hnode])
  obtain ⟨symbols, hs'⟩ := exists_of_frame (hextends.frame k) hs
  refine ⟨_, { s with symbols }, hnode, hs', hkind, hspan, fun name d hd => ?_⟩
  obtain ⟨i, hi, hmade⟩ := hregisters.names k name d (hlocals ▸ hd)
  have hsome := hextends.symbolAt?_ne_none (by rw [hi]; exact Option.some_ne_none i)
  obtain ⟨j, hj⟩ := Option.ne_none_iff_exists'.mp hsome
  have hget : symbols.get? name = some j := by
    rwa [symbolAt?, hs'] at hj
  have hlt := hextends.known (recorded_walk body).1 k name j hj
  refine ⟨j, _, hget, lookup_visible hs' hget, Array.getElem?_eq_getElem hlt, ?_, ?_⟩
  · intro hreplaces
    have hsame : ((waiting body).foldl settle ((Walk.chunk below body).foldl step {})).symbolAt? k name = some i := by
      by_cases hzero : k = 0
      · rw [hzero, symbolAt?_settleAll (hreplaces hzero), ← hzero, hi]
      · have hkept := nonLocal?_settleAll (nonLocal?_walk hzero hnode hd hi) (waiting body)
        rw [nonLocal?_eq_filter] at hkept
        exact (Option.filter_eq_some_iff.mp hkept).1
    obtain ⟨e, he, hof⟩ := hextends.grows.isOf hmade
    obtain rfl := Option.some.inj (hj.symm.trans hsame)
    rw [Array.getElem?_eq_getElem hlt] at he
    exact Option.some.inj he ▸ hof
  · intro hzero hbuiltin hname
    subst hzero
    have hnone := hregisters.globals name d (hlocals ▸ hd)
    obtain ⟨i', e, hi', he, hempty⟩ := undeclared_settleAll hi hnone hbuiltin hproper hname
    obtain rfl := Option.some.inj (hj.symm.trans hi')
    rw [Array.getElem?_eq_getElem hlt] at he
    exact Option.some.inj he ▸ hempty

/-- A local of the program, and a function with a parameter of the same name. -/
def parameterized : String := "local x=y\nfunction f(x)local z=x return z end"

theorem visible_of_declared_parameter : ∃ s i e, (build (Program.parse {} parameterized "main.lua").body).1.scopes[1]? = some s ∧
    s.symbols.get? "x" = some i ∧ (build (Program.parse {} parameterized "main.lua").body).1.entries[i]? = some e ∧
    e.IsOf ⟨"x", true, ⟨⟨2, 12, 21, 0⟩, ⟨2, 13, 22, 0⟩⟩⟩ := by
  have hdeclared : (openedScopes (Program.parse {} parameterized "main.lua").body)[1]?.map (nearest? ·.declared "x") =
      some (some ⟨"x", true, ⟨⟨2, 12, 21, 0⟩, ⟨2, 13, 22, 0⟩⟩⟩) := by decide +kernel
  obtain ⟨node, s, hnode, hs, -, -, hnames⟩ :=
    visible_of_declared (Program.parse {} parameterized "main.lua").body (k := 1) (by decide +kernel)
  rw [hnode] at hdeclared
  obtain ⟨i, e, hi, -, he, hof, -⟩ := hnames "x" _ (Option.some.inj hdeclared)
  exact ⟨s, i, e, hs, hi, he, hof (fun h => absurd h (by decide))⟩

/-- The exception is real. In this program the builtin is used before a local of the same name is declared, and in the end
the symbol in the global scope is that of the builtin. -/
theorem visible_of_declared_replaced :
    let body := (Program.parse {} "print(1)\nlocal print=2" "main.lua").body
    (Program.parse {} "print(1)\nlocal print=2" "main.lua").errors = [] ∧
      nearest? (ScopeNode.chunk body).declared "print" = some ⟨"print", true, ⟨⟨2, 7, 15, 0⟩, ⟨2, 12, 20, 0⟩⟩⟩ ∧
      ((build body).1.scopes[0]?.bind (·.symbols.get? "print")) = some 1 ∧ (build body).1.visible 0 = [("print", 1)] ∧
      (build body).1.entries[1]? = some { name := "print", usages := #[⟨⟨1, 1, 0, 0⟩, ⟨1, 6, 5, 0⟩⟩] } := by
  decide +kernel

end CrossReference

end CartLua
