import CartLua.Proofs.Recording
/-!
# What names are resolved to

Cross references resolve names lexically. The entries of the locals are kept in a list next to the builder, each with the
declaration that it was made for. While a walk goes on, the symbols of an open scope are those of the locals declared in
it; plain names of other entries have symbols in the global scope alone. So the innermost scope with a symbol for a name is
that of the nearest declaration in sight.
-/

namespace CartLua

open List Option

/-- The entry was made for a declaration: its first definition and its first usage are the declared name. -/
structure Entry.IsOf (e : Entry) (d : Identifier) : Prop where
  name : e.name = d.name
  definition : e.definitions.toList.head? = some d.span
  usage : e.usages.toList.head? = some d.span

theorem head?_of_prefix {α : Type} {xs ys : List α} {x : α} (h : xs <+: ys) (hx : xs.head? = some x) :
    ys.head? = some x := by
  obtain ⟨rest, rfl⟩ := h
  rw [head?_append, hx]
  rfl

variable {d : Identifier}

theorem Entry.IsOf.grows {e e' : Entry} (h : e.IsOf d) (hgrows : e.Grows e') : e'.IsOf d :=
  ⟨hgrows.name.trans h.name, head?_of_prefix hgrows.definitions h.definition, head?_of_prefix hgrows.usages h.usage⟩

def Mention.Plain : Mention → Prop
  | .declaration id | .reference id _ => '.' ∉ id.name.toList
  | .part _ | .fieldKey _ => True

namespace CrossReference

namespace Builder

open Scoping

theorem Grows.isOf {b b' : Builder} {i : EntryId} (h : Grows b b')
    (hmade : ∃ e, b.index.entries[i]? = some e ∧ e.IsOf d) : ∃ e, b'.index.entries[i]? = some e ∧ e.IsOf d := by
  obtain ⟨e, he, hof⟩ := hmade
  obtain ⟨e', he', hgrows⟩ := h i e he
  exact ⟨e', he', hof.grows hgrows⟩

/-- The entries that were made for declarations. -/
abbrev Locals := List (EntryId × Identifier)

/-- The symbols of a scope are those of its locals. A plain name has another symbol only in the global scope. -/
def Holds (b : Builder) (locals : Locals) (id : ScopeId) (ids : List Identifier) : Prop :=
  ∀ name : String, '.' ∉ name.toList →
    (∀ d, nearest? ids name = some d → ∃ i, b.symbolAt? id name = some i ∧ (i, d) ∈ locals) ∧
      (nearest? ids name = none → ∀ i, b.symbolAt? id name = some i → id = 0 ∧ ∀ d, (i, d) ∉ locals)

/-- The open scopes of a builder hold the locals of a walk. -/
structure Tracks (b : Builder) (layers : List Layer) (locals : Locals) : Prop where
  follows : b.Follows layers
  sorted : b.openScopes.Pairwise (· > ·)
  entries : ∀ p ∈ locals, ∃ e, b.index.entries[p.1]? = some e ∧ e.IsOf p.2
  scopes : List.Forall₂ (fun id layer => b.Holds locals id layer.locals) b.openScopes layers
  kind : b.kindAt? 0 = some .global
  globals : ∀ name i d, b.symbolAt? 0 name = some i → (i, d) ∈ locals → ∃ x ∈ b.declaredAt 0, x.entry = i
  declared : ∀ x ∈ b.declaredAt 0, ∃ d, (x.entry, d) ∈ locals

variable {b b' b'' : Builder} {layers layers' : List Layer} {locals locals' locals'' : Locals} {allowed : ScopeId → String → EntryId → Prop} {i : EntryId} {ids : List Identifier} {outer : List ScopeId} {scope : Scope}
  {name : String}

theorem Tracks.lt (h : b.Tracks layers locals) (hd : (i, d) ∈ locals) :
    i < b.index.entries.size := by
  obtain ⟨e, he, -⟩ := h.entries _ hd
  exact (Array.getElem?_eq_some_iff.mp he).1

/-! ### Finding a name -/

theorem nearest?_append (ids others : List Identifier) (name : String) :
    nearest? (ids ++ others) name = (nearest? ids name).or (nearest? others name) := find?_append

/-- Scopes are searched from the inside. The search ends at the scope of the nearest declaration, since only the
outermost scope has plain names that are no locals. -/
theorem findSome?_of_holds {ids : List ScopeId} (hname : '.' ∉ name.toList)
    (hsorted : ids.Pairwise (· > ·)) (h : List.Forall₂ (fun id layer => b.Holds locals id layer.locals) ids layers) :
    (∀ d, nearest? (sight layers) name = some d → ∃ scope i layer,
        (ids.findSome? fun id => (b.symbolAt? id name).map (id, ·)) = some (scope, i) ∧ (i, d) ∈ locals ∧
          (scope, layer) ∈ ids.zip layers ∧ d ∈ layer.locals) ∧
      (nearest? (sight layers) name = none →
        ∀ scope i, (ids.findSome? fun id => (b.symbolAt? id name).map (id, ·)) = some (scope, i) →
          scope = 0 ∧ b.symbolAt? 0 name = some i ∧ ∀ d, (i, d) ∉ locals) := by
  induction h with
  | nil => exact ⟨nofun, nofun⟩
  | @cons id layer ids layers hhead hrest ih =>
    obtain ⟨hlast, hsorted⟩ := pairwise_cons.mp hsorted
    obtain ⟨hsome, hnone⟩ := hhead name hname
    obtain ⟨ihsome, ihnone⟩ := ih hsorted
    have hsight : nearest? (sight (layer :: layers)) name =
        (nearest? layer.locals name).or (nearest? (sight layers) name) := nearest?_append _ _ _
    rw [hsight]
    cases hnear : nearest? layer.locals name with
    | some d =>
      obtain ⟨i, hi, hd⟩ := hsome d hnear
      refine ⟨?_, nofun⟩
      rintro d' hd'
      obtain rfl := some.inj hd'
      exact ⟨id, i, layer, by simp [hi], hd, mem_cons_self, mem_of_find?_eq_some hnear⟩
    | none =>
      cases hsymbol : b.symbolAt? id name with
      | none =>
        rw [findSome?_cons, hsymbol]
        refine ⟨fun d hd => ?_, ihnone⟩
        obtain ⟨scope, i, layer', hfound, hmem, hzip, hlocal⟩ := ihsome d hd
        exact ⟨scope, i, layer', hfound, hmem, mem_cons_of_mem _ hzip, hlocal⟩
      | some i =>
        obtain ⟨rfl, hi⟩ := hnone hnear i hsymbol
        -- The scope is the outermost one: there are no others behind it.
        have hids : ids = [] := by
          apply eq_nil_iff_forall_not_mem.mpr
          intro other hother
          exact Nat.not_lt_zero other (hlast other hother)
        subst hids
        obtain rfl := forall₂_nil_left_iff.mp hrest
        refine ⟨nofun, ?_⟩
        rintro - scope j hj
        simp only [findSome?_cons, hsymbol, map_some, some.injEq, Prod.mk.injEq] at hj
        obtain ⟨rfl, rfl⟩ := hj
        exact ⟨rfl, hsymbol, hi⟩

theorem Tracks.find?_of_nearest (h : b.Tracks layers locals) (hname : '.' ∉ name.toList) :
    (∀ d, nearest? (sight layers) name = some d → ∃ scope i, b.find? name = some (scope, i) ∧ (i, d) ∈ locals) ∧
      (nearest? (sight layers) name = none → ∀ scope i, b.find? name = some (scope, i) →
        scope = 0 ∧ b.symbolAt? 0 name = some i ∧ ∀ d, (i, d) ∉ locals) := by
  obtain ⟨hsome, hnone⟩ := findSome?_of_holds hname h.sorted h.scopes
  rw [find?_eq]
  refine ⟨fun d hd => ?_, hnone⟩
  obtain ⟨scope, i, -, hfound, hmem, -⟩ := hsome d hd
  exact ⟨scope, i, hfound, hmem⟩

/-! ### Where mentions are placed -/

/-- The second builder is a later one: entries and early references stay, and new locals have new entries. -/
structure Later (b : Builder) (locals : Locals) (b' : Builder) (locals' : Locals) : Prop where
  locals_subset : ∀ p ∈ locals, p ∈ locals'
  fresh : ∀ p ∈ locals', p ∈ locals ∨ b.index.entries.size ≤ p.1
  size_le : b.index.entries.size ≤ b'.index.entries.size
  uses : ∀ i span, b.Uses i span → b'.Uses i span
  early : ∀ r ∈ b.early.toList, r ∈ b'.early.toList

theorem Later.refl (b : Builder) (locals : Locals) : Later b locals b locals :=
  ⟨fun _ h => h, fun _ h => .inl h, Nat.le_refl _, fun _ _ h => h, fun _ h => h⟩

theorem Later.trans (h : Later b locals b' locals') (h' : Later b' locals' b'' locals'') : Later b locals b'' locals'' where
  locals_subset p hp := h'.locals_subset p (h.locals_subset p hp)
  fresh p hp := by
    rcases h'.fresh p hp with hp | hsize
    · exact h.fresh p hp
    · exact .inr (h.size_le.trans hsize)
  size_le := h.size_le.trans h'.size_le
  uses i span huses := h'.uses i span (h.uses i span huses)
  early r hr := h'.early r (h.early r hr)

theorem Extends.later (h : Extends allowed b b') (locals : Locals) :
    Later b locals b' locals :=
  ⟨fun _ h => h, fun _ h => .inl h, h.size_le, fun _ _ huses => h.uses huses, h.early⟩

/-- A usage of an entry that was made for no declaration. -/
def UsesOther (b : Builder) (locals : Locals) (span : Span) : Prop := ∃ i, (∀ d, (i, d) ∉ locals) ∧ b.Uses i span

theorem UsesOther.later {span : Span} (h : b.UsesOther locals span) (hlater : Later b locals b' locals') :
    b'.UsesOther locals' span := by
  obtain ⟨i, hi, huses⟩ := h
  refine ⟨i, ?_, hlater.uses i span huses⟩
  intro d hd
  rcases hlater.fresh _ hd with hd | hsize
  · exact hi d hd
  · exact absurd huses.lt (Nat.not_lt.mpr hsize)

/-- Where a mention is recorded. A name other than `self` is a usage of the entry of the nearest declaration. If there is
no declaration in sight, it is a usage of another entry or waits as a reference to a global. -/
def Placed (b : Builder) (locals : Locals) : Mention → Prop
  | .declaration d => ∃ i, (i, d) ∈ locals
  | .reference id (some d) => id.name ≠ "self" → ∃ i, (i, d) ∈ locals ∧ b.Uses i id.span
  | .reference id none => id.name ≠ "self" →
    b.UsesOther locals id.span ∨ ∃ r ∈ b.early.toList, r.name = id.name ∧ r.span = id.span ∧ r.home = 0
  | .part _ | .fieldKey _ => True

theorem Placed.later {m : Mention} (h : b.Placed locals m) (hlater : Later b locals b' locals') : b'.Placed locals' m := by
  rcases m with d | ⟨id, _ | d⟩ | span | span
  · obtain ⟨i, hi⟩ := h
    exact ⟨i, hlater.locals_subset _ hi⟩
  · intro hself
    rcases h hself with huses | ⟨r, hr, hplace⟩
    · exact .inl (huses.later hlater)
    · exact .inr ⟨r, hlater.early r hr, hplace⟩
  · intro hself
    obtain ⟨i, hi, huses⟩ := h hself
    exact ⟨i, hlater.locals_subset _ hi, hlater.uses i _ huses⟩
  · trivial
  · trivial

/-! ### Chains -/

theorem Tracks.extends {written : Option String} (h : b.Tracks layers locals)
    (hextends : Extends (b.MayGive written) b b') : b'.Tracks layers locals := by
  have hfresh {i : EntryId} {d : Identifier} (hi : b.index.entries.size ≤ i) : (i, d) ∉ locals :=
    fun hd => absurd (h.lt hd) (Nat.not_lt.mpr hi)
  refine ⟨h.follows.of_extends hextends, hextends.openScopes ▸ h.sorted, fun p hp => hextends.grows.isOf (h.entries p hp),
    ?_, (hextends.kinds 0).trans h.kind, ?_, (hextends.declared 0) ▸ h.declared⟩
  · rw [hextends.openScopes]
    apply h.scopes.imp
    intro id layer hholds name hname
    obtain ⟨hsome, hnone⟩ := hholds name hname
    rcases hextends.symbols id name with hsame | ⟨i, hi, -, hgive⟩
    · rw [hsame]
      exact ⟨hsome, hnone⟩
    · -- A new global: no open scope has a symbol for the name, so it is no local of this one.
      refine ⟨?_, ?_⟩
      · intro d hd
        obtain ⟨j, hj, -⟩ := hsome d hd
        cases hj.symm.trans hgive.symbolAt?
      · intro _ j hj
        obtain rfl := some.inj (hi.symm.trans hj)
        exact ⟨(hgive.named.resolve_left hname).1, fun d => hfresh hgive.entry⟩
  · intro name i d hi hd
    rw [hextends.declared 0]
    rcases hextends.symbols 0 name with hsame | ⟨j, hj, -, hgive⟩
    · exact h.globals name i d (hsame ▸ hi) hd
    · obtain rfl := some.inj (hj.symm.trans hi)
      exact absurd hd (hfresh hgive.entry)

theorem Tracks.placed (h : b.Tracks layers locals) {id : Identifier} (hname : '.' ∉ id.name.toList) {writes : Bool}
    (hlands : Lands b b' writes id.name id.span) : b'.Placed locals (.reference id (nearest? (sight layers) id.name)) := by
  obtain ⟨hsome, hnone⟩ := h.find?_of_nearest hname
  cases hnear : nearest? (sight layers) id.name with
  | some d =>
    intro _
    obtain ⟨scope, i, hfind, hd⟩ := hsome d hnear
    rcases hlands with ⟨scope', j, hfind', huses⟩ | ⟨hfind', -⟩
    · obtain ⟨rfl, rfl⟩ := Prod.mk.inj (some.inj (hfind.symm.trans hfind'))
      exact ⟨i, hd, huses⟩
    · rw [hfind] at hfind'
      cases hfind'
  | none =>
    intro _
    rcases hlands with ⟨scope, i, hfind, huses⟩ | ⟨-, ⟨-, i, hsize, huses⟩ | ⟨-, hearly⟩⟩
    · exact .inl ⟨i, (hnone hnear scope i hfind).2.2, huses⟩
    · exact .inl ⟨i, fun d hd => absurd (h.lt hd) (Nat.not_lt.mpr hsize), huses⟩
    · exact .inr hearly

/-! ### Declarations -/

theorem nearest?_cons (d : Identifier) (ids : List Identifier) (name : String) :
    nearest? (d :: ids) name = if name = d.name then some d else nearest? ids name := by
  simp only [nearest?, find?_cons]
  by_cases h : name = d.name
  · simp [h]
  · rw [if_neg h, beq_false_of_ne (Ne.symm h)]

theorem notMem_of_symbolAt? (hb : b.Known) {id : ScopeId} {d' : Identifier}
    (hi : b.symbolAt? id name = some i) (h : (i, d') ∉ locals) : (i, d') ∉ (b.index.entries.size, d) :: locals := by
  intro hmem
  rcases mem_cons.mp hmem with heq | hmem
  · have hlt := hb id name i hi
    rw [(Prod.mk.inj heq).1] at hlt
    exact Nat.lt_irrefl _ hlt
  · exact h hmem

theorem Holds.declare {id other : ScopeId} (hb : b.Known) (hopen : b.openScopes = id :: outer)
    (hvalid : id < b.index.scopes.size) (h : b.Holds locals other ids) (d : Identifier) (isParameter : Bool) :
    (b.declare d isParameter).Holds ((b.index.entries.size, d) :: locals) other (if id = other then d :: ids else ids) := by
  intro name hname
  obtain ⟨hsome, hnone⟩ := h name hname
  have hnearest : nearest? (if id = other then d :: ids else ids) name =
      if id = other ∧ name = d.name then some d else nearest? ids name := by
    split <;> simp_all [nearest?_cons]
  rw [symbolAt?_declare hopen hvalid, hnearest]
  split
  · refine ⟨?_, nofun⟩
    rintro d' hd'
    obtain rfl := some.inj hd'
    exact ⟨_, rfl, mem_cons_self⟩
  · refine ⟨?_, ?_⟩
    · intro d' hd'
      obtain ⟨i, hi, hmem⟩ := hsome d' hd'
      exact ⟨i, hi, mem_cons_of_mem _ hmem⟩
    · intro hnear i hi
      obtain ⟨hzero, hother⟩ := hnone hnear i hi
      exact ⟨hzero, fun d' => notMem_of_symbolAt? hb hi (hother d')⟩

theorem tracks_declare (h : b.Tracks layers locals) (hopen : layers ≠ []) (d : Identifier) (isParameter : Bool) :
    (b.declare d isParameter).Tracks (Scoping.declare [d] layers) ((b.index.entries.size, d) :: locals) ∧
      Later b locals (b.declare d isParameter) ((b.index.entries.size, d) :: locals) := by
  obtain ⟨id, outer, hids, hvalid⟩ := h.follows.exists_cons hopen
  have hfollows := h.follows.declare hopen d isParameter
  obtain ⟨top, rest, rfl⟩ := exists_cons_of_ne_nil hopen
  have hgrows := grows_declare hids d isParameter
  refine ⟨⟨hfollows, (openScopes_declare d isParameter b).symm ▸ h.sorted, ?_, ?_, ?_, ?_, ?_⟩, ⟨?_, ?_, ?_, ?_, ?_⟩⟩
  · refine forall_mem_cons.mpr ⟨?_, fun p hp => hgrows.isOf (h.entries p hp)⟩
    rw [entries_declare hids]
    exact ⟨_, getElem?_define b id d.name d.span, rfl, rfl, rfl⟩
  · have hsorted := h.sorted
    have hscopes := h.scopes
    rw [hids] at hsorted hscopes
    obtain ⟨hhead, htail⟩ := forall₂_cons.mp hscopes
    rw [openScopes_declare, hids]
    have hinner := hhead.declare h.follows.known hids hvalid d isParameter
    rw [if_pos rfl] at hinner
    refine forall₂_cons.mpr ⟨hinner, ?_⟩
    apply ((forall₂_and_left _ _).mpr ⟨(pairwise_cons.mp hsorted).1, htail⟩).imp
    rintro other layer ⟨hlt, hholds⟩
    have houter := hholds.declare h.follows.known hids hvalid d isParameter
    rwa [if_neg (Nat.ne_of_gt hlt)] at houter
  · rw [kindAt?_declare]
    exact h.kind
  · intro name i d' hi hd'
    rw [symbolAt?_declare hids hvalid] at hi
    rw [declaredAt_declare hids hvalid]
    by_cases hnew : id = 0 ∧ name = d.name
    · rw [if_pos hnew] at hi
      rw [if_pos hnew.1]
      exact ⟨_, mem_append_right _ mem_cons_self, some.inj hi⟩
    · rw [if_neg hnew] at hi
      have hmem : (i, d') ∈ locals := by
        by_contra hnot
        exact notMem_of_symbolAt? h.follows.known hi hnot hd'
      obtain ⟨x, hx, hentry⟩ := h.globals name i d' hi hmem
      exact ⟨x, mem_append_left _ hx, hentry⟩
  · intro x hx
    rw [declaredAt_declare hids hvalid] at hx
    rcases mem_append.mp hx with hx | hx
    · obtain ⟨d', hd'⟩ := h.declared x hx
      exact ⟨d', mem_cons_of_mem _ hd'⟩
    · split at hx
      · obtain rfl := mem_singleton.mp hx
        exact ⟨d, mem_cons_self⟩
      · cases hx
  · exact fun p hp => mem_cons_of_mem _ hp
  · intro p hp
    rcases mem_cons.mp hp with rfl | hp
    · exact .inr (Nat.le_refl _)
    · exact .inl hp
  · exact hgrows.size_le
  · exact fun i span huses => hgrows.uses huses
  · intro r hr
    rwa [early_declare]

/-! ### Scopes -/

theorem SameNames.later (h : SameNames b b') (locals : Locals) : Later b locals b' locals :=
  ⟨fun _ h => h, fun _ h => .inl h, h.grows.size_le, fun _ _ huses => h.grows.uses huses, fun _ hr => h.early ▸ hr⟩

theorem Tracks.sameNames (h : b.Tracks layers locals) (hsame : SameNames b b') (hfollows : b'.Follows layers')
    (hsorted : b'.openScopes.Pairwise (· > ·))
    (hscopes : List.Forall₂ (fun id layer => b.Holds locals id layer.locals) b'.openScopes layers') :
    b'.Tracks layers' locals := by
  refine ⟨hfollows, hsorted, ?_, ?_, hsame.kind h.kind, ?_, (hsame.declared h.kind) ▸ h.declared⟩
  · rw [hsame.entries]
    exact h.entries
  · apply hscopes.imp
    intro id layer hholds name hname
    rw [hsame.symbols]
    exact hholds name hname
  · intro name i d hi hd
    rw [hsame.declared h.kind]
    exact h.globals name i d (hsame.symbols 0 name ▸ hi) hd

theorem tracks_enter (h : b.Tracks layers locals) (hopen : layers ≠ []) (node : ScopeNode) (ctx : Context) :
    (b.enter node ctx).Tracks (after layers (.enter node ctx)) locals ∧ Later b locals (b.enter node ctx) locals := by
  have hsame := sameNames_enter b node ctx
  have hids := openScopes_enter b node ctx
  have hfollows := follows_enter h.follows (absurd · hopen) node ctx
  obtain ⟨isBound, hafter⟩ : ∃ isBound, after layers (.enter node ctx) = { isBound } :: layers := by
    cases node <;> exact ⟨_, rfl⟩
  refine ⟨h.sameNames hsame hfollows ?_ ?_, hsame.later locals⟩
  · rw [hids]
    exact pairwise_cons.mpr ⟨h.follows.valid, h.sorted⟩
  · rw [hids, hafter]
    refine forall₂_cons.mpr ⟨fun name _ => ⟨nofun, fun _ i hi => ?_⟩, h.scopes⟩
    have hnone : b.scope? b.index.scopes.size = none := Array.getElem?_eq_none (Nat.le_refl _)
    rw [symbolAt?, hnone] at hi
    cases hi

theorem tracks_leave (h : b.Tracks layers locals) :
    b.leave.Tracks layers.tail locals ∧ Later b locals b.leave locals := by
  have hsame := sameNames_leave b
  refine ⟨?_, hsame.later locals⟩
  apply h.sameNames hsame (follows_leave h.follows)
  · rw [openScopes_leave]
    exact h.sorted.tail
  · rw [openScopes_leave, ← drop_one, ← drop_one]
    exact forall₂_drop 1 h.scopes

/-! ### The walk -/

theorem tracks_step (h : b.Tracks layers locals) (hopen : layers ≠ []) (event : Event)
    (hplain : ∀ m ∈ mentions layers event, m.Plain) :
    ∃ locals', (b.step event).Tracks (after layers event) locals' ∧ Later b locals (b.step event) locals' ∧
      ∀ m ∈ mentions layers event, (b.step event).Placed locals' m := by
  rcases h.follows.step_cases hopen event with ⟨node, ctx, rfl⟩ | ⟨node, ctx, rfl⟩ | ⟨d, hstep, hmentions, -, hafter⟩ |
    ⟨hacts, hall, -, hafter⟩
  · obtain ⟨htracks, hlater⟩ := tracks_enter h hopen node ctx
    exact ⟨locals, htracks, hlater, nofun⟩
  · obtain ⟨htracks, hlater⟩ := tracks_leave h
    exact ⟨locals, htracks, hlater, nofun⟩
  · obtain ⟨htracks, hlater⟩ := tracks_declare h hopen d event.isParameter
    rw [hstep, hmentions, hafter]
    refine ⟨_, htracks, hlater, fun m hm => ?_⟩
    obtain rfl := mem_singleton.mp hm
    exact ⟨_, mem_cons_self⟩
  · rw [hafter]
    refine ⟨locals, h.extends hacts.extends, hacts.extends.later locals, fun m hm => ?_⟩
    rcases hall m hm with ⟨id, hid, rfl⟩ | ⟨span, rfl | rfl⟩
    · by_cases hself : id.name = "self"
      · cases nearest? (sight layers) id.name <;> exact fun hne => absurd hself hne
      · have hlands := lands_step h.follows.known (h.follows.zero_mem hopen) hid
        rw [meaning_of_ne hself] at hlands
        exact h.placed (hplain _ hm) hlands
    · trivial
    · trivial

theorem tracks_foldl {events : List Event} {ms : List Mention} (htells : Tells layers events layers' ms)
    (h : b.Tracks layers locals) (hplain : ∀ m ∈ ms, m.Plain) :
    ∃ locals', (events.foldl step b).Tracks layers' locals' ∧ Later b locals (events.foldl step b) locals' ∧
      ∀ m ∈ ms, (events.foldl step b).Placed locals' m := by
  induction htells generalizing b locals with
  | nil => exact ⟨locals, h, .refl b locals, nofun⟩
  | @cons layers _ event events ms hopen _ ih =>
    obtain ⟨hfirst, hrest⟩ := forall_mem_append.mp hplain
    obtain ⟨locals', htracks, hlater, hplaced⟩ := tracks_step h hopen event hfirst
    obtain ⟨locals'', htracks', hlater', hplaced'⟩ := ih htracks hrest
    refine ⟨locals'', htracks', hlater.trans hlater', ?_⟩
    intro m hm
    rcases mem_append.mp hm with hm | hm
    · exact (hplaced m hm).later hlater'
    · exact hplaced' m hm
  | reorder _ hperm ih =>
    obtain ⟨locals', htracks, hlater, hplaced⟩ := ih h fun m hm => hplain m (hperm.mem_iff.mp hm)
    exact ⟨locals', htracks, hlater, fun m hm => hplaced m (hperm.mem_iff.mpr hm)⟩

/-! ### Early references -/

/-- What stays of the locals when all scopes are closed. -/
structure Grounded (b : Builder) (locals : Locals) : Prop where
  known : b.Known
  entries : ∀ p ∈ locals, ∃ e, b.index.entries[p.1]? = some e ∧ e.IsOf p.2
  globals : ∀ name i d, b.symbolAt? 0 name = some i → (i, d) ∈ locals → ∃ x ∈ b.declaredAt 0, x.entry = i

theorem Grounded.notMem (h : b.Grounded locals) (hi : b.index.entries.size ≤ i) (d : Identifier) :
    (i, d) ∉ locals := by
  intro hd
  obtain ⟨e, he, -⟩ := h.entries _ hd
  exact absurd (Array.getElem?_eq_some_iff.mp he).1 (Nat.not_lt.mpr hi)

theorem Grounded.extends (h : b.Grounded locals) (hextends : Extends (fun _ _ i => b.index.entries.size ≤ i) b b') :
    b'.Grounded locals := by
  refine ⟨hextends.known h.known, fun p hp => hextends.grows.isOf (h.entries p hp), fun name i d hi hd => ?_⟩
  rw [hextends.declared 0]
  rcases hextends.symbols 0 name with hsame | ⟨j, hj, -, hsize⟩
  · exact h.globals name i d (hsame ▸ hi) hd
  · obtain rfl := some.inj (hj.symm.trans hi)
    exact absurd hd (h.notMem hsize d)

/-- A reference that no declaration was in sight for is settled elsewhere: with an entry that was made for no declaration,
or with a warning. -/
def Settled (b : Builder) (locals : Locals) (span : Span) : Prop :=
  b.UsesOther locals span ∨ span ∈ b.warnings.toList.filterMap undefinedSpan?

theorem Settled.extends {span : Span} (h : b.Settled locals span) (hextends : Extends allowed b b') :
    b'.Settled locals span := by
  rcases h with h | h
  · exact .inl (h.later (hextends.later locals))
  · exact .inr (hextends.undefined span h)

/-- An early reference to a global does not mean a local that was declared later in the global scope. -/
theorem settled_settle (h : b.Grounded locals) {r : EarlyReference} (hhome : r.home = 0) :
    (b.settle r).Settled locals r.span := by
  rcases settle_cases b r with ⟨i, hi, hsettle⟩ | ⟨-, -, ⟨-, hsettle⟩ | ⟨-, -, hsettle⟩ | ⟨-, -, hsettle⟩⟩
  · have hglobal : b.nonLocal? 0 r.name = some i := by
      rw [hhome] at hi
      exact hi.elim id id
    rw [hsettle]
    refine .inl ⟨i, ?_, uses_addUsage (lt_of_nonLocal? h.known hglobal) r.span⟩
    intro d hd
    rw [nonLocal?_eq_filter, filter_eq_some_iff] at hglobal
    obtain ⟨x, hx, rfl⟩ := h.globals r.name i d hglobal.1 hd
    have hany : (b.declaredAt 0).any (·.entry == x.entry) = true := any_eq_true.mpr ⟨x, hx, beq_self_eq_true _⟩
    simp [hany] at hglobal
  · rw [hsettle]
    exact .inl ⟨_, h.notMem (Nat.le_refl _), uses_define b r.home r.name r.span⟩
  · rw [hsettle]
    exact .inl ⟨_, h.notMem (Nat.le_refl _), uses_addUsage (addEntry_lt b r.name) r.span⟩
  · rw [hsettle]
    apply Or.inr
    rw [Array.toList_push, filterMap_append]
    exact mem_append_right _ mem_cons_self

theorem settled_foldl (h : b.Grounded locals) (rs : List EarlyReference) :
    (rs.foldl settle b).Grounded locals ∧ Later b locals (rs.foldl settle b) locals ∧
      (∀ span, b.Settled locals span → (rs.foldl settle b).Settled locals span) ∧
      ∀ r ∈ rs, r.home = 0 → (rs.foldl settle b).Settled locals r.span := by
  induction rs generalizing b with
  | nil => exact ⟨h, .refl b locals, fun _ h => h, nofun⟩
  | cons r rest ih =>
    have hextends := extends_settle b r
    obtain ⟨hgrounded, hlater, hkept, hrest⟩ := ih (h.extends hextends)
    refine ⟨hgrounded, (hextends.later locals).trans hlater, fun span hspan => hkept span (hspan.extends hextends), ?_⟩
    rw [forall_mem_cons]
    exact ⟨fun hhome => hkept _ (settled_settle h hhome), hrest⟩

theorem tracks_start (body : Block) : (({} : Builder).enter (.chunk body) {}).Tracks [{}] [] := by
  refine ⟨follows_start body, pairwise_singleton _ _, nofun, ?_, rfl, nofun, nofun⟩
  refine forall₂_cons.mpr ⟨?_, .nil⟩
  intro name _
  exact ⟨nofun, nofun⟩

theorem Tracks.grounded (h : b.Tracks layers locals) : b.Grounded locals := ⟨h.follows.known, h.entries, h.globals⟩

theorem placed_walk (body : Block) (hplain : ∀ m ∈ Mention.statements [] body, m.Plain) :
    ∃ locals, ((Walk.chunk below body).foldl step {}).Grounded locals ∧
      ∀ m ∈ Mention.statements [] body, ((Walk.chunk below body).foldl step {}).Placed locals m := by
  obtain ⟨locals, htracks, -, hplaced⟩ :=
    tracks_foldl (tells_program (Context.enter {} (.chunk body)) body) (tracks_start body) hplain
  obtain ⟨hleave, hlater⟩ := tracks_leave htracks
  rw [foldl_chunk]
  exact ⟨locals, hleave.grounded, fun m hm => (hplaced m hm).later hlater⟩

end Builder

/-- Where cross references have a mention in the end. A name other than `self` is a usage of the entry of the nearest
declaration. If there is no declaration in sight, it is a usage of an entry that was made for none, or is warned of. -/
def Resolves (x : CrossReference) (warnings : List Warning) (locals : Builder.Locals) : Mention → Prop
  | .declaration d => ∃ i, (i, d) ∈ locals
  | .reference id (some d) => id.name ≠ "self" → ∃ i, (i, d) ∈ locals ∧ x.Uses i id.span
  | .reference id none => id.name ≠ "self" →
    (∃ i, (∀ d, (i, d) ∉ locals) ∧ x.Uses i id.span) ∨ id.span ∈ warnings.filterMap undefinedSpan?
  | .part _ | .fieldKey _ => True

theorem resolves_build (body : Block) (hplain : ∀ m ∈ Mention.statements [] body, m.Plain) :
    ∃ locals : Builder.Locals, (∀ p ∈ locals, ∃ e, (build body).1.entries[p.1]? = some e ∧ e.IsOf p.2) ∧
      ∀ m ∈ Mention.statements [] body, Resolves (build body).1 (build body).2 locals m := by
  obtain ⟨hindex, hwarnings⟩ := build_eq body
  obtain ⟨locals, hgrounded, hplaced⟩ := Builder.placed_walk body hplain
  obtain ⟨hend, hlater, -, hsettled⟩ := Builder.settled_foldl hgrounded (waiting body)
  rw [hindex]
  generalize (waiting body).foldl Builder.settle _ = settled at hwarnings hend hlater hsettled ⊢
  refine ⟨locals, hend.entries, ?_⟩
  intro m hm
  have hplace := (hplaced m hm)
  rcases m with d | ⟨id, _ | d⟩ | span | span
  · exact hplace
  · intro hself
    have hdone : settled.Settled locals id.span := by
      rcases hplace hself with huses | ⟨r, hr, -, hspan, hhome⟩
      · exact .inl (huses.later hlater)
      · exact hspan ▸ hsettled r hr hhome
    rcases hdone with huses | hwarned
    · exact .inl huses
    · exact .inr ((hwarnings.filterMap undefinedSpan?).mem_iff.mpr hwarned)
  · intro hself
    obtain ⟨i, hi, huses⟩ := hplace hself
    exact ⟨i, hi, hlater.uses i _ huses⟩
  · trivial
  · trivial

end CrossReference

end CartLua
