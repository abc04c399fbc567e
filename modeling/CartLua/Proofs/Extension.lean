import CartLua.Proofs.Building
/-!
# How cross references grow

Recording a name makes entries longer and adds new ones. The symbols of scopes stay, except that new entries get symbols;
which scope and which name they get is what the relation here keeps account of. Reading or writing a chain never gives a
plain name a symbol outside the global scope, and in the global scope only if the name is written and found nowhere.
-/

namespace CartLua

open Option Array

/-- An entry with more definitions and usages. -/
structure Entry.Grows (e e' : Entry) : Prop where
  name : e'.name = e.name
  definitions : e.definitions.toList <+: e'.definitions.toList
  usages : e.usages.toList <+: e'.usages.toList

theorem Entry.Grows.refl (e : Entry) : e.Grows e := ⟨rfl, List.prefix_rfl, List.prefix_rfl⟩

theorem Entry.Grows.trans {e e' e'' : Entry} (h : e.Grows e') (h' : e'.Grows e'') : e.Grows e'' :=
  ⟨h'.name.trans h.name, h.definitions.trans h'.definitions, h.usages.trans h'.usages⟩

namespace CrossReference

def Uses (x : CrossReference) (i : EntryId) (span : Span) : Prop :=
  ∃ e, x.entries[i]? = some e ∧ span ∈ e.usages.toList

/-- The span of an undefined variable that is warned of. -/
def undefinedSpan? (w : Warning) : Option Span :=
  match w.concern with
  | .undefinedVariable _ => some w.span
  | _ => none

namespace Builder

def Uses (b : Builder) (i : EntryId) (span : Span) : Prop := b.index.Uses i span

/-- Every symbol of every scope has an entry. -/
def Known (b : Builder) : Prop :=
  ∀ (id : ScopeId) (name : String) (i : EntryId), b.symbolAt? id name = some i → i < b.index.entries.size

/-- The second builder has longer entries, and new symbols only where they are allowed. -/
structure Extends (allowed : ScopeId → String → EntryId → Prop) (b b' : Builder) : Prop where
  openScopes : b'.openScopes = b.openScopes
  size : b'.index.scopes.size = b.index.scopes.size
  frame : ∀ id, (b'.scope? id).map Scope.frame = (b.scope? id).map Scope.frame
  entries : ∀ (i : EntryId) (e : Entry), b.index.entries[i]? = some e → ∃ e', b'.index.entries[i]? = some e' ∧ e.Grows e'
  symbols : ∀ (id : ScopeId) (name : String), b'.symbolAt? id name = b.symbolAt? id name ∨
    ∃ i, b'.symbolAt? id name = some i ∧ i < b'.index.entries.size ∧ allowed id name i
  early : ∀ r ∈ b.early.toList, r ∈ b'.early.toList
  undefined : ∀ span ∈ b.warnings.toList.filterMap undefinedSpan?, span ∈ b'.warnings.toList.filterMap undefinedSpan?

variable {b b' b'' : Builder} {allowed allowed' : ScopeId → String → EntryId → Prop} {i : EntryId} {id : ScopeId}
  {name path : String} {span : Span} {spans : List Span} {written : Option String}

/-- Every entry is still there, with more definitions and usages. -/
def Grows (b b' : Builder) : Prop :=
  ∀ (i : EntryId) (e : Entry), b.index.entries[i]? = some e → ∃ e', b'.index.entries[i]? = some e' ∧ e.Grows e'

theorem Grows.size_le (h : Grows b b') : b.index.entries.size ≤ b'.index.entries.size := by
  by_contra hlt
  have hsize : b'.index.entries.size < b.index.entries.size := Nat.lt_of_not_le hlt
  obtain ⟨e', he', -⟩ := h _ _ (getElem?_eq_getElem hsize)
  rw [getElem?_eq_none (Nat.le_refl _)] at he'
  cases he'

theorem Grows.uses (h : Grows b b') (huses : b.Uses i span) : b'.Uses i span := by
  obtain ⟨e, he, hspan⟩ := huses
  obtain ⟨e', he', hextends⟩ := h i e he
  exact ⟨e', he', hextends.usages.subset hspan⟩

theorem SameNames.grows (h : SameNames b b') : Grows b b' := fun _ e he => ⟨e, h.entries ▸ he, .refl e⟩

namespace Extends

variable (h : Extends allowed b b')

include h

theorem grows : Grows b b' := h.entries

omit h in
theorem of_index (allowed : ScopeId → String → EntryId → Prop) (h : b'.index = b.index) (hopen : b'.openScopes = b.openScopes)
    (hearly : ∀ r ∈ b.early.toList, r ∈ b'.early.toList)
    (hundefined : ∀ span ∈ b.warnings.toList.filterMap undefinedSpan?,
      span ∈ b'.warnings.toList.filterMap undefinedSpan?) : Extends allowed b b' := by
  refine ⟨hopen, by rw [h], fun id => by rw [scope?, scope?, h], fun _ e he => ⟨e, h ▸ he, .refl e⟩, ?_, hearly, hundefined⟩
  exact fun id name => .inl (by rw [symbolAt?, symbolAt?, scope?, scope?, h])

omit h in
theorem refl (allowed : ScopeId → String → EntryId → Prop) (b : Builder) : Extends allowed b b :=
  of_index allowed rfl rfl (fun _ h => h) fun _ h => h

theorem size_le : b.index.entries.size ≤ b'.index.entries.size := h.grows.size_le

theorem trans (h' : Extends allowed b' b'') : Extends allowed b b'' where
  openScopes := h'.openScopes.trans h.openScopes
  size := h'.size.trans h.size
  frame id := (h'.frame id).trans (h.frame id)
  entries i e he := by
    obtain ⟨e', he', hextends⟩ := h.entries i e he
    obtain ⟨e'', he'', hextends'⟩ := h'.entries i e' he'
    exact ⟨e'', he'', hextends.trans hextends'⟩
  symbols id name := by
    rcases h'.symbols id name with hsame | hnew
    · rw [hsame]
      exact (h.symbols id name).imp_right fun ⟨i, hi, hlt, hallowed⟩ => ⟨i, hi, hlt.trans_le h'.size_le, hallowed⟩
    · exact .inr hnew
  early r hr := h'.early r (h.early r hr)
  undefined span hspan := h'.undefined span (h.undefined span hspan)

theorem mono (hallowed : ∀ id name i, allowed id name i → allowed' id name i) :
    Extends allowed' b b' := by
  refine ⟨h.openScopes, h.size, h.frame, h.entries, fun id name => ?_, h.early, h.undefined⟩
  exact (h.symbols id name).imp_right fun ⟨i, hi, hlt, hnew⟩ => ⟨i, hi, hlt, hallowed id name i hnew⟩

theorem known (hb : b.Known) : b'.Known := by
  intro id name i hi
  rcases h.symbols id name with hsame | ⟨j, hj, hlt, -⟩
  · exact (hb id name i (hsame ▸ hi)).trans_le h.size_le
  · rwa [← some.inj (hj.symm.trans hi)]

theorem kinds (id : ScopeId) : b'.kindAt? id = b.kindAt? id := by
  have hkind := congrArg (Option.map (·.kind)) (h.frame id)
  rwa [Option.map_map, Option.map_map] at hkind

theorem declared (id : ScopeId) : b'.declaredAt id = b.declaredAt id := by
  have hdeclared := congrArg (Option.map (·.declared)) (h.frame id)
  rw [Option.map_map, Option.map_map] at hdeclared
  exact congrArg (·.getD []) hdeclared

theorem tableAt (id : ScopeId) : b'.tableAt? id = b.tableAt? id := by
  have htable := congrArg (Option.bind · (·.tableName)) (h.frame id)
  rwa [Option.bind_map, Option.bind_map] at htable

theorem uses (huses : b.Uses i span) : b'.Uses i span := h.grows.uses huses

theorem symbolAt?_ne_none (hsome : b.symbolAt? id name ≠ none) :
    b'.symbolAt? id name ≠ none := by
  rcases h.symbols id name with hsame | ⟨i, hi, -⟩
  · rwa [hsame]
  · rw [hi]
    exact some_ne_none i

theorem find?_eq_none (hnone : b'.find? name = none) : b.find? name = none := by
  rw [find?_eq_none_iff] at hnone ⊢
  intro id hid
  by_contra hsome
  exact h.symbolAt?_ne_none hsome (hnone id (h.openScopes ▸ hid))

end Extends

theorem Uses.lt (h : b.Uses i span) : i < b.index.entries.size := by
  obtain ⟨e, he, -⟩ := h
  exact (Array.getElem?_eq_some_iff.mp he).1

theorem lt_of_find? (hb : b.Known) {scope : ScopeId} (h : b.find? name = some (scope, i)) :
    i < b.index.entries.size := hb scope name i (find?_eq_some h).2

theorem lt_of_nonLocal? (hb : b.Known) (h : b.nonLocal? id name = some i) : i < b.index.entries.size := by
  rw [nonLocal?_eq_filter, filter_eq_some_iff] at h
  exact hb id name i h.1

/-! ### Entries and symbols -/

variable (allowed)

theorem extends_modify {f : Entry → Entry} (hf : ∀ e : Entry, e.Grows (f e))
    (h : b' = { b with index.entries := b.index.entries.modify i f, index.lines := b'.index.lines }) :
    Extends allowed b b' := by
  rw [h]
  refine ⟨rfl, rfl, fun _ => rfl, ?_, fun _ _ => .inl rfl, fun _ h => h, fun _ h => h⟩
  intro j e he
  by_cases hij : i = j
  · subst hij
    exact ⟨f e, by simp [getElem?_modify, he], hf e⟩
  · exact ⟨e, by simp [getElem?_modify, hij, he], .refl e⟩

theorem extends_addUsage (b : Builder) (i : EntryId) (span : Span) : Extends allowed b (b.addUsage i span) :=
  extends_modify allowed (f := fun e => { e with usages := e.usages.push span }) (fun _ => ⟨rfl, List.prefix_rfl, by simp⟩) rfl

theorem extends_addDefinition (b : Builder) (i : EntryId) (span : Span) : Extends allowed b (b.addDefinition i span) :=
  extends_modify allowed (f := fun e => { e with definitions := e.definitions.push span })
    (fun _ => ⟨rfl, by simp, List.prefix_rfl⟩) rfl

theorem extends_addEntry (b : Builder) (name : String) : Extends allowed b (b.addEntry name).2 := by
  refine ⟨rfl, rfl, fun _ => rfl, ?_, fun _ _ => .inl rfl, fun _ h => h, fun _ h => h⟩
  intro i e he
  have hlt : i < b.index.entries.size := (Array.getElem?_eq_some_iff.mp he).1
  refine ⟨e, ?_, .refl e⟩
  show (b.index.entries.push _)[i]? = some e
  rw [Array.getElem?_push_lt hlt, ← he, Array.getElem?_eq_getElem hlt]

variable {allowed}

theorem extends_addSymbol (h : allowed id name i) (hi : i < b.index.entries.size) :
    Extends allowed b (b.addSymbol id name i) := by
  refine ⟨rfl, by simp [addSymbol, modifyScope], fun other => ?_, fun _ e he => ⟨e, he, .refl e⟩, ?_, fun _ h => h,
    fun _ h => h⟩
  · rw [addSymbol, scope?_modifyScope]
    split
    · rw [Option.map_map]
      rfl
    · rfl
  · intro other key
    rcases symbolAt?_addSymbol_cases b id name i other key with hsame | ⟨⟨rfl, rfl⟩, hnew⟩
    · exact .inl hsame
    · exact .inr ⟨i, hnew, hi, h⟩

theorem extends_define (h : allowed id name b.index.entries.size) (span : Span) :
    Extends allowed b (b.define id name span).2 := by
  have hentry := extends_addEntry allowed b name
  have hdefinition := extends_addDefinition allowed (b.addEntry name).2 b.index.entries.size span
  have husage := extends_addUsage allowed ((b.addEntry name).2.addDefinition b.index.entries.size span)
    b.index.entries.size span
  exact hentry.trans (hdefinition.trans (husage.trans (extends_addSymbol h (by simp [addEntry]))))

theorem grows_declare {outer : List ScopeId} (hids : b.openScopes = id :: outer) (d : Identifier) (isParameter : Bool) :
    Grows b (b.declare d isParameter) := by
  have hdefine : Extends (fun _ _ _ => True) b (b.define id d.name d.span).2 := extends_define trivial d.span
  unfold Grows
  rw [entries_declare hids]
  exact hdefine.entries

theorem uses_addUsage (hi : i < b.index.entries.size) (span : Span) : (b.addUsage i span).Uses i span := by
  refine ⟨{ b.index.entries[i] with usages := b.index.entries[i].usages.push span }, ?_, by simp⟩
  rw [entries_addUsage, getElem?_modify, if_pos rfl, getElem?_eq_getElem hi]
  rfl

theorem uses_define (b : Builder) (id : ScopeId) (name : String) (span : Span) :
    (b.define id name span).2.Uses b.index.entries.size span :=
  ⟨_, getElem?_define b id name span, by simp⟩

/-! ### Acts -/

/-- A symbol that acts may give. A new entry may get one in any open scope if its name is a path, and else if it is the
global that is written; the name is found nowhere. -/
structure MayGive (b : Builder) (written : Option String) (id : ScopeId) (name : String) (i : EntryId) : Prop where
  entry : b.index.entries.size ≤ i
  isOpen : id ∈ b.openScopes
  unknown : b.find? name = none
  named : '.' ∈ name.toList ∨ id = 0 ∧ written = some name

theorem MayGive.symbolAt? (h : b.MayGive written id name i) : b.symbolAt? id name = none :=
  find?_eq_none_iff.mp h.unknown id h.isOpen

theorem Act.extends (h : Act written b span b') : Extends (b.MayGive written) b b' := by
  cases h with
  | usage => exact extends_addUsage _ b _ span
  | write => exact (extends_addUsage _ b _ span).trans (extends_addDefinition _ _ _ span)
  | define hnone hopen _ hpath => exact extends_define ⟨le_rfl, hopen, hnone, hpath⟩ span
  | wait => exact .of_index _ rfl rfl (by simp +contextual) fun _ h => h

theorem Acts.extends (h : Acts written b spans b') : Extends (b.MayGive written) b b' := by
  induction h with
  | nil b => exact .refl _ b
  | cons hact _ ih =>
    have hextends := hact.extends
    refine hextends.trans (ih.mono fun id name i hgive => ⟨hextends.size_le.trans hgive.entry, ?_, ?_, hgive.named⟩)
    · exact hextends.openScopes ▸ hgive.isOpen
    · exact hextends.find?_eq_none hgive.unknown

theorem Acts.symbolAt? (h : Acts written b spans b') (hi : b.symbolAt? id name = some i) :
    b'.symbolAt? id name = some i := by
  rcases h.extends.symbols id name with hsame | ⟨j, -, -, hgive⟩
  · exact hsame.trans hi
  · cases hi.symm.trans hgive.symbolAt?

/-! ### References -/

/-- Where a reference is recorded: in the entry that is found; else in a new entry if it is written, and among the early
references if it is read. -/
def Lands (b b' : Builder) (writes : Bool) (path : String) (span : Span) : Prop :=
  (∃ scope i, b.find? path = some (scope, i) ∧ b'.Uses i span) ∨
    b.find? path = none ∧ (writes = true ∧ (∃ i, b.index.entries.size ≤ i ∧ b'.Uses i span) ∨
      writes = false ∧ ∃ r ∈ b'.early.toList, r.name = path ∧ r.span = span ∧ r.home = 0)

theorem lands_addPart (hb : b.Known) (isRoot writes : Bool) (path : String) (span : Span) :
    Lands b (b.addPart 0 isRoot writes path span) writes path span := by
  unfold addPart
  split
  next scope i hfind =>
    have huses := uses_addUsage (lt_of_find? hb hfind) span
    dsimp only
    split
    · exact .inl ⟨scope, i, hfind, (extends_addDefinition (b.MayGive none) _ i span).uses huses⟩
    · exact .inl ⟨scope, i, hfind, huses⟩
  next hfind =>
    split
    next hwrites => exact .inr ⟨hfind, .inl ⟨hwrites, _, Nat.le_refl _, uses_define b 0 path span⟩⟩
    next hreads =>
      apply Or.inr
      refine ⟨hfind, .inr ⟨Bool.not_eq_true _ ▸ hreads, ⟨path, span, 0, !isRoot || path.toList.contains '.'⟩, ?_⟩⟩
      exact ⟨by simp, rfl, rfl, rfl⟩

theorem Lands.mono {writes : Bool} (h : Lands b b' writes path span) (hextends : Extends allowed b' b'') :
    Lands b b'' writes path span := by
  rcases h with ⟨scope, i, hfind, huses⟩ | ⟨hfind, ⟨hwrites, i, hi, huses⟩ | ⟨hreads, r, hr, hlands⟩⟩
  · exact .inl ⟨scope, i, hfind, hextends.uses huses⟩
  · exact .inr ⟨hfind, .inl ⟨hwrites, i, hi, hextends.uses huses⟩⟩
  · exact .inr ⟨hfind, .inr ⟨hreads, r, hextends.early r hr, hlands⟩⟩

theorem lands_step (hb : b.Known) (hopen : 0 ∈ b.openScopes) {event : Event} {id : Identifier}
    (h : event.reference? = some id) :
    Lands b (b.step event) event.written?.isSome (b.meaning id.name) id.span := by
  obtain ⟨e, ctx, rfl, hlocal, hroot⟩ := Event.exists_of_reference? h
  rcases addExpression_cases b e ctx.role with ⟨d, hname, -⟩ | ⟨-, ⟨id', parts, hroot', hsegments, hadd⟩ | ⟨hnone, -⟩⟩
  · cases hlocal.symm.trans hname
  · obtain rfl := some.inj (hroot.symm.trans hroot')
    have hwrites : (Event.expression e ctx).written?.isSome =
        (ctx.role.target && (pathsFrom (b.meaning id.name) parts).isEmpty) := by
      rw [Event.written?_eq hlocal hroot hsegments]
      cases parts <;> cases ctx.role.target <;> rfl
    have hact := act_root hopen ctx.role.target (b.meaning id.name) parts (fun _ => rfl) id.span
    rw [step, hadd, hwrites]
    exact (lands_addPart hb true _ _ _).mono (acts_members hopen hact ctx.role.target _ parts).extends
  · obtain ⟨rest, hsegments⟩ := Expr.segments?_of_root? hroot
    cases hnone.symm.trans hsegments

end CrossReference.Builder

end CartLua
