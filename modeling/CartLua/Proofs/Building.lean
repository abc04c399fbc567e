import CartLua.Proofs.Ledger
import Mathlib.Data.List.TakeWhile
/-!
# What building does

Cross references are built event by event. An event opens a scope, closes one, or declares a name in the innermost one. All
that is done for chains and fields comes down to acts at single spans: an entry that is found gets a usage, alone or with
a definition; a name that is found in none of the open scopes gets a new entry, or waits. What waits is settled at the end.
Here this is said once; what building keeps is proved from it.
-/

namespace CartLua

open List Option

def ScopeNode.kind : ScopeNode → ScopeKind
  | .chunk _ => .global
  | .function .. => .function
  | .block _ | .clause _ => .block
  | .table _ => .table

namespace Scope

def frame (s : Scope) : Scope := { s with symbols := {} }

/-- The locals that are reported when a scope is closed. -/
def closing (s : Scope) : List Declared :=
  match s.kind with
  | .global | .table => []
  | .function | .block => s.declared

/-- A scope that is closed. The locals of a function or a block are settled then. -/
def close (s : Scope) : Scope :=
  match s.kind with
  | .global | .table => s
  | .function | .block => { s with declared := [] }

theorem close_eq (s : Scope) : s.close = s ∧ (s.kind = .global ∨ s.kind = .table) ∨
    s.close = { s with declared := [] } ∧ s.kind ≠ .global ∧ s.kind ≠ .table := by
  unfold close
  split <;> simp_all

/-- A scope that has got a child or was closed. -/
def Keeps (s s' : Scope) : Prop :=
  ∃ children declared, s' = { s with children, declared } ∧
    (declared = s.declared ∨ declared = [] ∧ s.kind ≠ .global ∧ s.kind ≠ .table)

theorem Keeps.refl (s : Scope) : s.Keeps s := ⟨_, _, rfl, .inl rfl⟩

theorem keeps_close (s : Scope) : s.Keeps s.close := by
  rcases s.close_eq with ⟨hclose, -⟩ | ⟨hclose, hkind⟩
  · rw [hclose]
    exact .refl s
  · exact ⟨_, _, hclose, .inr ⟨rfl, hkind⟩⟩

end Scope

theorem rootName_append_dot (before part : String) : rootName (before ++ "." ++ part) = rootName before := by
  have htoList : (before ++ "." ++ part).toList = before.toList ++ '.' :: part.toList := by simp
  rw [rootName, rootName, htoList, takeWhile_append]
  split
  next hall => simp [(List.takeWhile_prefix _).eq_of_length hall]
  next => rfl

theorem rootName_rootName (name : String) : rootName (rootName name) = rootName name := by
  simp [rootName, takeWhile_idem]

variable {e : Expr} {ctx : Context} {event : Event} {id : Identifier}

theorem Expr.chain_cases (e : Expr) :
    (∃ id rest, e.root? = some id ∧ e.segments? = some ((id.name, id.span) :: rest)) ∨
      e.root? = none ∧ e.segments? = none := by
  induction e using Expr.root?.induct with
  | case1 id => exact .inl ⟨id, [], rfl, rfl⟩
  | case2 base indexer key span ih =>
    rcases ih with ⟨id, rest, hroot, hsegments⟩ | ⟨hroot, hsegments⟩
    · exact .inl ⟨id, rest ++ [(key.name, span)], hroot, by simp [Expr.segments?, hsegments]⟩
    · exact .inr ⟨hroot, by simp [Expr.segments?, hsegments]⟩
  | case3 e hname hmember =>
    cases e with
    | name id => exact absurd rfl (hname id)
    | member base indexer key span => exact absurd rfl (hmember base indexer key span)
    | _ => exact .inr ⟨rfl, rfl⟩

theorem Expr.segments?_of_root? (h : e.root? = some id) : ∃ rest, e.segments? = some ((id.name, id.span) :: rest) := by
  rcases e.chain_cases with ⟨id', rest, hroot, hsegments⟩ | ⟨hroot, -⟩
  · obtain rfl := some.inj (hroot.symm.trans h)
    exact ⟨rest, hsegments⟩
  · cases hroot.symm.trans h

namespace Event

/-- The name that an event refers to, alone or at the start of a chain. -/
def reference? : Event → Option Identifier
  | .expression e ctx => if (localName? e ctx.role.declaration).isSome then none else e.root?
  | _ => none

/-- The name that an event writes: the target of an assignment, or the name of a function that is no local. -/
def written? : Event → Option Identifier
  | .expression e ctx => if ctx.role.target && !ctx.role.declaration then e.asName? else none
  | _ => none

theorem exists_of_written? (h : event.written? = some id) :
    ∃ ctx, event = .expression (.name id) ctx ∧ ctx.role.target = true ∧ ctx.role.declaration = false := by
  cases event with
  | expression e ctx =>
    rw [written?] at h
    split at h
    next hrole =>
      cases e with
      | name =>
        obtain rfl := some.inj h
        rw [Bool.and_eq_true, Bool.not_eq_true'] at hrole
        exact ⟨ctx, rfl, hrole⟩
      | _ => cases h
    next => cases h
  | _ => cases h

theorem exists_of_reference? (h : event.reference? = some id) :
    ∃ e ctx, event = .expression e ctx ∧ localName? e ctx.role.declaration = none ∧ e.root? = some id := by
  cases event with
  | expression e ctx =>
    rw [reference?] at h
    split at h
    next => cases h
    next hlocal => exact ⟨e, ctx, rfl, not_isSome_iff_eq_none.mp hlocal, h⟩
  | _ => cases h

theorem reference?_of_written? (h : event.written? = some id) : event.reference? = some id := by
  obtain ⟨ctx, rfl, -, hdeclaration⟩ := exists_of_written? h
  simp [reference?, localName?, hdeclaration, Expr.root?]

theorem written?_eq {rest : List (String × Span)} (hlocal : localName? e ctx.role.declaration = none)
    (hroot : e.root? = some id) (hsegments : e.segments? = some ((id.name, id.span) :: rest)) :
    (Event.expression e ctx).written? = if ctx.role.target && rest.isEmpty then some id else none := by
  cases e with
  | name =>
    obtain rfl := some.inj hroot
    obtain ⟨-, rfl⟩ := cons.inj (some.inj hsegments)
    have hdeclaration : ctx.role.declaration = false := by
      by_contra hdeclaration
      simp [localName?, Expr.asName?, hdeclaration] at hlocal
    simp [written?, hdeclaration, Expr.asName?]
  | member base =>
    have hrest : rest ≠ [] := by
      rintro rfl
      obtain ⟨before, hbefore, heq⟩ := map_eq_some_iff.mp hsegments
      rcases base.chain_cases with ⟨_, _, -, hbase⟩ | ⟨-, hbase⟩
      · obtain rfl := some.inj (hbase.symm.trans hbefore)
        simp at heq
      · cases hbase.symm.trans hbefore
    simp [written?, Expr.asName?, hrest]
  | _ => cases hroot

end Event

namespace CrossReference

/-- A path may wait in any scope. A plain name waits for a global. -/
def EarlyReference.Proper (r : EarlyReference) : Prop :=
  r.isPath = true ∧ '.' ∈ r.name.toList ∨ r.isPath = false ∧ r.home = 0

namespace Builder

open Scoping

variable {b b' b'' : Builder} {i : EntryId} {home : ScopeId} {name path : String} {span : Span} {spans : List Span}

/-! ### Entries -/

section

variable (b) (i) (span)

@[simp] theorem entries_addUsage : (b.addUsage i span).index.entries =
    b.index.entries.modify i fun e => { e with usages := e.usages.push span } := rfl

@[simp] theorem entries_addDefinition : (b.addDefinition i span).index.entries =
    b.index.entries.modify i fun e => { e with definitions := e.definitions.push span } := rfl

@[simp] theorem scopes_addUsage : (b.addUsage i span).index.scopes = b.index.scopes := rfl

@[simp] theorem scopes_addDefinition : (b.addDefinition i span).index.scopes = b.index.scopes := rfl

@[simp] theorem early_addUsage : (b.addUsage i span).early = b.early := rfl

@[simp] theorem early_addDefinition : (b.addDefinition i span).early = b.early := rfl

@[simp] theorem warnings_addUsage : (b.addUsage i span).warnings = b.warnings := rfl

@[simp] theorem warnings_addDefinition : (b.addDefinition i span).warnings = b.warnings := rfl

end

section

variable (b : Builder) (id : ScopeId) (name : String) (span : Span)

theorem addEntry_lt : (b.addEntry name).1 < (b.addEntry name).2.index.entries.size := by
  simp [addEntry]

theorem early_define :
    (b.define id name span).2.early = b.early := rfl

theorem modify_push (entries : Array Entry) (e : Entry) (f : Entry → Entry) :
    (entries.push e).modify entries.size f = entries.push (f e) := by
  refine Array.ext_getElem? fun i => ?_
  rw [Array.getElem?_modify, Array.getElem?_push, Array.getElem?_push]
  by_cases hi : i = entries.size
  · simp [hi]
  · simp [hi, Ne.symm hi]

theorem entries_define :
    (b.define id name span).2.index.entries = b.index.entries.push { name, definitions := #[span], usages := #[span] } := by
  simp [define, addEntry, addSymbol, modifyScope, modify_push]

theorem entries_addEntry_addUsage :
    ((b.addEntry name).2.addUsage b.index.entries.size span).index.entries =
      b.index.entries.push { name, usages := #[span] } := by
  simp [addEntry, modify_push]

theorem getElem?_define :
    (b.define id name span).2.index.entries[b.index.entries.size]? =
      some { name, definitions := #[span], usages := #[span] } := by
  rw [entries_define]
  exact Array.getElem?_push_size

/-! ### Symbols -/

def symbolAt? : Option EntryId := (b.scope? id).bind (·.symbols.get? name)

/-- The path of the table that a scope stands for. -/
def tableAt? : Option String := (b.scope? id).bind (·.tableName)

/-- The locals of a scope whose use is not settled yet. -/
def declaredAt : List Declared := ((b.scope? id).map (·.declared)).getD []

def kindAt? : Option ScopeKind := (b.scope? id).map (·.kind)

theorem find?_eq :
    b.find? name = b.openScopes.findSome? fun id => (b.symbolAt? id name).map (id, ·) := by
  unfold find? symbolAt?
  congr 1
  funext id
  cases b.scope? id <;> rfl

theorem nonLocal?_eq_filter :
    b.nonLocal? id name = (b.symbolAt? id name).filter fun i => !(b.declaredAt id).any (·.entry == i) := by
  rw [nonLocal?, symbolAt?, declaredAt]
  cases b.scope? id <;> rfl

end

theorem find?_eq_some {scope : ScopeId} (h : b.find? name = some (scope, i)) :
    scope ∈ b.openScopes ∧ b.symbolAt? scope name = some i := by
  rw [find?_eq] at h
  obtain ⟨id, hid, hsymbol⟩ := exists_of_findSome?_eq_some h
  obtain ⟨j, hj, heq⟩ := map_eq_some_iff.mp hsymbol
  obtain ⟨rfl, rfl⟩ := Prod.mk.inj heq
  exact ⟨hid, hj⟩

theorem find?_eq_none_iff : b.find? name = none ↔ ∀ id ∈ b.openScopes, b.symbolAt? id name = none := by
  rw [find?_eq, findSome?_eq_none_iff]
  simp

theorem scope?_modifyScope (b : Builder) (id other : ScopeId) (f : Scope → Scope) :
    (b.modifyScope id f).scope? other = if id = other then (b.scope? other).map f else b.scope? other :=
  Array.getElem?_modify

theorem symbolAt?_addSymbol_of_ne (b : Builder) {id other : ScopeId} {key : String} (i : EntryId)
    (hne : ¬(id = other ∧ key = name)) : (b.addSymbol id name i).symbolAt? other key = b.symbolAt? other key := by
  rw [symbolAt?, symbolAt?, addSymbol, scope?_modifyScope]
  split
  next hid =>
    have hkey : key ≠ name := fun hkey => hne ⟨hid, hkey⟩
    cases b.scope? other <;> simp [hkey]
  next => rfl

theorem symbolAt?_addSymbol (hscope : b.scope? home ≠ none) (path : String) (i : EntryId) (k : ScopeId) (p : String) :
    (b.addSymbol home path i).symbolAt? k p = if home = k ∧ p = path then some i else b.symbolAt? k p := by
  split
  next hsame =>
    obtain ⟨rfl, rfl⟩ := hsame
    obtain ⟨s, hs⟩ := ne_none_iff_exists'.mp hscope
    simp [symbolAt?, addSymbol, scope?_modifyScope, hs]
  next hne => exact symbolAt?_addSymbol_of_ne b i hne

theorem symbolAt?_addSymbol_cases (b : Builder) (id : ScopeId) (name : String) (i : EntryId) (other : ScopeId)
    (key : String) : (b.addSymbol id name i).symbolAt? other key = b.symbolAt? other key ∨
      (id = other ∧ key = name) ∧ (b.addSymbol id name i).symbolAt? other key = some i := by
  by_cases hsame : id = other ∧ key = name
  · by_cases hscope : b.scope? id = none
    · exact .inl (by simp [symbolAt?, addSymbol, scope?_modifyScope, ← hsame.1, hscope])
    · exact .inr ⟨hsame, by rw [symbolAt?_addSymbol hscope, if_pos hsame]⟩
  · exact .inl (symbolAt?_addSymbol_of_ne b i hsame)

theorem symbolAt?_define (hscope : b.scope? home ≠ none) (path : String) (span : Span) (k : ScopeId) (p : String) :
    (b.define home path span).2.symbolAt? k p =
      if home = k ∧ p = path then some b.index.entries.size else b.symbolAt? k p :=
  symbolAt?_addSymbol (b := ((b.addEntry path).2.addDefinition _ span).addUsage _ span) hscope path _ k p

/-! ### Declarations -/

section

variable {id : ScopeId} {outer : List ScopeId} (hids : b.openScopes = id :: outer) (hvalid : id < b.index.scopes.size)
  (d : Identifier) (isParameter : Bool)

include hids in
theorem declare_eq : b.declare d isParameter = (b.define id d.name d.span).2.modifyScope id fun s =>
    { s with declared := s.declared ++ [⟨b.index.entries.size, isParameter, d.span⟩] } := by
  rw [declare, hids]
  rfl

include hids in
theorem scope?_declare (other : ScopeId) : (b.declare d isParameter).scope? other = if id = other then
    (b.scope? other).map fun s => { s with
      symbols := s.symbols.insert d.name b.index.entries.size,
      declared := s.declared ++ [⟨b.index.entries.size, isParameter, d.span⟩] }
    else b.scope? other := by
  rw [declare_eq hids, scope?_modifyScope, define]
  dsimp only
  rw [addSymbol, scope?_modifyScope]
  split
  · rw [Option.map_map]
    rfl
  · rfl

include hids in
theorem entries_declare : (b.declare d isParameter).index.entries = (b.define id d.name d.span).2.index.entries := by
  rw [declare_eq hids]
  rfl

theorem openScopes_declare (b : Builder) : (b.declare d isParameter).openScopes = b.openScopes := by
  unfold declare
  split <;> rfl

theorem early_declare (b : Builder) : (b.declare d isParameter).early = b.early := by
  unfold declare
  split <;> rfl

theorem warnings_declare (b : Builder) : (b.declare d isParameter).warnings = b.warnings := by
  unfold declare
  split <;> rfl

theorem size_declare (b : Builder) : (b.declare d isParameter).index.scopes.size = b.index.scopes.size := by
  unfold declare
  split
  · rfl
  · simp [define, addSymbol, modifyScope, addEntry]

theorem kindAt?_declare (b : Builder) (other : ScopeId) : (b.declare d isParameter).kindAt? other = b.kindAt? other := by
  cases hids : b.openScopes with
  | nil => rw [declare, hids]
  | cons =>
    rw [kindAt?, kindAt?, scope?_declare hids]
    split
    · rw [Option.map_map]
      rfl
    · rfl

include hids hvalid

theorem symbolAt?_declare (other : ScopeId) (name : String) : (b.declare d isParameter).symbolAt? other name =
    if id = other ∧ name = d.name then some b.index.entries.size else b.symbolAt? other name := by
  rw [symbolAt?, symbolAt?, scope?_declare hids]
  by_cases hid : id = other
  · subst hid
    obtain ⟨s, hs⟩ : ∃ s, b.scope? id = some s := ⟨_, Array.getElem?_eq_getElem hvalid⟩
    simp [hs, NameMap.get?_insert]
  · simp [hid]

theorem declaredAt_declare (other : ScopeId) : (b.declare d isParameter).declaredAt other =
    b.declaredAt other ++ if id = other then [⟨b.index.entries.size, isParameter, d.span⟩] else [] := by
  rw [declaredAt, declaredAt, scope?_declare hids]
  by_cases hid : id = other
  · subst hid
    obtain ⟨s, hs⟩ : ∃ s, b.scope? id = some s := ⟨_, Array.getElem?_eq_getElem hvalid⟩
    simp [hs]
  · simp [hid]

end

/-! ### Scopes -/

theorem exists_enter (b : Builder) (node : ScopeNode) (ctx : Context) :
    ∃ (scope : Scope) (scopes : Array Scope), b.enter node ctx =
        { b with openScopes := b.index.scopes.size :: b.openScopes, index.scopes := scopes } ∧
      scopes.size = b.index.scopes.size + 1 ∧
      (∀ id, scopes[id]? = if id = b.index.scopes.size then some scope
        else (b.scope? id).map fun s =>
          if b.openScopes.head? = some id then { s with children := s.children.push b.index.scopes.size } else s) ∧
      scope.kind = node.kind ∧ scope.span = node.span? ∧ scope.symbols = {} ∧ scope.declared = [] ∧
      scope.parent = b.openScopes.head? ∧
      scope.tableName = match node with | .table _ => b.boundPath? ctx | _ => none := by
  have hopen (scope : Scope) : ∃ scopes : Array Scope, b.openScope scope =
        { b with openScopes := b.index.scopes.size :: b.openScopes, index.scopes := scopes } ∧
      scopes.size = b.index.scopes.size + 1 ∧
      ∀ id, scopes[id]? = if id = b.index.scopes.size then some { scope with parent := b.openScopes.head? }
        else (b.scope? id).map fun s =>
          if b.openScopes.head? = some id then { s with children := s.children.push b.index.scopes.size } else s := by
    unfold openScope
    cases b.openScopes.head? with
    | none => exact ⟨_, rfl, by simp, fun id => by simp [scope?, Array.getElem?_push]⟩
    | some p =>
      refine ⟨_, rfl, by simp [modifyScope], fun id => ?_⟩
      simp only [scope?, modifyScope, Array.getElem?_push, Array.size_modify, Array.getElem?_modify, some.injEq]
      by_cases hp : p = id <;> simp [hp]
  cases node with
  | chunk | function | block | clause | table =>
    obtain ⟨scopes, henter, hsize, hscopes⟩ := hopen _
    exact ⟨_, scopes, henter, hsize, hscopes, rfl, rfl, rfl, rfl, rfl, rfl⟩

/-- The locals that are reported when the innermost scope is closed. -/
def closing (b : Builder) : List Declared := (b.openScopes.head?.bind b.scope?).elim [] Scope.closing

theorem exists_leave (b : Builder) :
    ∃ scopes : Array Scope, b.leave = { b with
        openScopes := b.openScopes.tail, index.scopes := scopes,
        warnings := b.warnings ++ b.closing.filterMap b.unused? } ∧
      scopes.size = b.index.scopes.size ∧
      ∀ id, scopes[id]? = if b.openScopes.head? = some id then (b.scope? id).map Scope.close else b.scope? id := by
  have hscopes (top : ScopeId) (scopes : Array Scope) (f : Scope → Scope)
      (hf : ∀ s, b.scope? top = some s → s.close = f s)
      (hmodify : ∀ id, scopes[id]? = if top = id then (b.scope? id).map f else b.scope? id) (id : ScopeId) :
      scopes[id]? = if some top = some id then (b.scope? id).map Scope.close else b.scope? id := by
    rw [hmodify]
    simp only [some.injEq]
    split
    next heq =>
      subst heq
      exact map_congr fun s hs => (hf s hs).symm
    next => rfl
  unfold leave closing
  obtain ⟨index, openScopes, early, warnings⟩ := b
  cases openScopes with
  | nil => exact ⟨index.scopes, by simp, rfl, fun _ => rfl⟩
  | cons top rest =>
    have hsame := hscopes top index.scopes id
    simp only [head?_cons, tail_cons, bind_some]
    cases hs : scope? ⟨index, top :: rest, early, warnings⟩ top with
    | none =>
      rw [show scope? ⟨index, rest, early, warnings⟩ top = none from hs]
      refine ⟨index.scopes, by simp, rfl, hsame (fun s hs' => ?_) fun id => by simp [scope?]⟩
      cases hs.symm.trans hs'
    | some s =>
      rw [show scope? ⟨index, rest, early, warnings⟩ top = some s from hs]
      have hclose (s' : Scope) (hs' : scope? ⟨index, top :: rest, early, warnings⟩ top = some s') : s = s' :=
        some.inj (hs.symm.trans hs')
      cases hkind : s.kind with
      | global | table =>
        refine ⟨index.scopes, by simp [hkind, Scope.closing], rfl, hsame (fun s' hs' => ?_) fun id => by simp [scope?]⟩
        rw [← hclose s' hs', Scope.close, hkind]
        rfl
      | function | block =>
        refine ⟨_, by simp only [hkind, elim_some, Scope.closing]; rfl, by simp,
          hscopes top _ _ (fun s' hs' => ?_) fun id => Array.getElem?_modify⟩
        rw [← hclose s' hs', Scope.close, hkind]

theorem openScopes_enter (b : Builder) (node : ScopeNode) (ctx : Context) :
    (b.enter node ctx).openScopes = b.index.scopes.size :: b.openScopes := by
  obtain ⟨_, _, henter, -⟩ := exists_enter b node ctx
  rw [henter]

theorem openScopes_leave (b : Builder) : b.leave.openScopes = b.openScopes.tail := by
  obtain ⟨_, hleave, -⟩ := exists_leave b
  rw [hleave]

/-- What a builder knows of names when scopes are opened or closed. -/
structure SameNames (b b' : Builder) : Prop where
  entries : b'.index.entries = b.index.entries
  early : b'.early = b.early
  scopes : ∀ id s, b.scope? id = some s → ∃ s', b'.scope? id = some s' ∧ s.Keeps s'
  fresh : ∀ id s, b.scope? id = none → b'.scope? id = some s → s.symbols = {} ∧ s.declared = []

theorem sameNames_enter (b : Builder) (node : ScopeNode) (ctx : Context) : SameNames b (b.enter node ctx) := by
  obtain ⟨scope, scopes, henter, -, hscopes, -, -, hsymbols, hdeclared, -⟩ := exists_enter b node ctx
  rw [henter]
  refine ⟨rfl, rfl, fun id s hs => ?_, fun id s hnone hs => ?_⟩
  · have hne : id ≠ b.index.scopes.size := (Array.getElem?_eq_some_iff.mp hs).1.ne
    refine ⟨_, (hscopes id).trans ((if_neg hne).trans (by rw [hs, map_some])), ?_⟩
    split
    · exact ⟨_, _, rfl, .inl rfl⟩
    · exact .refl s
  · rw [scope?, hscopes, hnone] at hs
    split at hs
    · obtain rfl := some.inj hs
      exact ⟨hsymbols, hdeclared⟩
    · cases hs

theorem sameNames_leave (b : Builder) : SameNames b b.leave := by
  obtain ⟨scopes, hleave, -, hscopes⟩ := exists_leave b
  rw [hleave]
  refine ⟨rfl, rfl, fun id s hs => ?_, fun id s hnone hs => ?_⟩
  · rw [scope?, hscopes, hs]
    split
    · exact ⟨_, rfl, s.keeps_close⟩
    · exact ⟨s, rfl, .refl s⟩
  · rw [scope?, hscopes, hnone, map_none, ite_self] at hs
    cases hs

namespace SameNames

variable {id : ScopeId} (h : SameNames b b')

include h

theorem symbols (id : ScopeId) (name : String) : b'.symbolAt? id name = b.symbolAt? id name := by
  unfold symbolAt?
  cases hs : b.scope? id with
  | none =>
    cases hs' : b'.scope? id with
    | none => rfl
    | some s' => exact congrArg (·.get? name) (h.fresh id s' hs hs').1
  | some s =>
    obtain ⟨_, hs', _, _, rfl, -⟩ := h.scopes id s hs
    rw [hs']
    rfl

theorem kind {k : ScopeKind} (hkind : b.kindAt? id = some k) : b'.kindAt? id = some k := by
  obtain ⟨s, hs, rfl⟩ := map_eq_some_iff.mp hkind
  obtain ⟨_, hs', _, _, rfl, -⟩ := h.scopes id s hs
  rw [kindAt?, hs']
  rfl

theorem tableAt (hid : id < b.index.scopes.size) : b'.tableAt? id = b.tableAt? id := by
  have hs : b.scope? id = some b.index.scopes[id] := Array.getElem?_eq_getElem hid
  obtain ⟨_, hs', _, _, rfl, -⟩ := h.scopes id _ hs
  rw [tableAt?, tableAt?, hs', hs]
  rfl

theorem declared (hkind : b.kindAt? id = some .global) : b'.declaredAt id = b.declaredAt id := by
  obtain ⟨s, hs, hglobal⟩ := map_eq_some_iff.mp hkind
  obtain ⟨_, hs', _, _, rfl, rfl | ⟨-, hne, -⟩⟩ := h.scopes id s hs
  · rw [declaredAt, declaredAt, hs', hs]
    rfl
  · exact absurd hglobal hne

theorem mem_declared {d : Declared} (hd : d ∈ b'.declaredAt id) : d ∈ b.declaredAt id := by
  unfold declaredAt at hd ⊢
  cases hs : b.scope? id with
  | none =>
    cases hs' : b'.scope? id with
    | none => simp [hs'] at hd
    | some s' => simp [hs', (h.fresh id s' hs hs').2] at hd
  | some s =>
    obtain ⟨_, hs', _, _, rfl, rfl | ⟨rfl, -⟩⟩ := h.scopes id s hs
    · rwa [hs'] at hd
    · simp [hs'] at hd

end SameNames

/-! ### Acts -/

/-- The scope that a path belongs to has a symbol for something with the same root, or is the global one. -/
def Rooted (b : Builder) (home : ScopeId) (path : String) : Prop :=
  home = 0 ∨ ∃ before, b.symbolAt? home before ≠ none ∧ rootName before = rootName path

/-- What is done for a name at a span. A plain name gets a new entry only if it is the one that is written. -/
inductive Act (written : Option String) (b : Builder) (span : Span) : Builder → Prop where
  | usage {name : String} {scope : ScopeId} {i : EntryId} (hfind : b.find? name = some (scope, i)) :
    Act written b span (b.addUsage i span)
  | write {name : String} {scope : ScopeId} {i : EntryId} (hfind : b.find? name = some (scope, i)) :
    Act written b span ((b.addUsage i span).addDefinition i span)
  | define {home : ScopeId} {path : String} (hnone : b.find? path = none) (hopen : home ∈ b.openScopes)
    (hrooted : b.Rooted home path) (hpath : '.' ∈ path.toList ∨ home = 0 ∧ written = some path) :
    Act written b span (b.define home path span).2
  | wait {home : ScopeId} {path : String} {isPath : Bool} (hrooted : b.Rooted home path)
    (hproper : EarlyReference.Proper ⟨path, span, home, isPath⟩) :
    Act written b span { b with early := b.early.push ⟨path, span, home, isPath⟩ }

inductive Acts (written : Option String) : Builder → List Span → Builder → Prop where
  | nil (b : Builder) : Acts written b [] b
  | cons {b b' b'' : Builder} {span : Span} {spans : List Span} (h : Act written b span b')
    (hrest : Acts written b' spans b'') : Acts written b (span :: spans) b''

variable {written : Option String}

theorem Act.openScopes (h : Act written b span b') : b'.openScopes = b.openScopes := by
  cases h <;> rfl

theorem Act.symbolAt? (h : Act written b span b') {id : ScopeId} (hi : b.symbolAt? id name = some i) :
    b'.symbolAt? id name = some i := by
  cases h with
  | usage | write | wait => exact hi
  | define hnone hopen =>
    refine (symbolAt?_addSymbol_of_ne _ _ ?_).trans hi
    rintro ⟨rfl, rfl⟩
    cases hi.symm.trans (find?_eq_none_iff.mp hnone _ hopen)

theorem Rooted.act (h : b.Rooted home path) (hact : Act written b span b') : b'.Rooted home path := by
  rcases h with hzero | ⟨before, hsome, hroot⟩
  · exact .inl hzero
  · obtain ⟨i, hi⟩ := ne_none_iff_exists'.mp hsome
    exact .inr ⟨before, by rw [hact.symbolAt? hi]; exact some_ne_none i, hroot⟩

/-! ### Chains and fields -/

/-- The scope that the members of a name belong to. -/
def homeOf (b : Builder) (root : String) : ScopeId := ((b.find? root).map (·.1)).getD 0

theorem homeOf_mem (hopen : 0 ∈ b.openScopes) (root : String) : b.homeOf root ∈ b.openScopes := by
  unfold homeOf
  cases hfind : b.find? root with
  | none => exact hopen
  | some => exact (find?_eq_some hfind).1

theorem rooted_homeOf {root : String} (h : rootName root = rootName path) : b.Rooted (b.homeOf root) path := by
  unfold homeOf
  cases hfind : b.find? root with
  | none => exact .inl rfl
  | some => exact .inr ⟨root, by simp [(find?_eq_some hfind).2], h⟩

theorem act_addPart {isRoot writes : Bool} (hopen : home ∈ b.openScopes) (hrooted : b.Rooted home path)
    (hpath : '.' ∈ path.toList ∨ isRoot = true ∧ home = 0 ∧ (writes = true → written = some path)) (span : Span) :
    Act written b span (b.addPart home isRoot writes path span) := by
  unfold addPart
  split
  next hfind =>
    dsimp only
    split
    · exact .write hfind
    · exact .usage hfind
  next hnone =>
    split
    next hwrites => exact .define hnone hopen hrooted (hpath.imp_right fun h => ⟨h.2.1, h.2.2 hwrites⟩)
    next =>
      apply Act.wait hrooted
      by_cases hdotted : '.' ∈ path.toList
      · exact .inl ⟨by simp [hdotted], hdotted⟩
      · obtain ⟨rfl, rfl, -⟩ := hpath.resolve_left hdotted
        exact .inr ⟨by simp [hdotted], rfl⟩

theorem acts_addParts {parts : List (String × Span)} (hopen : home ∈ b.openScopes)
    (hparts : ∀ part ∈ parts, '.' ∈ part.1.toList ∧ b.Rooted home part.1) (isTarget : Bool) :
    Acts written b (parts.map (·.2)) (b.addParts home isTarget parts) := by
  induction parts generalizing b with
  | nil => exact .nil b
  | cons part rest ih =>
    obtain ⟨⟨hdotted, hrooted⟩, hrest⟩ := forall_mem_cons.mp hparts
    have hact : Act written b part.2 (b.addPart home false (isTarget && rest.isEmpty) part.1 part.2) :=
      act_addPart hopen hrooted (.inl hdotted) part.2
    refine .cons hact (ih (hact.openScopes ▸ hopen) fun other hother => ?_)
    exact ⟨(hrest other hother).1, (hrest other hother).2.act hact⟩

theorem map_pathsFrom (before : String) (parts : List (String × Span)) :
    (pathsFrom before parts).map (·.2) = parts.map (·.2) := by
  induction parts generalizing before with
  | nil => rfl
  | cons part rest ih => simp [pathsFrom, ih]

theorem dotted_pathsFrom (before : String) (parts : List (String × Span)) :
    ∀ part ∈ pathsFrom before parts, '.' ∈ part.1.toList := by
  induction parts generalizing before with
  | nil => exact nofun
  | cons part rest ih =>
    rw [pathsFrom, forall_mem_cons]
    exact ⟨by simp, ih _⟩

theorem rootName_pathsFrom (before : String) (parts : List (String × Span)) :
    ∀ part ∈ pathsFrom before parts, rootName part.1 = rootName before := by
  induction parts generalizing before with
  | nil => exact nofun
  | cons part rest ih =>
    rw [pathsFrom, forall_mem_cons]
    refine ⟨rootName_append_dot before part.1, fun other hother => ?_⟩
    rw [ih _ other hother, rootName_append_dot]

theorem act_root (hopen : 0 ∈ b.openScopes) (isTarget : Bool) (root : String) (parts : List (String × Span))
    (hwritten : (isTarget && parts.isEmpty) = true → written = some root) (span : Span) :
    Act written b span (b.addPart 0 true (isTarget && (pathsFrom root parts).isEmpty) root span) := by
  refine act_addPart hopen (.inl rfl) (.inr ⟨rfl, rfl, fun hwrites => hwritten ?_⟩) span
  cases parts
  · exact hwrites
  · simp [pathsFrom] at hwrites

theorem acts_members (hopen : 0 ∈ b.openScopes) (hact : Act written b span b') (isTarget : Bool) (root : String)
    (parts : List (String × Span)) :
    Acts written b' (parts.map (·.2)) (b'.addParts (b.homeOf root) isTarget (pathsFrom root parts)) := by
  rw [← map_pathsFrom root]
  apply acts_addParts
  · rw [hact.openScopes]
    exact homeOf_mem hopen root
  · intro part hpart
    exact ⟨dotted_pathsFrom root parts part hpart,
      (rooted_homeOf (rootName_pathsFrom root parts part hpart).symm).act hact⟩

theorem acts_addField (hopen : 0 ∈ b.openScopes) {layers : List Layer}
    (htable : b.currentTable?.isSome = layers.head?.any (·.isBound)) (f : Field) (ctx : Context) :
    Acts none b ((mentions layers (.field f ctx)).map Mention.span) (b.addField f) := by
  unfold addField
  split
  next table key span hcurrent hname =>
    rw [hcurrent, isSome_some] at htable
    rw [mentions, if_pos htable.symm, hname]
    dsimp only
    split
    next hfind => exact .cons (.write hfind) (.nil _)
    next hnone =>
      refine .cons (.define hnone (homeOf_mem hopen (rootName table)) (rooted_homeOf ?_) (.inl (by simp))) (.nil _)
      rw [rootName_rootName, rootName_append_dot]
  next hnone =>
    have hnothing : mentions layers (.field f ctx) = [] := by
      rw [mentions]
      split
      next hbound =>
        obtain ⟨table, hcurrent⟩ := isSome_iff_exists.mp (htable.trans hbound)
        cases hname : f.name? with
        | none => rfl
        | some key => exact absurd hname (hnone table key.1 key.2 hcurrent)
      next => rfl
    rw [hnothing]
    exact .nil b

/-! ### Events -/

/-- What the name at the start of a chain stands for. -/
def meaning (b : Builder) (name : String) : String := if name = "self" then b.selfAlias?.getD name else name

theorem meaning_of_ne (hself : name ≠ "self") : b.meaning name = name := if_neg hself

theorem map_span_chain (sight : List Identifier) (bound : Bool) {e : Expr} {parts : List (String × Span)}
    (h : e.segments? = some parts) : (Mention.expression sight bound e).map Mention.span = parts.map (·.2) := by
  cases e with
  | name =>
    obtain rfl := some.inj h
    rfl
  | member =>
    obtain ⟨before, hbefore, rfl⟩ := map_eq_some_iff.mp h
    rw [Mention.expression, hbefore, if_pos isSome_some, map_append, map_span_chain sight false hbefore,
      map_append]
    rfl
  | _ => exact absurd h nofun

theorem mention_of_chain (sight : List Identifier) (bound : Bool) {id : Identifier} (h : e.root? = some id) :
    ∀ m ∈ Mention.expression sight bound e, m = .reference id (nearest? sight id.name) ∨ ∃ span, m = .part span := by
  induction e using Expr.root?.induct generalizing bound with
  | case1 =>
    obtain rfl := some.inj h
    exact fun m hm => .inl (mem_singleton.mp hm)
  | case2 base indexer key span ih =>
    obtain ⟨rest, hsegments⟩ := Expr.segments?_of_root? (e := base) h
    rw [Mention.expression, if_pos (by rw [hsegments]; rfl)]
    intro m hm
    rcases mem_append.mp hm with hm | hm
    · exact ih false h m hm
    · exact .inr ⟨span, mem_singleton.mp hm⟩
  | case3 => simp_all [Expr.root?]

theorem addExpression_cases (b : Builder) (e : Expr) (role : Role) :
    (∃ id, localName? e role.declaration = some id ∧ b.addExpression e role = b.declare id false) ∨
      localName? e role.declaration = none ∧
        ((∃ id parts, e.root? = some id ∧ e.segments? = some ((id.name, id.span) :: parts) ∧ b.addExpression e role =
            b.addChain role.target ((b.meaning id.name, id.span) :: pathsFrom (b.meaning id.name) parts)) ∨
          e.segments? = none ∧ b.addExpression e role = b) := by
  have hpaths {id : Identifier} {parts : List (String × Span)} (h : e.segments? = some ((id.name, id.span) :: parts)) :
      (b.paths? e).getD [] = (b.meaning id.name, id.span) :: pathsFrom (b.meaning id.name) parts := by
    simp [paths?, h, meaning]
  cases e with
  | name id =>
    by_cases hrole : role.declaration = true
    · exact .inl ⟨id, by simp [localName?, hrole, Expr.asName?], by simp [addExpression, hrole]⟩
    · refine .inr ⟨by simp [localName?, hrole], .inl ⟨id, [], rfl, rfl, ?_⟩⟩
      rw [addExpression, if_neg hrole, hpaths rfl]
  | member base indexer key span =>
    refine .inr ⟨ite_self none, ?_⟩
    rcases (Expr.member base indexer key span).chain_cases with ⟨id, rest, hroot, hsegments⟩ | ⟨-, hnone⟩
    · exact .inl ⟨id, rest, hroot, hsegments, by rw [addExpression, hpaths hsegments]⟩
    · exact .inr ⟨hnone, by rw [addExpression, paths?, hnone]; rfl⟩
  | _ => exact .inr ⟨ite_self none, .inr ⟨rfl, rfl⟩⟩

/-! ### Early references -/

theorem settle_cases (b : Builder) (r : EarlyReference) :
    (∃ i, (b.nonLocal? r.home r.name = some i ∨ b.nonLocal? 0 r.name = some i) ∧ b.settle r = b.addUsage i r.span) ∨
      b.nonLocal? r.home r.name = none ∧ b.nonLocal? 0 r.name = none ∧
        (r.isPath = true ∧ b.settle r = (b.define r.home r.name r.span).2 ∨
          r.isPath = false ∧ isBuiltin r.name = true ∧ b.settle r =
            ((b.addEntry r.name).2.addUsage b.index.entries.size r.span).addSymbol 0 r.name b.index.entries.size ∨
          r.isPath = false ∧ isBuiltin r.name = false ∧
            b.settle r = { b with warnings := b.warnings.push ⟨.undefinedVariable r.name, r.span⟩ }) := by
  unfold settle
  split
  next i hi =>
    refine .inl ⟨i, ?_, rfl⟩
    cases hhome : b.nonLocal? r.home r.name with
    | none => exact .inr (by simpa [hhome] using hi)
    | some => exact .inl (by simpa [hhome] using hi)
  next hnone =>
    obtain ⟨hhome, hglobal⟩ : b.nonLocal? r.home r.name = none ∧ b.nonLocal? 0 r.name = none := by simpa using hnone
    refine .inr ⟨hhome, hglobal, ?_⟩
    split
    next hpath => exact .inl ⟨hpath, rfl⟩
    next hpath =>
      rw [Bool.not_eq_true] at hpath
      split
      next hbuiltin => exact .inr (.inl ⟨hpath, hbuiltin, rfl⟩)
      next hbuiltin => exact .inr (.inr ⟨hpath, Bool.not_eq_true _ ▸ hbuiltin, rfl⟩)

end Builder

end CrossReference

end CartLua
