import CartLua.Proofs.Registration
/-!
# Members and their variables

The members of a variable belong to the scope that the variable was found in: that is where a path such as `a.b` gets its
symbol. But a path is looked up by its text in all open scopes, without regard to its root. So the entry of a path lies in
the scope of the variable that the path starts with, or in a scope around it. In the second case the path is taken for a
member of another variable, which is hidden where the path is used.

Symbols of paths never change their scope and are never replaced, since locals are plain names; and a scope other than the
global one that has a symbol for a path has one for the root of the path.
-/

namespace CartLua

open Option
open List hiding span any_eq_true

open Relation (ReflTransGen)

variable {name : String}

theorem rootName_of_plain (h : '.' ∉ name.toList) : rootName name = name := by
  have hall : ∀ c ∈ name.toList, (c != '.') = true := by
    intro c hc
    simp only [bne_iff_ne, ne_eq]
    rintro rfl
    exact h hc
  rw [rootName, takeWhile_eq_self_iff.mpr hall, String.ofList_toList]

variable {event : Event} {path : String}

namespace Event

/-- The paths that an event reaches: those of the members in the chain that is visited, if it starts with a name. -/
def members : Event → List (Identifier × String × Span)
  | .expression e _ =>
    match e.root?, e.segments? with
    | some root, some (_ :: parts) => (CrossReference.Builder.pathsFrom root.name parts).map (root, ·)
    | _, _ => []
  | _ => []

variable {root : Identifier} {span : Span}

theorem exists_of_mem_members (h : (root, path, span) ∈ event.members) :
    ∃ e ctx parts, event = .expression e ctx ∧ e.root? = some root ∧
      e.segments? = some ((root.name, root.span) :: parts) ∧
      (path, span) ∈ CrossReference.Builder.pathsFrom root.name parts := by
  cases event with
  | expression e ctx =>
    rw [members] at h
    split at h
    next root' first parts hroot hsegments =>
      obtain ⟨part, hpart, heq⟩ := mem_map.mp h
      obtain ⟨rfl, rfl⟩ := Prod.mk.inj heq
      obtain ⟨rest, hrest⟩ := Expr.segments?_of_root? hroot
      obtain ⟨-, rfl⟩ := cons.inj (some.inj (hrest.symm.trans hsegments))
      exact ⟨e, ctx, rest, rfl, hroot, hrest, hpart⟩
    next => cases h
  | _ => cases h

theorem dotted_of_mem_members (h : (root, path, span) ∈ event.members) :
    '.' ∈ path.toList := by
  obtain ⟨_, _, parts, -, -, -, hpart⟩ := exists_of_mem_members h
  exact CrossReference.Builder.dotted_pathsFrom root.name parts _ hpart

theorem rootName_of_mem_members (h : (root, path, span) ∈ event.members)
    (hplain : '.' ∉ root.name.toList) : rootName path = root.name := by
  obtain ⟨_, _, parts, -, -, -, hpart⟩ := exists_of_mem_members h
  exact (CrossReference.Builder.rootName_pathsFrom root.name parts _ hpart).trans (rootName_of_plain hplain)

end Event

/-- The paths that are used in a program, each with the name that it starts with. -/
def memberUses (body : Block) : List (Identifier × String × Span) :=
  (Walk.chunk CrossReference.below body).flatMap Event.members

/-- What a name stands for belongs to a scope: a local to the one that it is declared in, a global to the global one. -/
def Scoping.Ledger.Owns (l : Scoping.Ledger) (home : ScopeId) (name : String) : Option Identifier → Prop
  | some d => home < l.nodes.length ∧ d ∈ l.locals home ∧ d.name = name
  | none => home = 0

namespace CrossReference

def symbol? (x : CrossReference) (id : ScopeId) (name : String) : Option EntryId :=
  x.scopes[id]?.bind (·.symbols.get? name)

def parent? (x : CrossReference) (id : ScopeId) : Option ScopeId := x.scopes[id]?.bind (·.parent)

/-- A scope is another one or stands around it. -/
def Around (x : CrossReference) (outer inner : ScopeId) : Prop := ReflTransGen (x.parent? · = some ·) inner outer

variable {d : Identifier} {home : ScopeId}

namespace Builder

open Scoping

variable {b b' b'' : Builder} {l : Ledger} {layers layers' : List Layer} {locals : Locals} {f : ScopeId → List Identifier} {ids : List ScopeId} {k : ScopeId} {written : Option String} {spans : List Span}

/-! ### What stays -/

/-- The second builder has all that the first one has recorded of paths. -/
structure Carries (b b' : Builder) : Prop where
  parents : ∀ k p, b.index.parent? k = some p → b'.index.parent? k = some p
  members : ∀ k path i, '.' ∈ path.toList → b.symbolAt? k path = some i → b'.symbolAt? k path = some i
  uses : ∀ i span, b.Uses i span → b'.Uses i span
  early : ∀ r ∈ b.early.toList, r ∈ b'.early.toList

namespace Carries

theorem refl (b : Builder) : Carries b b := ⟨fun _ _ h => h, fun _ _ _ _ h => h, fun _ _ h => h, fun _ h => h⟩

theorem trans (h : Carries b b') (h' : Carries b' b'') : Carries b b'' where
  parents k p hp := h'.parents k p (h.parents k p hp)
  members k path i hpath hi := h'.members k path i hpath (h.members k path i hpath hi)
  uses i span huses := h'.uses i span (h.uses i span huses)
  early r hr := h'.early r (h.early r hr)

theorem around (h : Carries b b') {outer inner : ScopeId} (haround : b.index.Around outer inner) :
    b'.index.Around outer inner := by
  induction haround with
  | refl => exact .refl
  | tail _ hparent ih => exact ih.tail (h.parents _ _ hparent)

end Carries

variable {id : ScopeId} {outer : List ScopeId} {r : EarlyReference}

theorem parent?_of_frame (h : (b'.scope? id).map Scope.frame = (b.scope? id).map Scope.frame) :
    b'.index.parent? id = b.index.parent? id := by
  have hparent (b : Builder) : b.index.parent? id = ((b.scope? id).map Scope.frame).bind (·.parent) := by
    rw [bind_map]
    rfl
  rw [hparent, hparent, h]

theorem Acts.carries (h : Acts written b spans b') : Carries b b' where
  parents k _ hp := (parent?_of_frame (h.extends.frame k)).trans hp
  members _ _ _ _ hi := h.symbolAt? hi
  uses _ _ huses := h.extends.uses huses
  early := h.extends.early

theorem Act.acts (h : Act written b span b') : Acts written b [span] b' := .cons h (.nil b')

theorem carries_declare (hids : b.openScopes = id :: outer)
    (hvalid : id < b.index.scopes.size) (hplain : '.' ∉ d.name.toList) (isParameter : Bool) :
    Carries b (b.declare d isParameter) := by
  refine ⟨fun k p hp => ?_, fun k path i hpath hi => ?_, fun _ _ huses => (grows_declare hids d isParameter).uses huses,
    fun r hr => by rwa [early_declare]⟩
  · rw [← hp]
    show ((b.declare d isParameter).scope? k).bind _ = (b.scope? k).bind _
    rw [scope?_declare hids]
    split
    · cases b.scope? k <;> rfl
    · rfl
  · rw [symbolAt?_declare hids hvalid, if_neg, hi]
    rintro ⟨-, rfl⟩
    exact hplain hpath

theorem SameNames.carries (h : SameNames b b') : Carries b b' := by
  refine ⟨fun k p hp => ?_, fun k path i _ hi => (h.symbols k path).trans hi, fun _ _ huses => h.grows.uses huses,
    fun r hr => h.early ▸ hr⟩
  obtain ⟨s, hs, hparent⟩ := bind_eq_some_iff.mp hp
  obtain ⟨_, hs', _, _, rfl, -⟩ := h.scopes k s hs
  exact bind_eq_some_iff.mpr ⟨_, hs', hparent⟩

/-! ### Where symbols are -/

/-- Every symbol has an entry of its name, which is that of no other scope. In a scope other than the global one there are
no members without a variable. -/
structure Homed (b : Builder) : Prop where
  zero : b.scope? 0 ≠ none
  named : ∀ k p i, b.symbolAt? k p = some i → ∃ e, b.index.entries[i]? = some e ∧ e.name = p
  distinct : ∀ k p k' p' i, b.symbolAt? k p = some i → b.symbolAt? k' p' = some i → k = k'
  rooted : ∀ k p, b.symbolAt? k p ≠ none → k = 0 ∨ b.symbolAt? k (rootName p) ≠ none
  declared : ∀ k, ∀ x ∈ b.declaredAt k, ∃ e, b.index.entries[x.entry]? = some e ∧ '.' ∉ e.name.toList
  early : ∀ r ∈ b.early.toList, r.home = 0 ∨ b.symbolAt? r.home (rootName r.name) ≠ none

namespace Homed

theorem known (h : b.Homed) : b.Known := by
  intro id name i hi
  obtain ⟨e, he, -⟩ := h.named id name i hi
  exact (Array.getElem?_eq_some_iff.mp he).1

theorem nonLocal?_eq (h : b.Homed) {i : EntryId} (hpath : '.' ∈ path.toList) (hi : b.symbolAt? k path = some i) :
    b.nonLocal? k path = some i := by
  rw [nonLocal?_eq_filter, hi, filter_eq_some_iff]
  refine ⟨rfl, ?_⟩
  rw [Bool.not_eq_true', List.any_eq_false]
  intro x hx heq
  obtain ⟨e, he, hplain⟩ := h.declared k x hx
  obtain ⟨e', he', rfl⟩ := h.named k path i hi
  rw [beq_iff_eq.mp heq, he'] at he
  obtain rfl := some.inj he
  exact hplain hpath

theorem of_rooted (h : b.Homed) (hrooted : b.Rooted home path) :
    home = 0 ∨ b.symbolAt? home (rootName path) ≠ none := by
  rcases hrooted with hzero | ⟨before, hsome, hroot⟩
  · exact .inl hzero
  · rw [← hroot]
    exact h.rooted home before hsome

theorem scope?_ne_none (h : b.Homed) (hhome : home = 0 ∨ b.symbolAt? home path ≠ none) : b.scope? home ≠ none := by
  rcases hhome with rfl | hsome
  · exact h.zero
  · intro hnone
    rw [symbolAt?, hnone] at hsome
    exact hsome rfl

theorem quiet (h : b.Homed) (hzero : b'.scope? 0 ≠ none) (hsymbols : ∀ k p, b'.symbolAt? k p = b.symbolAt? k p)
    (hentries : Grows b b') (hdeclared : ∀ k, ∀ x ∈ b'.declaredAt k, x ∈ b.declaredAt k)
    (hearly : ∀ r ∈ b'.early.toList, r ∈ b.early.toList ∨ b.Rooted r.home r.name) : b'.Homed := by
  refine ⟨hzero, fun k p i hi => ?_, fun k p k' p' i hi hi' => ?_, fun k p hsome => ?_, fun k x hx => ?_, fun r hr => ?_⟩
  · obtain ⟨e, he, hname⟩ := h.named k p i (hsymbols k p ▸ hi)
    obtain ⟨e', he', hgrows⟩ := hentries i e he
    exact ⟨e', he', hgrows.name.trans hname⟩
  · exact h.distinct k p k' p' i (hsymbols k p ▸ hi) (hsymbols k' p' ▸ hi')
  · rw [hsymbols] at hsome ⊢
    exact h.rooted k p hsome
  · obtain ⟨e, he, hplain⟩ := h.declared k x (hdeclared k x hx)
    obtain ⟨e', he', hgrows⟩ := hentries _ e he
    exact ⟨e', he', hgrows.name ▸ hplain⟩
  · rw [hsymbols]
    rcases hearly r hr with hr | hrooted
    · exact h.early r hr
    · exact h.of_rooted hrooted

theorem give (h : b.Homed) (home : ScopeId) (path : String) (hzero : b'.scope? 0 ≠ none)
    (hsymbols : ∀ k p, b'.symbolAt? k p =
      if home = k ∧ p = path then some b.index.entries.size else b.symbolAt? k p)
    (hentries : Grows b b') (hnew : ∃ e : Entry, b'.index.entries[b.index.entries.size]? = some e ∧ e.name = path)
    (hhome : home = 0 ∨ rootName path = path ∨ b.symbolAt? home (rootName path) ≠ none)
    (hdeclared : ∀ k, ∀ x ∈ b'.declaredAt k, x ∈ b.declaredAt k ∨
      x.entry = b.index.entries.size ∧ '.' ∉ path.toList)
    (hearly : b'.early = b.early) : b'.Homed := by
  have hlt {k : ScopeId} {p : String} {i : EntryId} (hi : b.symbolAt? k p = some i) : i ≠ b.index.entries.size :=
    (h.known k p i hi).ne
  have hkeep {k : ScopeId} {p : String} (hsome : b.symbolAt? k p ≠ none) : b'.symbolAt? k p ≠ none := by
    rw [hsymbols]
    split
    · exact some_ne_none _
    · exact hsome
  refine ⟨hzero, fun k p i hi => ?_, fun k p k' p' i hi hi' => ?_, fun k p hsome => ?_, fun k x hx => ?_, fun r hr => ?_⟩
  · rw [hsymbols] at hi
    split at hi
    next hsame =>
      obtain rfl := some.inj hi
      rw [hsame.2]
      exact hnew
    next =>
      obtain ⟨e, he, hname⟩ := h.named k p i hi
      obtain ⟨e', he', hgrows⟩ := hentries i e he
      exact ⟨e', he', hgrows.name.trans hname⟩
  · rw [hsymbols] at hi hi'
    split at hi
    next hsame =>
      obtain rfl := some.inj hi
      split at hi'
      next hsame' => exact hsame.1.symm.trans hsame'.1
      next => exact absurd rfl (hlt hi')
    next =>
      split at hi'
      next =>
        obtain rfl := some.inj hi'
        exact absurd rfl (hlt hi)
      next => exact h.distinct k p k' p' i hi hi'
  · rw [hsymbols] at hsome
    split at hsome
    next hsame =>
      obtain ⟨rfl, rfl⟩ := hsame
      rcases hhome with hzero | hroot | hroot
      · exact .inl hzero
      · rw [hroot, hsymbols, if_pos ⟨rfl, rfl⟩]
        exact .inr (some_ne_none _)
      · exact .inr (hkeep hroot)
    next => exact (h.rooted k p hsome).imp_right hkeep
  · rcases hdeclared k x hx with hx | ⟨hentry, hplain⟩
    · obtain ⟨e, he, hplain⟩ := h.declared k x hx
      obtain ⟨e', he', hgrows⟩ := hentries _ e he
      exact ⟨e', he', hgrows.name ▸ hplain⟩
    · obtain ⟨e, he, hname⟩ := hnew
      exact ⟨e, hentry ▸ he, hname ▸ hplain⟩
  · exact (h.early r (hearly ▸ hr)).imp_right hkeep

end Homed

theorem scope?_ne_none_of_frame
    (h : (b'.scope? id).map Scope.frame = (b.scope? id).map Scope.frame) (hscope : b.scope? id ≠ none) :
    b'.scope? id ≠ none := by
  intro hnone
  rw [hnone, map_none, eq_comm, map_eq_none_iff] at h
  exact hscope h

theorem Homed.define (h : b.Homed) {home : ScopeId} {path : String}
    (hhome : home = 0 ∨ b.symbolAt? home (rootName path) ≠ none) (span : Span) : (b.define home path span).2.Homed := by
  have hextends : Extends (fun _ _ _ => True) b (b.define home path span).2 := extends_define trivial span
  apply h.give home path (scope?_ne_none_of_frame (hextends.frame 0) h.zero)
    (symbolAt?_define (h.scope?_ne_none hhome) path span) hextends.entries
    ⟨_, getElem?_define b home path span, rfl⟩ (hhome.imp_right .inr)
  · intro k x hx
    exact .inl (hextends.declared k ▸ hx)
  · exact early_define b home path span

theorem Homed.acts (h : b.Homed) (hacts : Acts written b spans b') : b'.Homed := by
  induction hacts with
  | nil => exact h
  | @cons b b' _ _ _ hact _ ih =>
    apply ih
    have hextends := hact.extends
    have hzero := scope?_ne_none_of_frame (hextends.frame 0) h.zero
    have hdeclared (k : ScopeId) (x : Declared) (hx : x ∈ b'.declaredAt k) : x ∈ b.declaredAt k := hextends.declared k ▸ hx
    cases hact with
    | usage | write => exact h.quiet hzero (fun _ _ => rfl) hextends.entries hdeclared fun _ hr => .inl hr
    | wait hrooted =>
      refine h.quiet hzero (fun _ _ => rfl) hextends.entries hdeclared fun r hr => ?_
      rw [Array.toList_push, mem_append, mem_singleton] at hr
      rcases hr with hr | rfl
      · exact .inl hr
      · exact .inr hrooted
    | define _ _ hrooted => exact h.define (h.of_rooted hrooted) _

theorem Homed.declare (h : b.Homed) (hids : b.openScopes = id :: outer)
    (hvalid : id < b.index.scopes.size) {d : Identifier} (hplain : '.' ∉ d.name.toList) (isParameter : Bool) :
    (b.declare d isParameter).Homed := by
  refine h.give id d.name ?_ ?_ (grows_declare hids d isParameter)
    ((entries_declare hids d isParameter) ▸ ⟨_, getElem?_define b id d.name d.span, rfl⟩)
    (.inr (.inl (rootName_of_plain hplain))) ?_ (early_declare d isParameter b)
  · rw [scope?_declare hids]
    have hzero := h.zero
    split
    · simpa using hzero
    · exact hzero
  · exact fun k p => symbolAt?_declare hids hvalid d isParameter k p
  · intro k x hx
    rw [declaredAt_declare hids hvalid] at hx
    rcases mem_append.mp hx with hx | hx
    · exact .inl hx
    · split at hx
      · obtain rfl := mem_singleton.mp hx
        exact .inr ⟨rfl, hplain⟩
      · cases hx

theorem Homed.sameNames (h : b.Homed) (hsame : SameNames b b') : b'.Homed := by
  have hzero : b'.scope? 0 ≠ none := by
    obtain ⟨s, hs⟩ := ne_none_iff_exists'.mp h.zero
    obtain ⟨s', hs', -⟩ := hsame.scopes 0 s hs
    rw [hs']
    exact some_ne_none s'
  exact h.quiet hzero hsame.symbols hsame.grows (fun _ _ => hsame.mem_declared) fun _ hr => .inl (hsame.early ▸ hr)

theorem Homed.settle (h : b.Homed)
    (hr : r.home = 0 ∨ b.symbolAt? r.home (rootName r.name) ≠ none) : (b.settle r).Homed := by
  have hextends := extends_settle b r
  have hzero := scope?_ne_none_of_frame (hextends.frame 0) h.zero
  have hdeclared (k : ScopeId) (x : Declared) (hx : x ∈ (b.settle r).declaredAt k) : x ∈ b.declaredAt k :=
    hextends.declared k ▸ hx
  have hearly : ∀ r' ∈ (b.settle r).early.toList, r' ∈ b.early.toList ∨ b.Rooted r'.home r'.name :=
    fun r' hr' => .inl (early_settle b r ▸ hr')
  rcases settle_cases b r with ⟨i, -, hsettle⟩ | ⟨-, -, ⟨-, hsettle⟩ | ⟨-, -, hsettle⟩ | ⟨-, -, hsettle⟩⟩
  · exact h.quiet hzero (fun k p => by simp [hsettle, symbolAt?, scope?]) hextends.entries hdeclared hearly
  · rw [hsettle]
    exact h.define hr r.span
  · refine h.give 0 r.name hzero ?_ hextends.entries ?_ (.inl rfl) (fun k x hx => .inl (hdeclared k x hx)) (early_settle b r)
    · intro k p
      rw [hsettle, symbolAt?_addSymbol (by simpa [scope?, addEntry] using h.zero)]
      simp [symbolAt?, scope?, addEntry]
    · rw [hsettle, addSymbol, modifyScope, entries_addEntry_addUsage]
      exact ⟨_, Array.getElem?_push_size, rfl⟩
  · exact h.quiet hzero (fun k p => by rw [hsettle]; rfl) hextends.entries hdeclared hearly

theorem carries_settle (h : b.Homed) (r : EarlyReference) : Carries b (b.settle r) where
  parents k _ hp := (parent?_of_frame ((extends_settle b r).frame k)).trans hp
  members k path i hpath hi := by
    have hkept := nonLocal?_settle_of_some (h.nonLocal?_eq hpath hi) r
    rw [nonLocal?_eq_filter] at hkept
    exact (filter_eq_some_iff.mp hkept).1
  uses _ _ huses := (extends_settle b r).uses huses
  early r' hr' := early_settle b r ▸ hr'

/-! ### Chains -/

/-- Where a path is recorded that belongs to a scope: it is a usage of the entry that it has in the scope or in one around
it, or it waits. -/
def Filed (b : Builder) (home : ScopeId) (path : String) (span : Span) : Prop :=
  (∃ k i, b.index.Around k home ∧ b.symbolAt? k path = some i ∧ b.Uses i span) ∨
    b.index.Around 0 home ∧ ∃ r ∈ b.early.toList, r.name = path ∧ r.span = span ∧ r.home = home ∧ r.isPath = true

theorem Filed.carries (h : b.Filed home path span) (hpath : '.' ∈ path.toList) (hcarries : Carries b b') :
    b'.Filed home path span := by
  rcases h with ⟨k, i, haround, hi, huses⟩ | ⟨haround, r, hr, hplace⟩
  · exact .inl ⟨k, i, hcarries.around haround, hcarries.members k path i hpath hi, hcarries.uses i span huses⟩
  · exact .inr ⟨hcarries.around haround, r, hcarries.early r hr, hplace⟩

/-- The members of a root belong to a scope: no open scope further inside has a symbol for the root. -/
structure Bases (b : Builder) (root : String) (home : ScopeId) : Prop where
  homed : b.Homed
  isOpen : home ∈ b.openScopes
  rooted : home = 0 ∨ b.symbolAt? home root ≠ none
  zero : b.index.Around 0 home
  around : ∀ k ∈ b.openScopes, b.symbolAt? k root ≠ none → b.index.Around k home

theorem Bases.acts {root : String} (h : b.Bases root home) (hroot : '.' ∉ root.toList) (hacts : Acts written b spans b') :
    b'.Bases root home := by
  have hextends := hacts.extends
  have hcarries := hacts.carries
  refine ⟨h.homed.acts hacts, hextends.openScopes ▸ h.isOpen, h.rooted.imp_right hextends.symbolAt?_ne_none,
    hcarries.around h.zero, fun k hk hsome => hcarries.around ?_⟩
  rcases hextends.symbols k root with hsame | ⟨i, -, -, hgive⟩
  · exact h.around k (hextends.openScopes ▸ hk) (hsame ▸ hsome)
  · rw [(hgive.named.resolve_left hroot).1]
    exact h.zero

theorem Bases.toRooted {root : String} (h : b.Bases root home) (hpath : rootName path = root)
    (hroot : '.' ∉ root.toList) : b.Rooted home path := by
  rcases h.rooted with hzero | hsome
  · exact .inl hzero
  · exact .inr ⟨root, hsome, (rootName_of_plain hroot).trans hpath.symm⟩

theorem filed_addPart {root : String} (h : b.Bases root home) (hpath : rootName path = root) (writes : Bool)
    (span : Span) : (b.addPart home false writes path span).Filed home path span := by
  unfold addPart
  split
  next k i hfind =>
    obtain ⟨hk, hi⟩ := find?_eq_some hfind
    have haround : b.index.Around k home := by
      rcases h.homed.rooted k path (by rw [hi]; exact some_ne_none i) with rfl | hsome
      · exact h.zero
      · exact h.around k hk (hpath ▸ hsome)
    have huses := uses_addUsage (lt_of_find? h.homed.known hfind) span
    dsimp only
    split
    · exact .inl ⟨k, i, haround, hi, (extends_addDefinition (b.MayGive none) _ i span).uses huses⟩
    · exact .inl ⟨k, i, haround, hi, huses⟩
  next =>
    split
    · refine .inl ⟨home, b.index.entries.size, .refl, ?_, uses_define b home path span⟩
      rw [symbolAt?_define (h.homed.scope?_ne_none h.rooted), if_pos ⟨rfl, rfl⟩]
    · exact .inr ⟨h.zero, ⟨path, span, home, true⟩, by simp, rfl, rfl, rfl, rfl⟩

theorem filed_addParts {root : String} (hroot : '.' ∉ root.toList) (isTarget : Bool) {parts : List (String × Span)}
    (h : b.Bases root home) (hparts : ∀ part ∈ parts, rootName part.1 = root)
    (hdotted : ∀ part ∈ parts, '.' ∈ part.1.toList) :
    ∀ part ∈ parts, (b.addParts home isTarget parts).Filed home part.1 part.2 := by
  induction parts generalizing b with
  | nil => exact nofun
  | cons part rest ih =>
    obtain ⟨hpart, hrest⟩ := forall_mem_cons.mp hparts
    obtain ⟨hpoint, hpoints⟩ := forall_mem_cons.mp hdotted
    have hact : Act none b part.2 (b.addPart home false (isTarget && rest.isEmpty) part.1 part.2) :=
      act_addPart h.isOpen (h.toRooted hpart hroot) (.inl hpoint) part.2
    have hnext := h.acts hroot hact.acts
    have hfirst := filed_addPart h hpart (isTarget && rest.isEmpty) part.2
    have hbehind : Acts none _ _ _ := acts_addParts hnext.isOpen
      (fun other hother => ⟨hpoints other hother, hnext.toRooted (hrest other hother) hroot⟩) isTarget
    rw [forall_mem_cons, addParts]
    exact ⟨hfirst.carries hpoint hbehind.carries, ih hnext hrest hpoints⟩

theorem filed_addChain {root : String} (hroot : '.' ∉ root.toList) (h : b.Bases root (b.homeOf root))
    (hopen : 0 ∈ b.openScopes) (isTarget : Bool) (span : Span) (parts : List (String × Span)) :
    ∀ part ∈ pathsFrom root parts,
      (b.addChain isTarget ((root, span) :: pathsFrom root parts)).Filed (b.homeOf root) part.1 part.2 := by
  have hact := act_root hopen isTarget root parts (fun _ => rfl) span
  apply filed_addParts hroot isTarget (h.acts hroot hact.acts) _ (dotted_pathsFrom root parts)
  intro part hpart
  rw [rootName_pathsFrom root parts part hpart, rootName_of_plain hroot]

/-! ### The walk -/

/-- Along a walk the open scopes lie one around the other, and hold the locals that the ledger has for them. -/
structure Course (b : Builder) (l : Ledger) (layers : List Layer) (locals : Locals) : Prop where
  tracks : b.Tracks layers locals
  registers : b.Registers l
  homed : b.Homed
  isOpen : layers ≠ []
  nested : b.openScopes.IsChain (b.index.parent? · = some ·)
  locals_eq : layers.map (·.locals) = l.stack.map l.locals

namespace Course

variable (h : Course b l layers locals)

include h

theorem zero_mem : 0 ∈ b.openScopes := h.tracks.follows.zero_mem h.isOpen

theorem pairwise : b.openScopes.Pairwise fun inner outer => b.index.Around outer inner := by
  have hchain : b.openScopes.IsChain (ReflTransGen (b.index.parent? · = some ·)) :=
    h.nested.imp fun _ _ hparent => ReflTransGen.single hparent
  exact hchain.pairwise

theorem around_zero (hk : k ∈ b.openScopes) : b.index.Around 0 k := by
  have hpairwise := h.pairwise
  rw [← dropLast_append_getLast? 0 (h.tracks.follows.bottom h.isOpen)] at hk hpairwise
  rcases mem_append.mp hk with hk | hk
  · exact (pairwise_append.mp hpairwise).2.2 k hk 0 (mem_singleton_self 0)
  · rw [mem_singleton.mp hk]
    exact .refl

theorem bases (root : String) : b.Bases root (b.homeOf root) := by
  have hmem := homeOf_mem h.zero_mem root
  refine ⟨h.homed, hmem, ?_, h.around_zero hmem, fun k hk hsome => ?_⟩
  · unfold homeOf
    cases hfind : b.find? root with
    | none => exact .inl rfl
    | some => exact .inr (by simp [(find?_eq_some hfind).2])
  · have hpairwise := h.pairwise
    rw [homeOf]
    cases hfind : b.find? root with
    | none =>
      exact absurd (find?_eq_none_iff.mp hfind k hk) hsome
    | some =>
      rw [find?_eq, findSome?_eq_some_iff] at hfind
      obtain ⟨inner, home, outer, hids, hfound, hinner⟩ := hfind
      obtain ⟨i, -, rfl⟩ := map_eq_some_iff.mp hfound
      rw [hids] at hk hpairwise
      rcases mem_append.mp hk with hk | hk
      · exact absurd (map_eq_none_iff.mp (hinner k hk)) hsome
      · rcases mem_cons.mp hk with rfl | hk
        · exact .refl
        · exact (pairwise_cons.mp (pairwise_append.mp hpairwise).2.1).1 k hk

end Course

namespace Course

variable (h : Course b l layers locals)

include h

theorem nested_of_carries (hcarries : Carries b b') :
    b.openScopes.IsChain (b'.index.parent? · = some ·) := h.nested.imp fun k p hp => hcarries.parents k p hp

theorem nested_enter (node : ScopeNode) (ctx : Context) :
    (b.enter node ctx).openScopes.IsChain ((b.enter node ctx).index.parent? · = some ·) := by
  have hchain := h.nested_of_carries (sameNames_enter b node ctx).carries
  obtain ⟨scope, scopes, henter, -, hscopes, -, -, -, -, hparent, -⟩ := exists_enter b node ctx
  obtain ⟨id, outer, hids⟩ := exists_cons_of_ne_nil (ne_nil_of_mem h.zero_mem)
  rw [hids] at hchain
  rw [openScopes_enter, hids]
  refine isChain_cons_cons.mpr ⟨?_, hchain⟩
  rw [parent?, henter, hscopes, if_pos rfl, bind_some, hparent, hids]
  rfl

theorem locals_enter (node : ScopeNode) (ctx : Context) :
    (after layers (.enter node ctx)).map (·.locals) =
      (l.step (.enter node ctx)).stack.map (l.step (.enter node ctx)).locals := by
  have hafter : (after layers (.enter node ctx)).map (·.locals) = [] :: layers.map (·.locals) := by
    cases node <;> rfl
  have hlt : ∀ k ∈ l.stack, k ≠ l.nodes.length := by
    intro k hk
    rw [← h.registers.openScopes] at hk
    exact (h.registers.size ▸ h.tracks.follows.valid k hk).ne
  rw [hafter, h.locals_eq]
  simp only [Ledger.step, map_cons, if_pos]
  congr 1
  exact map_congr_left fun k hk => (if_neg (hlt k hk)).symm

theorem locals_declare (d : Identifier) :
    (Scoping.declare [d] layers).map (·.locals) = (l.declare [d]).stack.map (l.declare [d]).locals := by
  have hsorted := h.tracks.sorted
  have heq := h.locals_eq
  rw [h.registers.openScopes] at hsorted
  cases hstack : l.stack with
  | nil => 
      rw [hstack, map_nil, map_eq_nil_iff] at heq
      simp [heq, Scoping.declare, Ledger.declare, hstack]
  | cons id outer =>
    rw [hstack] at heq hsorted
    obtain ⟨top, rest, rfl, htop, hrest⟩ := map_eq_cons_iff.mp heq
    have hne : ∀ k ∈ outer, id ≠ k := fun k hk => Nat.ne_of_gt ((pairwise_cons.mp hsorted).1 k hk)
    rw [Scoping.declare, map_cons, hrest]
    simp only [Ledger.declare, hstack, map_cons, head?_cons, if_pos, htop, some.injEq]
    congr 1
    exact map_congr_left fun k hk => (if_neg (hne k hk)).symm

theorem step (event : Event) (hend : after layers event ≠ [])
    (hplain : ∀ m ∈ mentions layers event, m.Plain) :
    ∃ locals', Course (b.step event) (l.step event) (after layers event) locals' ∧ Carries b (b.step event) := by
  obtain ⟨locals', htracks, -⟩ := tracks_step h.tracks h.isOpen event hplain
  have hregisters := h.registers.step h.tracks.follows h.isOpen event
  rcases h.tracks.follows.step_cases h.isOpen event with ⟨node, ctx, rfl⟩ | ⟨node, ctx, rfl⟩ |
    ⟨d, hstep, hmentions, hledger, hafter⟩ | ⟨hacts, -, hledger, hafter⟩
  · have hsame := sameNames_enter b node ctx
    exact ⟨locals', ⟨htracks, hregisters, h.homed.sameNames hsame, hend, h.nested_enter node ctx, h.locals_enter node ctx⟩,
      hsame.carries⟩
  · have hsame := sameNames_leave b
    refine ⟨locals', ⟨htracks, hregisters, h.homed.sameNames hsame, hend, ?_, ?_⟩, hsame.carries⟩
    · show b.leave.openScopes.IsChain _
      rw [openScopes_leave]
      exact (h.nested_of_carries hsame.carries).tail
    · show layers.tail.map _ = l.stack.tail.map _
      rw [map_tail, map_tail, h.locals_eq]
      rfl
  · obtain ⟨id, outer, hids, hvalid⟩ := h.tracks.follows.exists_cons h.isOpen
    have hname : '.' ∉ d.name.toList := hplain (.declaration d) (hmentions ▸ mem_singleton_self _)
    have hcarries : Carries b (b.step event) := hstep ▸ carries_declare hids hvalid hname _
    refine ⟨locals', ⟨htracks, hregisters, hstep ▸ h.homed.declare hids hvalid hname _, hend, ?_, ?_⟩, hcarries⟩
    · rw [hregisters.openScopes, hledger, show (l.declare [d]).stack = l.stack from rfl, ← h.registers.openScopes]
      exact h.nested_of_carries hcarries
    · rw [hafter, hledger]
      exact h.locals_declare d
  · refine ⟨locals', ⟨htracks, hregisters, h.homed.acts hacts, hend, ?_, ?_⟩, hacts.carries⟩
    · rw [hacts.extends.openScopes]
      exact h.nested_of_carries hacts.carries
    · rw [hafter, hledger]
      exact h.locals_eq

end Course

/-! ### Variables -/

theorem mem_locals_step (hk : k < l.nodes.length) (hd : d ∈ l.locals k) (event : Event) :
    k < (l.step event).nodes.length ∧ d ∈ (l.step event).locals k := by
  have hdeclare (ids : List Identifier) : d ∈ (l.declare ids).locals k := by
    rw [Ledger.declare]
    dsimp only
    split
    · exact mem_append_right _ hd
    · exact hd
  refine ⟨?_, ?_⟩
  · rw [Ledger.nodes_step, length_append]
    exact Nat.lt_add_right _ hk
  · cases event with
    | enter =>
      rw [Ledger.step]
      dsimp only
      rwa [if_neg hk.ne]
    | leave => exact hd
    | _ => exact hdeclare _

theorem mem_locals_foldl (hk : k < l.nodes.length) (hd : d ∈ l.locals k) (events : List Event) :
    k < (events.foldl Ledger.step l).nodes.length ∧ d ∈ (events.foldl Ledger.step l).locals k := by
  induction events generalizing l with
  | nil => exact ⟨hk, hd⟩
  | cons event rest ih =>
    obtain ⟨hk', hd'⟩ := mem_locals_step hk hd event
    exact ih hk' hd'

theorem eq_of_mem_zip {layer : Layer} (h : (k, layer) ∈ ids.zip layers) (heq : layers.map (·.locals) = ids.map f) :
    layer.locals = f k := by
  induction ids generalizing layers with
  | nil => cases h
  | cons id ids ih =>
    obtain ⟨top, rest, rfl, hfirst, hrest⟩ := map_eq_cons_iff.mp heq
    rcases mem_cons.mp h with hhead | htail
    · obtain ⟨rfl, rfl⟩ := Prod.mk.inj hhead
      exact hfirst
    · exact ih htail hrest

theorem Course.homeOf (h : Course b l layers locals) (hname : '.' ∉ name.toList) :
    (∀ d, nearest? (sight layers) name = some d → b.homeOf name < l.nodes.length ∧ d ∈ l.locals (b.homeOf name)) ∧
      (nearest? (sight layers) name = none → b.homeOf name = 0) := by
  obtain ⟨hsome, hnone⟩ := findSome?_of_holds hname h.tracks.sorted h.tracks.scopes
  rw [Builder.homeOf, find?_eq]
  refine ⟨fun d hd => ?_, fun hnear => ?_⟩
  · obtain ⟨k, i, layer, hfound, -, hzip, hd⟩ := hsome d hd
    rw [hfound]
    refine ⟨h.registers.size ▸ h.tracks.follows.valid k (of_mem_zip hzip).1, ?_⟩
    rw [h.registers.openScopes] at hzip
    exact eq_of_mem_zip hzip h.locals_eq ▸ hd
  · cases hfound : b.openScopes.findSome? fun id => (b.symbolAt? id name).map (id, ·) with
    | none => rfl
    | some found => exact (hnone hnear found.1 found.2 hfound).1

theorem Course.filed (h : Course b l layers locals) (hplain : ∀ m ∈ mentions layers event, m.Plain) (hmember : (root, path, span) ∈ event.members) (hself : root.name ≠ "self") :
    .reference root (nearest? (sight layers) root.name) ∈ mentions layers event ∧
      (b.step event).Filed (b.homeOf root.name) path span := by
  obtain ⟨e, ctx, parts, rfl, hroot, hsegments, hpart⟩ := Event.exists_of_mem_members hmember
  have hlocal : localName? e ctx.role.declaration = none := by
    cases e with
    | name =>
      obtain ⟨-, rfl⟩ := cons.inj (some.inj hsegments)
      cases hpart
    | member => exact ite_self none
    | _ => cases hsegments
  have hreference : (Event.expression e ctx).reference? = some root := by
    simp [Event.reference?, hlocal, hroot]
  have hmention := mem_mentions hreference layers
  refine ⟨hmention, ?_⟩
  have hname : '.' ∉ root.name.toList := hplain _ hmention
  rcases addExpression_cases b e ctx.role with ⟨d, hd, -⟩ | ⟨-, ⟨_, _, -, hsegments', hadd⟩ | ⟨hnone, -⟩⟩
  · cases hlocal.symm.trans hd
  · obtain ⟨heq, rfl⟩ := cons.inj (some.inj (hsegments.symm.trans hsegments'))
    obtain ⟨hname', hspan⟩ := Prod.mk.inj heq
    rw [Builder.step, hadd, ← hname', ← hspan, meaning_of_ne hself]
    exact filed_addChain hname (h.bases root.name) h.zero_mem _ root.span parts (path, span) hpart
  · cases hnone.symm.trans hsegments

theorem Course.owns (h : Course b l layers locals) (hname : '.' ∉ name.toList) (events : List Event) :
    (events.foldl Ledger.step l).Owns (b.homeOf name) name (nearest? (sight layers) name) := by
  obtain ⟨hsome, hnone⟩ := h.homeOf hname
  cases hnear : nearest? (sight layers) name with
  | some d =>
    obtain ⟨hlt, hd⟩ := hsome d hnear
    obtain ⟨hlt, hd⟩ := mem_locals_foldl hlt hd events
    exact ⟨hlt, hd, by simpa using find?_some hnear⟩
  | none => exact hnone hnear

theorem filed_foldl {events : List Event} {ms : List Mention} (htells : Tells layers events layers' ms) (hend : layers' ≠ [])
    (h : Course b l layers locals) (hplain : ∀ m ∈ ms, m.Plain) :
    ((events.foldl Builder.step b).Homed ∧ Carries b (events.foldl Builder.step b)) ∧
      ∀ event ∈ events, ∀ root path span, (root, path, span) ∈ event.members → root.name ≠ "self" →
        ∃ nearest home, .reference root nearest ∈ ms ∧ (events.foldl Ledger.step l).Owns home root.name nearest ∧
          (events.foldl Builder.step b).Filed home path span := by
  induction htells generalizing b l locals with
  | nil => exact ⟨⟨h.homed, .refl b⟩, nofun⟩
  | @cons layers _ event events ms _ htells ih =>
    obtain ⟨hfirst, hrest⟩ := forall_mem_append.mp hplain
    obtain ⟨locals', hcourse, hcarries⟩ := h.step event (htells.ne_nil hend) hfirst
    obtain ⟨⟨hhomed, hcarries'⟩, hfiled⟩ := ih hend hcourse hrest
    refine ⟨⟨hhomed, hcarries.trans hcarries'⟩, forall_mem_cons.mpr ⟨?_, ?_⟩⟩
    · intro root path span hmember hself
      obtain ⟨hmention, hhere⟩ := h.filed hfirst hmember hself
      have hname : '.' ∉ root.name.toList := hfirst _ hmention
      exact ⟨_, _, mem_append_left _ hmention, h.owns hname (event :: events), hhere.carries (Event.dotted_of_mem_members hmember) hcarries'⟩
    · intro other hother root path span hmember hself
      obtain ⟨nearest, home, hmention, howns⟩ := hfiled other hother root path span hmember hself
      exact ⟨nearest, home, mem_append_right _ hmention, howns⟩
  | reorder _ hperm ih =>
    obtain ⟨hall, hfiled⟩ := ih hend h fun m hm => hplain m (hperm.mem_iff.mp hm)
    refine ⟨hall, fun event hevent root path span hmember hself => ?_⟩
    obtain ⟨nearest, home, hmention, howns⟩ := hfiled event hevent root path span hmember hself
    exact ⟨nearest, home, hperm.mem_iff.mp hmention, howns⟩

theorem course_start (body : Block) :
    Course (({} : Builder).enter (.chunk body) {}) (({} : Ledger).step (.enter (.chunk body) {})) [{}] [] := by
  refine ⟨tracks_start body, registers_start body, ?_, cons_ne_nil _ _, isChain_singleton _, rfl⟩
  have hnone (k : ScopeId) (p : String) : (({} : Builder).enter (.chunk body) {}).symbolAt? k p = none := by
    rw [(sameNames_enter {} (.chunk body) {}).symbols]
    rfl
  refine ⟨some_ne_none _, fun k p i hi => ?_, fun k p k' p' i hi => ?_, fun k p hsome => ?_, ?_, nofun⟩
  · cases (hnone k p).symm.trans hi
  · cases (hnone k p).symm.trans hi
  · exact absurd (hnone k p) hsome
  · intro k x hx
    have hmem := (sameNames_enter {} (.chunk body) {}).mem_declared hx
    simp [declaredAt, scope?] at hmem

/-! ### Settling -/

theorem filed_settle (h : b.Homed) (hr : r.home = 0 ∨ b.symbolAt? r.home (rootName r.name) ≠ none)
    (hpath : r.isPath = true) (hzero : b.index.Around 0 r.home) :
    ∃ k i, (b.settle r).index.Around k r.home ∧ (b.settle r).symbolAt? k r.name = some i ∧ (b.settle r).Uses i r.span := by
  have hcarries := carries_settle h r
  rcases settle_cases b r with ⟨i, hi, hsettle⟩ | ⟨-, -, ⟨-, hsettle⟩ | ⟨hplain, -⟩ | ⟨hplain, -⟩⟩
  · have hfound : ∃ k, b.index.Around k r.home ∧ b.nonLocal? k r.name = some i := by
      rcases hi with hi | hi
      · exact ⟨r.home, .refl, hi⟩
      · exact ⟨0, hzero, hi⟩
    obtain ⟨k, haround, hk⟩ := hfound
    refine ⟨k, i, hcarries.around haround, ?_, ?_⟩
    · rw [nonLocal?_eq_filter] at hk
      rw [hsettle]
      exact (filter_eq_some_iff.mp hk).1
    · rw [hsettle]
      exact uses_addUsage (lt_of_nonLocal? h.known hk) r.span
  · refine ⟨r.home, b.index.entries.size, .refl, ?_, ?_⟩
    · rw [hsettle, symbolAt?_define (h.scope?_ne_none hr), if_pos ⟨rfl, rfl⟩]
    · rw [hsettle]
      exact uses_define b r.home r.name r.span
  · cases hplain.symm.trans hpath
  · cases hplain.symm.trans hpath

theorem filed_settleAll (h : b.Homed) (rs : List EarlyReference)
    (hrs : ∀ r ∈ rs, r.home = 0 ∨ b.symbolAt? r.home (rootName r.name) ≠ none) :
    ((rs.foldl settle b).Homed ∧ Carries b (rs.foldl settle b)) ∧
      ∀ r ∈ rs, r.isPath = true → '.' ∈ r.name.toList → b.index.Around 0 r.home →
        ∃ k i, (rs.foldl settle b).index.Around k r.home ∧ (rs.foldl settle b).symbolAt? k r.name = some i ∧
          (rs.foldl settle b).Uses i r.span := by
  induction rs generalizing b with
  | nil => exact ⟨⟨h, .refl b⟩, nofun⟩
  | cons r rest ih =>
    obtain ⟨hr, hrest⟩ := forall_mem_cons.mp hrs
    have hcarries := carries_settle h r
    obtain ⟨⟨hhomed, hcarries'⟩, hfiled⟩ := ih (h.settle hr) fun other hother =>
      (hrest other hother).imp_right (extends_settle b r).symbolAt?_ne_none
    refine ⟨⟨hhomed, hcarries.trans hcarries'⟩, forall_mem_cons.mpr ⟨?_, ?_⟩⟩
    · intro hpath hdotted hzero
      obtain ⟨k, i, haround, hi, huses⟩ := filed_settle h hr hpath hzero
      exact ⟨k, i, hcarries'.around haround, hcarries'.members k r.name i hdotted hi, hcarries'.uses i r.span huses⟩
    · intro other hother hpath hdotted hzero
      exact hfiled other hother hpath hdotted (hcarries.around hzero)

end Builder

open Builder Scoping

/-- What a name stands for belongs to a scope of a program: a local to the one that it is declared in, a global to the
global one. -/
def BelongsTo (body : Block) (home : ScopeId) (name : String) : Option Identifier → Prop
  | some d => ∃ node, (openedScopes body)[home]? = some node ∧ d ∈ node.declared ∧ d.name = name
  | none => home = 0

variable {nearest : Option Identifier} {body : Block}

theorem belongsTo_of_owns
    (h : (Ledger.ofEvents (Walk.chunk below body)).Owns home name nearest) : BelongsTo body home name nearest := by
  cases nearest with
  | none => exact h
  | some =>
    obtain ⟨hlt, hd, hname⟩ := h
    rw [nodes_chunk] at hlt
    have hnode := getElem?_eq_getElem hlt
    exact ⟨_, hnode, (ledger_chunk body hnode).1 ▸ hd, hname⟩

variable {nearest' : Option Identifier}

theorem BelongsTo.unique
    (h : BelongsTo body home name nearest) (h' : BelongsTo body home name nearest')
    (honce : ∀ node, (openedScopes body)[home]? = some node → ∀ d ∈ node.declared, ∀ d' ∈ node.declared,
      d.name = name → d'.name = name → d = d') (hglobal : home = 0 → nearest.isSome = nearest'.isSome) :
    nearest = nearest' := by
  cases nearest with
  | none =>
    have hkind := hglobal h
    cases nearest' with
    | none => rfl
    | some => cases hkind
  | some d =>
    cases nearest' with
    | none => cases hglobal h'
    | some d' =>
      obtain ⟨node, hnode, hd, hname⟩ := h
      obtain ⟨node', hnode', hd', hname'⟩ := h'
      obtain rfl := some.inj (hnode.symm.trans hnode')
      exact congrArg some (honce node hnode d hd d' hd' hname hname')

/-- The entry of a path lies in the scope of the variable that the path starts with, or in a scope around it. No entry has
symbols in two scopes. -/
theorem filed_build (hplain : ∀ m ∈ Mention.statements [] body, m.Plain) :
    (∀ k k' path i, (build body).1.symbol? k path = some i → (build body).1.symbol? k' path = some i → k = k') ∧
      ∀ root path span, (root, path, span) ∈ memberUses body → root.name ≠ "self" →
        ∃ nearest home k i, .reference root nearest ∈ Mention.statements [] body ∧
          BelongsTo body home root.name nearest ∧
          (build body).1.Around k home ∧ (build body).1.symbol? k path = some i ∧ (build body).1.Uses i span := by
  obtain ⟨⟨hinside, -⟩, hfiled⟩ := filed_foldl (tells_program (Context.enter {} (.chunk body)) body)
    (declare_ne_nil _ (cons_ne_nil _ _)) (course_start body) hplain
  have hwalked : ((Walk.chunk below body).foldl step {}).Homed := by
    rw [foldl_chunk]
    exact hinside.sameNames (sameNames_leave _)
  obtain ⟨⟨hhomed, hcarries⟩, hsettled⟩ := filed_settleAll hwalked (waiting body) hwalked.early
  rw [(build_eq body).1]
  refine ⟨fun k k' path i => hhomed.distinct k path k' path i, ?_⟩
  intro root path span huse hself
  obtain ⟨event, hevent, hmember⟩ := mem_flatMap.mp huse
  have hinside' : event ∈ Event.block body (Context.enter {} (.chunk body)) ::
      Walk.statements below (Context.enter {} (.chunk body)) body := by
    obtain ⟨e, ctx, -, rfl, -⟩ := Event.exists_of_mem_members hmember
    simpa [Walk.chunk, Walk.inScope] using hevent
  obtain ⟨nearest, home, hmention, howns, hfiled⟩ := hfiled event hinside' root path span hmember hself
  have hfiled' : ((Walk.chunk below body).foldl step {}).Filed home path span := by
    rw [foldl_chunk]
    exact hfiled.carries (Event.dotted_of_mem_members hmember) (sameNames_leave _).carries
  have howns' : (Ledger.ofEvents (Walk.chunk below body)).Owns home root.name nearest := by
    rw [Ledger.ofEvents, foldl_chunk]
    cases nearest <;> exact howns
  refine ⟨nearest, home, ?_⟩
  rcases hfiled' with ⟨k, i, haround, hi, huses⟩ | ⟨hzero, r, hr, rfl, rfl, rfl, hpath⟩
  · exact ⟨k, i, hmention, belongsTo_of_owns howns', hcarries.around haround, hcarries.members k path i (Event.dotted_of_mem_members hmember) hi,
      hcarries.uses i span huses⟩
  · obtain ⟨k, i, haround, hi, huses⟩ := hsettled r hr hpath (Event.dotted_of_mem_members hmember) hzero
    exact ⟨k, i, hmention, belongsTo_of_owns howns', haround, hi, huses⟩

instance (x : CrossReference) (i : EntryId) (span : Span) : Decidable (x.Uses i span) :=
  decidable_of_iff (x.entries[i]?.any (fun e => decide (span ∈ e.usages.toList)) = true) (by
    rw [any_eq_true]
    simp only [decide_eq_true_eq]
    rfl)

theorem reference_unique (hdistinct : ((Mention.statements [] body).map Mention.span).Nodup) (h : .reference root nearest ∈ Mention.statements [] body)
    (h' : .reference root nearest' ∈ Mention.statements [] body) : nearest = nearest' := by
  have heq : Mention.reference root nearest = .reference root nearest' := inj_on_of_nodup_map hdistinct h h' rfl
  cases heq
  rfl

theorem uses_of_nearest (hplain : ∀ m ∈ Mention.statements [] body, m.Plain)
    (hdistinct : ((Mention.statements [] body).map Mention.span).Nodup) {root' : Identifier}
    (h : .reference root (some d) ∈ Mention.statements [] body)
    (h' : .reference root' (some d) ∈ Mention.statements [] body) (hself : root.name ≠ "self")
    (hself' : root'.name ≠ "self") :
    ∃ j, (build body).1.MadeFor j d ∧ (build body).1.Uses j root.span ∧ (build body).1.Uses j root'.span := by
  obtain ⟨locals, hmade, hresolves⟩ := resolves_build body hplain
  rw [← (recorded_build_perm body).nodup_iff] at hdistinct
  obtain ⟨husages, -, -⟩ := nodup_append.mp hdistinct
  obtain ⟨j, hj, huses⟩ := hresolves _ h hself
  obtain ⟨j', hj', huses'⟩ := hresolves _ h' hself'
  have hfor : (build body).1.MadeFor j d := hmade _ hj
  have hfor' : (build body).1.MadeFor j' d := hmade _ hj'
  obtain rfl := hfor.uses.unique husages hfor'.uses
  exact ⟨j, hfor, huses, huses'⟩

end CrossReference

namespace Chunk

open CrossReference

/-- Members and their variables. Take two places in a program without errors where the same path is reached, behind a name
other than `self`, and suppose that both are usages of one entry. The entry lies in one scope, which is the scope of the
one variable or a scope around it, and likewise for the other variable. If the path has no symbol in the scopes around
those of the variables, the name is declared once in the scope of the first variable, and if that is the global scope,
both variables are locals or both are globals, then both are the same variable; a local has one entry, which both names
are usages of. -/
theorem variable_of_member (options : Options) (source name : String)
    (herrors : (Chunk.parse options source name).errors = []) {root root' : Identifier} {path : String} {span span' : Span}
    (huse : (root, path, span) ∈ memberUses (Chunk.parse options source name).body)
    (huse' : (root', path, span') ∈ memberUses (Chunk.parse options source name).body) (hself : root.name ≠ "self")
    {nearest nearest' : Option Identifier}
    (hnearest : .reference root nearest ∈ Mention.statements [] (Chunk.parse options source name).body)
    (hnearest' : .reference root' nearest' ∈ Mention.statements [] (Chunk.parse options source name).body) {i : EntryId}
    (hi : (Chunk.parse options source name).index.Uses i span)
    (hi' : (Chunk.parse options source name).index.Uses i span') :
    let body := (Chunk.parse options source name).body
    let index := (Chunk.parse options source name).index
    ∃ home home' k, BelongsTo body home root.name nearest ∧ BelongsTo body home' root.name nearest' ∧
      index.symbol? k path = some i ∧ index.Around k home ∧ index.Around k home' ∧
      ((∀ outer, index.Around outer home → index.symbol? outer path ≠ none → outer = home) →
        (∀ outer, index.Around outer home' → index.symbol? outer path ≠ none → outer = home') →
        (∀ node, (openedScopes body)[home]? = some node → ∀ d ∈ node.declared, ∀ d' ∈ node.declared,
          d.name = root.name → d'.name = root.name → d = d') →
        (home = 0 → nearest.isSome = nearest'.isSome) →
        nearest = nearest' ∧ ∀ d, nearest = some d →
          ∃ j, index.MadeFor j d ∧ index.Uses j root.span ∧ index.Uses j root'.span) := by
  intro body index
  obtain ⟨hfits, hdistinct⟩ := Program.said_parse (Program.isFlow_of_errors_nil herrors)
  have hplain : ∀ m ∈ Mention.statements [] body, m.Plain := fun m hm => (hfits m hm).plain
  have husages : index.usages.Nodup := by
    have hall := (recorded_build_perm body).nodup_iff.mpr hdistinct
    exact (List.nodup_append.mp hall).1
  have hroot : root'.name = root.name := by
    obtain ⟨event, -, hmember⟩ := List.mem_flatMap.mp huse
    obtain ⟨event', -, hmember'⟩ := List.mem_flatMap.mp huse'
    rw [← Event.rootName_of_mem_members hmember (hplain _ hnearest),
      ← Event.rootName_of_mem_members hmember' (hplain _ hnearest')]
  obtain ⟨hone, hfiled⟩ := filed_build hplain
  obtain ⟨n, home, k, j, hmention, hbelongs, haround, hsymbol, hj⟩ := hfiled root path span huse hself
  obtain ⟨n', home', k', j', hmention', hbelongs', haround', hsymbol', hj'⟩ :=
    hfiled root' path span' huse' (hroot ▸ hself)
  obtain rfl := reference_unique hdistinct hmention hnearest
  obtain rfl := reference_unique hdistinct hmention' hnearest'
  obtain rfl := hi.unique husages hj
  obtain rfl := hi'.unique husages hj'
  obtain rfl := hone k k' path i hsymbol hsymbol'
  rw [hroot] at hbelongs'
  refine ⟨home, home', k, hbelongs, hbelongs', hsymbol, haround, haround', ?_⟩
  intro hinner hinner' honce hglobal
  have hsome : index.symbol? k path ≠ none := by
    rw [show index.symbol? k path = some i from hsymbol]
    exact Option.some_ne_none i
  obtain rfl := hinner k haround hsome
  obtain rfl := hinner' k haround' hsome
  obtain rfl := hbelongs.unique hbelongs' honce hglobal
  refine ⟨rfl, ?_⟩
  rintro d rfl
  exact uses_of_nearest hplain hdistinct hnearest hnearest' hself (hroot ▸ hself)

/-- A member of a local that is written and then read. -/
def reading : String := "local a=f()\na.x=b\ng(a.x)"

theorem variable_of_member_reading : (Chunk.parse {} reading).errors = [] ∧
    ∃ j, (Chunk.parse {} reading).index.MadeFor j ⟨"a", true, ⟨⟨1, 7, 6, 0⟩, ⟨1, 8, 7, 0⟩⟩⟩ ∧
      (Chunk.parse {} reading).index.Uses j ⟨⟨2, 1, 12, 0⟩, ⟨2, 2, 13, 0⟩⟩ ∧
      (Chunk.parse {} reading).index.Uses j ⟨⟨3, 3, 20, 0⟩, ⟨3, 4, 21, 0⟩⟩ := by
  let a : Identifier := ⟨"a", true, ⟨⟨1, 7, 6, 0⟩, ⟨1, 8, 7, 0⟩⟩⟩
  let written : Identifier := ⟨"a", true, ⟨⟨2, 1, 12, 0⟩, ⟨2, 2, 13, 0⟩⟩⟩
  let read : Identifier := ⟨"a", true, ⟨⟨3, 3, 20, 0⟩, ⟨3, 4, 21, 0⟩⟩⟩
  let body := (Chunk.parse {} reading "main.lua").body
  let index := (Chunk.parse {} reading "main.lua").index
  obtain ⟨herrors, hwritten, hread, hmention, hmention', hentry, hentry'⟩ :
      (Chunk.parse {} reading "main.lua").errors = [] ∧
        (written, "a.x", ⟨⟨2, 1, 12, 0⟩, ⟨2, 4, 15, 0⟩⟩) ∈ memberUses body ∧
        (read, "a.x", ⟨⟨3, 3, 20, 0⟩, ⟨3, 6, 23, 0⟩⟩) ∈ memberUses body ∧
        .reference written (some a) ∈ Mention.statements [] body ∧ .reference read (some a) ∈ Mention.statements [] body ∧
        index.Uses 1 ⟨⟨2, 1, 12, 0⟩, ⟨2, 4, 15, 0⟩⟩ ∧ index.Uses 1 ⟨⟨3, 3, 20, 0⟩, ⟨3, 6, 23, 0⟩⟩ := by
    decide +kernel
  obtain ⟨home, home', k, hbelongs, hbelongs', -, -, -, hsame⟩ :=
    variable_of_member {} reading "main.lua" herrors hwritten hread (by decide) hmention hmention' hentry hentry'
  -- There is one scope, with one name declared in it.
  have hscopes : (openedScopes body).map (·.declared) = [[a]] := by decide +kernel
  have hdeclared : ∀ k node, (openedScopes body)[k]? = some node → k = 0 ∧ node.declared = [a] := by
    intro k node hnode
    have hmap := congrArg (·[k]?) hscopes
    simp only [List.getElem?_map, hnode, Option.map_some] at hmap
    simpa [List.getElem?_singleton, eq_comm] using hmap
  have hzero : ∀ home, BelongsTo body home "a" (some a) → home = 0 := by
    rintro home ⟨node, hnode, -⟩
    exact (hdeclared home node hnode).1
  obtain rfl := hzero home hbelongs
  obtain rfl := hzero home' hbelongs'
  have hparent : (Chunk.parse {} reading "main.lua").index.parent? 0 = none := by decide +kernel
  have houter : ∀ outer, (Chunk.parse {} reading "main.lua").index.Around outer 0 → outer = 0 := by
    intro outer haround
    rcases haround.cases_head with rfl | ⟨_, hsome, -⟩
    · rfl
    · cases hparent.symm.trans hsome
  refine ⟨herrors, (hsame (fun outer h _ => houter outer h) (fun outer h _ => houter outer h) ?_ fun _ => rfl).2 a rfl⟩
  intro node hnode d hd d' hd' _ _
  rw [(hdeclared 0 node hnode).2, List.mem_singleton] at hd hd'
  exact hd.trans hd'.symm

/-- A path is used in two places that belong to one entry, and only one of the names before it belongs to another. -/
def Merges (c : Chunk) (path : String) (i j : EntryId) : Prop :=
  ∃ u ∈ memberUses c.body, ∃ u' ∈ memberUses c.body, u.2.1 = path ∧ u'.2.1 = path ∧ c.index.Uses i u.2.2 ∧
    c.index.Uses i u'.2.2 ∧ c.index.Uses j u'.1.span ∧ ¬c.index.Uses j u.1.span

instance (c : Chunk) (path : String) (i j : EntryId) : Decidable (c.Merges path i j) :=
  inferInstanceAs (Decidable (∃ u ∈ memberUses c.body, ∃ u' ∈ memberUses c.body, _))

/-- The conditions are needed. In all these programs the member of one variable is taken for that of another. In the first
one the path has a symbol in a scope around that of the second variable; in the second one both variables are locals of
the same scope; in the third one the first variable is a global. -/
theorem variable_of_member_hidden :
    ((Chunk.parse {} "local a={}\na.x=1\nfunction f()\n local a={}\n return a.x\nend").errors = [] ∧
      (Chunk.parse {} "local a={}\na.x=1\nfunction f()\n local a={}\n return a.x\nend").Merges "a.x" 1 3) ∧
    ((Chunk.parse {} "local a={}\na.x=1\nlocal a={}\nf(a.x)").errors = [] ∧
      (Chunk.parse {} "local a={}\na.x=1\nlocal a={}\nf(a.x)").Merges "a.x" 1 2) ∧
    (Chunk.parse {} "a.x=1\nlocal a={}\nf(a.x)").errors = [] ∧
      (Chunk.parse {} "a.x=1\nlocal a={}\nf(a.x)").Merges "a.x" 0 1 := by
  refine ⟨?_, ?_, ?_⟩ <;> decide +kernel

end Chunk

end CartLua
