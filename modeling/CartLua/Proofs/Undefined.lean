import CartLua.Proofs.EarlyReferences
import CartLua.Proofs.ProgramSight
/-!
# Undefined variables

A global is defined where it is written, and `self` in a method may be another way to write it. A name that no
declaration is in sight for is undefined if the walk up to it defines no global of that name, and none is there at the end
of the walk either. The second part looks at the global scope, where a local of the program itself takes the place of a
global with the same name. So a global that is defined behind a use and then hidden by such a local counts as undefined
for the use.
-/

namespace CartLua

open List

variable {event : Event}

namespace Event

def writes (name : String) (event : Event) : Bool := event.written?.any (·.name == name)

/-- Whether an event writes a name that is not marked as a local. -/
def writesGlobal (name : String) (event : Event) : Bool := event.written?.any fun id => id.name == name && !id.isLocal

end Event

variable {e : Expr} {id : Identifier}

theorem Mention.mem_of_root? (h : e.root? = some id) (sight : List Identifier) :
    .reference id (nearest? sight id.name) ∈ Mention.expression sight false e := by
  induction e using Expr.root?.induct with
  | case1 =>
    obtain rfl := Option.some.inj h
    exact mem_singleton_self _
  | case2 base indexer key span ih =>
    exact mem_append_left _ (ih h)
  | case3 => simp_all [Expr.root?]

namespace Scoping

variable {layers layers' : List Layer} {events past rest : List Event} {ms : List Mention}

theorem Tells.split (h : Tells layers (past ++ rest) layers' ms) :
    ∃ first second, Tells layers past (past.foldl after layers) first ∧
      Tells (past.foldl after layers) rest layers' second ∧ (first ++ second).Perm ms := by
  generalize hall : past ++ rest = events at h
  induction h generalizing past with
  | nil layers =>
    obtain ⟨rfl, rfl⟩ := append_eq_nil_iff.mp hall
    exact ⟨[], [], .nil layers, .nil layers, .refl []⟩
  | @cons layers _ event events ms hopen h ih =>
    cases past with
    | nil =>
      obtain rfl : rest = event :: events := hall
      exact ⟨[], _, .nil layers, .cons hopen h, .refl _⟩
    | cons first =>
      obtain ⟨rfl, htail⟩ := cons.inj hall
      obtain ⟨before, behind, hpast, hrest, hperm⟩ := ih htail
      refine ⟨mentions layers first ++ before, behind, .cons hopen hpast, hrest, ?_⟩
      rw [append_assoc]
      exact hperm.append_left _
  | reorder _ hperm ih =>
    obtain ⟨before, behind, hpast, hrest, hall⟩ := ih hall
    exact ⟨before, behind, hpast, hrest, hall.trans hperm⟩

theorem Tells.mem_of_head (h : Tells layers (event :: rest) layers' ms) {m : Mention} (hm : m ∈ mentions layers event) :
    m ∈ ms := by
  generalize hall : event :: rest = events at h
  induction h with
  | nil => cases hall
  | cons =>
    obtain ⟨rfl, -⟩ := cons.inj hall
    exact mem_append_left _ hm
  | reorder _ hperm ih => exact hperm.mem_iff.mp (ih hm hall)

theorem Tells.ne_nil (h : Tells layers events layers' ms) (hend : layers' ≠ []) : layers ≠ [] := by
  induction h with
  | nil => exact hend
  | cons hopen => exact hopen
  | reorder _ _ ih => exact ih hend

theorem mem_mentions (h : event.reference? = some id) (layers : List Layer) :
    .reference id (nearest? (sight layers) id.name) ∈ mentions layers event := by
  obtain ⟨e, ctx, rfl, hlocal, hroot⟩ := Event.exists_of_reference? h
  obtain ⟨rest, hsegments⟩ := Expr.segments?_of_root? hroot
  rw [mentions, hlocal]
  rw [if_pos (by rw [hsegments]; rfl)]
  exact Mention.mem_of_root? hroot _

end Scoping

namespace CrossReference

variable {events : List Event}

namespace Builder

open Scoping

variable {b b' : Builder} {layers layers' : List Layer} {locals locals' : Locals} {name : String}

/-! ### Where globals are defined -/

/-- Behind some events, the next one defines a global: it writes a name that stands for the global, where no local of
that name is in sight. -/
def Defines (past : List Event) (name : String) (event : Event) : Prop :=
  ∃ id, event.written? = some id ∧ (past.foldl step {}).meaning id.name = name ∧
    nearest? (sight (past.foldl after [])) name = none

def DefinedIn (events : List Event) (name : String) : Prop :=
  ∃ past event, past ++ [event] <+: events ∧ Defines past name event

variable {past : List Event}

theorem definedIn_concat :
    DefinedIn (past ++ [event]) name ↔ DefinedIn past name ∨ Defines past name event := by
  constructor
  · rintro ⟨before, other, hpart, hdefines⟩
    rcases prefix_concat_iff.mp hpart with heq | hpart
    · obtain ⟨rfl, hother⟩ := append_inj' heq rfl
      obtain rfl := singleton_inj.mp hother
      exact .inr hdefines
    · exact .inl ⟨before, other, hpart, hdefines⟩
  · rintro (⟨before, other, hpart, hdefines⟩ | hdefines)
    · exact ⟨before, other, hpart.trans (prefix_append _ _), hdefines⟩
    · exact ⟨past, event, prefix_rfl, hdefines⟩

theorem DefinedIn.mono {others : List Event} (h : DefinedIn events name) (hpart : events <+: others) :
    DefinedIn others name := by
  obtain ⟨past, event, hpast, hdefines⟩ := h
  exact ⟨past, event, hpast.trans hpart, hdefines⟩

theorem symbolAt?_declare_local (h : b.Tracks layers locals) (hopen : layers ≠ []) (hname : '.' ∉ name.toList)
    {d : Identifier} {isParameter : Bool}
    (htracks : (b.declare d isParameter).Tracks (Scoping.declare [d] layers) locals') :
    (b.declare d isParameter).symbolAt? 0 name = b.symbolAt? 0 name ∨
      ∃ i, (b.declare d isParameter).symbolAt? 0 name = some i ∧ ∃ d, (i, d) ∈ locals' := by
  obtain ⟨id, outer, hids, hvalid⟩ := h.follows.exists_cons hopen
  obtain ⟨top, rest, rfl⟩ := exists_cons_of_ne_nil hopen
  by_cases hnew : id = 0 ∧ name = d.name
  · obtain ⟨rfl, rfl⟩ := hnew
    have hscopes := htracks.scopes
    rw [openScopes_declare, hids] at hscopes
    obtain ⟨i, hi, hd⟩ := ((forall₂_cons.mp hscopes).1 d.name hname).1 d (by simp [nearest?_cons])
    exact .inr ⟨i, hi, d, hd⟩
  · rw [symbolAt?_declare hids hvalid, if_neg hnew]
    exact .inl rfl

/-- An event gives a plain name a symbol in the global scope only if it declares a local there, or if it writes the name
and the name is found nowhere. -/
theorem symbolAt?_step (h : b.Tracks layers locals) (hopen : layers ≠ []) (hname : '.' ∉ name.toList) (event : Event)
    (htracks : (b.step event).Tracks (after layers event) locals') :
    (b.step event).symbolAt? 0 name = b.symbolAt? 0 name ∨ ∃ i, (b.step event).symbolAt? 0 name = some i ∧
      ((∃ d, (i, d) ∈ locals') ∨ b.find? name = none ∧ ∃ id, event.written? = some id ∧ b.meaning id.name = name) := by
  rcases h.follows.step_cases hopen event with ⟨node, ctx, rfl⟩ | ⟨node, ctx, rfl⟩ | ⟨d, hstep, -, -, hafter⟩ | ⟨hacts, -⟩
  · exact .inl ((sameNames_enter b node ctx).symbols 0 name)
  · exact .inl ((sameNames_leave b).symbols 0 name)
  · rw [hstep, hafter] at htracks
    rw [hstep]
    rcases symbolAt?_declare_local h hopen hname htracks with hsame | ⟨i, hi, hd⟩
    · exact .inl hsame
    · exact .inr ⟨i, hi, .inl hd⟩
  · rcases hacts.extends.symbols 0 name with hsame | ⟨i, hi, -, hgive⟩
    · exact .inl hsame
    · obtain ⟨-, hwritten⟩ := hgive.named.resolve_left hname
      exact .inr ⟨i, hi, .inr ⟨hgive.unknown, Option.map_eq_some_iff.mp hwritten⟩⟩

/-! ### The walk -/

/-- The symbol of a name in the global scope tells whether the events so far define a global of that name. -/
structure Accounts (past : List Event) (b : Builder) (layers : List Layer) (locals : Locals) (name : String) : Prop where
  builder : past.foldl step {} = b
  layers_eq : past.foldl after [] = layers
  tracks : b.Tracks layers locals
  written : DefinedIn past name → ∃ i, b.symbolAt? 0 name = some i
  defined : ∀ i, b.symbolAt? 0 name = some i → (∀ d, (i, d) ∉ locals) → DefinedIn past name

variable {past : List Event}

theorem Accounts.find?_eq_none_iff (h : Accounts past b layers locals name) (hopen : layers ≠ [])
    (hname : '.' ∉ name.toList) (hnear : nearest? (sight layers) name = none) :
    b.find? name = none ↔ ¬DefinedIn past name := by
  constructor
  · intro hfind hdefined
    obtain ⟨i, hi⟩ := h.written hdefined
    cases hi.symm.trans (Builder.find?_eq_none_iff.mp hfind 0 (h.tracks.follows.zero_mem hopen))
  · intro hdefined
    by_contra hfind
    obtain ⟨⟨scope, i⟩, hfound⟩ := Option.ne_none_iff_exists'.mp hfind
    obtain ⟨-, hi, hother⟩ := (h.tracks.find?_of_nearest hname).2 hnear scope i hfound
    exact hdefined (h.defined i hi hother)

theorem Accounts.symbolAt?_of_defines (h : Accounts past b layers locals name) (hname : '.' ∉ name.toList)
    (hopen : layers ≠ []) (htracks : (b.step event).Tracks (after layers event) locals')
    (hdefines : Defines past name event) : ∃ i, (b.step event).symbolAt? 0 name = some i := by
  obtain ⟨id, hwritten, hmeaning, hnear⟩ := hdefines
  rw [h.builder] at hmeaning
  rw [h.layers_eq] at hnear
  cases hfind : b.find? name with
  | some found =>
    obtain ⟨-, hi, -⟩ := (h.tracks.find?_of_nearest hname).2 hnear found.1 found.2 hfind
    rcases symbolAt?_step h.tracks hopen hname event htracks with hsame | ⟨i, hnew, -⟩
    · exact ⟨_, hsame.trans hi⟩
    · exact ⟨i, hnew⟩
  | none =>
    obtain ⟨ctx, rfl, htarget, hdeclaration⟩ := Event.exists_of_written? hwritten
    obtain ⟨s, hs, -⟩ := Option.map_eq_some_iff.mp h.tracks.kind
    have hpaths : (b.paths? (.name id)).getD [] = [(name, id.span)] := by
      rw [← hmeaning]
      rfl
    have hstep : b.step (.expression (.name id) ctx) = (b.define 0 name id.span).2 := by
      rw [step, addExpression, if_neg (by simp [hdeclaration]), hpaths, htarget, addChain, addParts, addPart, hfind]
      rfl
    rw [hstep]
    exact ⟨_, (symbolAt?_define (by simp [hs]) name id.span 0 name).trans (if_pos ⟨rfl, rfl⟩)⟩

theorem accounts_step (h : Accounts past b layers locals name) (hname : '.' ∉ name.toList) (hopen : layers ≠ [])
    (event : Event) (hplain : ∀ m ∈ mentions layers event, m.Plain) :
    ∃ locals', Accounts (past ++ [event]) (b.step event) (after layers event) locals' name ∧
      Later b locals (b.step event) locals' := by
  obtain ⟨locals', htracks, hlater, -⟩ := tracks_step h.tracks hopen event hplain
  have hsymbol := symbolAt?_step h.tracks hopen hname event htracks
  refine ⟨locals', ⟨?_, ?_, htracks, ?_, ?_⟩, hlater⟩
  · rw [foldl_concat, h.builder]
  · rw [foldl_concat, h.layers_eq]
  · rw [definedIn_concat]
    rintro (hdefined | hdefines)
    · obtain ⟨i, hi⟩ := h.written hdefined
      rcases hsymbol with hsame | ⟨j, hj, -⟩
      · exact ⟨i, hsame.trans hi⟩
      · exact ⟨j, hj⟩
    · exact h.symbolAt?_of_defines hname hopen htracks hdefines
  · intro i hi hother
    rw [definedIn_concat]
    rcases hsymbol with hsame | ⟨j, hj, ⟨d, hd⟩ | ⟨hfind, id, hwritten, hmeaning⟩⟩
    · exact .inl (h.defined i (hsame.symm.trans hi) fun d hd => hother d (hlater.locals_subset _ hd))
    · obtain rfl := Option.some.inj (hj.symm.trans hi)
      exact absurd hd (hother d)
    · refine .inr ⟨id, hwritten, h.builder.symm ▸ hmeaning, ?_⟩
      rw [h.layers_eq]
      cases hnear : nearest? (sight layers) name with
      | none => rfl
      | some d =>
        obtain ⟨scope, j, hfound, -⟩ := (h.tracks.find?_of_nearest hname).1 d hnear
        rw [hfind] at hfound
        cases hfound

theorem accounts_foldl {ms : List Mention} (htells : Tells layers events layers' ms)
    (h : Accounts past b layers locals name) (hname : '.' ∉ name.toList)
    (hplain : ∀ m ∈ ms, m.Plain) :
    ∃ locals', Accounts (past ++ events) (events.foldl step b) layers' locals' name ∧
      Later b locals (events.foldl step b) locals' := by
  induction htells generalizing past b locals with
  | nil => exact ⟨locals, by rwa [append_nil], .refl b locals⟩
  | @cons layers _ event events ms hopen _ ih =>
    obtain ⟨hfirst, hothers⟩ := forall_mem_append.mp hplain
    obtain ⟨locals₁, hstep, hlater⟩ := accounts_step h hname hopen event hfirst
    obtain ⟨locals₂, hall, hlater'⟩ := ih hstep hothers
    rw [append_assoc] at hall
    exact ⟨locals₂, hall, hlater.trans hlater'⟩
  | reorder _ hperm ih => exact ih h fun m hm => hplain m (hperm.mem_iff.mp hm)

theorem accounts_start (body : Block) (name : String) :
    Accounts [.enter (.chunk body) {}] (({} : Builder).enter (.chunk body) {}) [{}] [] name := by
  refine ⟨rfl, rfl, tracks_start body, ?_, nofun⟩
  intro (hdefined : DefinedIn ([] ++ [.enter (.chunk body) {}]) name)
  rcases definedIn_concat.mp hdefined with ⟨_, _, hpart, -⟩ | ⟨_, hwritten, -⟩
  · exact absurd (prefix_nil.mp hpart) (by simp)
  · cases hwritten

/-! ### References -/

theorem Accounts.reference (h : Accounts past b layers locals id.name) (hopen : layers ≠ [])
    (hname : '.' ∉ id.name.toList) (hself : id.name ≠ "self") (hnear : nearest? (sight layers) id.name = none)
    (hid : event.reference? = some id) :
    (DefinedIn (past ++ [event]) id.name → ∃ i, (b.step event).Uses i id.span) ∧
      (¬DefinedIn (past ++ [event]) id.name →
        ∃ r ∈ (b.step event).early.toList, r.name = id.name ∧ r.span = id.span) := by
  have hwrites : event.written?.isSome = true ↔ Defines past id.name event := by
    constructor
    · intro hwrites
      obtain ⟨w, hw⟩ := Option.isSome_iff_exists.mp hwrites
      obtain rfl := Option.some.inj ((Event.reference?_of_written? hw).symm.trans hid)
      exact ⟨w, hw, meaning_of_ne hself, by rw [h.layers_eq, hnear]⟩
    · rintro ⟨w, hw, -⟩
      rw [hw]
      rfl
  have hfound := h.find?_eq_none_iff hopen hname hnear
  have hlands := lands_step h.tracks.follows.known (h.tracks.follows.zero_mem hopen) hid
  rw [meaning_of_ne hself] at hlands
  rw [definedIn_concat, ← hwrites]
  rcases hlands with ⟨scope, i, hfind, huses⟩ | ⟨hfind, ⟨htarget, i, -, huses⟩ | ⟨hread, r, hr, hrname, hrspan, -⟩⟩
  · refine ⟨fun _ => ⟨i, huses⟩, fun hnot => ?_⟩
    rw [hfound.mpr fun hdefined => hnot (.inl hdefined)] at hfind
    cases hfind
  · exact ⟨fun _ => ⟨i, huses⟩, fun hnot => absurd (.inr htarget) hnot⟩
  · refine ⟨?_, fun _ => ⟨r, hr, hrname, hrspan⟩⟩
    rintro (hdefined | htarget)
    · exact absurd hdefined (hfound.mp hfind)
    · cases hread.symm.trans htarget

/-! ### The end of the walk -/

/-- When only the scope of the whole program is open, a name is no global if it is not defined or if a local of that name
was declared there. -/
theorem Accounts.nonLocal?_eq_none_iff {top : Layer} (h : Accounts past b [top] locals name)
    (hname : '.' ∉ name.toList) :
    b.nonLocal? 0 name = none ↔ (DefinedIn past name → (nearest? top.locals name).isSome = true) := by
  have hholds : b.Holds locals 0 top.locals := by
    obtain ⟨id, others, hhead, hothers, hids⟩ := forall₂_cons_right_iff.mp h.tracks.scopes
    obtain rfl := forall₂_nil_right_iff.mp hothers
    have hbottom := h.tracks.follows.bottom (cons_ne_nil _ _)
    rw [hids] at hbottom
    exact Option.some.inj hbottom ▸ hhead
  obtain ⟨hlocal, hglobal⟩ := hholds name hname
  rw [nonLocal?_eq_filter, Option.filter_eq_none_iff]
  cases hnear : nearest? top.locals name with
  | some d =>
    refine iff_of_true ?_ fun _ => rfl
    obtain ⟨i, hi, hd⟩ := hlocal d hnear
    obtain ⟨x, hx, rfl⟩ := h.tracks.globals name i d hi hd
    intro j hj
    obtain rfl := Option.some.inj (hi.symm.trans hj)
    have hany : (b.declaredAt 0).any (·.entry == x.entry) = true := any_eq_true.mpr ⟨x, hx, beq_self_eq_true _⟩
    rw [hany]
    exact nofun
  | none =>
    constructor
    · intro hfilter hdefined
      obtain ⟨i, hi⟩ := h.written hdefined
      obtain ⟨-, hother⟩ := hglobal hnear i hi
      refine absurd ?_ (hfilter i hi)
      rw [Bool.not_eq_true', any_eq_false]
      intro x hx hentry
      obtain ⟨d, hd⟩ := h.tracks.declared x hx
      exact hother d (beq_iff_eq.mp hentry ▸ hd)
    · intro hdefined i hi
      exact absurd (hdefined (h.defined i hi (hglobal hnear i hi).2)) nofun

end Builder

open Builder Scoping

theorem exists_of_prefix_chunk {body : Block}
    (hpart : past ++ [event] <+: Walk.chunk below body) (hid : event.reference? = some id) :
    ∃ before rest, past = .enter (.chunk body) {} :: before ∧
      .block body (Context.enter {} (.chunk body)) :: Walk.statements below (Context.enter {} (.chunk body)) body =
        before ++ event :: rest := by
  obtain ⟨post, hpost⟩ := hpart
  rw [Walk.chunk, Walk.inScope] at hpost
  cases past with
  | nil =>
    obtain ⟨rfl, -⟩ := cons.inj hpost
    cases hid
  | cons first before =>
    simp only [cons_append, cons.injEq] at hpost
    obtain ⟨rfl, htail⟩ := hpost
    rw [← cons_append] at htail
    rcases eq_nil_or_concat post with rfl | ⟨rest, last, rfl⟩
    · rw [append_nil] at htail
      obtain ⟨-, hlast⟩ := append_inj' htail rfl
      obtain rfl := singleton_inj.mp hlast
      cases hid
    · rw [concat_eq_append, ← append_assoc] at htail
      obtain ⟨hinside, -⟩ := append_inj' htail rfl
      refine ⟨before, rest, rfl, hinside.symm.trans ?_⟩
      rw [append_assoc, singleton_append]

theorem definedIn_chunk (body : Block) (name : String) : DefinedIn (Walk.chunk below body) name ↔
    DefinedIn (.enter (.chunk body) {} :: .block body (Context.enter {} (.chunk body)) ::
      Walk.statements below (Context.enter {} (.chunk body)) body) name := by
  rw [Walk.chunk, Walk.inScope, definedIn_concat]
  apply or_iff_left
  rintro ⟨_, hwritten, -⟩
  cases hwritten

section

variable {body : Block} (hfits : ∀ m ∈ Mention.statements [] body, m.Fits) {past : List Event}

include hfits

theorem isLocal_eq_nearest (hpart : past ++ [event] <+: Walk.chunk below body)
    (hid : event.reference? = some id) : '.' ∉ id.name.toList ∧
      (id.name ≠ "self" → id.isLocal = (nearest? (sight (past.foldl after [])) id.name).isSome) := by
  obtain ⟨before, rest, rfl, hinside⟩ := exists_of_prefix_chunk hpart hid
  have htells := tells_program (Context.enter {} (.chunk body)) body
  rw [hinside] at htells
  obtain ⟨first, second, -, hrest, hperm⟩ := htells.split
  have hmem := hrest.mem_of_head (mem_mentions hid _)
  exact hfits _ (hperm.mem_iff.mp (mem_append_right _ hmem))

/-- What the whole walk leaves of a name with no declaration in sight: whether it is a global in the end, and whether the
name was found when it was met or still waits. -/
theorem walked_reference (hpart : past ++ [event] <+: Walk.chunk below body)
    (hid : event.reference? = some id) (hself : id.name ≠ "self") (hlocal : id.isLocal = false) :
    let walked := (Walk.chunk below body).foldl step {}
    (walked.nonLocal? 0 id.name = none ↔
      (DefinedIn (Walk.chunk below body) id.name → (nearest? (sightBehind [] body) id.name).isSome = true)) ∧
    (DefinedIn (past ++ [event]) id.name → ∃ i, walked.Uses i id.span) ∧
    (¬DefinedIn (past ++ [event]) id.name → ∃ r ∈ walked.early.toList, r.name = id.name ∧ r.span = id.span) := by
  obtain ⟨hname, hmark⟩ := isLocal_eq_nearest hfits hpart hid
  have hnear : nearest? (sight (past.foldl after [])) id.name = none := by
    rw [← Option.not_isSome_iff_eq_none, ← hmark hself, hlocal]
    exact Bool.false_ne_true
  obtain ⟨before, rest, rfl, hinside⟩ := exists_of_prefix_chunk hpart hid
  have htells := tells_program (Context.enter {} (.chunk body)) body
  rw [hinside] at htells
  obtain ⟨first, others, hbefore, hothers, hperm⟩ := htells.split
  obtain ⟨here, second, hevent, hrest, hperm'⟩ := Tells.split (show Tells _ ([event] ++ rest) _ _ from hothers)
  have hplain : ∀ m ∈ first ++ (here ++ second), m.Plain := by
    intro m hm
    exact (hfits m (hperm.mem_iff.mp (((hperm'.append_left first).mem_iff).mp hm))).plain
  obtain ⟨hfirst, hplain⟩ := forall_mem_append.mp hplain
  obtain ⟨hhere, hsecond⟩ := forall_mem_append.mp hplain
  have hend : Scoping.declare (sightBehind [] body) [{}] ≠ [] := declare_ne_nil _ (cons_ne_nil _ _)
  obtain ⟨_, hstart, -⟩ := accounts_foldl hbefore (accounts_start body id.name) hname hfirst
  obtain ⟨_, hstep, -⟩ := accounts_foldl hevent hstart hname hhere
  obtain ⟨_, hfinal, hlater⟩ := accounts_foldl hrest hstep hname hsecond
  obtain ⟨huses, hwaits⟩ := hstart.reference (hothers.ne_nil hend) hname hself hnear hid
  generalize hbuilder :
    rest.foldl step ([event].foldl step (before.foldl step (({} : Builder).enter (.chunk body) {}))) = last at hfinal hlater
  have hwalked : (Walk.chunk below body).foldl step {} = last.leave := by
    rw [← hbuilder, Walk.chunk, Walk.inScope, hinside]
    simp [step]
  have hsame := sameNames_leave last
  rw [hwalked]
  refine ⟨?_, ?_, ?_⟩
  · rw [nonLocal?_eq_filter, hsame.symbols, hsame.declared hfinal.tracks.kind, ← nonLocal?_eq_filter,
      hfinal.nonLocal?_eq_none_iff hname, definedIn_chunk, hinside]
    simp
  · intro hdefined
    obtain ⟨i, hi⟩ := huses hdefined
    obtain ⟨e, he, hspan⟩ := hlater.uses i _ hi
    exact ⟨i, e, hsame.entries ▸ he, hspan⟩
  · intro hdefined
    obtain ⟨r, hr, hplace⟩ := hwaits hdefined
    exact ⟨r, hsame.early ▸ hlater.early r hr, hplace⟩

/-- A name with no declaration in sight is reported as undefined if it is no builtin, no event up to it defines a global of
that name, and one that a later event defines is hidden by a local of the program itself. -/
theorem mem_undefined_iff (hdistinct : ((Mention.statements [] body).map Mention.span).Nodup)
    (hpart : past ++ [event] <+: Walk.chunk below body) (hid : event.reference? = some id)
    (hself : id.name ≠ "self") (hlocal : id.isLocal = false) :
    ⟨.undefinedVariable id.name, id.span⟩ ∈ (build body).2 ↔ isBuiltin id.name = false ∧
      ¬DefinedIn (past ++ [event]) id.name ∧
      (DefinedIn (Walk.chunk below body) id.name → (nearest? (sightBehind [] body) id.name).isSome = true) := by
  obtain ⟨hname, -⟩ := isLocal_eq_nearest hfits hpart hid
  obtain ⟨hnone, huses, hwaits⟩ := walked_reference hfits hpart hid hself hlocal
  obtain ⟨locals, hgrounded, -⟩ := placed_walk body fun m hm => (hfits m hm).plain
  obtain ⟨hproper, hquiet⟩ := proper_walk body
  obtain ⟨hindex, hwarnings⟩ := build_eq body
  obtain ⟨-, hlater, -⟩ := settled_foldl hgrounded (waiting body)
  have hwarned := mem_warnings_settleAll (b := (Walk.chunk below body).foldl step {}) hname hproper id.span
  rw [← (recorded_build_perm body).nodup_iff] at hdistinct
  obtain ⟨-, -, hapart⟩ := nodup_append.mp hdistinct
  have hold : ⟨.undefinedVariable id.name, id.span⟩ ∉ ((Walk.chunk below body).foldl step {}).warnings.toList := by
    intro hmem
    have hspan := mem_filterMap.mpr ⟨_, hmem, show undefinedSpan? _ = some id.span from rfl⟩
    rw [hquiet] at hspan
    cases hspan
  rw [hindex] at hapart
  rw [hwarnings.mem_iff, hwarned, or_iff_right hold, ← hnone]
  constructor
  · rintro ⟨hbuiltin, hglobal, hr⟩
    refine ⟨hbuiltin, ?_, hglobal⟩
    intro hdefined
    obtain ⟨i, hi⟩ := huses hdefined
    -- The span would be a usage and a warning at once.
    have hspan : id.span ∈ (build body).2.filterMap undefinedSpan? :=
      mem_filterMap.mpr ⟨_, hwarnings.mem_iff.mpr (hwarned.mpr (.inr ⟨hbuiltin, hglobal, hr⟩)), rfl⟩
    exact hapart _ (Uses.mem_usages (hlater.uses i _ hi)) _ hspan rfl
  · rintro ⟨hbuiltin, hdefined, hglobal⟩
    exact ⟨hbuiltin, hglobal, hwaits hdefined⟩

/-- Where `self` is not written, a global is defined where its name is written and not marked as a local. -/
theorem definedIn_iff_writesGlobal (hpart : events <+: Walk.chunk below body) {name : String} (hname : name ≠ "self")
    (hself : ∀ event ∈ Walk.chunk below body, event.writes "self" = false) :
    DefinedIn events name ↔ ∃ event ∈ events, event.writesGlobal name = true := by
  constructor
  · rintro ⟨past, event, hpast, id, hwritten, hmeaning, hnear⟩
    have hevent : event ∈ events := hpast.subset (mem_append_right _ mem_cons_self)
    have hne : id.name ≠ "self" := by
      have hnot := hself event (hpart.subset hevent)
      simpa [Event.writes, hwritten] using hnot
    rw [meaning_of_ne hne] at hmeaning
    have hmark := (isLocal_eq_nearest hfits (hpast.trans hpart) (Event.reference?_of_written? hwritten)).2 hne
    rw [hmeaning, hnear] at hmark
    exact ⟨event, hevent, by simp [Event.writesGlobal, hwritten, hmeaning, hmark]⟩
  · rintro ⟨event, hevent, hwrites⟩
    obtain ⟨id, hwritten, rfl, hlocal⟩ : ∃ id, event.written? = some id ∧ id.name = name ∧ id.isLocal = false := by
      cases hwritten : event.written? with
      | none => simp [Event.writesGlobal, hwritten] at hwrites
      | some id =>
        simp only [Event.writesGlobal, hwritten, Option.any_some, Bool.and_eq_true, beq_iff_eq, Bool.not_eq_true']
          at hwrites
        exact ⟨id, rfl, hwrites⟩
    obtain ⟨past, rest, rfl⟩ := append_of_mem hevent
    have hpast : past ++ [event] <+: past ++ event :: rest := ⟨rest, by simp⟩
    refine ⟨past, event, hpast, id, hwritten, meaning_of_ne hname, ?_⟩
    have hmark := (isLocal_eq_nearest hfits (hpast.trans hpart) (Event.reference?_of_written? hwritten)).2 hname
    rw [← Option.not_isSome_iff_eq_none, ← hmark, hlocal]
    exact Bool.false_ne_true

/-- Where no local of the program itself hides a name and `self` is not written, the name is reported if it is no builtin
and is written nowhere. -/
theorem mem_undefined_iff_of_visible (hdistinct : ((Mention.statements [] body).map Mention.span).Nodup)
    (hpart : past ++ [event] <+: Walk.chunk below body) (hid : event.reference? = some id)
    (hself : id.name ≠ "self") (hlocal : id.isLocal = false) (hvisible : nearest? (sightBehind [] body) id.name = none)
    (hunwritten : ∀ other ∈ Walk.chunk below body, other.writes "self" = false) :
    ⟨.undefinedVariable id.name, id.span⟩ ∈ (build body).2 ↔ isBuiltin id.name = false ∧
      ∀ other ∈ Walk.chunk below body, other.writesGlobal id.name = false := by
  have hnowhere : (∀ other ∈ Walk.chunk below body, other.writesGlobal id.name = false) ↔
      ¬DefinedIn (Walk.chunk below body) id.name := by
    rw [definedIn_iff_writesGlobal hfits prefix_rfl hself hunwritten]
    simp
  rw [mem_undefined_iff hfits hdistinct hpart hid hself hlocal, hnowhere, hvisible]
  apply and_congr_right
  intro _
  constructor
  · rintro ⟨-, hhidden⟩ hdefined
    exact Bool.false_ne_true (hhidden hdefined)
  · exact fun hnot => ⟨fun hdefined => hnot (hdefined.mono hpart), fun hdefined => absurd hdefined hnot⟩

end

end CrossReference

namespace Chunk

open CrossReference CrossReference.Builder

/-- Which variables are reported as undefined. In a program without errors, a name other than `self` that is not marked
as a local is reported exactly if it is no builtin, nothing up to it defines a global of that name, and a global that is
defined behind it is hidden by a local of the program itself. If there is no such local and `self` is written nowhere,
then what counts is whether the name is written anywhere in the program without being a local. -/
theorem undefined_iff_unwritten (options : Options) (source name : String)
    (herrors : (Chunk.parse options source name).errors = []) {past : List Event} {event : Event}
    (hpart : past ++ [event] <+: Walk.chunk below (Chunk.parse options source name).body) {id : Identifier}
    (hid : event.reference? = some id) (hself : id.name ≠ "self") (hlocal : id.isLocal = false) :
    let body := (Chunk.parse options source name).body
    let warned := ⟨.undefinedVariable id.name, id.span⟩ ∈ (Chunk.parse options source name).warnings
    (warned ↔ isBuiltin id.name = false ∧ ¬DefinedIn (past ++ [event]) id.name ∧
      (DefinedIn (Walk.chunk below body) id.name → (nearest? (sightBehind [] body) id.name).isSome = true)) ∧
    (nearest? (sightBehind [] body) id.name = none → (∀ other ∈ Walk.chunk below body, other.writes "self" = false) →
      (warned ↔ isBuiltin id.name = false ∧ ∀ other ∈ Walk.chunk below body, other.writesGlobal id.name = false)) := by
  intro body warned
  obtain ⟨hfits, hdistinct⟩ := Program.said_parse (Program.isFlow_of_errors_nil herrors)
  constructor
  · exact mem_undefined_iff hfits hdistinct hpart hid hself hlocal
  · exact mem_undefined_iff_of_visible hfits hdistinct hpart hid hself hlocal

/-- A program that calls a function before it defines it, and a function that it does not define. -/
def calling : String := "f()\nfunction f()local x=g()x=x end"

theorem undefined_iff_unwritten_calling : (Chunk.parse {} calling).errors = [] ∧
    ⟨.undefinedVariable "g", ⟨⟨2, 21, 24, 0⟩, ⟨2, 22, 25, 0⟩⟩⟩ ∈ (Chunk.parse {} calling).warnings ∧
    ⟨.undefinedVariable "f", ⟨⟨1, 1, 0, 0⟩, ⟨1, 2, 1, 0⟩⟩⟩ ∉ (Chunk.parse {} calling).warnings := by
  have herrors : (Chunk.parse {} calling).errors = [] := by decide +kernel
  have hself : ∀ other ∈ Walk.chunk below (Chunk.parse {} calling "main.lua").body, other.writes "self" = false := by
    decide +kernel
  have hvisit (id : Identifier)
      (h : (Walk.chunk below (Chunk.parse {} calling "main.lua").body).any (·.reference? == some id) = true) :
      ∃ past event, past ++ [event] <+: Walk.chunk below (Chunk.parse {} calling "main.lua").body ∧
        event.reference? = some id := by
    obtain ⟨event, hmem, hid⟩ := List.any_eq_true.mp h
    obtain ⟨past, rest, hall⟩ := List.append_of_mem hmem
    exact ⟨past, event, ⟨rest, by simp [hall]⟩, beq_iff_eq.mp hid⟩
  obtain ⟨past, event, hpart, hid⟩ := hvisit ⟨"g", false, ⟨⟨2, 21, 24, 0⟩, ⟨2, 22, 25, 0⟩⟩⟩ (by decide +kernel)
  obtain ⟨past', event', hpart', hid'⟩ := hvisit ⟨"f", false, ⟨⟨1, 1, 0, 0⟩, ⟨1, 2, 1, 0⟩⟩⟩ (by decide +kernel)
  obtain ⟨-, hg⟩ := undefined_iff_unwritten {} calling "main.lua" herrors hpart hid (by decide) rfl
  obtain ⟨-, hf⟩ := undefined_iff_unwritten {} calling "main.lua" herrors hpart' hid' (by decide) rfl
  refine ⟨herrors, (hg (by decide +kernel) hself).mpr ⟨by decide, by decide +kernel⟩, ?_⟩
  intro hmem
  exact absurd ((hf (by decide +kernel) hself).mp hmem).2 (by decide +kernel)

/-- Neither of the two conditions can be left out. In the first program the global is written behind the call and then
hidden by a local; the call is reported though the name is written. In the second the name is written nowhere, but
`self` stands for it in the method; it is not reported. -/
theorem undefined_hidden_or_self :
    ((Chunk.parse {} "x()\nx=1\nlocal x=2").errors = [] ∧
      (∃ event ∈ Walk.chunk below (Chunk.parse {} "x()\nx=1\nlocal x=2" "main.lua").body,
        event.writesGlobal "x" = true) ∧
      ⟨.undefinedVariable "x", ⟨⟨1, 1, 0, 0⟩, ⟨1, 2, 1, 0⟩⟩⟩ ∈ (Chunk.parse {} "x()\nx=1\nlocal x=2").warnings) ∧
    (Chunk.parse {} "function obj:m() self=1 end\nprint(obj)").errors = [] ∧
      isBuiltin "obj" = false ∧
      (∀ event ∈ Walk.chunk below (Chunk.parse {} "function obj:m() self=1 end\nprint(obj)" "main.lua").body,
        event.writesGlobal "obj" = false) ∧
      (Chunk.parse {} "function obj:m() self=1 end\nprint(obj)").warnings = [] := by
  refine ⟨⟨by decide +kernel, by decide +kernel, ?_⟩, by decide +kernel, by decide, by decide +kernel, ?_⟩
  · apply (List.mergeSort_perm _ warningOrder).mem_iff.mpr
    decide +kernel
  · apply List.Perm.eq_nil
    apply (List.mergeSort_perm _ warningOrder).trans
    exact List.perm_nil.mpr (by decide +kernel)

end Chunk

end CartLua
