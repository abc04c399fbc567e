import CartLua.Chunk
import CartLua.Proofs.PhraseSight
import CartLua.Proofs.Resolution
/-!
# Locals of a program

The parser marks the names that are locals, and the cross references find the declaration of every name anew, from the
tree. In a program that is read without errors the two agree: a name that is marked is a usage of the entry of its nearest
declaration and of no other, and a name that is not marked is no usage of the entry of any declaration.
-/

namespace CartLua

open List Mention

theorem Mention.Fits.plain {m : Mention} (h : m.Fits) : m.Plain := by
  cases m with
  | declaration => exact h
  | reference => exact h.1
  | part => exact h
  | fieldKey => exact h

namespace Program

open Parse Session

variable {c : Settings} {s t : Session} {options : Options} {source name : String}

theorem said_wholeText {levels : Nat} {body : Block} (h : (wholeText levels).run c s = .ok body t) (hs : s.Regular c)
    (hscopes : s.scopes = []) (hclean : t.Clean) :
    (∀ m ∈ statements [] body, m.Fits) ∧ ((statements [] body).map (·.span.stop)).Nodup := by
  obtain ⟨_, u, v, _, hopen, hscope, hbody, hscope', hclose⟩ := derives_wholeText h
  have hread : Mentions c u v (sightBehind [] body) fun sight => statements sight body := hbody.mentioned
  have hu : u.Regular c := (reaches hscope).regular ((reaches hopen).regular hs)
  have hv : v.Clean := hclean.of_reaches ((reaches hscope').trans (reaches hclose))
  have hsees : u.Sees [] := by
    cases hopen
    cases hscope
    refine ⟨cons_ne_nil _ _, fun _ _ => ?_⟩
    simp [Session.openScope, visible, hscopes, nearest?]
  have hsaid := hread.said hu hv [] hsees
  exact ⟨hsaid.fits, hsaid.fresh.distinct⟩

theorem regular_start (options : Options) (source name : String) :
    (start options source name).Regular (settings options source) := by
  refine ⟨orderly_start options source name, fun w hw => ?_⟩
  obtain rfl : w = (start options source name).window := mem_singleton.mp hw
  exact Window.sorted_start _ _ _

/-- In a program without syntax faults the marks of locals are right, and all that is mentioned stands at different
places. -/
theorem said_parse (hclean : ∀ d ∈ (parse options source name).errors, d.fault.isFlow = true) :
    (∀ m ∈ Mention.statements [] (parse options source name).body, m.Fits) ∧
      ((Mention.statements [] (parse options source name).body).map Mention.span).Nodup := by
  obtain ⟨body, last, hrun⟩ := exists_run_eq_ok options source name
  rw [parse_eq hrun] at hclean ⊢
  obtain ⟨hfits, hdistinct⟩ := said_wholeText hrun (regular_start options source name) rfl hclean
  refine ⟨hfits, List.Nodup.of_map Span.stop ?_⟩
  rwa [map_map]

end Program

namespace CrossReference

/-- The entry with the number `i` was made for a declaration. -/
def MadeFor (x : CrossReference) (i : EntryId) (d : Identifier) : Prop := ∃ e, x.entries[i]? = some e ∧ e.IsOf d

variable {x : CrossReference} {i j : EntryId} {span : Span} {d : Identifier}

theorem MadeFor.uses (h : x.MadeFor i d) : x.Uses i d.span := by
  obtain ⟨e, he, hof⟩ := h
  exact ⟨e, he, mem_of_mem_head? (Option.mem_def.mpr hof.usage)⟩

theorem Uses.mem_usages (h : x.Uses i span) : span ∈ x.usages := by
  obtain ⟨e, he, hspan⟩ := h
  rw [← Array.getElem?_toList] at he
  exact mem_flatMap.mpr ⟨e, mem_of_getElem? he, hspan⟩

theorem Uses.unique (hdistinct : x.usages.Nodup) (hi : x.Uses i span) (hj : x.Uses j span) : i = j := by
  have hpairwise := List.pairwise_iff_getElem.mp (List.nodup_flatMap.mp hdistinct).2
  have hdisjoint : ∀ {i j : EntryId}, i < j → x.Uses i span → ¬x.Uses j span := by
    rintro i j hlt ⟨e, he, hspan⟩ ⟨e', he', hspan'⟩
    rw [← Array.getElem?_toList] at he he'
    obtain ⟨hi, rfl⟩ := List.getElem?_eq_some_iff.mp he
    obtain ⟨hj, rfl⟩ := List.getElem?_eq_some_iff.mp he'
    exact hpairwise i j hi hj hlt hspan hspan'
  rcases Nat.lt_trichotomy i j with hlt | heq | hlt
  · exact absurd hj (hdisjoint hlt hi)
  · exact heq
  · exact absurd hi (hdisjoint hlt hj)

section

variable {body : Block} {id : Identifier} (hfits : ∀ m ∈ Mention.statements [] body, m.Fits)
  (hdistinct : ((Mention.statements [] body).map Mention.span).Nodup) (hself : id.name ≠ "self") {nearest : Option Identifier}

include hfits hdistinct hself

theorem uses_of_isLocal (hmention : .reference id nearest ∈ Mention.statements [] body) (hlocal : id.isLocal = true) :
    ∃ d i, nearest = some d ∧ (∀ j, (build body).1.MadeFor j d ↔ j = i) ∧ ∀ j, (build body).1.Uses j id.span ↔ j = i := by
  obtain ⟨locals, hmade, hresolves⟩ := resolves_build body fun m hm => (hfits m hm).plain
  rw [← (recorded_build_perm body).nodup_iff] at hdistinct
  obtain ⟨husages, -, -⟩ := nodup_append.mp hdistinct
  have hmark := (hfits _ hmention).2 hself
  cases nearest with
  | none =>
    rw [hlocal] at hmark
    cases hmark
  | some d =>
    obtain ⟨i, hi, huses⟩ := hresolves _ hmention hself
    have hfor : (build body).1.MadeFor i d := hmade _ hi
    refine ⟨d, i, rfl, fun j => ⟨fun hj => ?_, fun hj => hj ▸ hfor⟩, fun j => ⟨fun hj => ?_, fun hj => hj ▸ huses⟩⟩
    · exact Uses.unique husages hj.uses hfor.uses
    · exact Uses.unique husages hj huses

theorem not_uses_of_isGlobal (hmention : .reference id nearest ∈ Mention.statements [] body)
    (hglobal : id.isLocal = false) {d : Identifier} (hd : .declaration d ∈ Mention.statements [] body) {i : EntryId}
    (hfor : (build body).1.MadeFor i d) : ¬(build body).1.Uses i id.span := by
  intro huses
  obtain ⟨locals, hmade, hresolves⟩ := resolves_build body fun m hm => (hfits m hm).plain
  rw [← (recorded_build_perm body).nodup_iff] at hdistinct
  obtain ⟨husages, -, hwarned⟩ := nodup_append.mp hdistinct
  have hmark := (hfits _ hmention).2 hself
  cases nearest with
  | some =>
    rw [hglobal] at hmark
    cases hmark
  | none =>
    -- The entry is the one that was made when the declaration was visited.
    obtain ⟨i', hi'⟩ := hresolves _ hd
    have hfor' : (build body).1.MadeFor i' d := hmade _ hi'
    obtain rfl : i = i' := Uses.unique husages hfor.uses hfor'.uses
    rcases hresolves _ hmention hself with ⟨j, hother, hj⟩ | hundefined
    · obtain rfl : i = j := Uses.unique husages huses hj
      exact hother d hi'
    · exact hwarned _ huses.mem_usages _ hundefined rfl

end

end CrossReference

namespace Chunk

/-- The parser and the cross references agree on locals. In a program without errors, a name other than `self` that is
marked as a local has a declaration in sight, and is a usage of the one entry made for the nearest one and of nothing
else. A name that is not marked is no usage of an entry made for a declaration. -/
theorem uses_iff_nearest (options : Options) (source name : String)
    (herrors : (Chunk.parse options source name).errors = []) {id : Identifier} {nearest : Option Identifier}
    (hmention : .reference id nearest ∈ Mention.statements [] (Chunk.parse options source name).body)
    (hself : id.name ≠ "self") :
    (id.isLocal = true → ∃ d i, nearest = some d ∧
      (∀ j, (Chunk.parse options source name).index.MadeFor j d ↔ j = i) ∧
      ∀ j, (Chunk.parse options source name).index.Uses j id.span ↔ j = i) ∧
    (id.isLocal = false → ∀ d, .declaration d ∈ Mention.statements [] (Chunk.parse options source name).body →
      ∀ i, (Chunk.parse options source name).index.MadeFor i d →
        ¬(Chunk.parse options source name).index.Uses i id.span) := by
  obtain ⟨hfits, hdistinct⟩ := Program.said_parse (Program.isFlow_of_errors_nil herrors)
  constructor
  · exact CrossReference.uses_of_isLocal hfits hdistinct hself hmention
  · intro hglobal d hd i hfor
    exact CrossReference.not_uses_of_isGlobal hfits hdistinct hself hmention hglobal hd hfor

/-- A program with a local that is declared again in a function, a loop whose condition sees a local of its body, and a
local of a document that is included. -/
def shadowing : String :=
  "local x=1\n#include lib.lua\nfunction f(y)local x=x+y+z repeat local y=x until y>w return g(x)end"

/-- The store with the document that the program includes. -/
def shadowed : Options := { store := { documents := [("lib.lua", "local z=x")] } }

/-- The name in the condition of the loop is the local of its body, not the parameter. -/
theorem uses_iff_nearest_shadowed : (Chunk.parse shadowed shadowing).errors = [] ∧
    ∃ id d i, .reference id (some d) ∈ Mention.statements [] (Chunk.parse shadowed shadowing).body ∧
      id.name = "y" ∧ id.isLocal = true ∧ d.span.start.index = 67 ∧
      (∀ j, (Chunk.parse shadowed shadowing).index.MadeFor j d ↔ j = i) ∧
      ∀ j, (Chunk.parse shadowed shadowing).index.Uses j id.span ↔ j = i := by
  have herrors : (Chunk.parse shadowed shadowing).errors = [] := by decide +kernel
  let id : Identifier := ⟨"y", true, ⟨⟨3, 51, 77, 0⟩, ⟨3, 52, 78, 0⟩⟩⟩
  let d : Identifier := ⟨"y", true, ⟨⟨3, 41, 67, 0⟩, ⟨3, 42, 68, 0⟩⟩⟩
  have hmention : .reference id (some d) ∈ Mention.statements [] (Chunk.parse shadowed shadowing).body := by
    decide +kernel
  obtain ⟨d', i, hd, hmade, huses⟩ := (uses_iff_nearest shadowed shadowing "main.lua" herrors hmention (by decide)).1 rfl
  obtain rfl : d = d' := Option.some.inj hd
  exact ⟨herrors, id, d, i, hmention, rfl, rfl, rfl, hmade, huses⟩

end Chunk

end CartLua
