import CartLua.Proofs.Registration
/-!
# What holds of all entries

Entries, symbols and the index by lines are three records of the same names. One condition says of an entry that its
definitions are among its usages, and another says of a builder that its entries are sound, that a symbol leads to an entry
of its name, and that the index lists nothing twice. Every step of building keeps both. An entry without definitions is
made in one way only: for a builtin, when references are settled.
-/

namespace CartLua

open CrossReference List Array

/-- An entry is used, also where it is defined. It has a definition unless it was made for a builtin. -/
structure Entry.Sound (e : Entry) (forBuiltin : Prop) : Prop where
  used : e.usages.toList ≠ []
  defined : e.definitions.toList.Sublist e.usages.toList
  undefined : e.definitions = #[] ↔ forBuiltin
  builtin : forBuiltin → isBuiltin e.name = true

theorem Entry.Sound.addUsage {e : Entry} {forBuiltin : Prop} (h : e.Sound forBuiltin) (span : Span) :
    Entry.Sound { e with usages := e.usages.push span } forBuiltin := by
  refine ⟨by simp, ?_, h.undefined, h.builtin⟩
  rw [toList_push]
  exact h.defined.trans (sublist_append_left _ _)

theorem Entry.Sound.write {e : Entry} (h : e.Sound False) (span : Span) :
    Entry.Sound { e with usages := e.usages.push span, definitions := e.definitions.push span } False := by
  refine ⟨by simp, ?_, by simp, False.elim⟩
  rw [toList_push, toList_push]
  exact h.defined.append_right _

namespace CrossReference

/-- The index holds the usages of all entries, each under the line it starts on. -/
def Indexed (x : CrossReference) : Prop :=
  ∀ file line span i, (span, i) ∈ x.lines.getD (file, line) [] ↔
    x.Uses i span ∧ span.file = file ∧ span.start.line = line

namespace Builder

/-- The entries that are made for builtins when references are settled. -/
def builtinEntries (b : Builder) : List EarlyReference → List EntryId
  | [] => []
  | r :: rest =>
    (if isBuiltin r.name && b.index.entries.size < (b.settle r).index.entries.size then [b.index.entries.size] else []) ++
      (b.settle r).builtinEntries rest

/-- The records of a builder fit together. The entries that were made for builtins are listed. -/
structure Sound (b : Builder) (made : List EntryId) : Prop where
  entries : ∀ (i : EntryId) (e : Entry), b.index.entries[i]? = some e → e.Sound (i ∈ made)
  made : ∀ i ∈ made, i < b.index.entries.size
  symbols : ∀ (id : ScopeId) (name : String) (i : EntryId), b.symbolAt? id name = some i →
    ∃ e, b.index.entries[i]? = some e ∧ e.name = name
  nodup : ∀ key, (b.index.lines.getD key []).Nodup
  indexed : b.index.Indexed

variable {b b' : Builder} {made : List EntryId} {i : EntryId} {id : ScopeId} {span : Span}

theorem Sound.known (h : b.Sound made) : b.Known := by
  intro id name i hi
  obtain ⟨e, he, -⟩ := h.symbols id name i hi
  exact (Array.getElem?_eq_some_iff.mp he).1

/-! ### The index -/

/-- The second index lists a span of an entry under its line, and else what the first one lists. -/
structure Lists (x y : LineIndex) (i : EntryId) (span : Span) : Prop where
  nodup : (∀ key, (x.getD key []).Nodup) → ∀ key, (y.getD key []).Nodup
  mem : ∀ file line other j, (other, j) ∈ y.getD (file, line) [] ↔ (other, j) ∈ x.getD (file, line) [] ∨
    (other = span ∧ j = i) ∧ span.file = file ∧ span.start.line = line

theorem lists_addLine (b : Builder) (i : EntryId) (span : Span) :
    Lists b.index.lines (b.addLine i span).index.lines i span := by
  unfold addLine
  dsimp only
  split
  next hthere =>
    -- A pair that is there already is there under its own line.
    refine ⟨id, fun file line other j => ⟨.inl, ?_⟩⟩
    rintro (hold | ⟨⟨rfl, rfl⟩, rfl, rfl⟩)
    · exact hold
    · exact contains_iff_mem.mp hthere
  next hnew =>
    refine ⟨fun h key => ?_, fun file line other j => ?_⟩ <;> rw [Std.HashMap.getD_insert]
    · split
      · refine (h _).append (nodup_singleton _) (disjoint_singleton.mpr fun hthere => hnew ?_)
        exact contains_iff_mem.mpr hthere
      · exact h key
    · by_cases hkey : (span.file, span.start.line) = (file, line)
      · obtain ⟨rfl, rfl⟩ := Prod.mk.inj hkey
        simp
      · rw [if_neg (by simpa using hkey)]
        simp only [Prod.mk.injEq] at hkey
        simp [hkey]

theorem lists_addLine_addLine (b : Builder) (i : EntryId) (span : Span) :
    Lists b.index.lines ((b.addLine i span).addLine i span).index.lines i span := by
  have hfirst := lists_addLine b i span
  have hagain := lists_addLine (b.addLine i span) i span
  refine ⟨hagain.nodup ∘ hfirst.nodup, fun file line other j => ?_⟩
  rw [hagain.mem, hfirst.mem, or_assoc, or_self]

theorem Lists.indexed (h : Lists b.index.lines b'.index.lines i span) (hb : b.index.Indexed)
    (huses : ∀ j other, b'.index.Uses j other ↔ b.index.Uses j other ∨ other = span ∧ j = i) : b'.index.Indexed := by
  intro file line other j
  rw [h.mem, hb, huses, or_and_right]
  refine or_congr_right (and_congr_right ?_)
  rintro ⟨rfl, -⟩
  rfl

/-! ### Entries that are there -/

theorem Sound.modify (h : b.Sound made) (hi : i < b.index.entries.size) (f : Entry → Entry)
    (hf : ∀ e, e.Sound (i ∈ made) → (f e).Sound (i ∈ made))
    (hname : ∀ e, (f e).name = e.name) (husages : ∀ e, (f e).usages = e.usages.push span)
    (hentries : b'.index.entries = b.index.entries.modify i f) (hscopes : b'.index.scopes = b.index.scopes)
    (hlines : Lists b.index.lines b'.index.lines i span) : b'.Sound made := by
  refine ⟨fun j e he => ?_, fun j hj => ?_, fun id name j hj => ?_, hlines.nodup h.nodup,
    hlines.indexed h.indexed fun j other => ?_⟩
  · rw [hentries, Array.getElem?_modify] at he
    split at he
    next hij =>
      obtain ⟨e', he', rfl⟩ := Option.map_eq_some_iff.mp he
      subst hij
      exact hf e' (h.entries _ e' he')
    next => exact h.entries j e he
  · rw [hentries, Array.size_modify]
    exact h.made j hj
  · rw [symbolAt?, scope?, hscopes] at hj
    obtain ⟨e, he, rfl⟩ := h.symbols id name j hj
    rw [hentries, Array.getElem?_modify, he]
    split
    · exact ⟨f e, rfl, hname e⟩
    · exact ⟨e, rfl, rfl⟩
  · unfold CrossReference.Uses
    rw [hentries, Array.getElem?_modify]
    by_cases hij : i = j
    · subst hij
      rw [if_pos rfl, Array.getElem?_eq_getElem hi, Option.map_some]
      simp [husages]
    · rw [if_neg hij]
      simp [Ne.symm hij]

theorem Sound.addUsage (h : b.Sound made) (hi : i < b.index.entries.size) (span : Span) : (b.addUsage i span).Sound made :=
  h.modify hi _ (fun _ he => he.addUsage span) (fun _ => rfl) (fun _ => rfl) rfl rfl (lists_addLine _ i span)

theorem Sound.write (h : b.Sound []) (hi : i < b.index.entries.size) (span : Span) :
    ((b.addUsage i span).addDefinition i span).Sound [] := by
  refine h.modify hi (fun e => { e with usages := e.usages.push span, definitions := e.definitions.push span })
    (fun e he => ?_) (fun _ => rfl) (fun _ => rfl) ?_ rfl (lists_addLine_addLine _ i span)
  · simp only [List.not_mem_nil] at he ⊢
    exact he.write span
  · refine Array.ext_getElem? fun j => ?_
    rw [entries_addDefinition, entries_addUsage, Array.getElem?_modify, Array.getElem?_modify, Array.getElem?_modify]
    split
    · rw [Option.map_map]
      rfl
    · rfl

/-! ### Entries that are new -/

theorem Sound.push (h : b.Sound made) (id : ScopeId) {e : Entry} {c : Bool} (he : e.Sound (c = true)) (husages : e.usages = #[span])
    (hentries : b'.index.entries = b.index.entries.push e)
    (hsymbols : ∀ other name, b'.symbolAt? other name = b.symbolAt? other name ∨
      (id = other ∧ name = e.name) ∧ b'.symbolAt? other name = some b.index.entries.size)
    (hlines : Lists b.index.lines b'.index.lines b.index.entries.size span) :
    b'.Sound (made ++ if c then [b.index.entries.size] else []) := by
  have hmade {i : EntryId} : i ∈ (made ++ if c then [b.index.entries.size] else []) ↔
      i ∈ made ∨ c = true ∧ i = b.index.entries.size := by
    cases c <;> simp
  refine ⟨fun i e' he' => ?_, fun i hi => ?_, fun other name i hi => ?_, hlines.nodup h.nodup,
    hlines.indexed h.indexed fun j other => ?_⟩
  · rw [hentries, Array.getElem?_push] at he'
    rw [hmade]
    split at he'
    next hsize =>
      obtain rfl := Option.some.inj he'
      subst hsize
      have hnew : b.index.entries.size ∉ made := fun hi => (h.made _ hi).ne rfl
      simpa [hnew] using he
    next hsize => simpa [hsize] using h.entries i e' he'
  · rw [hentries, Array.size_push]
    rcases hmade.mp hi with hi | ⟨-, rfl⟩
    · exact Nat.lt_succ_of_lt (h.made i hi)
    · exact Nat.lt_succ_self _
  · rw [hentries]
    rcases hsymbols other name with hsame | ⟨⟨-, rfl⟩, hnew⟩
    · obtain ⟨e', he', hname⟩ := h.symbols other name i (hsame ▸ hi)
      rw [Array.getElem?_push, if_neg (Array.getElem?_eq_some_iff.mp he').1.ne]
      exact ⟨e', he', hname⟩
    · obtain rfl := Option.some.inj (hnew.symm.trans hi)
      exact ⟨e, Array.getElem?_push_size, rfl⟩
  · unfold CrossReference.Uses
    rw [hentries, Array.getElem?_push]
    by_cases hj : j = b.index.entries.size
    · subst hj
      simp [husages]
    · simp [hj]

theorem Sound.addNew (h : b.Sound made) (id : ScopeId) (name : String)
    (hentries : b'.index.entries = b.index.entries.push { name, definitions := #[span], usages := #[span] })
    (hsymbols : ∀ other key, b'.symbolAt? other key = b.symbolAt? other key ∨
      (id = other ∧ key = name) ∧ b'.symbolAt? other key = some b.index.entries.size)
    (hlines : b'.index.lines = ((b.addLine b.index.entries.size span).addLine b.index.entries.size span).index.lines) :
    b'.Sound made := by
  rw [← append_nil made]
  refine h.push id (c := false) ⟨by simp, .refl _, by simp, Bool.noConfusion⟩ rfl hentries hsymbols ?_
  rw [hlines]
  exact lists_addLine_addLine b _ span

theorem Sound.define (h : b.Sound made) (id : ScopeId) (name : String) (span : Span) :
    (b.define id name span).2.Sound made :=
  h.addNew id name (entries_define b id name span) (symbolAt?_addSymbol_cases _ id name _) rfl

theorem Sound.declare (h : b.Sound made) {outer : List ScopeId} (hids : b.openScopes = id :: outer)
    (hvalid : id < b.index.scopes.size) (d : Identifier) (isParameter : Bool) :
    (b.declare d isParameter).Sound made := by
  have hentries := (entries_declare hids d isParameter).trans (entries_define b id d.name d.span)
  refine h.addNew id d.name hentries (fun other key => ?_) ?_
  · rw [symbolAt?_declare hids hvalid]
    split
    next hsame => exact .inr ⟨hsame, rfl⟩
    next => exact .inl rfl
  · rw [declare_eq hids]
    rfl

/-! ### The walk -/

theorem Sound.acts {written : Option String} {spans : List Span} (h : b.Sound []) (hacts : Acts written b spans b') :
    b'.Sound [] := by
  induction hacts with
  | nil => exact h
  | cons hact _ ih =>
    apply ih
    cases hact with
    | usage hfind => exact h.addUsage (lt_of_find? h.known hfind) _
    | write hfind => exact h.write (lt_of_find? h.known hfind) _
    | define => exact h.define _ _ _
    | wait => exact ⟨h.entries, h.made, h.symbols, h.nodup, h.indexed⟩

theorem Sound.sameNames (h : b.Sound made) (hsame : SameNames b b') (hlines : b'.index.lines = b.index.lines) :
    b'.Sound made := by
  refine ⟨?_, ?_, ?_, ?_, ?_⟩
  · rw [hsame.entries]
    exact h.entries
  · rw [hsame.entries]
    exact h.made
  · intro id name
    rw [hsame.entries, hsame.symbols]
    exact h.symbols id name
  · rw [hlines]
    exact h.nodup
  · intro file line span i
    rw [hlines, CrossReference.Uses, hsame.entries]
    exact h.indexed file line span i

theorem Sound.step (h : b.Sound []) {layers : List Scoping.Layer} (hfollows : b.Follows layers) (hopen : layers ≠ [])
    (event : Event) : (b.step event).Sound [] := by
  rcases hfollows.step_cases hopen event with ⟨node, ctx, rfl⟩ | ⟨node, ctx, rfl⟩ | ⟨d, hstep, -⟩ | ⟨hacts, -⟩
  · refine h.sameNames (sameNames_enter b node ctx) ?_
    obtain ⟨_, _, henter, -⟩ := exists_enter b node ctx
    rw [Builder.step, henter]
  · refine h.sameNames (sameNames_leave b) ?_
    obtain ⟨_, hleave, -⟩ := exists_leave b
    rw [Builder.step, hleave]
  · obtain ⟨id, outer, hids, hvalid⟩ := hfollows.exists_cons hopen
    rw [hstep]
    exact h.declare hids hvalid d event.isParameter
  · exact h.acts hacts

theorem sound_walk (body : Block) : ((Walk.chunk below body).foldl step {}).Sound [] := by
  refine walk_induction (P := fun b _ => b.Sound [])
    (fun _ _ _ event hfollows hopen _ h => h.step hfollows hopen event) ?_
  refine Sound.sameNames (b := {}) ⟨nofun, nofun, nofun, fun key => ?_, fun file line span i => ?_⟩
    (sameNames_enter {} (.chunk body) {}) rfl
  · simp
  · simp [CrossReference.Uses]

/-! ### Settling -/

theorem Sound.settle (h : b.Sound made) {r : EarlyReference} (hr : r.Proper) :
    (b.settle r).Sound (made ++ if isBuiltin r.name && b.index.entries.size < (b.settle r).index.entries.size
      then [b.index.entries.size] else []) := by
  rcases settle_cases b r with ⟨i, hi, hsettle⟩ | ⟨-, -, ⟨hpath, hsettle⟩ | ⟨-, hbuiltin, hsettle⟩ | ⟨-, -, hsettle⟩⟩
  · have hlt : i < b.index.entries.size := hi.elim (lt_of_nonLocal? h.known) (lt_of_nonLocal? h.known)
    simpa [hsettle] using h.addUsage hlt r.span
  · have hdotted : isBuiltin r.name = false := by
      rcases hr with ⟨-, hdotted⟩ | ⟨hplain, -⟩
      · exact Bool.eq_false_iff.mpr fun hbuiltin => plain_of_isBuiltin hbuiltin hdotted
      · cases hplain.symm.trans hpath
    simpa [hsettle, hdotted] using h.define r.home r.name r.span
  · have hentries : (b.settle r).index.entries = b.index.entries.push { name := r.name, usages := #[r.span] } := by
      rw [hsettle]
      exact entries_addEntry_addUsage b r.name r.span
    refine h.push 0 ⟨by simp, nil_sublist _, by simp [hentries, hbuiltin], fun _ => hbuiltin⟩ rfl hentries ?_ ?_
    · rw [hsettle]
      exact symbolAt?_addSymbol_cases _ 0 r.name _
    · rw [hsettle]
      exact lists_addLine b _ r.span
  · rw [hsettle, if_neg (by simp), append_nil]
    exact ⟨h.entries, h.made, h.symbols, h.nodup, h.indexed⟩

theorem Sound.settleAll (h : b.Sound made) {rs : List EarlyReference} (hrs : ∀ r ∈ rs, r.Proper) :
    (rs.foldl Builder.settle b).Sound (made ++ b.builtinEntries rs) := by
  induction rs generalizing b made with
  | nil => simpa [builtinEntries] using h
  | cons r rest ih =>
    obtain ⟨hr, hrest⟩ := List.forall_mem_cons.mp hrs
    rw [builtinEntries, ← List.append_assoc]
    exact ih (h.settle hr) hrest

theorem sound_settled (body : Block) : ((waiting body).foldl Builder.settle ((Walk.chunk below body).foldl step {})).Sound
    (((Walk.chunk below body).foldl step {}).builtinEntries (waiting body)) :=
  (sound_walk body).settleAll (proper_walk body).1

end Builder

open Builder

/-- Entries, symbols and index fit together. Every entry is used, its definitions are among its usages in their order, and it
has none exactly if it was made for a builtin when the references that were left were settled; then a builtin is its name. A
symbol leads to an entry of its name. The index lists the usages of all entries, each once, under the line it starts on. -/
theorem sound_build (body : Block) :
    (∀ (i : EntryId) (e : Entry), (build body).1.entries[i]? = some e →
      e.usages ≠ #[] ∧ e.definitions.toList.Sublist e.usages.toList ∧
      (e.definitions = #[] ↔ i ∈ ((Walk.chunk below body).foldl step {}).builtinEntries (waiting body)) ∧
      (e.definitions = #[] → isBuiltin e.name = true)) ∧
    (∀ (k : ScopeId) (s : Scope), (build body).1.scopes[k]? = some s → ∀ name i, s.symbols.get? name = some i →
      ∃ e : Entry, (build body).1.entries[i]? = some e ∧ e.name = name) ∧
    ∀ file line, ((build body).1.lines.getD (file, line) []).Nodup ∧
      ∀ span i, (span, i) ∈ (build body).1.lines.getD (file, line) [] ↔
        (∃ e : Entry, (build body).1.entries[i]? = some e ∧ span ∈ e.usages) ∧ span.file = file ∧ span.start.line = line := by
  have hsound := sound_settled body
  rw [(build_eq body).1]
  refine ⟨fun i e he => ?_, fun k s hs name i hi => ?_, fun file line => ⟨hsound.nodup (file, line), fun span i => ?_⟩⟩
  · obtain ⟨hused, hdefined, hundefined, hbuiltin⟩ := hsound.entries i e he
    exact ⟨by simpa using hused, hdefined, hundefined, fun hnone => hbuiltin (hundefined.mp hnone)⟩
  · refine hsound.symbols k name i ?_
    rw [symbolAt?, scope?, hs]
    exact hi
  · simpa [CrossReference.Uses] using hsound.indexed file line span i

end CrossReference

end CartLua
