import CartLua.Proofs.Extension
/-!
# What cross references record

No mention of a name is lost, and none is counted twice. While cross references are built, every mention that was met is a
usage of an entry, an early reference, or an undefined variable that was warned of; in the end no early reference is left.
-/

namespace CartLua.CrossReference

open List hiding after

def usages (x : CrossReference) : List Span := x.entries.toList.flatMap (·.usages.toList)

namespace Builder

open Scoping

def recorded (b : Builder) : List Span :=
  b.index.usages ++ b.warnings.toList.filterMap undefinedSpan? ++ b.early.toList.map (·.span)

variable {b b' : Builder} {i : EntryId} {span : Span} {spans : List Span} {written : Option String} {layers layers' : List Layer}

/-! ### Acts -/

theorem flatMap_modify_perm {α β : Type} {f : α → List β} {g : α → α} {x : β} (hg : ∀ a, f (g a) = f a ++ [x])
    (l : List α) {i : Nat} (hi : i < l.length) : ((l.modify i g).flatMap f).Perm (l.flatMap f ++ [x]) := by
  induction l generalizing i with
  | nil => exact absurd hi (Nat.not_lt_zero i)
  | cons a rest ih =>
    cases i with
    | zero =>
      rw [modify_zero_cons, flatMap_cons, flatMap_cons, hg, append_assoc, append_assoc]
      exact perm_append_comm.append_left _
    | succ =>
      rw [modify_succ_cons, flatMap_cons, flatMap_cons, append_assoc]
      exact (ih (Nat.lt_of_succ_lt_succ hi)).append_left _

theorem flatMap_modify_eq {α β : Type} {f : α → List β} {g : α → α} (hg : ∀ a, f (g a) = f a) (l : List α) (i : Nat) :
    (l.modify i g).flatMap f = l.flatMap f := by
  induction l generalizing i with
  | nil => simp
  | cons a rest ih =>
    cases i with
    | zero => rw [modify_zero_cons, flatMap_cons, flatMap_cons, hg]
    | succ => rw [modify_succ_cons, flatMap_cons, flatMap_cons, ih]

theorem recorded_addUsage (hi : i < b.index.entries.size) (span : Span) :
    (b.addUsage i span).recorded.Perm (b.recorded ++ [span]) := by
  have hperm := flatMap_modify_perm (f := fun e : Entry => e.usages.toList) (x := span)
    (g := fun e => { e with usages := e.usages.push span }) (by simp) b.index.entries.toList hi
  simp only [recorded, usages, entries_addUsage, warnings_addUsage, early_addUsage, Array.toList_modify]
  grind

theorem recorded_addDefinition (b : Builder) (i : EntryId) (span : Span) : (b.addDefinition i span).recorded = b.recorded := by
  have hsame := flatMap_modify_eq (f := fun e : Entry => e.usages.toList)
    (g := fun e => { e with definitions := e.definitions.push span }) (fun _ => rfl) b.index.entries.toList i
  simp only [recorded, usages, entries_addDefinition, warnings_addDefinition, early_addDefinition, Array.toList_modify, hsame]

theorem recorded_addEntry (b : Builder) (name : String) : (b.addEntry name).2.recorded = b.recorded := by
  simp [recorded, usages, addEntry]

theorem recorded_define (b : Builder) (id : ScopeId) (name : String) (span : Span) :
    (b.define id name span).2.recorded.Perm (b.recorded ++ [span]) := by
  have hlt : b.index.entries.size < ((b.addEntry name).2.addDefinition b.index.entries.size span).index.entries.size := by
    simp [addEntry]
  have husage := recorded_addUsage hlt span
  rwa [recorded_addDefinition, recorded_addEntry] at husage

theorem recorded_declare (hopen : b.openScopes ≠ []) (d : Identifier) (isParameter : Bool) :
    (b.declare d isParameter).recorded.Perm (b.recorded ++ [d.span]) := by
  obtain ⟨id, outer, hids⟩ := exists_cons_of_ne_nil hopen
  rw [declare_eq hids]
  exact recorded_define b id d.name d.span

theorem Act.recorded (h : Act written b span b') (hb : b.Known) : b'.recorded.Perm (b.recorded ++ [span]) := by
  cases h with
  | usage hfind => exact recorded_addUsage (lt_of_find? hb hfind) span
  | write hfind =>
    rw [recorded_addDefinition]
    exact recorded_addUsage (lt_of_find? hb hfind) span
  | define => exact recorded_define b _ _ span
  | wait => exact .of_eq (by simp [Builder.recorded])

theorem Acts.recorded (h : Acts written b spans b') (hb : b.Known) : b'.recorded.Perm (b.recorded ++ spans) := by
  induction h with
  | nil => simp
  | cons hact _ ih =>
    refine (ih (hact.extends.known hb)).trans ?_
    rw [append_cons]
    exact (hact.recorded hb).append_right _

/-! ### The walk -/

/-- The open scopes of a builder are those of a walk, and all that is in them is known. -/
structure Follows (b : Builder) (layers : List Layer) : Prop where
  known : b.Known
  valid : ∀ id ∈ b.openScopes, id < b.index.scopes.size
  bound : b.openScopes.map (fun id => (b.tableAt? id).isSome) = layers.map (·.isBound)
  bottom : layers ≠ [] → b.openScopes.getLast? = some 0

namespace Follows

variable (hb : b.Follows layers)

include hb

theorem openScopes_ne_nil (hopen : layers ≠ []) : b.openScopes ≠ [] := by
  intro hnil
  have hbottom := hb.bottom hopen
  rw [hnil] at hbottom
  cases hbottom

theorem zero_mem (hopen : layers ≠ []) : 0 ∈ b.openScopes := mem_of_getLast? (hb.bottom hopen)

theorem isSome_currentTable? : b.currentTable?.isSome = layers.head?.any (·.isBound) := by
  have hbound := congrArg head? hb.bound
  show (b.openScopes.head?.bind b.tableAt?).isSome = _
  cases hids : b.openScopes.head? <;> cases hlayers : layers.head? <;> simp_all

/-- What an event does besides opening and closing scopes: it declares a name, or comes down to acts at the spans that it
mentions. -/
theorem step_cases (hopen : layers ≠ []) (event : Event) :
    (∃ node ctx, event = .enter node ctx) ∨ (∃ node ctx, event = .leave node ctx) ∨
      (∃ d, b.step event = b.declare d event.isParameter ∧ mentions layers event = [.declaration d] ∧
        (∀ l : Ledger, l.step event = l.declare [d]) ∧ after layers event = Scoping.declare [d] layers) ∨
      Acts (event.written?.map (b.meaning ·.name)) b ((mentions layers event).map Mention.span) (b.step event) ∧
        (∀ m ∈ mentions layers event,
          (∃ id, event.reference? = some id ∧ m = .reference id (nearest? (sight layers) id.name)) ∨
            ∃ span, m = .part span ∨ m = .fieldKey span) ∧
        (∀ l : Ledger, l.step event = l) ∧ after layers event = layers := by
  have hzero := hb.zero_mem hopen
  have hledger {e : Expr} {ctx : Context} (l : Ledger) : l.step (.expression e ctx) =
    l.declare (localName? e ctx.role.declaration).toList := rfl
  cases event with
  | enter node ctx => exact .inl ⟨node, ctx, rfl⟩
  | leave node ctx => exact .inr (.inl ⟨node, ctx, rfl⟩)
  | expression e ctx =>
    refine .inr (.inr ?_)
    simp only [hledger, step, after, mentions]
    rcases addExpression_cases b e ctx.role with ⟨d, hname, hadd⟩ |
      ⟨hname, ⟨id, parts, hroot, hsegments, hadd⟩ | ⟨hnone, hadd⟩⟩
    · rw [hname]
      exact .inl ⟨d, hadd, rfl, fun _ => rfl, rfl⟩
    · rw [hname, hadd]
      rw [if_pos (by rw [hsegments]; rfl), map_span_chain _ _ hsegments]
      refine .inr ⟨?_, fun m hm => ?_, Ledger.declare_nil, declare_nil layers⟩
      have hwritten (hwrites : (ctx.role.target && parts.isEmpty) = true) :
          (Event.expression e ctx).written?.map (b.meaning ·.name) = some (b.meaning id.name) := by
        rw [Event.written?_eq hname hroot hsegments, if_pos hwrites, Option.map_some]
      have hact := act_root hzero ctx.role.target _ parts hwritten id.span
      · exact .cons hact (acts_members hzero hact ctx.role.target _ parts)
      · rcases mention_of_chain _ false hroot m hm with rfl | ⟨span, rfl⟩
        · exact .inl ⟨id, by simp [Event.reference?, hname, hroot], rfl⟩
        · exact .inr ⟨span, .inl rfl⟩
    · rw [hname, hadd, hnone]
      exact .inr ⟨.nil b, forall_mem_nil _, Ledger.declare_nil, declare_nil layers⟩
  | identifier id ctx =>
    have hledger (l : Ledger) : l.step (.identifier id ctx) = l.declare (Event.identifier id ctx).declared?.toList := rfl
    refine .inr (.inr ?_)
    simp only [hledger, step, after, mentions, Event.declared?, Event.isParameter]
    cases ctx.role.parameter <;> cases ctx.role.declaration
    case false.false => exact .inr ⟨.nil b, forall_mem_nil _, Ledger.declare_nil, rfl⟩
    all_goals exact .inl ⟨id, rfl, rfl, fun _ => rfl, rfl⟩
  | field f ctx =>
    refine .inr (.inr (.inr ⟨acts_addField hzero hb.isSome_currentTable? f ctx, fun m hm => .inr ?_, Ledger.declare_nil, rfl⟩))
    rw [mentions] at hm
    split at hm
    · obtain ⟨key, -, rfl⟩ := mem_map.mp hm
      exact ⟨key.2, .inr rfl⟩
    · cases hm
  | block | statement | function | table | label =>
    exact .inr (.inr (.inr ⟨.nil b, forall_mem_nil _, Ledger.declare_nil, rfl⟩))

theorem of_extends {allowed : ScopeId → String → EntryId → Prop} (h : Extends allowed b b') :
    b'.Follows layers := by
  refine ⟨h.known hb.known, ?_, ?_, ?_⟩
  · rw [h.openScopes, h.size]
    exact hb.valid
  · simpa only [h.openScopes, h.tableAt] using hb.bound
  · rw [h.openScopes]
    exact hb.bottom

theorem exists_cons (hopen : layers ≠ []) :
    ∃ id outer, b.openScopes = id :: outer ∧ id < b.index.scopes.size := by
  obtain ⟨id, outer, hids⟩ := exists_cons_of_ne_nil (hb.openScopes_ne_nil hopen)
  exact ⟨id, outer, hids, hb.valid id (hids ▸ mem_cons_self)⟩

theorem declare (hopen : layers ≠ []) (d : Identifier) (isParameter : Bool) :
    (b.declare d isParameter).Follows (Scoping.declare [d] layers) := by
  obtain ⟨id, outer, hids, hvalid⟩ := hb.exists_cons hopen
  have htable (k : ScopeId) : (b.declare d isParameter).tableAt? k = b.tableAt? k := by
    rw [tableAt?, tableAt?, scope?_declare hids]
    split
    · cases b.scope? k <;> rfl
    · rfl
  refine ⟨fun k name i hi => ?_, ?_, ?_, fun _ => ?_⟩
  · rw [symbolAt?_declare hids hvalid] at hi
    split at hi
    · rw [← Option.some.inj hi, entries_declare hids]
      exact (Uses.lt (uses_define b id d.name d.span))
    · exact (hb.known k name i hi).trans_le (grows_declare hids d isParameter).size_le
  · rw [openScopes_declare, size_declare]
    exact hb.valid
  · simp only [openScopes_declare, htable, hb.bound]
    cases layers <;> rfl
  · rw [openScopes_declare]
    exact hb.bottom hopen

end Follows

theorem isSome_path? (b : Builder) (e : Expr) : (b.path? e).isSome = e.segments?.isSome := by
  unfold path? paths?
  rcases e.chain_cases with ⟨id, rest, -, hsegments⟩ | ⟨-, hsegments⟩ <;> simp [hsegments]

theorem isSome_boundPath? (hb : b.Follows layers) (ctx : Context) :
    (b.boundPath? ctx).isSome = isNamed layers ctx.definitionTarget? := by
  have htable := hb.isSome_currentTable?
  unfold boundPath?
  split
  next target h => rw [h, isNamed, isSome_path?]
  next id h => rw [h, isNamed, Option.isSome_some]
  next f h =>
    rw [h, isNamed, ← htable]
    cases b.currentTable? <;> simp
  next hexpression hidentifier hfield =>
    unfold isNamed
    split <;> simp_all

theorem follows_enter (hb : b.Follows layers) (hopen : layers = [] → b.index.scopes.size = 0) (node : ScopeNode)
    (ctx : Context) : (b.enter node ctx).Follows (after layers (.enter node ctx)) := by
  have hsame := sameNames_enter b node ctx
  obtain ⟨scope, scopes, henter, hsize, hscopes, -, -, -, -, -, htable⟩ := exists_enter b node ctx
  have hids : (b.enter node ctx).openScopes = b.index.scopes.size :: b.openScopes := by rw [henter]
  refine ⟨fun id name i hi => ?_, fun id hid => ?_, ?_, fun _ => ?_⟩
  · rw [hsame.entries]
    exact hb.known id name i (hsame.symbols id name ▸ hi)
  · rw [hids] at hid
    rw [henter, hsize]
    rcases mem_cons.mp hid with rfl | hid
    · exact Nat.lt_succ_self _
    · exact Nat.lt_succ_of_lt (hb.valid id hid)
  · have hnew : (b.enter node ctx).tableAt? b.index.scopes.size = scope.tableName := by
      rw [tableAt?, henter, scope?, hscopes, if_pos rfl]
      rfl
    rw [hids, map_cons, hnew, htable, map_congr_left fun id hid => by rw [hsame.tableAt (hb.valid id hid)], hb.bound]
    cases node with
    | table => rw [after, map_cons, isSome_boundPath? hb]
    | chunk | function | block | clause => rfl
  · rw [hids, getLast?_cons]
    cases hlayers : layers with
    | nil =>
      have hnil : b.openScopes = [] := by
        have hbound := hb.bound
        rwa [hlayers, map_nil, map_eq_nil_iff] at hbound
      rw [hnil, hopen hlayers]
      rfl
    | cons => rw [hb.bottom (hlayers ▸ cons_ne_nil _ _)]; rfl

theorem follows_start (body : Block) : (({} : Builder).enter (.chunk body) {}).Follows [{}] := by
  have hknown : Known {} := fun _ _ _ hi => absurd hi nofun
  exact @follows_enter {} [] ⟨hknown, nofun, rfl, absurd rfl⟩ (fun _ => rfl) (.chunk body) {}

theorem undefinedSpan?_unused {d : Declared} {w : Warning} (h : b.unused? d = some w) : undefinedSpan? w = none := by
  unfold unused? at h
  split at h
  · cases h
  · split at h
    · cases h
    · obtain rfl := Option.some.inj h
      cases d.isParameter <;> rfl

theorem undefined_leave (b : Builder) :
    b.leave.warnings.toList.filterMap undefinedSpan? = b.warnings.toList.filterMap undefinedSpan? := by
  have hnone : (b.closing.filterMap b.unused?).filterMap undefinedSpan? = [] := by
    rw [filterMap_eq_nil_iff]
    intro w hw
    obtain ⟨d, -, hd⟩ := mem_filterMap.mp hw
    exact undefinedSpan?_unused hd
  obtain ⟨scopes, hleave, -⟩ := exists_leave b
  simp [hleave, filterMap_append, hnone]

theorem follows_leave (hb : b.Follows layers) : b.leave.Follows layers.tail := by
  have hsame := sameNames_leave b
  obtain ⟨scopes, hleave, hsize, -⟩ := exists_leave b
  have hids : b.leave.openScopes = b.openScopes.tail := by rw [hleave]
  have htail : ∀ id ∈ b.openScopes.tail, id < b.index.scopes.size := fun id hid => hb.valid id (mem_of_mem_tail hid)
  refine ⟨fun id name i hi => ?_, ?_, ?_, fun hne => ?_⟩
  · rw [hsame.entries]
    exact hb.known id name i (hsame.symbols id name ▸ hi)
  · rw [hids, hleave, hsize]
    exact htail
  · rw [hids, map_congr_left fun id hid => by rw [hsame.tableAt (htail id hid)], map_tail, hb.bound,
      ← map_tail]
  · have hlength := congrArg length hb.bound
    have hbottom := hb.bottom (by rintro rfl; exact hne rfl)
    rw [hids]
    cases hall : b.openScopes with
    | nil => simp [hall] at hbottom
    | cons id rest =>
      rw [hall] at hbottom hlength
      have hrest : rest ≠ [] := by
        rintro rfl
        exact hne (length_eq_zero_iff.mp (by simp_all [length_tail]))
      rwa [getLast?_cons_of_ne_nil hrest] at hbottom

theorem follows_step (hb : b.Follows layers) (hopen : layers ≠ []) (event : Event) :
    (b.step event).Follows (after layers event) ∧
      (b.step event).recorded.Perm (b.recorded ++ (mentions layers event).map Mention.span) := by
  rcases hb.step_cases hopen event with ⟨node, ctx, rfl⟩ | ⟨node, ctx, rfl⟩ | ⟨d, hstep, hmentions, -, hafter⟩ |
    ⟨hacts, -, -, hafter⟩
  · refine ⟨follows_enter hb (absurd · hopen) node ctx, .of_eq ?_⟩
    obtain ⟨_, _, henter, -⟩ := exists_enter b node ctx
    simp [step, henter, recorded, usages, mentions]
  · refine ⟨follows_leave hb, .of_eq ?_⟩
    have hundefined := undefined_leave b
    have hsame := sameNames_leave b
    simp [step, recorded, hundefined, hsame.early, usages, hsame.entries, mentions]
  · rw [hstep, hafter, hmentions]
    exact ⟨hb.declare hopen d _, recorded_declare (hb.openScopes_ne_nil hopen) d _⟩
  · rw [hafter]
    exact ⟨hb.of_extends hacts.extends, hacts.recorded hb.known⟩

theorem follows_foldl {events : List Event} {ms : List Mention} (h : Tells layers events layers' ms)
    (hb : b.Follows layers) :
    (events.foldl step b).Follows layers' ∧ (events.foldl step b).recorded.Perm (b.recorded ++ ms.map Mention.span) := by
  induction h generalizing b with
  | nil => exact ⟨hb, by simp⟩
  | @cons layers _ event _ _ hopen _ ih =>
    obtain ⟨hstep, hrecorded⟩ := follows_step hb hopen event
    obtain ⟨hrest, hall⟩ := ih hstep
    refine ⟨hrest, hall.trans ?_⟩
    rw [map_append, ← append_assoc]
    exact hrecorded.append_right _
  | reorder _ hperm ih =>
    obtain ⟨hrest, hall⟩ := ih hb
    exact ⟨hrest, hall.trans ((hperm.map _).append_left _)⟩

section

variable {body : Block} {P : Builder → Ledger → Prop}
  (hstep : ∀ b l layers event, b.Follows layers → layers ≠ [] →
    (∀ m ∈ mentions layers event, m ∈ Mention.statements [] body) → P b l → P (b.step event) (l.step event))

include hstep

theorem foldl_induction {l : Ledger} {events : List Event} {ms : List Mention} (htells : Tells layers events layers' ms)
    (hb : b.Follows layers) (hms : ∀ m ∈ ms, m ∈ Mention.statements [] body) (h : P b l) :
    P (events.foldl step b) (events.foldl Ledger.step l) := by
  induction htells generalizing b l with
  | nil => exact h
  | @cons _ _ event _ _ hopen _ ih =>
    obtain ⟨hfirst, hrest⟩ := forall_mem_append.mp hms
    exact ih (follows_step hb hopen event).1 hrest (hstep b l _ event hb hopen hfirst h)
  | reorder _ hperm ih => exact ih hb (fun m hm => hms m (hperm.mem_iff.mp hm)) h

omit hstep in
theorem foldl_chunk {α : Type} (f : α → Event → α) (a : α) (body : Block) : (Walk.chunk below body).foldl f a =
    f ((.block body (Context.enter {} (.chunk body)) :: Walk.statements below (Context.enter {} (.chunk body)) body).foldl f
      (f a (.enter (.chunk body) {}))) (.leave (.chunk body) {}) := by
  rw [Walk.chunk, Walk.inScope, cons_append, foldl_cons, foldl_append]
  rfl

theorem walk_induction (hstart : P (({} : Builder).enter (.chunk body) {}) (({} : Ledger).step (.enter (.chunk body) {}))) :
    P ((Walk.chunk below body).foldl step {}) (Ledger.ofEvents (Walk.chunk below body)) := by
  have htells := tells_program (Context.enter {} (.chunk body)) body
  have hbody := foldl_induction hstep htells (follows_start body) (fun _ hm => hm) hstart
  have hfollows := (follows_foldl htells (follows_start body)).1
  rw [Ledger.ofEvents, foldl_chunk, foldl_chunk]
  exact hstep _ _ _ (.leave (.chunk body) {}) hfollows (declare_ne_nil _ (cons_ne_nil _ _)) nofun hbody

end

/-! ### Early references -/

theorem extends_settle (b : Builder) (r : EarlyReference) :
    Extends (fun _ _ i => b.index.entries.size ≤ i) b (b.settle r) := by
  rcases settle_cases b r with ⟨i, -, hsettle⟩ | ⟨-, -, ⟨-, hsettle⟩ | ⟨-, -, hsettle⟩ | ⟨-, -, hsettle⟩⟩
  · rw [hsettle]
    exact extends_addUsage _ b i r.span
  · rw [hsettle]
    exact extends_define le_rfl r.span
  · rw [hsettle]
    exact (extends_addEntry _ b r.name).trans ((extends_addUsage _ _ _ r.span).trans
      (extends_addSymbol le_rfl (by simp [addEntry])))
  · rw [hsettle]
    refine .of_index _ rfl rfl (fun _ h => h) fun span hspan => ?_
    rw [Array.toList_push, filterMap_append]
    exact mem_append_left _ hspan

theorem early_settle (b : Builder) (r : EarlyReference) : (b.settle r).early = b.early := by
  rcases settle_cases b r with ⟨i, -, hsettle⟩ | ⟨-, -, ⟨-, hsettle⟩ | ⟨-, -, hsettle⟩ | ⟨-, -, hsettle⟩⟩ <;>
    rw [hsettle] <;> rfl

theorem recorded_settle (hb : b.Known) (r : EarlyReference) : (b.settle r).recorded.Perm (b.recorded ++ [r.span]) := by
  rcases settle_cases b r with ⟨i, hi, hsettle⟩ | ⟨-, -, ⟨-, hsettle⟩ | ⟨-, -, hsettle⟩ | ⟨-, -, hsettle⟩⟩
  · rw [hsettle]
    exact recorded_addUsage (hi.elim (lt_of_nonLocal? hb) (lt_of_nonLocal? hb)) r.span
  · rw [hsettle]
    exact recorded_define b r.home r.name r.span
  · rw [hsettle, ← recorded_addEntry b r.name]
    exact recorded_addUsage (addEntry_lt b r.name) r.span
  · rw [hsettle]
    simp only [recorded, Array.toList_push, filterMap_append, filterMap_cons, undefinedSpan?]
    grind

theorem recorded_settleAll (hb : b.Known) (rs : List EarlyReference) :
    (rs.foldl settle b).Known ∧ (rs.foldl settle b).recorded.Perm (b.recorded ++ rs.map (·.span)) ∧
      (rs.foldl settle b).early = b.early := by
  induction rs generalizing b with
  | nil => exact ⟨hb, by simp, rfl⟩
  | cons r rest ih =>
    obtain ⟨hknown, hrecorded, hearly⟩ := ih ((extends_settle b r).known hb)
    refine ⟨hknown, hrecorded.trans ?_, hearly.trans (early_settle b r)⟩
    rw [map_cons, append_cons]
    exact (recorded_settle hb r).append_right _

theorem recorded_walk (body : Block) :
    ((Walk.chunk below body).foldl step {}).Known ∧
      ((Walk.chunk below body).foldl step {}).recorded.Perm ((Mention.statements [] body).map Mention.span) := by
  obtain ⟨hbody, hrecorded⟩ := follows_foldl (tells_program (Context.enter {} (.chunk body)) body) (follows_start body)
  obtain ⟨hleave, hleft⟩ := follows_step hbody (declare_ne_nil _ (cons_ne_nil _ _)) (.leave (.chunk body) {})
  rw [foldl_chunk]
  exact ⟨hleave.known, hleft.trans ((append_nil _).symm ▸ hrecorded)⟩

end Builder

open Builder

/-- The references that are left when a program has been walked through. -/
def waiting (body : Block) : List EarlyReference := ((Walk.chunk below body).foldl Builder.step {}).early.toList

theorem build_eq (body : Block) : (build body).1 = ((waiting body).foldl settle ((Walk.chunk below body).foldl step {})).index ∧
    (build body).2.Perm ((waiting body).foldl settle ((Walk.chunk below body).foldl step {})).warnings.toList := by
  rw [waiting, Array.foldl_toList]
  exact ⟨rfl, mergeSort_perm _ warningOrder⟩

theorem recorded_build_perm (body : Block) :
    ((build body).1.usages ++ (build body).2.filterMap undefinedSpan?).Perm
      ((Mention.statements [] body).map Mention.span) := by
  obtain ⟨hindex, hwarnings⟩ := build_eq body
  obtain ⟨hknown, hwalked⟩ := recorded_walk body
  obtain ⟨-, hall, hearly⟩ := recorded_settleAll hknown (waiting body)
  -- The early references are recorded twice now, as such and where they were settled; one of the two is dropped.
  rw [recorded, hearly, waiting] at hall
  have hdropped := (perm_append_right_iff _).mp hall
  rw [hindex]
  exact ((hwarnings.filterMap undefinedSpan?).append_left _).trans (hdropped.trans hwalked)

theorem kinds_perm (ms : List Mention) :
    (ms.filterMap Mention.declaredSpan? ++ ms.filterMap Mention.partSpan? ++ ms.filterMap Mention.keySpan?).Perm
      (ms.map Mention.span) := by
  induction ms with
  | nil => exact .refl _
  | cons m rest ih =>
    cases m with
    | declaration id => exact ih.cons id.span
    | reference id =>
      exact (perm_middle.append_right _).trans (ih.cons id.span)
    | part span => exact (perm_middle.append_right _).trans (ih.cons span)
    | fieldKey span => exact perm_middle.trans (ih.cons span)

/-- No mention is lost and none is counted twice. The usages of all entries, together with the undefined variables that
are warned of, are the names that declare locals, the parts of all chains, and the keys of the named fields of tables that
are bound to a name. A field is named if its key is a name or a string whose text is known. -/
theorem usages_build_perm (body : Block) :
    ((build body).1.usages ++ (build body).2.filterMap undefinedSpan?).Perm
      ((Mention.statements [] body).filterMap Mention.declaredSpan? ++
        (Mention.statements [] body).filterMap Mention.partSpan? ++
        (Mention.statements [] body).filterMap Mention.keySpan?) :=
  (recorded_build_perm body).trans (kinds_perm _).symm

/-- Where strings are not decoded, a key in long brackets counts for nothing. In the program `t={[ [[a]] ]=1}` the table is
bound to `t`, and its only field has a string for a key; the key is recorded nowhere. -/
theorem longBracketKey_unrecorded : ∃ (target : Identifier) (key : Span) (value : Expr) (field table all : Span),
    key ∉ (build [.assignment [.name target] .assign [.table ⟨[.keyed (.string none "[[a]]" key) value field], table⟩]
        all]).1.usages ∧
      key ∉ (build [.assignment [.name target] .assign [.table ⟨[.keyed (.string none "[[a]]" key) value field], table⟩]
        all]).2.filterMap undefinedSpan? := by
  let at_ (start stop : Nat) : Span := ⟨⟨1, start + 1, start, 0⟩, ⟨1, stop + 1, stop, 0⟩⟩
  refine ⟨⟨"t", false, at_ 0 1⟩, at_ 5 10, .number 1 "1" (at_ 13 14), at_ 3 14, at_ 2 15, at_ 0 15, ?_⟩
  rw [← not_or, ← List.mem_append, (recorded_build_perm _).mem_iff]
  decide

end CartLua.CrossReference
