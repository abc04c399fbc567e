import CartLua.Proofs.FlowRange
/-!
# Balanced parsers

A parser is balanced when it leaves all stacks as it found them. When it fails instead, what it found is still there
below what it has opened, so that a block can put the stacks back. Line ends are shown behind a balanced parser as before
it, unless a document was entered or left on the way. Where a block is open, acts that keep control flow in range lead to
where a parser comes. Parsers that open and close stacks are followed step by step, with the place that they have come
to.
-/

namespace CartLua

open Session List

/-! ### Depths of control flow -/

namespace Flow

variable (f : Flow)

@[simp] theorem depth_popScope : f.popScope.2.depth = f.depth - 1 := length_tail

@[simp] theorem depth_addLocal (name : String) : (f.addLocal name).depth = f.depth := by
  unfold addLocal depth
  split
  · rfl
  next h => simp [h]

@[simp] theorem depth_addGoto (target : String) (span : Span) : (f.addGoto target span).depth = f.depth := by
  unfold addGoto depth
  split <;> rfl

@[simp] theorem depth_addLabel (name : String) (span : Span) : (f.addLabel name span).2.depth = f.depth := by
  unfold addLabel depth
  split
  · rfl
  next h =>
    split
    · rfl
    · simp [h]

@[simp] theorem depth_raiseDeferred : f.raiseDeferred.2.depth = f.depth := by
  unfold raiseDeferred depth
  split
  · rfl
  next h => simp [h]

theorem depth_truncate {depth : Nat} (h : depth ≤ f.depth) : (f.truncate depth).depth = depth := by
  show (f.scopes.drop (f.depth - depth)).length = depth
  rw [length_drop]
  unfold Flow.depth at h ⊢
  omega

end Flow

/-! ### What is open -/

/-- The open constructs, scopes and blocks of a session. -/
structure Nesting where
  markers : List Position
  scopes : Nat
  /-- The depth of the control flow of the function being read. -/
  flow : Nat
  /-- The depths in the functions around it, innermost first. -/
  outerFlows : List Nat

namespace Nesting

variable {x y z : Nesting}

def mark (x : Nesting) (p : Position) : Nesting := { x with markers := p :: x.markers }

def openScope (x : Nesting) : Nesting := { x with scopes := x.scopes + 1 }

def openBlock (x : Nesting) : Nesting := { x with flow := x.flow + 1 }

def enterFunction (x : Nesting) : Nesting := { x with flow := 0, outerFlows := x.flow :: x.outerFlows }

/-- All that is open in `x` is still open in `y`, and in each function entered since a block is open. -/
structure Under (x y : Nesting) : Prop where
  markers : x.markers <:+ y.markers
  scopes : x.scopes ≤ y.scopes
  flows : ∃ inner own, y.flow :: y.outerFlows = inner ++ own :: x.outerFlows ∧ x.flow ≤ own ∧ ∀ depth ∈ inner, 0 < depth

namespace Under

theorem of_flow (hmarkers : x.markers <:+ y.markers) (hscopes : x.scopes ≤ y.scopes) (hflow : x.flow ≤ y.flow)
    (houter : y.outerFlows = x.outerFlows) : x.Under y :=
  ⟨hmarkers, hscopes, [], y.flow, congrArg (y.flow :: ·) houter, hflow, forall_mem_nil _⟩

theorem refl (x : Nesting) : x.Under x := of_flow suffix_rfl le_rfl le_rfl rfl

theorem trans (hxy : x.Under y) (hyz : y.Under z) : x.Under z := by
  obtain ⟨inner, own, hy, hx, hinner⟩ := hxy.flows
  obtain ⟨inner', own', hz, hle, hinner'⟩ := hyz.flows
  refine ⟨hxy.markers.trans hyz.markers, hxy.scopes.trans hyz.scopes, ?_⟩
  cases inner with
  | nil =>
    obtain ⟨hown, houter⟩ := cons.inj hy
    exact ⟨inner', own', by rw [hz, houter], hx.trans (hown ▸ hle), hinner'⟩
  | cons first inner =>
    rw [cons_append] at hy
    obtain ⟨hfirst, houter⟩ := cons.inj hy
    obtain ⟨hpos, hinner⟩ := forall_mem_cons.mp hinner
    refine ⟨inner' ++ own' :: inner, own, by rw [hz, houter, append_assoc, cons_append], hx, ?_⟩
    exact forall_mem_append.mpr ⟨hinner', forall_mem_cons.mpr ⟨(hfirst ▸ hpos).trans_le hle, hinner⟩⟩

theorem flow_pos (h : x.Under y) (hx : 0 < x.flow) : 0 < y.flow := by
  obtain ⟨inner, own, hy, hle, hinner⟩ := h.flows
  cases inner with
  | nil => exact (cons.inj hy).1 ▸ hx.trans_le hle
  | cons first inner =>
    rw [cons_append] at hy
    exact (cons.inj hy).1 ▸ hinner first mem_cons_self

theorem mark (h : x.Under y) (p : Position) : x.Under (y.mark p) :=
  h.trans (of_flow (suffix_cons _ _) le_rfl le_rfl rfl)

theorem openScope (h : x.Under y) : x.Under y.openScope :=
  h.trans (of_flow suffix_rfl (Nat.le_succ _) le_rfl rfl)

theorem openBlock (h : x.Under y) : x.Under y.openBlock :=
  h.trans (of_flow suffix_rfl le_rfl (Nat.le_succ _) rfl)

theorem openFunction (h : x.Under y) : x.Under y.enterFunction.openBlock :=
  h.trans ⟨suffix_rfl, le_rfl, [1], y.flow, rfl, le_rfl, forall_mem_singleton.mpr Nat.one_pos⟩

end Under

end Nesting

namespace Session

variable {c : Settings} {s t u : Session} {w : Window}

def nesting (s : Session) : Nesting :=
  { markers := s.markers.starts
    scopes := s.scopes.length
    flow := s.flow.depth
    outerFlows := s.outerFlows.map Flow.depth }

theorem nesting_markers (s : Session) (m : MarkerStack) :
    { s with markers := m }.nesting = { s.nesting with markers := m.starts } := rfl

theorem nesting_of_flow (hmarkers : t.markers = s.markers) (hflow : t.flow.depth = s.flow.depth)
    (houter : t.outerFlows = s.outerFlows) (hscopes : t.scopes = s.scopes) : t.nesting = s.nesting := by
  unfold nesting
  rw [hmarkers, hflow, houter, hscopes]

theorem flowsAt_depths {flow : Flow} {outers : List Flow} {inner below : List Nat} {own : Nat}
    (h : flow.depth :: outers.map Flow.depth = inner ++ own :: below) :
    (flowsAt below.length flow outers).1.depth = own ∧ (flowsAt below.length flow outers).2.map Flow.depth = below := by
  induction inner generalizing flow outers with
  | nil =>
    obtain ⟨hown, hbelow⟩ := cons.inj h
    have hlength : outers.length = below.length := by rw [← hbelow, length_map]
    unfold flowsAt
    split
    · exact ⟨hown, hbelow⟩
    · rw [if_neg (by omega)]
      exact ⟨hown, hbelow⟩
  | cons first inner ih =>
    rw [cons_append] at h
    obtain ⟨-, hbelow⟩ := cons.inj h
    cases outers with
    | nil => exact absurd hbelow.symm (by simp)
    | cons =>
      have hlength := congrArg length hbelow
      simp only [length_map, length_append, length_cons] at hlength
      unfold flowsAt
      rw [if_pos (by rw [length_cons]; omega)]
      exact ih hbelow

theorem nesting_restore (h : s.nesting.Under t.nesting) : (t.restoreStacks s.checkpoint).nesting = s.nesting := by
  obtain ⟨inner, own, hflows, hdepth, -⟩ := h.flows
  have hmarkers : (t.markers.truncate s.markers.depth).starts = s.markers.starts :=
    (suffix_iff_eq_drop.mp h.markers).symm
  have hscopes : (t.scopes.drop (t.scopes.length - s.scopes.length)).length = s.scopes.length := by
    have hle : s.scopes.length ≤ t.scopes.length := h.scopes
    rw [length_drop]
    omega
  have hat := flowsAt_depths hflows
  have hlength : s.nesting.outerFlows.length = s.outerFlows.length := length_map _
  rw [hlength] at hat
  have hflow : ((flowsAt s.outerFlows.length t.flow t.outerFlows).1.truncate s.flow.depth).depth = s.flow.depth :=
    Flow.depth_truncate _ (hat.1 ▸ hdepth)
  show Nesting.mk _ _ _ _ = Nesting.mk _ _ _ _
  congr 1
  exact hat.2

/-! ### Entering and leaving documents -/

theorem length_unwind (w : Window) (below : List Suspended) : (unwind w below).2.length ≤ below.length :=
  (unwind_suffix w below).length_le

theorem unwind_eq {below : List Suspended} (h : (unwind w below).2.length = below.length) :
    unwind w below = (w, below) := by
  cases below with
  | nil => rfl
  | cons b rest =>
    unfold unwind at h ⊢
    split at h
    next heof =>
      have hle := length_unwind { b.window with previous := w.previous } rest
      rw [h, length_cons] at hle
      omega
    next heof => rw [if_neg heof]

theorem resume_eq (h : (s.resume w).suspended.length = s.suspended.length) :
    s.resume w = { s with window := w } := by
  have hunwind : unwind w s.suspended = (w, s.suspended) := unwind_eq h
  unfold resume
  rw [hunwind]

theorem openInclude_cases (c : Settings) (s : Session) (target : String) (span : Span) :
    ((openInclude c s target span).window = s.window ∧ (openInclude c s target span).suspended = s.suspended ∧
        s.files.toList <+: (openInclude c s target span).files.toList) ∨
      ∃ path contents, c.store.openInclude path target = .ok contents ∧
        (Window.ofText c.encoding contents s.files.size).start.2.token.isEof = false ∧
        (openInclude c s target span).window = (Window.ofText c.encoding contents s.files.size).start.2 ∧
        (openInclude c s target span).suspended = ⟨s.window, span⟩ :: s.suspended ∧
        (openInclude c s target span).files = s.files.push path := by
  unfold openInclude
  dsimp only
  split
  next fault hopened => exact .inl ⟨rfl, rfl, prefix_rfl⟩
  next contents hopened =>
    have hload : c.store.openInclude (Path.resolve s.currentFile target) target = .ok contents := by
      split at hopened
      · cases hopened
      · exact hopened
    split
    next heof =>
      refine .inl ⟨rfl, rfl, ?_⟩
      simp [report]
    next heof => exact .inr ⟨_, contents, hload, by simpa using heof, rfl, rfl, rfl⟩

theorem openInclude_eq (c : Settings) (s : Session) (target : String) (span : Span) : ∃ w ws files errors,
    openInclude c s target span = { s with window := w, suspended := ws, files := files, errors := errors } := by
  unfold openInclude
  dsimp only
  split
  · exact ⟨_, _, _, _, rfl⟩
  · split <;> exact ⟨_, _, _, _, rfl⟩

/-- The session behind an include line, before the document that the line names is entered. -/
def behindLine (s : Session) : Session := { s with window := s.window.next.2 }.report s.window.next.1.toList

theorem passInclude_eq (c : Settings) (s : Session) :
    s.passInclude c = (openInclude c s.behindLine s.window.token.text s.window.token.span).resume
      (openInclude c s.behindLine s.window.token.text s.window.token.span).window := rfl

theorem Act.files_prefix (h : Act c s t) : s.files.toList <+: t.files.toList := by
  obtain ⟨-, -, hfiles⟩ | rfl | ⟨shown, rfl⟩ | ⟨-, rfl⟩ := h.cases_window
  · rw [hfiles]
  · exact prefix_rfl
  · exact prefix_rfl
  · rw [passInclude_eq]
    obtain ⟨-, -, hfiles⟩ | ⟨path, contents, -, -, -, -, hfiles⟩ :=
      openInclude_cases c s.behindLine s.window.token.text s.window.token.span
    · exact hfiles
    · show s.files.toList <+: (openInclude c s.behindLine _ _).files.toList
      rw [hfiles, Array.toList_push]
      exact prefix_append _ _

theorem Reaches.files_prefix (h : Reaches c s t) : s.files.toList <+: t.files.toList := by
  induction h with
  | refl => exact prefix_rfl
  | act _ last ih => exact ih.trans last.files_prefix

theorem Reaches.getElem?_files (h : Reaches c s t) {file : Nat} {path : String} (hpath : s.files[file]? = some path) :
    t.files[file]? = some path := by
  obtain ⟨later, hlater⟩ := h.files_prefix
  rw [← Array.getElem?_toList] at hpath ⊢
  rw [← hlater]
  exact List.getElem?_append_left (List.getElem?_eq_some_iff.mp hpath).1 |>.trans hpath

/-- The documents opened between `s` and `t` have no tokens. -/
def OpensBlank (c : Settings) (s t : Session) : Prop :=
  ∀ file path target contents, s.files.size ≤ file → t.files[file]? = some path →
    c.store.openInclude path target = .ok contents → (Window.ofText c.encoding contents file).start.2.token.isEof = true

/-- Between `s` and `t` no document was entered or left: those opened in between have no tokens, which is why they were
not entered, and as many as before are suspended. -/
structure Undisturbed (c : Settings) (s t : Session) : Prop where
  blank : OpensBlank c s t
  suspended : t.suspended.length = s.suspended.length

theorem OpensBlank.left (h : OpensBlank c s u) (hreach : Reaches c t u) : OpensBlank c s t :=
  fun file path target contents hle hpath => h file path target contents hle (hreach.getElem?_files hpath)

theorem OpensBlank.right (h : OpensBlank c s u) (hreach : Reaches c s t) : OpensBlank c t u := by
  intro file path target contents hle
  have hsize : s.files.size ≤ t.files.size := hreach.files_prefix.length_le
  exact h file path target contents (hsize.trans hle)

theorem OpensBlank.of_push (h : OpensBlank c s t) {path target contents : String} (hfiles : t.files = s.files.push path)
    (hload : c.store.openInclude path target = .ok contents) :
    (Window.ofText c.encoding contents s.files.size).start.2.token.isEof ≠ false := by
  have hpath : t.files[s.files.size]? = some path := by
    rw [hfiles]
    exact Array.getElem?_push_size
  rw [h s.files.size path target contents le_rfl hpath hload]
  exact Bool.true_eq_false.mp

theorem Act.length_suspended (h : Act c s t) (hblank : OpensBlank c s t) : t.suspended.length ≤ s.suspended.length := by
  obtain ⟨-, hsuspended, -⟩ | rfl | ⟨shown, rfl⟩ | ⟨-, rfl⟩ := h.cases_window
  · rw [hsuspended]
  · exact length_unwind _ _
  · exact length_unwind _ _
  · rw [passInclude_eq] at hblank ⊢
    refine (length_unwind _ _).trans ?_
    obtain ⟨-, hsuspended, -⟩ | ⟨path, contents, hload, htoken, -, -, hfiles⟩ :=
      openInclude_cases c s.behindLine s.window.token.text s.window.token.span
    · rw [hsuspended]
      rfl
    · exact absurd htoken (hblank.of_push hfiles hload)

theorem Reaches.length_suspended (h : Reaches c s t) (hblank : OpensBlank c s t) :
    t.suspended.length ≤ s.suspended.length := by
  induction h with
  | refl => exact le_rfl
  | act before last ih =>
    have hlast := last.length_suspended (hblank.right before)
    exact hlast.trans (ih (hblank.left (.single last)))

theorem Undisturbed.split (h : Undisturbed c s u) (hst : Reaches c s t) (htu : Reaches c t u) :
    Undisturbed c s t ∧ Undisturbed c t u := by
  have hleft := h.blank.left htu
  have hright := h.blank.right hst
  have hst' := hst.length_suspended hleft
  have htu' := htu.length_suspended hright
  have hsu := h.suspended
  exact ⟨⟨hleft, by omega⟩, ⟨hright, by omega⟩⟩

theorem passInclude_window (h : Undisturbed c s (s.passInclude c)) : (s.passInclude c).window = s.window.next.2 := by
  have hopens : OpensBlank c s (openInclude c s.behindLine s.window.token.text s.window.token.span) := h.blank
  have hsuspended := h.suspended
  rw [passInclude_eq] at hsuspended ⊢
  obtain ⟨hwindow, hbelow, -⟩ | ⟨path, contents, hload, htoken, -, -, hfiles⟩ :=
    openInclude_cases c s.behindLine s.window.token.text s.window.token.span
  · rw [resume_eq (hsuspended.trans (congrArg length hbelow.symm))]
    exact hwindow
  · exact absurd htoken (hopens.of_push hfiles hload)

theorem Act.window_of_undisturbed (h : Act c s t) (hquiet : Undisturbed c s t) :
    t.window = s.window ∨ t.window = s.window.next.2 ∨ ∃ shown, t.window = (s.window.setNewlines shown).2 := by
  obtain ⟨hwindow, -, -⟩ | rfl | ⟨shown, rfl⟩ | ⟨-, rfl⟩ := h.cases_window
  · exact .inl hwindow
  · rw [resume_eq hquiet.suspended]
    exact .inr (.inl rfl)
  · rw [resume_eq hquiet.suspended]
    exact .inr (.inr ⟨shown, rfl⟩)
  · exact .inr (.inl (passInclude_window hquiet))

theorem Act.file_of_undisturbed (h : Act c s t) (hquiet : Undisturbed c s t) : t.window.file = s.window.file := by
  obtain hwindow | hwindow | ⟨shown, hwindow⟩ := h.window_of_undisturbed hquiet
  · rw [hwindow]
  · rw [hwindow, Window.next_file]
  · rw [hwindow, Window.setNewlines_file]

theorem Reaches.file_of_undisturbed (h : Reaches c s t) (hquiet : Undisturbed c s t) :
    t.window.file = s.window.file := by
  induction h with
  | refl => rfl
  | act before last ih =>
    obtain ⟨hbefore, hlast⟩ := hquiet.split before (.single last)
    exact (last.file_of_undisturbed hlast).trans (ih hbefore)

/-- What a balanced part of a parse keeps. -/
structure Kept (c : Settings) (s t : Session) : Prop where
  nesting : t.nesting = s.nesting
  newlines : Undisturbed c s t → t.window.newlines = s.window.newlines

namespace Kept

theorem refl (s : Session) : Kept c s s := ⟨rfl, fun _ => rfl⟩

theorem trans (hst : Kept c s t) (htu : Kept c t u) (hreach : Reaches c s t) (hreach' : Reaches c t u) :
    Kept c s u := by
  refine ⟨htu.nesting.trans hst.nesting, fun hquiet => ?_⟩
  obtain ⟨hleft, hright⟩ := hquiet.split hreach hreach'
  exact (htu.newlines hright).trans (hst.newlines hleft)

theorem of_window (hnesting : t.nesting = s.nesting) (hwindow : t.window = s.window) : Kept c s t :=
  ⟨hnesting, fun _ => congrArg Window.newlines hwindow⟩

theorem resume (s : Session) {w : Window} (hw : w.newlines = s.window.newlines) : Kept c s (s.resume w) := by
  refine ⟨rfl, fun hquiet => ?_⟩
  rw [resume_eq hquiet.suspended]
  exact hw

theorem passInclude (s : Session) : Kept c s (s.passInclude c) := by
  refine ⟨?_, fun hquiet => by rw [passInclude_window hquiet, Window.next_newlines]⟩
  obtain ⟨w, ws, files, errors, hopened⟩ := openInclude_eq c s.behindLine s.window.token.text s.window.token.span
  rw [passInclude_eq, hopened]
  rfl

end Kept

end Session

/-- Where a block is open in `base`, there is a way from `s` to `t` by sessions in range. -/
def Session.Stays (c : Settings) (base : Nesting) (s t : Session) : Prop :=
  s.InRange → 0 < base.flow → s.ReachesInRange c t

/-- What a parse from `s` comes to. A result comes with a session as `P` says. A fault leaves open what is open in
`base`. -/
def Outcome.Lands {α : Type} (c : Settings) (s : Session) (base : Nesting) (P : α → Session → Prop) : Outcome α → Prop
  | .ok a t => P a t ∧ s.Stays c base t
  | .fault _ t => base.Under t.nesting ∧ s.Stays c base t
  | .exhausted => True

namespace Outcome.Lands

variable {α β : Type} {c : Settings} {s t : Session} {base inner : Nesting} {P Q : α → Session → Prop} {o : Outcome α}

theorem ok {a : α} (h : P a t) (hstays : s.Stays c base t) : (Outcome.ok a t).Lands c s base P := ⟨h, hstays⟩

/-- The parser has read something only, and the session is as it was. -/
theorem here {a : α} (h : P a s) : (Outcome.ok a s).Lands c s base P := ⟨h, fun hs _ => .refl hs⟩

theorem after (hstays : s.Stays c base t) (h : o.Lands c t base P) : o.Lands c s base P := by
  have hmore {u : Session} (hu : t.Stays c base u) : s.Stays c base u := fun hs hopen =>
    (hstays hs hopen).trans (hu (hstays hs hopen).inRange hopen)
  cases o with
  | ok | fault => exact ⟨h.1, hmore h.2⟩
  | exhausted => trivial

theorem mono (h : o.Lands c s inner P) (hbase : base.Under inner) (hPQ : ∀ a t, o = .ok a t → P a t → Q a t) :
    o.Lands c s base Q := by
  cases o with
  | ok a t => exact ⟨hPQ a t rfl h.1, fun hs hopen => h.2 hs (hbase.flow_pos hopen)⟩
  | fault => exact ⟨hbase.trans h.1, fun hs hopen => h.2 hs (hbase.flow_pos hopen)⟩
  | exhausted => trivial

theorem andThen {R : β → Session → Prop} {next : α → Session → Outcome β} (ho : o.Lands c s base P)
    (hnext : ∀ a t, o = .ok a t → P a t → (next a t).Lands c t base R) : (o.andThen next).Lands c s base R := by
  cases o with
  | ok a t => exact .after ho.2 (hnext a t rfl ho.1)
  | fault => exact ho
  | exhausted => trivial

end Outcome.Lands

namespace Parse

variable {α β : Type} {c : Settings} {s t : Session} {base : Nesting}

section

variable {p : Parse α} {f : α → Parse β} {P : α → Session → Prop} {R : β → Session → Prop}

theorem lands_bind (hp : (p.run c s).Lands c s base P)
    (hf : ∀ a t, p.run c s = .ok a t → P a t → ((f a).run c t).Lands c t base R) :
    ((p >>= f).run c s).Lands c s base R :=
  hp.andThen hf

theorem lands_look {g : Session → α} (h : ((f (g s)).run c s).Lands c s base R) :
    ((look g >>= f).run c s).Lands c s base R := h

theorem lands_attempt {f : Except Diagnostic α → Parse β} (hp : (p.run c s).Lands c s base P)
    (hok : ∀ a t, p.run c s = .ok a t → P a t → ((f (.ok a)).run c t).Lands c t base R)
    (hfault : ∀ d t, p.run c s = .fault d t → base.Under t.nesting → ((f (.error d)).run c t).Lands c t base R) :
    ((attempt p >>= f).run c s).Lands c s base R := by
  rw [run_bind]
  unfold attempt
  dsimp only
  cases hrun : p.run c s with
  | ok a t =>
    rw [hrun] at hp
    exact .after hp.2 (hok a t hrun hp.1)
  | fault d t =>
    rw [hrun] at hp
    exact .after hp.2 (hfault d t hrun hp.1)
  | exhausted => trivial

end

/-- The parser leaves the stacks as it found them. If it fails, what it found is still there. Where a block is open,
there is a way by sessions in range to where it comes. -/
class Neat (c : Settings) (p : Parse α) : Prop where
  lands : ∀ s : Session, (p.run c s).Lands c s s.nesting fun _ t => s.Kept c t

namespace Neat

theorem kept {p : Parse α} [Neat c p] {a : α} (h : p.run c s = .ok a t) : s.Kept c t := by
  have hlands := lands (c := c) (p := p) s
  rw [h] at hlands
  exact hlands.1

theorem lands_behind (p : Parse α) [Neat c p] {u : Session} (hreach : Reaches c u s) (hkept : u.Kept c s) :
    (p.run c s).Lands c s u.nesting fun _ t => u.Kept c t := by
  rw [← hkept.nesting]
  exact (lands s).mono (.refl _) fun a t hrun ht => hkept.trans ht hreach (reaches hrun)

instance (p : Parse α) (f : α → Parse β) [hp : Neat c p] [hf : ∀ a, Neat c (f a)] : Neat c (p >>= f) where
  lands s := lands_bind (hp.lands s) fun a _ hrun hkept => lands_behind (f a) (reaches hrun) hkept

instance (P : Prop) [Decidable P] (p q : Parse α) [hp : Neat c p] [hq : Neat c q] : Neat c (if P then p else q) := by
  split
  · exact hp
  · exact hq

instance : Neat c (exhausted : Parse α) where
  lands _ := trivial

end Neat

/-- The parser finishes, and leaves the stacks as it found them. -/
class Balanced (c : Settings) (p : Parse α) : Prop extends Neat c p, Finishes c p

namespace Balanced

variable {p : Parse α}

theorem of_ok (f : Session → α) (g : Session → Session) (hrun : ∀ s, p.run c s = .ok (f s) (g s))
    (hlands : ∀ s : Session, s.Kept c (g s) ∧ s.Stays c s.nesting (g s)) : Balanced c p where
  lands s := by
    rw [hrun]
    exact hlands s
  toFinishes := .of_ok fun s => ⟨_, _, hrun s⟩

variable {f : α → Parse β}

theorem bind [Balanced c p] (hf : ∀ a, Balanced c (f a)) : Balanced c (p >>= f) where

instance (p : Parse α) (f : α → Parse β) [Balanced c p] [hf : ∀ a, Balanced c (f a)] : Balanced c (p >>= f) := .bind hf

instance (p : Parse α) (f : α → β) [Balanced c p] [∀ b : β, Balanced c (pure b : Parse β)] : Balanced c (f <$> p) := by
  rw [← bind_pure_comp]
  infer_instance

instance (P : Prop) [Decidable P] (p q : Parse α) [hp : Balanced c p] [hq : Balanced c q] :
    Balanced c (if P then p else q) := by
  split
  · exact hp
  · exact hq

theorem of_look (f : Session → α) (hrun : ∀ s, p.run c s = .ok (f s) s) : Balanced c p :=
  .of_ok f id hrun fun s => ⟨.refl s, fun hs _ => .refl hs⟩

instance (a : α) : Balanced c (pure a : Parse α) := .of_look (fun _ => a) fun _ => rfl

instance (f : Session → α) : Balanced c (look f) := .of_look f fun _ => rfl

instance : Balanced c settings := .of_look (fun _ => c) fun _ => rfl

theorem of_fault (d : Session → Diagnostic) (hrun : ∀ s, p.run c s = .fault (d s) s) : Balanced c p where
  lands s := by
    rw [hrun]
    exact ⟨.refl _, fun hs _ => .refl hs⟩
  ne_exhausted {s} _ _ h := by
    rw [hrun] at h
    cases h

instance : Balanced c token := inferInstanceAs (Balanced c (look _))

instance : Balanced c lookahead := inferInstanceAs (Balanced c (look _))

instance : Balanced c previous := inferInstanceAs (Balanced c (look _))

instance : Balanced c newlines := inferInstanceAs (Balanced c (look _))

instance (start : Position) : Balanced c (spanFrom start) := inferInstanceAs (Balanced c (look _))

instance (word : String) : Balanced c (missingWord word : Parse α) := .of_fault _ fun _ => rfl

instance (part : String) : Balanced c (missing part : Parse α) := .of_fault _ fun _ => rfl

instance : Balanced c (tooManyLevels : Parse α) := .of_fault _ fun _ => rfl

instance : Balanced c (unexpected : Parse α) := .of_fault _ fun _ => rfl

theorem stays_next (s : Session) : s.Stays c base (s.resume s.window.next.2) := fun hs _ => .single hs (.next s) hs

instance : Balanced c advance where
  lands s := by
    rw [run_advance]
    split
    · exact ⟨.resume _ (Window.next_newlines _), stays_next s⟩
    · exact ⟨.refl _, stays_next s⟩

instance : Balanced c passInclude where
  lands s := by
    unfold passInclude
    dsimp only
    split
    next hkind =>
      refine ⟨.passInclude s, fun hs _ => .single hs (.directive s hkind) ?_⟩
      obtain ⟨w, ws, files, errors, hopened⟩ := openInclude_eq c s.behindLine s.window.token.text s.window.token.span
      rw [passInclude_eq, hopened]
      exact hs
    · exact .here (.refl s)
  ne_exhausted _ _ h := by
    unfold passInclude at h
    dsimp only at h
    split at h <;> cases h

/-- An act changes no window. -/
theorem of_act (f : Session → α) (g : Session → Session) (hrun : ∀ s, p.run c s = .ok (f s) (g s))
    (hact : ∀ s : Session, s.Act c (g s))
    (hkept : ∀ s : Session, (g s).nesting = s.nesting ∧ (g s).window = s.window ∧ (s.InRange → (g s).InRange)) : Balanced c p :=
  .of_ok f g hrun fun s => ⟨.of_window (hkept s).1 (hkept s).2.1, fun hs _ => .single hs (hact s) ((hkept s).2.2 hs)⟩

instance (ds : List Diagnostic) : Balanced c (report ds) :=
  .of_act _ _ (fun _ => rfl) (.report · ds) fun _ => ⟨rfl, rfl, id⟩

/-- The control flow of the session changes, in a block of the same depth, and something may be reported then. -/
theorem of_flow {p : Parse Unit} (flow : Flow → Flow) (found : Flow → List Diagnostic)
    (hrun : ∀ s, p.run c s = .ok () ({ s with flow := flow s.flow }.report (found s.flow)))
    (hact : ∀ s : Session, s.Act c { s with flow := flow s.flow }) (hdepth : ∀ f : Flow, (flow f).depth = f.depth)
    (hrange : ∀ f : Flow, f.InRange → 0 < f.depth → (flow f).InRange) : Balanced c p := by
  refine .of_ok _ _ hrun fun s => ⟨.of_window (nesting_of_flow rfl (hdepth _) rfl rfl) rfl, fun hs hopen => ?_⟩
  have hflow := hs.withFlow (hrange _ hs.flow hopen)
  exact (ReachesInRange.single hs (hact s) hflow).act (.report _ _) hflow

instance (name : String) : Balanced c (addLocal name) :=
  .of_flow (·.addLocal name) (fun _ => []) (fun _ => rfl) (.addLocal · name) (·.depth_addLocal name) fun _ hf _ => hf.addLocal name

instance (target : String) (span : Span) : Balanced c (addGoto target span) :=
  .of_flow (·.addGoto target span) (fun _ => []) (fun _ => rfl) (.addGoto · target span) (·.depth_addGoto target span)
    fun _ hf hopen => hf.addGoto hopen target span

instance (name : String) (span : Span) : Balanced c (addLabel name span) :=
  .of_flow (·.addLabel name span |>.2) (·.addLabel name span |>.1.toList) (fun _ => rfl) (.addLabel · name span)
    (·.depth_addLabel name span) fun _ hf _ => hf.addLabel name span

instance : Balanced c raiseDeferred :=
  .of_flow (·.raiseDeferred.2) (·.raiseDeferred.1) (fun _ => rfl) .raiseDeferred (·.depth_raiseDeferred)
    fun _ hf _ => hf.raiseDeferred

instance : Balanced c allowVararg :=
  .of_flow ({ · with allowVararg := true }) (fun _ => []) (fun _ => rfl) .allowVararg (fun _ => rfl) fun _ hf _ => { hf with }

instance (name : String) : Balanced c (addName name) := by
  refine .of_act _ (·.addName name) (fun _ => rfl) (.addName · name) fun s => ?_
  unfold Session.addName
  split
  · exact ⟨rfl, rfl, id⟩
  next h => exact ⟨by simp [nesting, h], rfl, id⟩

instance (id : Identifier) : Balanced c (reference id) := by
  refine .of_act _ (·.addGlobal id.name) (fun _ => rfl) (.addGlobal · id.name) fun s => ?_
  unfold Session.addGlobal
  split
  · exact ⟨rfl, rfl, fun hs => hs⟩
  · exact ⟨rfl, rfl, fun hs => hs⟩

instance (id : Identifier) : Balanced c (declare id) := by
  unfold declare
  infer_instance

instance (id : Identifier) : Balanced c (declareInFlow id) := by
  unfold declareInFlow
  infer_instance

instance (terminal : Terminal) : Balanced c (consume terminal) := by
  unfold consume
  infer_instance

instance (terminal : Terminal) : Balanced c (expect terminal) := by
  unfold expect
  infer_instance

instance : Balanced c identifier := by
  unfold identifier
  infer_instance

instance (names : List Identifier) (f : Identifier → Parse Identifier) [∀ id, Balanced c (f id)] :
    Balanced c (names.mapM f) := by
  induction names with
  | nil =>
    rw [mapM_nil]
    infer_instance
  | cons =>
    rw [mapM_cons]
    infer_instance

/-- A token is passed whether there is a fault on the way or not. -/
instance : Balanced c skipToken := by
  refine .of_ok _ _ run_skipToken fun s => ⟨?_, fun hs _ => .act (stays_next s hs ‹_›) (.report _ _) hs⟩
  have hnext : s.Kept c (s.resume s.window.next.2) := .resume _ (Window.next_newlines _)
  exact ⟨hnext.nesting, fun hquiet => hnext.newlines ⟨hquiet.blank, hquiet.suspended⟩⟩

/-! ### Loops -/

theorem collect {step : Parse (List α × Bool)} [Balanced c step] (hspends : Spends c step) : Balanced c (collect step) := by
  have hrounds : ∀ rounds, Neat c (collectRounds step rounds) := by
    intro rounds
    induction rounds with
    | zero => exact inferInstanceAs (Neat c exhausted)
    | succ =>
      unfold collectRounds
      infer_instance
  have hfinishes : Finishes c (Parse.collect step) := .collect hspends
  have hneat : Neat c (Parse.collect step) := inferInstanceAs (Neat c (settings >>= fun c => collectRounds step c.rounds))
  exact { }

theorem many {step : Parse (Option α)} [Balanced c step]
    (hpasses : ∀ s a t, s.Orderly c → step.run c s = .ok (some a) t → t.remaining c < s.remaining c) :
    Balanced c (many step) := by
  refine @collect _ _ _ (.bind fun r => by split <;> infer_instance) ?_
  intro s found t hs hrun
  obtain ⟨r, u, hstep, hr⟩ := run_bind_eq_ok.mp hrun
  cases r with
  | none => cases hr
  | some a =>
    cases hr
    exact hpasses s a t hs hstep

theorem many_comma (p : Parse α) [Balanced c p] :
    Balanced c (Parse.many do if ← consume Symbol.comma then return some (← p) else return none) := by
  refine many ?_
  intro s a t hs hrun
  obtain ⟨passed, u, hconsume, hnext⟩ := run_bind_eq_ok.mp hrun
  cases passed with
  | false => cases hnext
  | true => exact (remaining_le ((reaches hconsume).orderly hs) hnext).trans_lt (remaining_consume_lt hconsume)

instance (file : FileId) (consumed : Bool) : Balanced c (skipLineStep file consumed) := by
  unfold skipLineStep
  infer_instance

instance (file : FileId) : Balanced c (skipLine file) where
  toNeat := by
    have hrounds : ∀ rounds consumed, Neat c (skipLineRounds file consumed rounds) := by
      intro rounds
      induction rounds with
      | zero => exact fun _ => inferInstanceAs (Neat c exhausted)
      | succ rounds =>
        intro consumed
        unfold skipLineRounds
        have hnext : ∀ r : Option Bool, Neat c (match r with | some goesOn => pure goesOn | none => skipLineRounds file true rounds) := by
          intro r
          split <;> infer_instance
        infer_instance
    exact inferInstanceAs (Neat c (settings >>= fun c => skipLineRounds file false c.rounds))

end Balanced

/-! ### Parsers with unbalanced parts -/

/-- Where a parse has come to: what is open, and whether line ends are shown, if that is known. -/
structure Place where
  nesting : Nesting
  newlines : Option Bool

namespace Place

def mark (x : Place) (p : Position) : Place := { x with nesting := x.nesting.mark p }

def openScope (x : Place) : Place := { x with nesting := x.nesting.openScope }

def openBlock (x : Place) : Place := { x with nesting := x.nesting.openBlock }

def enterFunction (x : Place) : Place := { x with nesting := x.nesting.enterFunction }

def withNewlines (x : Place) (shown : Option Bool) : Place := { x with newlines := shown }

end Place

/-- The session has come to a place on the way from `origin`. Line ends may be shown differently when a document has been
entered or left. -/
structure IsAt (c : Settings) (origin : Session) (x : Place) (s : Session) : Prop where
  reaches : Reaches c origin s
  nesting : s.nesting = x.nesting
  newlines : Undisturbed c origin s → ∀ shown ∈ x.newlines, s.window.newlines = shown

theorem IsAt.start (s : Session) : IsAt c s ⟨s.nesting, s.window.newlines⟩ s :=
  ⟨.refl, rfl, fun _ _ hshown => Option.mem_some_iff.mp hshown⟩

variable {origin : Session}

theorem IsAt.withNewlines {x : Place} (h : IsAt c origin x s) :
    IsAt c origin (x.withNewlines s.window.newlines) s :=
  ⟨h.reaches, h.nesting, fun _ _ hshown => Option.mem_some_iff.mp hshown⟩

theorem IsAt.step {x y : Place} (h : IsAt c origin x s) (hreach : Reaches c s t)
    (hwindow : t.window = s.window) (hsuspended : t.suspended = s.suspended) (hfiles : t.files = s.files)
    (hnesting : t.nesting = y.nesting) (hnewlines : y.newlines = x.newlines) : IsAt c origin y t := by
  refine ⟨h.reaches.trans hreach, hnesting, fun hquiet shown hshown => ?_⟩
  rw [hnewlines] at hshown
  rw [hwindow]
  obtain ⟨hblank, hlength⟩ := hquiet
  unfold OpensBlank at hblank
  rw [hfiles] at hblank
  rw [hsuspended] at hlength
  exact h.newlines ⟨hblank, hlength⟩ shown hshown

/-- From the place `x` the parser goes to the places `y`. If it fails, all that is open in `base` is still open. -/
structure Keeps (c : Settings) (origin : Session) (base : Nesting) (x : Place) (p : Parse α) (y : α → Place) : Prop
    extends Finishes c p where
  lands : ∀ {s : Session}, IsAt c origin x s → (p.run c s).Lands c s base fun a t => IsAt c origin (y a) t

theorem Balanced.of_keeps {p : Parse α} (h : ∀ origin x, Keeps c origin x.nesting x p fun _ => x) : Balanced c p where
  lands s := ((h s _).lands (.start s)).mono (.refl _) fun _ _ _ hat => ⟨hat.nesting, fun hquiet => hat.newlines hquiet _ rfl⟩
  toFinishes := (h default ⟨nesting default, none⟩).toFinishes

namespace Keeps

variable {origin : Session} {base : Nesting} {x y : Place} {p : Parse α} {z : β → Place}

theorem bind {y : α → Place} (hp : Keeps c origin base x p y)
    (hf : ∀ a, Keeps c origin base (y a) (f a) z) : Keeps c origin base x (p >>= f) z where
  lands hat := lands_bind (hp.lands hat) fun a _ _ hat' => (hf a).lands hat'
  toFinishes :=
    have := hp.toFinishes
    .bind fun a => (hf a).toFinishes

theorem balanced (p : Parse α) [hp : Balanced c p] (hbase : base.Under x.nesting) :
    Keeps c origin base x p fun _ => x where
  lands {s} hat := by
    rw [← hat.nesting] at hbase
    refine (hp.lands s).mono hbase fun a t hrun hkept => ?_
    refine ⟨hat.reaches.trans (reaches hrun), hkept.nesting.trans hat.nesting, fun hquiet shown hshown => ?_⟩
    obtain ⟨hleft, hright⟩ := hquiet.split hat.reaches (reaches hrun)
    exact (hkept.newlines hright).trans (hat.newlines hleft shown hshown)

theorem bind_balanced [Balanced c p] (hbase : base.Under x.nesting)
    (hf : ∀ a, Keeps c origin base x (f a) z) : Keeps c origin base x (p >>= f) z :=
  (balanced p hbase).bind hf

theorem pure (a : α) (y : α → Place) (h : y a = x) : Keeps c origin base x (Pure.pure a) y where
  lands hat := .here (h ▸ hat)

theorem of_ok (f : Session → α) (g : Session → Session) (hrun : ∀ s, p.run c s = .ok (f s) (g s))
    (h : ∀ s, IsAt c origin x s → IsAt c origin y (g s)) (hrange : ∀ s : Session, s.InRange → s.ReachesInRange c (g s)) :
    Keeps c origin base x p fun _ => y where
  lands hat := by
    rw [hrun]
    exact ⟨h _ hat, fun hs _ => hrange _ hs⟩
  toFinishes := .of_ok fun s => ⟨_, _, hrun s⟩

/-- An act of the stacks only. -/
theorem of_act (f : Session → α) (g : Session → Session) (hrun : ∀ s, p.run c s = .ok (f s) (g s))
    (hact : ∀ s : Session, s.Act c (g s)) (hrange : ∀ s : Session, s.InRange → (g s).InRange)
    (hstill : ∀ s : Session, (g s).window = s.window ∧ (g s).suspended = s.suspended ∧ (g s).files = s.files)
    (hnesting : ∀ s : Session, s.nesting = x.nesting → (g s).nesting = y.nesting) (hnewlines : y.newlines = x.newlines) :
    Keeps c origin base x p fun _ => y := by
  refine .of_ok f g hrun (fun s hat => ?_) fun s hs => .single hs (hact s) (hrange s hs)
  obtain ⟨hwindow, hsuspended, hfiles⟩ := hstill s
  exact hat.step (.single (hact s)) hwindow hsuspended hfiles (hnesting s hat.nesting) hnewlines

theorem of_markers (f : Session → α) (g : Session → MarkerStack) (hrun : ∀ s, p.run c s = .ok (f s) { s with markers := g s })
    (hmarkers : ∀ s : Session, s.markers.starts = x.nesting.markers → { x.nesting with markers := (g s).starts } = y.nesting)
    (hnewlines : y.newlines = x.newlines) : Keeps c origin base x p fun _ => y := by
  refine .of_act f _ hrun (fun s => .markers s _) (fun _ hs => hs) (fun _ => ⟨rfl, rfl, rfl⟩) (fun s hs => ?_) hnewlines
  rw [nesting_markers, hs]
  exact hmarkers s (congrArg Nesting.markers hs)

theorem mark {f : Unit → Parse β} (hf : ∀ p, Keeps c origin base (x.mark p) (f ()) z) :
    Keeps c origin base x (Parse.mark >>= f) z where
  lands {s} hat := by
    have hmark : IsAt c origin (x.mark s.window.token.span.start)
        { s with markers := s.markers.mark s.window.token.span.start } := by
      refine hat.step (.single (.markers s _)) rfl rfl rfl ?_ rfl
      show s.nesting.mark _ = x.nesting.mark _
      rw [hat.nesting]
    refine .after (fun hs _ => .single hs (.markers s (s.markers.mark s.window.token.span.start)) hs) ?_
    exact (hf _).lands hmark
  toFinishes :=
    have : Finishes c Parse.mark := inferInstanceAs (Finishes c (act _ _))
    .bind fun _ => (hf default).toFinishes

theorem markAgain (p : Position) : Keeps c origin base (x.mark p) Parse.markAgain fun _ => (x.mark p).mark p := by
  refine .of_markers _ (·.markers.reuse) (fun _ => rfl) (fun s hstarts => ?_) rfl
  unfold MarkerStack.reuse
  rw [hstarts]
  rfl

theorem finish (p : Position) : Keeps c origin base (x.mark p) Parse.finish fun _ => x := by
  refine .of_markers _ (fun s => (s.markers.finish s.window.previous.span.stop).2) (fun _ => rfl) (fun s hstarts => ?_) rfl
  unfold MarkerStack.finish
  rw [hstarts]
  rfl

theorem unmark (p : Position) : Keeps c origin base (x.mark p) Parse.unmark fun _ => x := by
  refine .of_markers _ (·.markers.pop.2) (fun _ => rfl) (fun s hstarts => ?_) rfl
  show Nesting.mk s.markers.starts.tail _ _ _ = _
  rw [hstarts]
  rfl

theorem openBlock (isLoop : Bool) : Keeps c origin base x (Parse.openBlock isLoop) fun _ => x.openBlock := by
  refine .of_act _ _ (fun _ => rfl) (.openBlock · isLoop) (fun _ hs => hs.withFlow (hs.flow.pushScope isLoop))
    (fun _ => ⟨rfl, rfl, rfl⟩) (fun s hs => ?_) rfl
  show s.nesting.openBlock = x.nesting.openBlock
  rw [hs]

theorem closeBlock : Keeps c origin base x.openBlock Parse.closeBlock fun _ => x := by
  refine .of_ok _ _ (fun _ => rfl) (fun s hat => ?_) fun s hs => ?_
  · refine hat.step (reaches (p := Parse.closeBlock) rfl) rfl rfl rfl ?_ rfl
    show { s.nesting with flow := s.flow.popScope.2.depth } = _
    have hdepth : s.flow.depth = x.nesting.flow + 1 := congrArg Nesting.flow hat.nesting
    rw [Flow.depth_popScope, hdepth, hat.nesting]
    rfl
  · have hflow := hs.withFlow hs.flow.popScope
    exact (ReachesInRange.single hs (.closeBlock s) hflow).act (.report _ _) hflow

theorem openScope : Keeps c origin base x Parse.openScope fun _ => x.openScope := by
  refine .of_act _ _ (fun _ => rfl) .openScope (fun _ hs => hs) (fun _ => ⟨rfl, rfl, rfl⟩) (fun s hs => ?_) rfl
  show s.nesting.openScope = x.nesting.openScope
  rw [hs]

theorem closeScope : Keeps c origin base x.openScope Parse.closeScope fun _ => x := by
  refine .of_act _ _ (fun _ => rfl) .closeScope (fun _ hs => hs) (fun _ => ⟨rfl, rfl, rfl⟩) (fun s hs => ?_) rfl
  show { s.nesting with scopes := s.scopes.tail.length } = _
  have hlength : s.scopes.length = x.nesting.scopes + 1 := congrArg Nesting.scopes hs
  rw [length_tail, hlength, hs]
  rfl

theorem enterFunction : Keeps c origin base x Parse.enterFunction fun _ => x.enterFunction := by
  refine .of_act _ _ (fun _ => rfl) .enterFunction (fun _ hs => hs.enterFunction) (fun _ => ⟨rfl, rfl, rfl⟩) (fun s hs => ?_) rfl
  show s.nesting.enterFunction = x.nesting.enterFunction
  rw [hs]

theorem leaveFunction : Keeps c origin base x.enterFunction Parse.leaveFunction fun _ => x := by
  have hleave (s : Session) : s.leaveFunction.window = s.window ∧ s.leaveFunction.suspended = s.suspended ∧
      s.leaveFunction.files = s.files := by
    unfold Session.leaveFunction
    split <;> exact ⟨rfl, rfl, rfl⟩
  refine .of_act _ (·.leaveFunction) (fun _ => rfl) .leaveFunction (fun _ hs => hs.leaveFunction) hleave (fun s hs => ?_) rfl
  have houter : s.outerFlows.map Flow.depth = x.nesting.flow :: x.nesting.outerFlows := congrArg Nesting.outerFlows hs
  obtain ⟨outer, rest, hflows, hdepth, hrest⟩ := map_eq_cons_iff.mp houter
  unfold Session.leaveFunction
  rw [hflows]
  show { s.nesting with flow := outer.depth, outerFlows := rest.map Flow.depth } = _
  rw [hdepth, hrest, hs]
  rfl

theorem setNewlines (shown : Bool) : Keeps c origin base x (Parse.setNewlines shown) fun _ => x.withNewlines shown := by
  refine .of_ok _ _ (fun _ => rfl) (fun s hat => ?_) fun s hs => .act (.single hs (.report s _) hs) (.newlines _ shown) hs
  have hreach := reaches (p := Parse.setNewlines shown) (c := c) (s := s) rfl
  refine ⟨hat.reaches.trans hreach, hat.nesting, fun hquiet _ hshown => ?_⟩
  obtain ⟨-, hlast⟩ := hquiet.split hat.reaches hreach
  rw [resume_eq hlast.suspended, ← Option.mem_some_iff.mp hshown]
  exact Window.setNewlines_newlines _ _

/-- A parser that is told how line ends are shown where it starts, and shows them so again at its end. -/
theorem newlines {f : Bool → Parse β} (hy : y.newlines = x.newlines)
    (hf : ∀ outer : Bool, Keeps c origin base (x.withNewlines outer) (f outer) fun _ => y.withNewlines outer) :
    Keeps c origin base x (Parse.newlines >>= f) fun _ => y where
  lands {s} hat := by
    refine lands_look (((hf _).lands hat.withNewlines).mono (.refl _) fun b t hrun hend => ?_)
    refine ⟨hend.reaches, hend.nesting, fun hquiet shown hshown => ?_⟩
    rw [hy] at hshown
    obtain ⟨hleft, -⟩ := hquiet.split hat.reaches (reaches hrun)
    exact (hend.newlines hquiet _ rfl).trans (hat.newlines hleft shown hshown)
  toFinishes := .bind fun outer => (hf outer).toFinishes

theorem forget (h : Keeps c origin base x p fun _ => y) : Keeps c origin base x p fun _ => y.withNewlines none where
  lands hat := (h.lands hat).mono (.refl _) fun _ _ _ hend => ⟨hend.reaches, hend.nesting, fun _ _ hshown => absurd hshown (Option.not_mem_none _)⟩
  toFinishes := h.toFinishes

end Keeps

/-! ### Parsers that open and close -/

/-- Something that a parser opens and closes again. A function is opened with the block of its body. -/
inductive Opened where
  | construct (start : Position)
  | scope
  | block
  | function

/-- What a parser has opened, the first one innermost, and whether line ends are shown, if that has changed. -/
structure Standing where
  opened : List Opened := []
  shown : Option (Option Bool) := none

namespace Standing

def nesting (base : Nesting) : List Opened → Nesting
  | [] => base
  | .construct start :: opened => (nesting base opened).mark start
  | .scope :: opened => (nesting base opened).openScope
  | .block :: opened => (nesting base opened).openBlock
  | .function :: opened => (nesting base opened).enterFunction.openBlock

/-- Where a parser stands that has started at `x`. -/
def place (σ : Standing) (x : Place) : Place := ⟨nesting x.nesting σ.opened, σ.shown.getD x.newlines⟩

theorem under_place (σ : Standing) (x : Place) : x.nesting.Under (σ.place x).nesting := by
  obtain ⟨opened, shown⟩ := σ
  induction opened with
  | nil => exact .refl _
  | cons first opened ih =>
    cases first with
    | construct start => exact ih.mark start
    | scope => exact ih.openScope
    | block => exact ih.openBlock
    | function => exact ih.openFunction

end Standing

/-- The parser goes on from one standing to another. -/
class Steps (c : Settings) (p : Parse α) (σ : Standing) (σ' : semiOutParam Standing) : Prop where
  keeps : ∀ origin (x : Place), Keeps c origin x.nesting (σ.place x) p fun _ => σ'.place x

theorem Balanced.of_steps {p : Parse α} (h : Steps c p {} {}) : Balanced c p := .of_keeps h.keeps

namespace Steps

variable {σ σ' σ'' : Standing} {opened opened' : List Opened} {shown : Option (Option Bool)}

instance (priority := low) (p : Parse α) [Balanced c p] : Steps c p σ σ := ⟨fun _ x => .balanced p (σ.under_place x)⟩

theorem bind {p : Parse α} {f : α → Parse β} [Balanced c p] (hf : ∀ a, Steps c (f a) σ σ') : Steps c (p >>= f) σ σ' :=
  ⟨fun origin x => .bind_balanced (σ.under_place x) fun a => (hf a).keeps origin x⟩

instance (p : Parse α) (f : α → Parse β) [hp : Steps c p σ σ'] [hf : ∀ a, Steps c (f a) σ' σ''] : Steps c (p >>= f) σ σ'' :=
  ⟨fun origin x => (hp.keeps origin x).bind fun a => (hf a).keeps origin x⟩

instance (P : Prop) [Decidable P] (p q : Parse α) [hp : Steps c p σ σ'] [hq : Steps c q σ σ'] :
    Steps c (if P then p else q) σ σ' := by
  split
  · exact hp
  · exact hq

theorem of_fault {p : Parse α} (d : Session → Diagnostic) (hrun : ∀ s, p.run c s = .fault (d s) s) : Steps c p σ {} where
  keeps _ x :=
    have hfault := Balanced.of_fault (c := c) d hrun
    { hfault with
      lands hat := by
        rw [hrun]
        exact ⟨hat.nesting ▸ σ.under_place x, fun hs _ => .refl hs⟩ }

theorem forget {p : Parse α} {b : Option (Option Bool)} (h : Steps c p σ ⟨opened, b⟩) : Steps c p σ ⟨opened, some none⟩ :=
  ⟨fun origin x => (h.keeps origin x).forget⟩

instance (word : String) : Steps c (missingWord word : Parse α) σ {} := .of_fault _ fun _ => rfl

instance (part : String) : Steps c (missing part : Parse α) σ {} := .of_fault _ fun _ => rfl

instance : Steps c (unexpected : Parse α) σ {} := .of_fault _ fun _ => rfl

instance (f : Unit → Parse β) [hf : ∀ start, Steps c (f ()) ⟨.construct start :: opened, shown⟩ σ'] :
    Steps c (mark >>= f) ⟨opened, shown⟩ σ' :=
  ⟨fun origin x => .mark fun start => (hf start).keeps origin x⟩

instance (p : Position) : Steps c markAgain ⟨.construct p :: opened, shown⟩ ⟨.construct p :: .construct p :: opened, shown⟩ :=
  ⟨fun _ x => .markAgain (x := Standing.place ⟨opened, shown⟩ x) p⟩

instance (p : Position) : Steps c finish ⟨.construct p :: opened, shown⟩ ⟨opened, shown⟩ :=
  ⟨fun _ x => .finish (x := Standing.place ⟨opened, shown⟩ x) p⟩

instance (p : Position) : Steps c unmark ⟨.construct p :: opened, shown⟩ ⟨opened, shown⟩ :=
  ⟨fun _ x => .unmark (x := Standing.place ⟨opened, shown⟩ x) p⟩

instance : Steps c openScope ⟨opened, shown⟩ ⟨.scope :: opened, shown⟩ := ⟨fun _ _ => .openScope⟩

instance : Steps c closeScope ⟨.scope :: opened, shown⟩ ⟨opened, shown⟩ :=
  ⟨fun _ x => .closeScope (x := Standing.place ⟨opened, shown⟩ x)⟩

instance (isLoop : Bool) : Steps c (openBlock isLoop) ⟨opened, shown⟩ ⟨.block :: opened, shown⟩ := ⟨fun _ _ => .openBlock isLoop⟩

instance : Steps c closeBlock ⟨.block :: opened, shown⟩ ⟨opened, shown⟩ :=
  ⟨fun _ x => .closeBlock (x := Standing.place ⟨opened, shown⟩ x)⟩

instance (isLoop : Bool) (f : Unit → Parse β) [hf : ∀ a, Steps c (f a) ⟨.function :: opened, shown⟩ σ'] :
    Steps c (enterFunction >>= fun _ => openBlock isLoop >>= f) ⟨opened, shown⟩ σ' :=
  ⟨fun origin x => .bind .enterFunction fun _ => .bind (.openBlock isLoop) fun a => (hf a).keeps origin x⟩

instance (f : Unit → Parse β) [hf : ∀ a, Steps c (f a) ⟨opened, shown⟩ σ'] :
    Steps c (closeBlock >>= fun _ => leaveFunction >>= f) ⟨.function :: opened, shown⟩ σ' :=
  ⟨fun origin x => .bind (.closeBlock (x := (Standing.place ⟨opened, shown⟩ x).enterFunction)) fun _ =>
    .bind .leaveFunction fun a => (hf a).keeps origin x⟩

instance (now : Bool) : Steps c (setNewlines now) ⟨opened, shown⟩ ⟨opened, some now⟩ := ⟨fun _ _ => .setNewlines now⟩

instance (bracket : Terminal) (outer : Bool) : Steps c (closeBracket bracket outer) ⟨opened, shown⟩ ⟨opened, some outer⟩ := by
  unfold closeBracket
  infer_instance

instance (f : Bool → Parse β) [hf : ∀ outer : Bool, Steps c (f outer) ⟨opened, some outer⟩ ⟨opened', some outer⟩] :
    Steps c (newlines >>= f) ⟨opened, none⟩ ⟨opened', none⟩ :=
  ⟨fun origin x => .newlines rfl fun outer => (hf outer).keeps origin x⟩

instance (bracket : Symbol) (f : Bool → Parse β)
    [∀ outer : Bool, Steps c (f outer) ⟨opened, some false⟩ ⟨opened', some outer⟩] :
    Steps c (openBracket bracket >>= f) ⟨opened, none⟩ ⟨opened', none⟩ := by
  unfold openBracket
  simp only [bind_assoc, pure_bind]
  infer_instance

end Steps

theorem Balanced.mark {f : Unit → Parse α} (hf : ∀ start, Steps c (f ()) { opened := [.construct start] } {}) :
    Balanced c (Parse.mark >>= f) :=
  .of_steps inferInstance

instance (f : Unit → Parse α) [hf : ∀ start, Steps c (f ()) { opened := [.construct start] } {}] : Balanced c (mark >>= f) :=
  .mark hf

instance (isLoop : Bool) (f : Unit → Parse α) [∀ a, Steps c (f a) { opened := [.block] } {}] :
    Balanced c (openBlock isLoop >>= f) :=
  .of_steps inferInstance

instance (bracket : Symbol) (f : Bool → Parse α) [∀ outer : Bool, Steps c (f outer) { shown := some false } { shown := some outer }] :
    Balanced c (openBracket bracket >>= f) :=
  .of_steps inferInstance

/-! ### Recovery -/

/-- A line is skipped with line ends shown, and at its end they are shown as before, unless that is in another document. -/
instance (cp : Checkpoint) : Balanced c (recover cp) where
  lands s := by
    refine lands_look ?_
    refine lands_look ?_
    rw [run_ite, run_ite]
    split_ifs
    · exact .here (.refl s)
    · exact .here (.refl s)
    · refine lands_look ?_
      refine lands_look ?_
      refine lands_bind ((Keeps.setNewlines true).lands (.start s)) fun _ t _ hshown => ?_
      refine lands_bind ((Keeps.balanced _ (.refl s.nesting)).lands hshown) fun goesOn u _ hline => ?_
      refine lands_look ?_
      rw [run_ite]
      split
      · refine lands_bind ((Keeps.setNewlines s.window.newlines).lands hline) fun _ v _ hend => ?_
        exact .here ⟨hend.nesting, fun hquiet => hend.newlines hquiet _ rfl⟩
      next hfile =>
        refine .here ⟨hline.nesting, fun hquiet => ?_⟩
        exact absurd (beq_iff_eq.mpr (hline.reaches.file_of_undisturbed hquiet)) hfile

theorem lands_restore (hreach : Reaches c s t) (hunder : s.nesting.Under t.nesting) :
    ((restore s.checkpoint).run c t).Lands c t s.nesting fun _ u => s.Kept c u := by
  have hback : Reaches c t (t.restoreStacks s.checkpoint) := .single (.restore t _)
  have hset := reaches (p := setNewlines s.window.newlines) (c := c) (s := t.restoreStacks s.checkpoint) rfl
  refine .ok ⟨nesting_restore hunder, fun hquiet => ?_⟩ fun ht hopen => ?_
  · obtain ⟨-, hlast⟩ := hquiet.split (hreach.trans hback) hset
    rw [resume_eq hlast.suspended]
    exact Window.setNewlines_newlines _ _
  · have hrange : (t.restoreStacks s.checkpoint).InRange := ht.restoreStacks hopen
    exact .act (.act (.single ht (.restore t _) hrange) (.report _ _) hrange) (.newlines _ _) hrange

instance (statement : Parse (Option Stmt)) [hstatement : Balanced c statement] : Balanced c (blockStep statement) where
  lands s := by
    refine lands_look ?_
    split_ifs
    · exact .here (.refl s)
    · refine lands_look ?_
      refine lands_attempt (hstatement.lands s) (fun found t _ hkept => ?_) fun d t hrun hunder => ?_
      · cases found with
        | none => exact .here hkept
        | some stmt => cases stmt <;> exact .here hkept
      · have hreach := (reaches_of_fault hrun).act (.report t [d])
        refine lands_bind (P := fun _ u => u = t.report [d]) (.ok rfl fun ht _ => .single ht (.report t [d]) ht) ?_
        rintro _ _ - rfl
        refine lands_bind (lands_restore hreach hunder) fun _ u hrestore hback => ?_
        refine lands_bind (Neat.lands_behind (recover s.checkpoint) (hreach.trans (reaches hrestore)) hback) ?_
        exact fun _ _ _ hkept => .here hkept

instance (statement : Parse (Option Stmt)) [Balanced c statement] [Advances c statement] : Balanced c (block statement) :=
  .collect (spends_blockStep statement)

end Parse

end CartLua
