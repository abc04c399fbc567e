import CartLua.Proofs.Balance
import CartLua.Proofs.Mask
/-!
# Comparing two runs

The same grammar is run over two programs that agree as far as a mask shows them. A comparison says which sessions are at
the same point of the two runs, and its laws say what the moves of the windows have to do with that. From the laws alone
every parser of the grammar takes related sessions to related ones and gives values that look the same.

A comparison may be lenient: then the first run is of interest only as long as it meets no error, and where it has come
to its end the second one may go on. The second run stands at a line end, a semicolon or an include line there, and none
of these can be part of what was read so far.
-/

namespace CartLua

open List

/-- Whether the token ends what stands before it, as the end of the text does. -/
def Token.isStop (t : Token) : Bool :=
  match t.kind with
  | .newline | .symbol .semicolon | .directive => true
  | _ => false

theorem Token.isNewline_of_isEof {t : Token} (h : t.isEof = true) : t.isNewline = false := by
  simp [isNewline, kind_of_isEof h]

namespace Session

variable {c : Settings} {s s' t t' u : Session} {m : Mask} {w : Window}

/-! ### The end of a program -/

/-- Nothing is left to read. -/
structure Ended (s : Session) : Prop where
  alone : s.suspended = []
  token : s.window.token.isEof = true
  lookahead : s.window.lookahead.isEof = true
  rest : s.window.cursor.rest = []

theorem resume_alone (h : s.suspended = []) (w : Window) : s.resume w = { s with window := w } := by
  obtain ⟨window, suspended, files, markers, flow, outerFlows, scopes, globals, errors⟩ := s
  cases h
  rfl

theorem resume_open (h : w.token.isEof = false) : s.resume w = { s with window := w } := by
  have hunwind : unwind w s.suspended = (w, s.suspended) := by
    cases s.suspended with
    | nil => rfl
    | cons => rw [unwind, if_neg (by simp [h])]
  unfold resume
  rw [hunwind]

theorem fetch_at_end (h : w.cursor.rest = []) :
    w.fetch.2.lookahead.isEof = true ∧ w.fetch.2.cursor.rest = [] := by
  rw [Window.fetch_eq, Cursor.nextToken_of_done (Cursor.scan_nil h)]
  exact ⟨rfl, h⟩

theorem Act.ended (h : Act c s t) (hs : s.Ended) : t.Ended := by
  obtain ⟨hwindow, hsuspended, -⟩ | rfl | ⟨shown, rfl⟩ | ⟨hkind, rfl⟩ := h.cases_window
  · exact ⟨hsuspended.trans hs.alone, hwindow ▸ hs.token, hwindow ▸ hs.lookahead, hwindow ▸ hs.rest⟩
  · rw [resume_alone hs.alone]
    have hline : s.window.atLineEnd = false := by simp [Window.atLineEnd, hs.token]
    obtain ⟨hlookahead, hrest⟩ :=
      fetch_at_end (w := { s.window with previous := s.window.token, token := s.window.lookahead }) hs.rest
    have hnext : s.window.next = Window.fetch { s.window with previous := s.window.token, token := s.window.lookahead } := by
      rw [Window.next, if_neg (by simp [hline])]
    refine ⟨hs.alone, ?_, ?_, ?_⟩ <;> dsimp only <;> rw [hnext]
    · rw [Window.fetch_token]
      exact hs.lookahead
    · exact hlookahead
    · exact hrest
  · rw [resume_alone hs.alone]
    obtain hset | ⟨-, -, hset⟩ := s.window.setNewlines_cases shown
    · rw [hset]
      exact ⟨hs.alone, hs.token, hs.lookahead, hs.rest⟩
    · obtain ⟨hlookahead, hrest⟩ :=
        fetch_at_end (w := { s.window with newlines := shown, token := s.window.lookahead }) hs.rest
      rw [hset]
      exact ⟨hs.alone, by rw [Window.fetch_token]; exact hs.lookahead, hlookahead, hrest⟩
  · have heof := hs.token
    rw [isEof_of_directive hkind] at heof
    cases heof

theorem Ended.of_reaches (h : Reaches c s t) (hs : s.Ended) : t.Ended :=
  h.keeps Act.ended hs

/-! ### Changes beside the documents -/

/-- The documents stay as they are, and no fault of an include line is added. -/
structure Still (s t : Session) : Prop where
  window : t.window = s.window
  suspended : t.suspended = s.suspended
  files : t.files = s.files
  errors : ∃ ds, t.errors.toList = s.errors.toList ++ ds ∧ ∀ d ∈ ds, d.fault.isInclude = false

namespace Still

theorem of_eq (hwindow : t.window = s.window) (hsuspended : t.suspended = s.suspended) (hfiles : t.files = s.files)
    (herrors : t.errors = s.errors) : s.Still t :=
  ⟨hwindow, hsuspended, hfiles, [], by simp [herrors], nofun⟩

theorem refl (s : Session) : s.Still s := of_eq rfl rfl rfl rfl

theorem trans (hst : s.Still t) (htu : t.Still u) : s.Still u := by
  obtain ⟨ds, hds, hsound⟩ := hst.errors
  obtain ⟨es, hes, hsound'⟩ := htu.errors
  refine ⟨htu.window.trans hst.window, htu.suspended.trans hst.suspended, htu.files.trans hst.files, ds ++ es, ?_, ?_⟩
  · rw [hes, hds, append_assoc]
  · intro d hd
    exact (mem_append.mp hd).elim (hsound d) (hsound' d)

theorem report (s : Session) {ds : List Diagnostic} (h : ∀ d ∈ ds, d.fault.isInclude = false) :
    s.Still (s.report ds) :=
  ⟨rfl, rfl, rfl, ds, by simp [Session.report], h⟩

theorem addName (s : Session) (name : String) : s.Still (s.addName name) := by
  unfold Session.addName
  split
  · exact refl s
  · exact of_eq rfl rfl rfl rfl

theorem addGlobal (s : Session) (name : String) : s.Still (s.addGlobal name) := by
  unfold Session.addGlobal
  split
  · exact refl s
  · exact of_eq rfl rfl rfl rfl

theorem leaveFunction (s : Session) : s.Still s.leaveFunction := by
  unfold Session.leaveFunction
  split
  · exact refl s
  · exact of_eq rfl rfl rfl rfl

end Still

/-! ### Documents -/

theorem openFiles_congr (hfile : s.window.file = s'.window.file)
    (hsuspended : s.suspended.map (·.window.file) = s'.suspended.map (·.window.file)) (hfiles : s.files = s'.files) :
    s.openFiles = s'.openFiles := by
  have hopen : ∀ s : Session, s.openFiles = (s.window.file :: s.suspended.map (·.window.file)).filterMap (s.files[·]?) := by
    intro s
    have hmap : s.window.file :: s.suspended.map (·.window.file) = s.windows.map Window.file := by
      rw [windows, map_cons, map_map]
      rfl
    rw [hmap, filterMap_map]
    rfl
  rw [hopen, hopen, hfile, hsuspended, hfiles]

/-! ### Stacks that look the same -/

/-- The stacks and names of two sessions look the same behind a mask, and so do the errors where they are counted. -/
structure Alike (m : Mask) (counted : Prop) (s s' : Session) : Prop where
  markers : s.markers.starts.map m.position = s'.markers.starts.map m.position
  flow : m.flow s.flow = m.flow s'.flow
  outerFlows : s.outerFlows.map m.flow = s'.outerFlows.map m.flow
  scopes : s.scopes = s'.scopes
  globals : s.globals = s'.globals
  reported : counted → s.errors.toList.map m.diagnostic = s'.errors.toList.map m.diagnostic

namespace Alike

variable {counted : Prop}

theorem errors (h : Alike m (¬False) s s') : s.errors.toList.map m.diagnostic = s'.errors.toList.map m.diagnostic :=
  h.reported id

variable (h : Alike m counted s s')

include h

theorem visible : s.visible = s'.visible := by
  unfold Session.visible
  rw [h.scopes]

theorem withMarkers {a b : MarkerStack} (hab : a.starts.map m.position = b.starts.map m.position) :
    Alike m counted { s with markers := a } { s' with markers := b } :=
  { h with markers := hab }

theorem withFlow {f g : Flow} (hfg : m.flow f = m.flow g) :
    Alike m counted { s with flow := f } { s' with flow := g } :=
  { h with flow := hfg }

theorem withScopes {a b : List (List String)} (hab : a = b) :
    Alike m counted { s with scopes := a } { s' with scopes := b } :=
  { h with scopes := hab }

theorem report {ds es : List Diagnostic}
    (hds : counted → ds.map m.diagnostic = es.map m.diagnostic) :
    Alike m counted (s.report ds) (s'.report es) :=
  { h with reported := fun hcounted => by simp [Session.report, h.reported hcounted, hds hcounted] }

theorem still_window (w w' : Window) (ws ws' : List Suspended) :
    Alike m counted { s with window := w, suspended := ws } { s' with window := w', suspended := ws' } :=
  ⟨h.markers, h.flow, h.outerFlows, h.scopes, h.globals, h.reported⟩

theorem addName (name : String) : Alike m counted (s.addName name) (s'.addName name) := by
  have hscopes := h.scopes
  unfold Session.addName
  rw [← hscopes]
  cases s.scopes with
  | nil => exact h
  | cons => exact h.withScopes rfl

theorem addGlobal (name : String) : Alike m counted (s.addGlobal name) (s'.addGlobal name) := by
  unfold Session.addGlobal
  rw [← h.visible, ← h.globals]
  split
  · exact h
  · exact ⟨h.markers, h.flow, h.outerFlows, h.scopes, rfl, h.reported⟩

theorem leaveFunction : Alike m counted s.leaveFunction s'.leaveFunction := by
  have houter := h.outerFlows
  unfold Session.leaveFunction
  cases hs : s.outerFlows with
  | nil =>
    rw [hs, map_nil, eq_comm, map_eq_nil_iff] at houter
    rw [houter]
    exact h
  | cons =>
    cases hs' : s'.outerFlows with
    | nil =>
      rw [hs, hs'] at houter
      cases houter
    | cons =>
      rw [hs, hs', map_cons, map_cons] at houter
      obtain ⟨hflow, hrest⟩ := cons.inj houter
      exact ⟨h.markers, hflow, hrest, h.scopes, h.globals, h.reported⟩

omit h in
theorem flowsAt (height : Nat) {f g : Flow} {fs gs : List Flow} (hflow : m.flow f = m.flow g)
    (houter : fs.map m.flow = gs.map m.flow) :
    m.flow (flowsAt height f fs).1 = m.flow (flowsAt height g gs).1 ∧
      (Session.flowsAt height f fs).2.map m.flow = (Session.flowsAt height g gs).2.map m.flow := by
  induction fs generalizing f g gs with
  | nil =>
    rw [map_nil, eq_comm, map_eq_nil_iff] at houter
    rw [houter]
    exact ⟨hflow, rfl⟩
  | cons outer rest ih =>
    cases gs with
    | nil => cases houter
    | cons =>
      have hlength := congrArg length houter
      rw [length_map, length_map] at hlength
      unfold Session.flowsAt
      rw [hlength]
      obtain ⟨hhead, hrest⟩ := cons.inj houter
      split
      · exact ih hhead hrest
      · exact ⟨hflow, houter⟩

theorem checkpoint : s.checkpoint.markers = s'.checkpoint.markers ∧
    s.checkpoint.scopes = s'.checkpoint.scopes ∧ s.checkpoint.outerFlows = s'.checkpoint.outerFlows ∧
    s.checkpoint.flowDepth = s'.checkpoint.flowDepth := by
  have hmarkers := congrArg length h.markers
  have houter := congrArg length h.outerFlows
  have hflow := congrArg Flow.depth h.flow
  simp only [length_map, Mask.depth_flow] at hmarkers houter hflow
  exact ⟨hmarkers, congrArg length h.scopes, houter, hflow⟩

theorem restoreStacks (hst : Alike m counted t t') :
    Alike m counted (t.restoreStacks s.checkpoint) (t'.restoreStacks s'.checkpoint) := by
  obtain ⟨hmarkers, hscopes, houter, hflow⟩ := h.checkpoint
  obtain ⟨hat, hbelow⟩ := flowsAt s.checkpoint.outerFlows hst.flow hst.outerFlows
  have hlength : t.markers.starts.length = t'.markers.starts.length := by
    simpa using congrArg length hst.markers
  rw [houter] at hat hbelow
  refine ⟨?_, ?_, ?_, ?_, hst.globals, hst.reported⟩
  · simp only [Session.restoreStacks, MarkerStack.truncate, map_drop, hst.markers, hlength, hmarkers]
  · simp only [Session.restoreStacks, Mask.flow_truncate, hat, houter, hflow]
  · simp only [Session.restoreStacks, hbelow, houter]
  · simp only [Session.restoreStacks, hst.scopes, hscopes]

end Alike

end Session

/-! ### Comparisons -/

/-- How two runs are compared. -/
structure Comparison where
  mask : Mask
  first : Settings
  second : Settings
  /-- Whether the first run counts only as long as it meets no error. -/
  lenient : Prop
  /-- Whether stacks, names and errors are compared too. -/
  tracked : Prop
  /-- Whether a line may end unseen at the end of the first program. -/
  lineless : Prop
  /-- Whether more than a semicolon on a line of its own can follow at the end of the first program. -/
  followed : Prop
  /-- Whether a fault may be met where a semicolon at the end of the first program is passed. -/
  faulty : Prop
  /-- Whether a fault may be met in the second program right behind the end of the first one. -/
  broken : Prop
  /-- The windows of the two runs are at the same point. -/
  Abreast : Session → Session → Prop

namespace Comparison

open Session

variable {α β γ δ : Type}

def Meets (k : Comparison) (t t' : Token) : Prop :=
  k.mask.token t = k.mask.token t' ∨ (k.lenient ∧ t.isEof = true ∧ t'.isStop = true)

/-- The two diagnostics look the same and do not come from include lines. -/
structure Blames (k : Comparison) (d e : Diagnostic) : Prop where
  alike : k.mask.diagnostic d = k.mask.diagnostic e
  first : d.fault.isInclude = false
  second : e.fault.isInclude = false

/-- The first run has met an error and counts no longer. -/
def Lost (k : Comparison) (s : Session) : Prop := k.lenient ∧ s.errors.toList ≠ []

/-- The first run has come to the end of its program, where the second one may go on. -/
def Over (k : Comparison) (s : Session) : Prop := k.lenient ∧ s.Ended

/-- The two sessions are at the same point of the two runs. -/
structure Related (k : Comparison) (s s' : Session) : Prop where
  abreast : k.Abreast s s'
  alike : k.tracked → Alike k.mask (¬k.lenient) s s'

/-- What the moves of the windows do in the two runs: both meet a fault or none does, and they stay at the same point. In
a lenient comparison the first one may also meet a fault of its own. -/
def Moves (k : Comparison) (r r' : Option Diagnostic) (t t' : Session) : Prop :=
  (k.lenient ∧ r ≠ none) ∨ (Option.Rel k.Blames r r' ∧ k.Abreast t t')

/-- The laws of a comparison: what it has to say about the windows. -/
class Lawful (k : Comparison) : Prop where
  shown : k.mask.locals = true ∨ k.mask.places = true → k.tracked
  broken : k.broken → k.lineless
  followed : k.followed → k.faulty
  places : k.mask.places = true → ¬k.lenient
  still {s s' t t' : Session} : k.Abreast s s' → s.Still t → Reaches k.first s t → s'.Still t' → Reaches k.second s' t' →
    k.Abreast t t'
  token {s s' : Session} : k.Abreast s s' →
    k.mask.token s.window.token = k.mask.token s'.window.token ∨ (k.Over s ∧ s'.window.token.isStop = true)
  /-- Of the token passed last it matters where it stops and whether it is a closing parenthesis. -/
  previous {s s' : Session} : k.Abreast s s' →
    s.window.previous.isSymbol .rightParen = s'.window.previous.isSymbol .rightParen ∧
      k.mask.position s.window.previous.span.stop = k.mask.position s'.window.previous.span.stop
  lookahead {s s' : Session} : k.Abreast s s' →
    s.window.lookahead.isSymbol .assign = s'.window.lookahead.isSymbol .assign ∨ k.Over s
  near {s s' : Session} : ¬k.lenient → k.Abreast s s' → s.window.lookahead.text = s'.window.lookahead.text
  newlines {s s' : Session} : k.Abreast s s' → s.window.newlines = s'.window.newlines ∨ (k.Over s ∧ k.lineless)
  /-- A token is passed in both runs. If it is a line end, the first program may be over behind it. Where the second
  program is broken its run may fail there. -/
  advance {s s' : Session} : k.Abreast s s' → s.window.token.isEof = false →
    (k.lenient → s.window.token.isDirective = false) →
    k.Moves s.window.next.1 s'.window.next.1 (s.resume s.window.next.2) (s'.resume s'.window.next.2) ∨
      (s.window.token.isNewline = true ∧ k.Over (s.resume s.window.next.2)) ∨
      (k.broken ∧ k.Over (s.resume s.window.next.2) ∧ s'.window.next.1 ≠ none)
  /-- The windows change their modes. Where the second program is broken a fault may be reported in it. -/
  setNewlines {s s' : Session} (shown : Bool) : k.Abreast s s' →
    ¬k.Over s ∨ (¬k.lineless ∧ (shown = true ∧ s.window.newlines = true ∨ shown = false ∧ k.followed)) →
    k.Moves (s.window.setNewlines shown).1 (s'.window.setNewlines shown).1
        (s.resume (s.window.setNewlines shown).2) (s'.resume (s'.window.setNewlines shown).2) ∨
      (k.lenient ∧ k.broken ∧ (s.window.setNewlines shown).1 = none ∧
        k.Abreast (s.resume (s.window.setNewlines shown).2) (s'.resume (s'.window.setNewlines shown).2))
  passInclude {s s' : Session} : k.Related s s' → s.window.token.kind = .directive →
    k.Lost (s.passInclude k.first) ∨ k.Related (s.passInclude k.first) (s'.passInclude k.second)
  /-- Where lines are seen to end, no other document is read. -/
  undisturbed {s s' t : Session} : ¬k.lineless → k.Abreast s s' → Reaches k.first s t → Undisturbed k.first s t
  /-- Where the first run shows line ends at its end, the second one shows that a line ends, or it passes the semicolon
  that follows and shows it then. -/
  lineEnd {s s' : Session} : ¬k.lineless → k.Abreast s s' → k.Over s → s.window.newlines = true →
    s'.window.token.isNewline = true ∨
      (¬k.followed ∧ s'.window.token.kind = .symbol .semicolon ∧ s'.window.next.1 = none ∧
        (s'.resume s'.window.next.2).window.token.isNewline = true)
  /-- Line ends can be shown from the end of the first program on, where nothing else follows. -/
  showLines {s s' : Session} : ¬k.followed → k.Abreast s s' → k.Over s →
    k.Abreast (s.resume (s.window.setNewlines true).2) (s'.resume (s'.window.setNewlines true).2)
  /-- A semicolon at the end of the first program can be passed. -/
  semicolon {s s' : Session} : ¬k.faulty → k.Abreast s s' → k.Over s → s'.window.token.kind = .symbol .semicolon →
    s'.window.next.1 = none
  /-- A statement that is given up is left at the same place. -/
  leaves {s s' t t' : Session} : ¬k.lenient → k.Abreast s s' → s.window.token.isSolid = true → Reaches k.first s t →
    Reaches k.second s' t' → k.Abreast t t' → t.window.token.closesBlock = false →
    ((t.window.token.span.start != s.window.token.span.start &&
        (t.window.previous.span.stop.line < t.window.token.span.start.line ||
          t.window.previous.span.stop.file != t.window.token.span.file)) =
      (t'.window.token.span.start != s'.window.token.span.start &&
        (t'.window.previous.span.stop.line < t'.window.token.span.start.line ||
          t'.window.previous.span.stop.file != t'.window.token.span.file)))
  files {s s' : Session} : ¬k.lenient → k.Abreast s s' →
    s.window.token.span.file = s'.window.token.span.file ∧ s.window.file = s'.window.file

/-! ### Tokens that play the same part -/

namespace Meets

variable {k : Comparison} {t t' : Token}

variable (h : k.Meets t t')

include h

theorem congr {f : TokenKind → γ} {nothing : γ} (hmask : ∀ kind, f (k.mask.kind kind) = f kind)
    (heof : f .eof = nothing) (hnewline : f .newline = nothing) (hsemicolon : f (.symbol .semicolon) = nothing)
    (hdirective : f .directive = nothing) : f t.kind = f t'.kind := by
  obtain h | ⟨-, hend, hstop⟩ := h
  · rw [← hmask t.kind, ← hmask t'.kind]
    exact congrArg (fun t : Token => f t.kind) h
  · have hkind : t.kind = .eof := by
      unfold Token.isEof at hend
      split at hend <;> simp_all
    rw [hkind, heof]
    unfold Token.isStop at hstop
    split at hstop <;> simp_all

theorem isSymbol {sign : Symbol} (hsign : sign ≠ .semicolon) : t.isSymbol sign = t'.isSymbol sign := by
  refine h.congr (f := fun kind => (⟨kind, "", default⟩ : Token).isSymbol sign) (fun kind => ?_) rfl rfl ?_ rfl
  · cases kind <;> rfl
  · simpa [Token.isSymbol] using hsign.symm

theorem isKeyword (word : Keyword) : t.isKeyword word = t'.isKeyword word :=
  h.congr (f := fun kind => (⟨kind, "", default⟩ : Token).isKeyword word) (fun kind => by cases kind <;> rfl) rfl rfl rfl rfl

theorem is {terminal : Terminal} (hterminal : terminal ≠ .symbol .semicolon) :
    t.is terminal = t'.is terminal := by
  cases terminal with
  | symbol => exact h.isSymbol fun hsign => hterminal (congrArg _ hsign)
  | keyword word => exact h.isKeyword word

theorem isIdentifier : t.isIdentifier = t'.isIdentifier :=
  h.congr (f := fun kind => (⟨kind, "", default⟩ : Token).isIdentifier) (fun kind => by cases kind <;> rfl) rfl rfl rfl rfl

theorem unaryOp : UnaryOp.ofToken? t = UnaryOp.ofToken? t' :=
  h.congr (f := fun kind => UnaryOp.ofToken? ⟨kind, "", default⟩) (fun kind => by cases kind <;> rfl) rfl rfl rfl rfl

theorem dyadicOp : DyadicOp.ofToken? t = DyadicOp.ofToken? t' :=
  h.congr (f := fun kind => DyadicOp.ofToken? ⟨kind, "", default⟩) (fun kind => by cases kind <;> rfl) rfl rfl rfl rfl

theorem assignOp : AssignOp.ofToken? t = AssignOp.ofToken? t' :=
  h.congr (f := fun kind => AssignOp.ofToken? ⟨kind, "", default⟩) (fun kind => by cases kind <;> rfl) rfl rfl rfl rfl

theorem startsSuffix : Grammar.startsSuffix t = Grammar.startsSuffix t' :=
  h.congr (f := fun kind => Grammar.startsSuffix ⟨kind, "", default⟩) (fun kind => by cases kind <;> rfl) rfl rfl rfl rfl

theorem ending : Grammar.Ending.ofSuffix? t = Grammar.Ending.ofSuffix? t' :=
  h.congr (f := fun kind => Grammar.Ending.ofSuffix? ⟨kind, "", default⟩) (fun kind => by cases kind <;> rfl) rfl rfl rfl rfl

theorem isString : (∃ v, t.kind = .string v) ↔ ∃ v, t'.kind = .string v := by
  have hstop : ∀ kind : TokenKind, (∀ v, kind ≠ .string v) → (∃ v, kind = .string v) = False :=
    fun kind hne => eq_false fun ⟨v, hv⟩ => hne v hv
  refine iff_of_eq (h.congr (f := fun kind => ∃ v, kind = .string v) (fun kind => ?_) (hstop _ nofun) (hstop _ nofun)
    (hstop _ nofun) (hstop _ nofun))
  cases kind <;> simp [Mask.kind]

theorem literal? :
    (Grammar.literal? t).map k.mask.expression = (Grammar.literal? t').map k.mask.expression := by
  obtain h | ⟨-, hend, hstop⟩ := h
  · have hmask : ∀ t, (Grammar.literal? t).map k.mask.expression = Grammar.literal? (k.mask.token t) := by
      rintro ⟨kind, text, span⟩
      cases kind <;> simp only [Grammar.literal?, Option.map_none, Option.map_some, Mask.token, Mask.kind, Mask.expression]
    rw [hmask, hmask, h]
  · unfold Token.isEof at hend
    unfold Token.isStop at hstop
    unfold Grammar.literal?
    split at hend <;> split at hstop <;> simp_all

theorem akin (ht : t.isEof = false) : k.mask.token t = k.mask.token t' := by
  obtain h | ⟨-, hend, -⟩ := h
  · exact h
  · rw [ht] at hend
    cases hend

end Meets

end Comparison

end CartLua
