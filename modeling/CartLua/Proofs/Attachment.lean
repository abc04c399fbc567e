import CartLua.Proofs.GrammarSimulation
import CartLua.Proofs.Paths
/-!
# Include lines that fail

At every point of a parse the open documents have different normal paths, and only the root can be at its end. A fault of
an include line is reported at an include line of the root: at the line itself, or at the one that has led to the document
it stands in. Every fault of this kind among the errors of a program comes from a line that was passed and failed.
-/

namespace CartLua

open List Window

namespace Cursor

theorem readable_nextToken (mode : Encoding) (c : Cursor) :
    ((c.nextToken mode).1.isDirective = false ∧ (c.nextToken mode).2.readable mode = []) ∨
      c.readable mode = (c.nextToken mode).1 :: (c.nextToken mode).2.readable mode := by
  induction c using Cursor.scan_induction mode with
  | done c eof next hscan =>
    obtain ⟨hnil, rfl, -⟩ := scan_done hscan
    rw [nextToken_of_done hscan]
    exact .inl ⟨rfl, readable_of_done (scan_nil hnil)⟩
  | token c t next hscan _ =>
    rw [nextToken_of_token hscan, readable_of_token hscan]
    exact .inr rfl
  | fault c d next hscan ih =>
    rw [nextToken_of_fault hscan, readable_of_fault hscan]
    exact ih

end Cursor

namespace Window

variable {w : Window} {lines : List Token}

/-- The include lines that the window shows or has still to show are among `lines`. -/
structure Draws (lines : List Token) (w : Window) : Prop where
  token : w.token.isDirective = true → w.token ∈ lines
  lookahead : w.lookahead.isDirective = true → w.lookahead ∈ lines
  coming : ∀ t ∈ w.cursor.readable w.encoding, t ∈ lines

theorem Draws.fetch (htoken : w.token.isDirective = true → w.token ∈ lines)
    (hcoming : ∀ t ∈ w.cursor.readable w.encoding, t ∈ lines) : w.fetch.2.Draws lines := by
  rw [fetch_eq]
  obtain ⟨hkind, hnil⟩ | hcons := w.cursor.readable_nextToken w.encoding
  · refine ⟨htoken, fun h => ?_, ?_⟩
    · rw [hkind] at h
      cases h
    · dsimp only
      rw [hnil]
      exact nofun
  · rw [hcons] at hcoming
    exact ⟨htoken, fun _ => hcoming _ (mem_cons_self ..), fun t ht => hcoming t (mem_cons_of_mem _ ht)⟩

theorem Draws.next (h : w.Draws lines) : w.next.2.Draws lines := by
  unfold Window.next
  split
  · exact ⟨nofun, h.lookahead, h.coming⟩
  · exact Draws.fetch h.lookahead h.coming

theorem Draws.setNewlines (h : w.Draws lines) (shown : Bool) : (w.setNewlines shown).2.Draws lines := by
  obtain hset | ⟨-, -, hset⟩ := w.setNewlines_cases shown
  · rw [hset]
    exact ⟨h.token, h.lookahead, h.coming⟩
  · rw [hset]
    exact Draws.fetch h.lookahead h.coming

theorem Draws.start (mode : Encoding) (text : String) (file : FileId) :
    (ofText mode text file).start.2.Draws ((Cartridge.code text.toList file).readable mode) :=
  Draws.next (Draws.fetch nofun fun _ => id)

end Window

namespace Session

variable {c : Settings} {s s' t u origin : Session} {lines : List Token} {name : String} {w : Window}

/-! ### Where include lines come from -/

/-- The root document shows include lines among `lines` only, the line that waits in it is one of them, and all documents
have normal paths. -/
structure Attached (lines : List Token) (name : String) (s : Session) : Prop where
  root : ∀ w, s.windows.getLast? = some w → w.Draws lines
  waiting : ∀ below, s.suspended.getLast? = some below → ∃ line ∈ lines, line.isDirective = true ∧ below.span = line.span
  named : s.files[0]? = some name
  normal : ∀ path ∈ s.files, Path.normalize path = path

theorem unwind_root {below : List Suspended} (h : ∀ v, (w :: below.map (·.window)).getLast? = some v → v.Draws lines) :
    ∀ v, ((unwind w below).1 :: (unwind w below).2.map (·.window)).getLast? = some v → v.Draws lines := by
  induction below generalizing w with
  | nil => exact h
  | cons b rest ih =>
    unfold unwind
    split
    · refine ih fun v hv => ?_
      cases rest with
      | nil =>
        cases hv
        obtain ⟨htoken, hlookahead, hcoming⟩ := h b.window rfl
        exact ⟨htoken, hlookahead, hcoming⟩
      | cons =>
        refine h v ?_
        rwa [map_cons, getLast?_cons_cons] at hv ⊢
    · exact h

theorem Attached.resume {w : Window} (hs : s.Attached lines name)
    (h : ∀ v, (w :: s.suspended.map (·.window)).getLast? = some v → v.Draws lines) : (s.resume w).Attached lines name := by
  refine ⟨unwind_root h, fun below hbelow => hs.waiting below ?_, hs.named, hs.normal⟩
  obtain ⟨front, hfront⟩ := unwind_suffix w s.suspended
  have hlast : (unwind w s.suspended).2.getLast? = some below := hbelow
  rw [← hfront, getLast?_append, hlast]
  rfl

theorem Attached.replace (hs : s.Attached lines name) (hw : s.window.Draws lines → w.Draws lines) :
    ∀ v, (w :: s.suspended.map (·.window)).getLast? = some v → v.Draws lines := by
  intro v hv
  cases hsuspended : s.suspended with
  | nil =>
    rw [hsuspended] at hv
    cases hv
    exact hw (hs.root s.window (by rw [windows, hsuspended]; rfl))
  | cons =>
    refine hs.root v ?_
    rw [hsuspended] at hv
    rw [windows, hsuspended]
    rwa [map_cons, getLast?_cons_cons] at hv ⊢

theorem openInclude_files (c : Settings) (s : Session) (target : String) (span : Span) :
    (openInclude c s target span).files = s.files ∨
      (openInclude c s target span).files = s.files.push (Path.resolve s.currentFile target) := by
  unfold openInclude
  dsimp only
  split
  · exact .inl rfl
  · split
    · exact .inr rfl
    · exact .inr rfl

theorem Attached.openInclude (hs : s.Attached lines name) {line : Token} (hkind : line.isDirective = true)
    (hline : s.suspended = [] → line ∈ lines) : (openInclude c s line.text line.span).Attached lines name := by
  have hfiles := openInclude_files c s line.text line.span
  have hnamed : (Session.openInclude c s line.text line.span).files[0]? = some name := by
    obtain hfiles | hfiles := hfiles
    · rw [hfiles]
      exact hs.named
    · obtain ⟨hsize, -⟩ := Array.getElem?_eq_some_iff.mp hs.named
      rw [hfiles, Array.getElem?_push_lt hsize, ← Array.getElem?_eq_getElem hsize]
      exact hs.named
  have hnormal : ∀ path ∈ (Session.openInclude c s line.text line.span).files, Path.normalize path = path := by
    intro path hpath
    obtain hfiles | hfiles := hfiles
    · exact hs.normal path (hfiles ▸ hpath)
    · rw [hfiles] at hpath
      obtain hpath | rfl := Array.mem_push.mp hpath
      · exact hs.normal path hpath
      · exact Path.normalize_resolve ..
  obtain ⟨hwindow, hsuspended, -⟩ | ⟨path, contents, -, -, hwindow, hsuspended, -⟩ :=
    openInclude_cases c s line.text line.span
  · refine ⟨?_, ?_, hnamed, hnormal⟩
    · rw [windows, hwindow, hsuspended]
      exact hs.root
    · rw [hsuspended]
      exact hs.waiting
  · refine ⟨?_, ?_, hnamed, hnormal⟩
    · rw [windows, hwindow, hsuspended]
      exact hs.root
    · rw [hsuspended]
      intro below hbelow
      cases hempty : s.suspended with
      | nil =>
        rw [hempty] at hbelow
        cases hbelow
        exact ⟨line, hline hempty, hkind, rfl⟩
      | cons =>
        rw [hempty, getLast?_cons_cons, ← hempty] at hbelow
        exact hs.waiting below hbelow

theorem isDirective_of_kind {line : Token} (h : line.kind = .directive) : line.isDirective = true := by
  rw [Token.isDirective, h]

theorem Attached.mem_lines (hs : s.Attached lines name) (hkind : s.window.token.kind = .directive)
    (hroot : s.suspended = []) : s.window.token ∈ lines :=
  (hs.root s.window (by rw [windows, hroot]; rfl)).token (isDirective_of_kind hkind)

theorem Act.attached (h : Act c s t) (hs : s.Attached lines name) : t.Attached lines name := by
  obtain ⟨hwindow, hsuspended, hfiles⟩ | rfl | ⟨shown, rfl⟩ | ⟨hkind, rfl⟩ := h.cases_window
  · refine ⟨?_, ?_, hfiles ▸ hs.named, hfiles ▸ hs.normal⟩
    · rw [windows, hwindow, hsuspended]
      exact hs.root
    · rw [hsuspended]
      exact hs.waiting
  · exact hs.resume (hs.replace Window.Draws.next)
  · exact hs.resume (hs.replace fun h => h.setNewlines shown)
  · have hbehind : s.behindLine.Attached lines name := ⟨hs.replace Window.Draws.next, hs.waiting, hs.named, hs.normal⟩
    have hopened := hbehind.openInclude (c := c) (isDirective_of_kind hkind) (hs.mem_lines hkind)
    exact hopened.resume hopened.root

theorem Reaches.attached (h : Reaches c s t) (hs : s.Attached lines name) : t.Attached lines name :=
  h.keeps Act.attached hs

/-! ### Faults of include lines -/

/-- What the include line that is the current token brings in, or why it fails. -/
def included (c : Settings) (s : Session) : Except Fault String :=
  let path := Path.resolve s.currentFile s.window.token.text
  if s.openFiles.contains path then .error .circularInclude else c.store.openInclude path s.window.token.text

theorem isInclude_of_included {fault : Fault} (h : s.included c = .error fault) : fault.isInclude = true := by
  unfold included Store.openInclude at h
  dsimp only at h
  split at h
  · cases h
    rfl
  · split at h
    · cases h
      rfl
    · split at h
      · cases h
        rfl
      · cases h
        rfl
      · cases h

theorem openFiles_behindLine (s : Session) : s.behindLine.openFiles = s.openFiles := by
  have hwindows : s.behindLine.windows.map file = s.windows.map file := by
    show s.window.next.2.file :: _ = s.window.file :: _
    rw [next_file]
    rfl
  have hfiles : ∀ u : Session, u.openFiles = (u.windows.map file).filterMap (u.files[·]?) := by
    intro u
    rw [filterMap_map]
    rfl
  rw [hfiles, hfiles, hwindows]
  rfl

theorem currentFile_behindLine (s : Session) : s.behindLine.currentFile = s.currentFile := by
  show (s.files[s.window.next.2.file]?).getD "" = _
  rw [next_file]
  rfl

theorem errors_passInclude (c : Settings) (s : Session) :
    (s.passInclude c).errors.toList = s.errors.toList ++ s.window.next.1.toList ++
      match s.included c with
      | .error fault => [s.includeDiagnostic fault s.window.token.span]
      | .ok contents => (ofText c.encoding contents s.files.size).start.1.toList := by
  have hdiagnostic : ∀ fault, s.behindLine.includeDiagnostic fault s.window.token.span =
      s.includeDiagnostic fault s.window.token.span := by
    intro fault
    unfold includeDiagnostic
    rw [openFiles_behindLine]
    rfl
  show (Session.openInclude c s.behindLine s.window.token.text s.window.token.span).errors.toList = _
  unfold Session.openInclude
  rw [openFiles_behindLine, currentFile_behindLine]
  dsimp only
  cases hopened : s.included c with
  | error =>
    unfold included at hopened
    rw [hopened]
    dsimp only
    rw [hdiagnostic]
    simp [report, behindLine]
  | ok =>
    unfold included at hopened
    rw [hopened]
    dsimp only
    split <;> simp [report, behindLine]

/-- Every fault of an include line among the errors comes from a line that was passed on the way. -/
structure Accounted (c : Settings) (s origin : Session) : Prop where
  reached : Reaches c origin s
  errors : ∀ d ∈ s.errors.toList, d.fault.isInclude = true → ∃ t, Reaches c origin t ∧ t.window.token.kind = .directive ∧
    t.included c = .error d.fault ∧ d = t.includeDiagnostic d.fault t.window.token.span ∧ Reaches c (t.passInclude c) s

theorem Accounted.of_errors (h : s.Accounted c origin) (hreach : Reaches c s t)
    (herrors : ∀ d ∈ t.errors.toList, d.fault.isInclude = true → d ∈ s.errors.toList) : t.Accounted c origin := by
  refine ⟨h.reached.trans hreach, fun d hd hfault => ?_⟩
  obtain ⟨u, hu, hkind, hincluded, hdiagnostic, hbehind⟩ := h.errors d (herrors d hd hfault) hfault
  exact ⟨u, hu, hkind, hincluded, hdiagnostic, hbehind.trans hreach⟩

theorem Accounted.still (h : s.Accounted c origin) (hreach : Reaches c s t) (hst : s.Still t) : t.Accounted c origin := by
  obtain ⟨ds, hds, hsound⟩ := hst.errors
  refine h.of_errors hreach fun d hd hfault => ?_
  rw [hds] at hd
  refine (mem_append.mp hd).resolve_right fun hd => ?_
  rw [hsound d hd] at hfault
  cases hfault

theorem fault_includeDiagnostic (s : Session) (fault : Fault) (span : Span) :
    (s.includeDiagnostic fault span).fault = fault := by
  unfold includeDiagnostic
  split <;> rfl

theorem Accounted.passInclude (h : s.Accounted c origin) (hkind : s.window.token.kind = .directive) :
    (s.passInclude c).Accounted c origin := by
  have hreach : Reaches c s (s.passInclude c) := .single (.directive s hkind)
  have hlexical : ∀ {r : Option Diagnostic} {d : Diagnostic}, (∀ e, r = some e → e.fault.isLexical = true) →
      d.fault.isInclude = true → d ∉ r.toList := by
    intro r d hr hfault hd
    rw [Option.mem_toList] at hd
    rw [Fault.isInclude_of_isLexical (hr d hd)] at hfault
    cases hfault
  cases hincluded : s.included c with
  | ok =>
    refine h.of_errors hreach fun d hd hfault => ?_
    rw [errors_passInclude, hincluded] at hd
    obtain hd | hd := mem_append.mp hd
    · exact (mem_append.mp hd).resolve_right (hlexical (fun _ => isLexical_of_next) hfault)
    · exact absurd hd (hlexical (fun _ => isLexical_of_start) hfault)
  | error =>
    refine ⟨h.reached.trans hreach, fun d hd hfault => ?_⟩
    rw [errors_passInclude, hincluded] at hd
    obtain hd | hd := mem_append.mp hd
    · obtain hd := (mem_append.mp hd).resolve_right (hlexical (fun _ => isLexical_of_next) hfault)
      obtain ⟨u, hu, hukind, huincluded, hdiagnostic, hbehind⟩ := h.errors d hd hfault
      exact ⟨u, hu, hukind, huincluded, hdiagnostic, hbehind.trans hreach⟩
    · cases mem_singleton.mp hd
      refine ⟨s, h.reached, hkind, ?_, ?_, .refl⟩
      · rw [fault_includeDiagnostic, hincluded]
      · rw [fault_includeDiagnostic]

/-! ### A run beside itself -/

/-- The two sessions have the same documents open, at the same places. -/
structure SameDocuments (s s' : Session) : Prop where
  window : s'.window = s.window
  suspended : s'.suspended = s.suspended
  files : s'.files = s.files

theorem SameDocuments.resume (h : SameDocuments s s') (w : Window) : SameDocuments (s.resume w) (s'.resume w) := by
  refine ⟨?_, ?_, h.files⟩
  · exact congrArg (fun below => (unwind w below).1) h.suspended
  · exact congrArg (fun below => (unwind w below).2) h.suspended

theorem SameDocuments.openInclude (h : SameDocuments s s') (target : String) (span : Span) :
    SameDocuments (openInclude c s target span) (Session.openInclude c s' target span) := by
  have hopen : s'.openFiles = s.openFiles := by rw [openFiles, openFiles, windows, windows, h.window, h.suspended, h.files]
  have hcurrent : s'.currentFile = s.currentFile := by rw [currentFile, currentFile, h.window, h.files]
  unfold Session.openInclude
  rw [hopen, hcurrent, h.files]
  dsimp only
  split
  · exact ⟨h.window, h.suspended, h.files⟩
  · split
    · exact ⟨h.window, h.suspended, rfl⟩
    · refine ⟨rfl, ?_, rfl⟩
      show Suspended.mk s'.window span :: s'.suspended = ⟨s.window, span⟩ :: s.suspended
      rw [h.window, h.suspended]

theorem SameDocuments.passInclude (h : SameDocuments s s') : SameDocuments (s.passInclude c) (s'.passInclude c) := by
  have hbehind : SameDocuments s.behindLine s'.behindLine := ⟨congrArg (·.next.2) h.window, h.suspended, h.files⟩
  have hopened := hbehind.openInclude (c := c) s.window.token.text s.window.token.span
  rw [passInclude_eq, passInclude_eq, h.window, hopened.window]
  exact hopened.resume _

end Session

namespace Comparison

open Session

/-- A run beside itself, with an eye on where faults of include lines come from. -/
def beside (c : Settings) (origin : Session) : Comparison where
  mask := ⟨false, false, false⟩
  first := c
  second := c
  lenient := False
  tracked := False
  lineless := True
  followed := True
  faulty := True
  broken := False
  Abreast s s' := SameDocuments s s' ∧ s.Accounted c origin ∧ s'.Accounted c origin

theorem lawful_beside (c : Settings) (origin : Session) : (beside c origin).Lawful where
  shown h := h.elim nofun nofun
  broken := False.elim
  followed := id
  places := nofun
  still := by
    rintro s s' t t' ⟨hsame, hs, hs'⟩ hst hreach hst' hreach'
    refine ⟨⟨?_, ?_, ?_⟩, hs.still hreach hst, hs'.still hreach' hst'⟩
    · rw [hst'.window, hst.window, hsame.window]
    · rw [hst'.suspended, hst.suspended, hsame.suspended]
    · rw [hst'.files, hst.files, hsame.files]
  token h := .inl (by rw [h.1.window])
  previous h := by
    rw [h.1.window]
    exact ⟨rfl, rfl⟩
  lookahead h := .inl (by rw [h.1.window])
  near _ h := by rw [h.1.window]
  newlines h := .inl (by rw [h.1.window])
  advance := by
    rintro s s' ⟨hsame, hs, hs'⟩ - -
    have hnext : ∀ {u : Session}, u.Accounted c origin → (u.resume u.window.next.2).Accounted c origin :=
      fun hu => hu.of_errors (.single (.next _)) fun _ hd _ => hd
    have hs' := hnext hs'
    rw [hsame.window] at hs' ⊢
    exact .inl (.inr ⟨rel_lexical fun _ => isLexical_of_next, hsame.resume _, hnext hs, hs'⟩)
  setNewlines := by
    rintro s s' shown ⟨hsame, hs, hs'⟩ -
    have hnext : ∀ {u : Session}, u.Accounted c origin → (u.resume (u.window.setNewlines shown).2).Accounted c origin :=
      fun hu => hu.of_errors (.single (.newlines _ shown)) fun _ hd _ => hd
    have hs' := hnext hs'
    rw [hsame.window] at hs' ⊢
    exact .inl (.inr ⟨rel_lexical fun _ => isLexical_of_setNewlines, hsame.resume _, hnext hs, hs'⟩)
  passInclude := by
    rintro s s' ⟨⟨hsame, hs, hs'⟩, -⟩ hkind
    exact .inr ⟨⟨hsame.passInclude, hs.passInclude hkind, hs'.passInclude (hsame.window ▸ hkind)⟩, nofun⟩
  undisturbed h := absurd trivial h
  lineEnd h := absurd trivial h
  showLines h := absurd trivial h
  semicolon h := absurd trivial h
  leaves _ hs _ _ _ ht _ := by rw [hs.1.window, ht.1.window]
  files _ h := by
    rw [h.1.window]
    exact ⟨rfl, rfl⟩

end Comparison

namespace Session

variable {c : Settings} {s t : Session} {lines : List Token} {name : String} {d : Diagnostic}

/-- The diagnostic of the include line that is the current token stands at an include line of the root, one of `lines`. In
the root that is the line itself; elsewhere the open documents are named, from the root to the one with the line. -/
structure Attaches (lines : List Token) (name : String) (s : Session) (d : Diagnostic) : Prop where
  line : ∃ line ∈ lines, line.isDirective = true ∧ d.span = line.span
  inRoot : s.suspended = [] → s.window.token ∈ lines ∧ d.span = s.window.token.span ∧ d.includeChain = []
  below : s.suspended ≠ [] → d.includeChain = s.openFiles.reverse ∧ d.includeChain.head? = some name ∧
    d.includeChain.getLast? = some s.currentFile

theorem head?_openFiles (h : ∀ w ∈ s.windows, w.file < s.files.size) : s.openFiles.head? = some s.currentFile := by
  have hfile : s.files[s.window.file]? = some s.currentFile := by
    rw [currentFile, Array.getElem?_eq_getElem (h s.window (mem_cons_self ..))]
    rfl
  have hcons : s.openFiles = s.currentFile :: (s.suspended.map (·.window)).filterMap (s.files[·.file]?) :=
    filterMap_cons_some hfile
  rw [hcons, head?_cons]

theorem getLast?_openFiles (hroot : (s.windows.map file).getLast? = some 0) (hname : s.files[0]? = some name) :
    s.openFiles.getLast? = some name := by
  rw [getLast?_map, Option.map_eq_some_iff] at hroot
  obtain ⟨w, hw, hfile⟩ := hroot
  obtain ⟨front, hfront⟩ := getLast?_eq_some_iff.mp hw
  rw [openFiles, hfront, filterMap_append, filterMap_cons_some (hfile ▸ hname), filterMap_nil,
    getLast?_append, getLast?_singleton]
  rfl

theorem attaches_includeDiagnostic (horderly : s.Orderly c) (hrooted : s.Rooted) (hattached : s.Attached lines name)
    (hkind : s.window.token.kind = .directive) (fault : Fault) :
    s.Attaches lines name (s.includeDiagnostic fault s.window.token.span) := by
  unfold includeDiagnostic
  cases hlast : s.suspended.getLast? with
  | none =>
    have halone : s.suspended = [] := getLast?_eq_none_iff.mp hlast
    have hmem := hattached.mem_lines hkind halone
    exact ⟨⟨_, hmem, isDirective_of_kind hkind, rfl⟩, fun _ => ⟨hmem, rfl, rfl⟩, fun h => absurd halone h⟩
  | some root =>
    refine ⟨hattached.waiting root hlast, fun halone => ?_, fun _ => ⟨rfl, ?_, ?_⟩⟩
    · rw [halone] at hlast
      cases hlast
    · exact head?_reverse.trans (getLast?_openFiles hrooted.root hattached.named)
    · exact getLast?_reverse.trans (head?_openFiles horderly.opened)

end Session

namespace Program

open Session Parse Comparison

variable (options : Options) (source name : String)

theorem attached_start : (start options source name).Attached
    ((Cartridge.code source.toList 0).readable options.encoding) (Path.normalize name) := by
  have halone : (start options source name).suspended = [] := rfl
  refine ⟨fun w hw => ?_, fun below hbelow => ?_, rfl, ?_⟩
  · rw [windows, halone] at hw
    rw [← Option.some.inj hw]
    exact Window.Draws.start options.encoding source 0
  · rw [halone] at hbelow
    cases hbelow
  · intro path hpath
    rw [show path = Path.normalize name by simpa [start] using hpath]
    exact Path.normalize_toString (Path.clean_ofString name)

theorem accounted_start : (start options source name).Accounted (settings options source) (start options source name) := by
  refine ⟨.refl, fun d hd hfault => ?_⟩
  have hstart : (ofText options.encoding source 0).start.1 = some d := by simpa [start] using hd
  rw [Fault.isInclude_of_isLexical (isLexical_of_start hstart)] at hfault
  cases hfault

theorem accounted_of_run {body : Block} {last : Session} (hrun : run options source name = .ok body last) :
    last.Accounted (settings options source) (start options source name) := by
  let k := beside (settings options source) (start options source name)
  have : k.Lawful := lawful_beside ..
  have hstart : k.Related (start options source name) (start options source name) :=
    ⟨⟨⟨rfl, rfl, rfl⟩, accounted_start .., accounted_start ..⟩, nofun⟩
  have hpace := agree_wholeText (k := k) id options.maxDepth _ _ hstart trivial
  rw [show (wholeText options.maxDepth).run k.first (start options source name) = _ from hrun] at hpace
  obtain ⟨hlost, -⟩ | hexhausted | ⟨_, _, -, -, hrelated⟩ | ⟨hopen, -⟩ := hpace
  · exact hlost.elim
  · rw [show (wholeText options.maxDepth).run k.second (start options source name) = _ from hrun] at hexhausted
    cases hexhausted
  · exact hrelated.abreast.2.1
  · exact hopen.elim

/-- At every point of a parse the open documents have different normal paths and only the root can be at its end. An
include line that fails is reported at an include line of the root, and every fault of an include line is reported so. -/
theorem parse_includes :
    (∀ t, Reaches (settings options source) (start options source name) t →
      (t.openFiles.map Path.normalize).Nodup ∧ t.openFiles.length = t.suspended.length + 1 ∧
        (t.window.token.isEof = true → t.suspended = [])) ∧
    (∀ t, Reaches (settings options source) (start options source name) t → t.window.token.kind = .directive →
      ∀ fault, t.included (settings options source) = .error fault → fault.isInclude = true ∧
        ∃ d, (t.passInclude (settings options source)).errors.toList = t.errors.toList ++ t.window.next.1.toList ++ [d] ∧
          d.fault = fault ∧
          t.Attaches ((Cartridge.code source.toList 0).readable options.encoding) (Path.normalize name) d) ∧
    ∀ d ∈ (parse options source name).errors, d.fault.isInclude = true →
      ∃ t body last, Reaches (settings options source) (start options source name) t ∧
        t.window.token.kind = .directive ∧ t.included (settings options source) = .error d.fault ∧
        run options source name = .ok body last ∧
        Reaches (settings options source) (t.passInclude (settings options source)) last ∧
        t.Attaches ((Cartridge.code source.toList 0).readable options.encoding) (Path.normalize name) d := by
  have hattaches : ∀ {t}, Reaches (settings options source) (start options source name) t →
      t.window.token.kind = .directive → ∀ fault,
      t.Attaches ((Cartridge.code source.toList 0).readable options.encoding) (Path.normalize name)
        (t.includeDiagnostic fault t.window.token.span) := fun hreach hkind =>
    attaches_includeDiagnostic (hreach.orderly (orderly_start options source name))
      (hreach.rooted (rooted_start options source name)) (hreach.attached (attached_start options source name)) hkind
  refine ⟨fun t hreach => ?_, fun t hreach hkind fault hfault => ?_, fun d hd hfault => ?_⟩
  · have horderly := hreach.orderly (orderly_start options source name)
    have hnormal : t.openFiles.map Path.normalize = t.openFiles := by
      refine (List.map_congr_left fun path hpath => ?_).trans (List.map_id _)
      obtain ⟨w, -, hw⟩ := List.mem_filterMap.mp hpath
      exact (hreach.attached (attached_start options source name)).normal path (Array.mem_of_getElem? hw)
    rw [hnormal]
    exact ⟨horderly.distinct, length_openFiles horderly.opened, (hreach.rooted (rooted_start options source name)).finished⟩
  · refine ⟨isInclude_of_included hfault, t.includeDiagnostic fault t.window.token.span, ?_, fault_includeDiagnostic ..,
      hattaches hreach hkind fault⟩
    rw [errors_passInclude, hfault]
  · obtain ⟨body, last, hrun⟩ := exists_run_eq_ok options source name
    rw [parse, hrun] at hd
    obtain ⟨t, hreach, hkind, hincluded, hdiagnostic, hbehind⟩ :=
      (accounted_of_run options source name hrun).errors d hd hfault
    exact ⟨t, body, last, hreach, hkind, hincluded, hrun, hbehind, hdiagnostic ▸ hattaches hreach hkind d.fault⟩

/-- A store with a document that includes one that is missing. -/
def incomplete : Options := { store := { documents := [("lib/a.lua", "x=1\n#include gone.lua\n")] } }

/-- The missing document is reported at the second line of the root, under the path that leads to it. -/
theorem parse_includes_incomplete :
    ∃ d ∈ (parse incomplete "y=2\n#include lib/./a.lua\nz=3" "main.lua").errors, d.fault.isInclude = true ∧
      d.span.start.line = 2 ∧ d.includeChain = ["main.lua", "lib/a.lua"] ∧
      ∃ t body last, Reaches (settings incomplete "y=2\n#include lib/./a.lua\nz=3")
          (start incomplete "y=2\n#include lib/./a.lua\nz=3" "main.lua") t ∧
        t.window.token.kind = .directive ∧
        t.included (settings incomplete "y=2\n#include lib/./a.lua\nz=3") = .error d.fault ∧
        run incomplete "y=2\n#include lib/./a.lua\nz=3" "main.lua" = .ok body last ∧
        Reaches (settings incomplete "y=2\n#include lib/./a.lua\nz=3")
          (t.passInclude (settings incomplete "y=2\n#include lib/./a.lua\nz=3")) last ∧
        t.Attaches ((Cartridge.code "y=2\n#include lib/./a.lua\nz=3".toList 0).readable .discard)
          (Path.normalize "main.lua") d := by
  have hreported : ∃ d ∈ (parse incomplete "y=2\n#include lib/./a.lua\nz=3" "main.lua").errors,
      d.fault.isInclude = true ∧ d.span.start.line = 2 ∧ d.includeChain = ["main.lua", "lib/a.lua"] := by decide +kernel
  obtain ⟨d, hd, hfault, hline, hchain⟩ := hreported
  exact ⟨d, hd, hfault, hline, hchain, (parse_includes incomplete _ "main.lua").2.2 d hd hfault⟩

end Program

end CartLua
