import CartLua.Proofs.GrammarSimulation
import CartLua.Proofs.Tiling
/-!
# Scanning in two encodings

Where both encodings admit every character of a text, they find the same tokens and the same faults in it at the same
places. The tokens differ in the decoded values of strings only.
-/

namespace CartLua

open List

def Admitted (mode mode' : Encoding) (text : List Char) : Prop :=
  ∀ c ∈ text, mode.admits c = true ∧ mode'.admits c = true

namespace Admitted

variable {mode mode' : Encoding} {text : List Char}

theorem offending? (h : Admitted mode mode' text) : mode.offending? text = none ∧ mode'.offending? text = none := by
  constructor
  · exact find?_eq_none.mpr fun c hc => by simp [(h c hc).1]
  · exact find?_eq_none.mpr fun c hc => by simp [(h c hc).2]

theorem of_sublist {part : List Char} (h : Admitted mode mode' text) (hpart : part.Sublist text) :
    Admitted mode mode' part := fun c hc => h c (hpart.subset hc)

theorem drop (h : Admitted mode mode' text) (n : Nat) : Admitted mode mode' (text.drop n) :=
  h.of_sublist (drop_sublist ..)

end Admitted

/-! ### Strings -/

/-- The two strings end at the same place, with the same flaw. -/
def Quoted.Alike : Quoted → Quoted → Prop
  | .unfinished offset, .unfinished offset' => offset = offset'
  | .closed offset _ flaw, .closed offset' _ flaw' => offset = offset' ∧ flaw = flaw'
  | _, _ => False

namespace Quoted

variable {mode mode' : Encoding} {quote : Char} {offset : Nat} {text : List Char}

theorem Alike.cons {q q' : Quoted} (h : q.Alike q') (part part' : List Char) (flaw : Option Flaw) :
    (cons part flaw q).Alike (cons part' flaw q') := by
  cases q <;> cases q' <;> first | exact h | exact ⟨h.1, by rw [h.2]⟩

theorem alike_read (h : Admitted mode mode' text) : (read mode quote offset text).Alike (read mode' quote offset text) := by
  induction hlength : text.length using Nat.strong_induction_on generalizing text offset with
  | _ length ih =>
  generalize hrun : text.takeWhile (isPlain quote) = run
  have hflaw : ∀ reached, runFlaw? mode run reached = none ∧ runFlaw? mode' run reached = none := by
    intro reached
    have hadmitted := (h.of_sublist (hrun ▸ (List.takeWhile_prefix _).sublist)).offending?
    rw [runFlaw?, runFlaw?, hadmitted.1, hadmitted.2]
    exact ⟨rfl, rfl⟩
  cases hdrop : text.drop run.length with
  | nil =>
    rw [read_of_run hrun hdrop, read_of_run hrun hdrop]
    rfl
  | cons c rest =>
    rw [read_of_drop hrun hdrop, read_of_drop hrun hdrop, (hflaw _).1, (hflaw _).2]
    split
    · have hshort := congrArg List.length hdrop
      rw [List.length_drop, List.length_cons] at hshort
      have hrest : Admitted mode mode' rest := h.of_sublist ((List.sublist_cons_self c rest).trans (hdrop ▸ List.drop_sublist ..))
      refine .cons (.cons (ih _ ?_ (hrest.drop _) rfl) ..) ..
      rw [List.length_drop]
      omega
    · split
      · exact ⟨rfl, rfl⟩
      · rfl

end Quoted

/-! ### Lexemes -/

def Mask.lexeme (m : Mask) (l : Lexeme) : Lexeme := ⟨l.more, l.outcome.map fun found => (m.kind found.1, found.2)⟩

namespace Lexeme

variable {m : Mask} {mode mode' : Encoding} {line : Nat} {fresh : Bool} {c : Char} {rest : List Char}

theorem mask_string (hm : m.values = false) (text : List Char) (more : Nat) (value value' : Option String) :
    m.lexeme (token text more (.string value)) = m.lexeme (token text more (.string value')) := by
  simp [Mask.lexeme, token, Mask.kind, Mask.value, hm, Except.map]

theorem mask_quoted (hm : m.values = false) (h : Admitted mode mode' rest) :
    m.lexeme (quoted mode c rest) = m.lexeme (quoted mode' c rest) := by
  have halike : (Quoted.read mode c 1 rest).Alike (Quoted.read mode' c 1 rest) := Quoted.alike_read h
  unfold quoted
  generalize Quoted.read mode c 1 rest = q at halike
  generalize Quoted.read mode' c 1 rest = q' at halike
  cases q with
  | unfinished =>
    cases q' with
    | unfinished => cases halike; rfl
    | closed => cases halike
  | closed offset value flaw =>
    cases q' with
    | unfinished => cases halike
    | closed =>
      obtain ⟨rfl, rfl⟩ := halike
      cases flaw with
      | some => rfl
      | none => exact mask_string hm ..

theorem mask_longString (hm : m.values = false) (h : Admitted mode mode' ('[' :: rest)) (level : Nat) :
    m.lexeme (longString mode line level rest) = m.lexeme (longString mode' line level rest) := by
  unfold longString
  cases hread : LongBracket.read? level ('[' :: rest) with
  | none => rfl
  | some found =>
    obtain ⟨contents, length⟩ := found
    have hcontents : contents.Sublist ('[' :: rest) := by
      obtain ⟨n, -, hfound⟩ := Option.map_eq_some_iff.mp hread
      obtain ⟨rfl, -⟩ := Prod.mk.inj hfound
      exact (take_sublist ..).trans ((drop_sublist ..).trans (drop_sublist ..))
    obtain ⟨hfirst, hsecond⟩ := (h.of_sublist hcontents).offending?
    dsimp only
    rw [hfirst, hsecond]
    exact mask_string hm ..

theorem mask_read (hm : m.values = false) (h : Admitted mode mode' (c :: rest)) :
    m.lexeme (read mode line fresh c rest) = m.lexeme (read mode' line fresh c rest) := by
  unfold read
  split
  · exact mask_quoted hm (h.of_sublist (sublist_cons_self ..))
  split
  · rfl
  split
  next level hlevel =>
    obtain rfl := LongBracket.head_of_level? hlevel
    exact mask_longString hm h level
  · rfl

end Lexeme

/-! ### Scanning -/

/-- What is left to see of a step of scanning. -/
def Mask.scan (m : Mask) : Scan → Scan
  | .done eof next => .done (m.token eof) next
  | .token t next => .token (m.token t) next
  | .fault d next => .fault d next

namespace Cursor

variable {m : Mask} {mode mode' : Encoding} {c : Cursor}

theorem mask_place {l l' : Lexeme} (h : m.lexeme l = m.lexeme l') : m.scan (c.place l) = m.scan (c.place l') := by
  obtain ⟨more, outcome⟩ := l
  obtain ⟨more', outcome'⟩ := l'
  obtain ⟨rfl, houtcome⟩ := Lexeme.mk.inj h
  cases outcome with
  | error =>
    cases outcome' with
    | error => cases houtcome; rfl
    | ok => cases houtcome
  | ok found =>
    cases outcome' with
    | error => cases houtcome
    | ok found' =>
      obtain ⟨kind, text⟩ := found
      obtain ⟨kind', text'⟩ := found'
      obtain ⟨hkind, rfl⟩ := Prod.mk.inj (Except.ok.inj houtcome)
      show Scan.token (m.token _) _ = Scan.token (m.token _) _
      rw [Mask.token, Mask.token, hkind]

theorem mask_scan (hm : m.values = false) (h : Admitted mode mode' c.rest) :
    m.scan (c.scan mode) = m.scan (c.scan mode') := by
  unfold scan
  split
  · rfl
  next n htrivia =>
    dsimp only
    split
    · rfl
    next ch rest hrest =>
      refine mask_place (Lexeme.mask_read hm ?_)
      rw [← hrest, rest_skip]
      exact h.drop n

theorem scan_cases (hm : m.values = false) (h : Admitted mode mode' c.rest) :
    (∃ eof eof' next, c.scan mode = .done eof next ∧ c.scan mode' = .done eof' next ∧ m.token eof = m.token eof') ∨
      (∃ t t' next, c.scan mode = .token t next ∧ c.scan mode' = .token t' next ∧ m.token t = m.token t') ∨
      ∃ d next, c.scan mode = .fault d next ∧ c.scan mode' = .fault d next := by
  have hmask := mask_scan hm h
  cases hscan : c.scan mode <;> cases hscan' : c.scan mode' <;> rw [hscan, hscan'] at hmask <;> try cases hmask
  · obtain ⟨htoken, rfl⟩ := Scan.done.inj hmask
    exact .inl ⟨_, _, _, rfl, rfl, htoken⟩
  · obtain ⟨htoken, rfl⟩ := Scan.token.inj hmask
    exact .inr (.inl ⟨_, _, _, rfl, rfl, htoken⟩)
  · exact .inr (.inr ⟨_, _, rfl, rfl⟩)

theorem mask_nextToken (hm : m.values = false) (h : Admitted mode mode' c.rest) :
    m.token (c.nextToken mode).1 = m.token (c.nextToken mode').1 ∧ (c.nextToken mode).2 = (c.nextToken mode').2 ∧
      Admitted mode mode' (c.nextToken mode).2.rest := by
  induction hlength : c.rest.length using Nat.strong_induction_on generalizing c with
  | _ length ih =>
  subst hlength
  obtain ⟨eof, eof', next, hscan, hscan', htoken⟩ | ⟨t, t', next, hscan, hscan', htoken⟩ | ⟨d, next, hscan, hscan'⟩ :=
    scan_cases hm h
  · rw [nextToken_of_done hscan, nextToken_of_done hscan']
    obtain ⟨-, -, n, rfl⟩ := scan_done hscan
    exact ⟨htoken, rfl, rest_skip c n ▸ h.drop n⟩
  · rw [nextToken_of_token hscan, nextToken_of_token hscan']
    obtain ⟨n, rfl⟩ := scan_token_next hscan
    exact ⟨htoken, rfl, rest_skip c n ▸ h.drop n⟩
  · rw [nextToken_of_fault hscan, nextToken_of_fault hscan']
    have hlt := length_lt_of_scan_fault hscan
    obtain ⟨n, rfl⟩ := scan_fault hscan
    exact ih _ hlt (rest_skip c n ▸ h.drop n) rfl

end Cursor

/-! ### Windows -/

namespace Window

/-- Two windows over the same text, which both encodings admit, at the same place. -/
structure Twins (m : Mask) (w w' : Window) : Prop where
  cursor : w.cursor = w'.cursor
  newlines : w.newlines = w'.newlines
  previous : m.token w.previous = m.token w'.previous
  token : m.token w.token = m.token w'.token
  lookahead : m.token w.lookahead = m.token w'.lookahead
  admitted : Admitted w.encoding w'.encoding w.cursor.rest

namespace Twins

variable {m : Mask} {w w' : Window}

theorem file (h : Twins m w w') : w.file = w'.file := by rw [Window.file, Window.file, h.cursor]

theorem fetch (hm : m.values = false) (h : Twins m w w') : w.fetch.1 = w'.fetch.1 ∧ Twins m w.fetch.2 w'.fetch.2 := by
  have hnext := Cursor.mask_nextToken hm h.admitted
  refine ⟨?_, ?_⟩
  · unfold Window.fetch
    obtain ⟨eof, eof', next, hscan, hscan', -⟩ | ⟨t, t', next, hscan, hscan', -⟩ | ⟨d, next, hscan, hscan'⟩ :=
      Cursor.scan_cases hm h.admitted <;> rw [hscan, ← h.cursor, hscan']
  · rw [fetch_eq, fetch_eq, ← h.cursor]
    exact ⟨hnext.2.1, h.newlines, h.previous, h.token, hnext.1, hnext.2.2⟩

theorem span_eq (hplaces : m.places = true) {t t' : Token} (h : m.token t = m.token t') : t.span = t'.span := by
  have hshown : ∀ span, m.span span = span := fun span => by simp [Mask.span, Mask.position, hplaces]
  rw [← hshown t.span, ← hshown t'.span, (Mask.token_inj h).2.2]

theorem atLineEnd (hplaces : m.places = true) (h : Twins m w w') : w.atLineEnd = w'.atLineEnd := by
  rw [Window.atLineEnd, Window.atLineEnd, h.newlines, Mask.isNewline_eq h.token, Mask.isEof_eq h.token,
    span_eq hplaces h.token, span_eq hplaces h.lookahead]

theorem next (hm : m.values = false) (hplaces : m.places = true) (h : Twins m w w') :
    w.next.1 = w'.next.1 ∧ Twins m w.next.2 w'.next.2 := by
  unfold Window.next
  rw [← h.atLineEnd hplaces]
  split
  · refine ⟨rfl, { h with previous := h.token, token := ?_ }⟩
    rw [span_eq hplaces h.token]
  · exact fetch hm { h with previous := h.token, token := h.lookahead }

theorem setNewlines (hm : m.values = false) (h : Twins m w w') (shown : Bool) :
    (w.setNewlines shown).1 = (w'.setNewlines shown).1 ∧ Twins m (w.setNewlines shown).2 (w'.setNewlines shown).2 := by
  unfold Window.setNewlines
  dsimp only
  rw [← Mask.isNewline_eq h.token]
  split
  · exact fetch hm { h with newlines := rfl, token := h.lookahead }
  · exact ⟨rfl, { h with newlines := rfl }⟩

theorem start (hm : m.values = false) (hplaces : m.places = true) (h : Twins m w w') :
    w.start.1 = w'.start.1 ∧ Twins m w.start.2 w'.start.2 := by
  obtain ⟨hfirst, hfetch⟩ := h.fetch hm
  obtain ⟨hsecond, hnext⟩ := hfetch.next hm hplaces
  unfold Window.start
  dsimp only
  rw [hfirst, hsecond]
  exact ⟨rfl, hnext⟩

end Twins

theorem twins_ofText {m : Mask} {mode mode' : Encoding} {text : String} (h : Admitted mode mode' text.toList)
    (file : FileId) : Twins m (ofText mode text file) (ofText mode' text file) := by
  refine ⟨rfl, rfl, rfl, rfl, rfl, h.of_sublist ?_⟩
  obtain ⟨front, hfront, -⟩ := Cartridge.standsIn_code text.toList file
  exact (sublist_append_right front _).trans (hfront ▸ take_sublist ..)

end Window

/-! ### Sessions -/

namespace Session

/-- Two sessions with the same documents open, at the same place of each. -/
structure Twins (m : Mask) (s s' : Session) : Prop where
  window : Window.Twins m s.window s'.window
  suspended : List.Forall₂ (fun b b' => Window.Twins m b.window b'.window ∧ b.span = b'.span) s.suspended s'.suspended
  files : s.files = s'.files

namespace Twins

variable {m : Mask} {s s' : Session} {w w' : Window}

theorem resume (h : Twins m s s') (hw : Window.Twins m w w') : Twins m (s.resume w) (s'.resume w') := by
  obtain ⟨-, hsuspended, hfiles⟩ := h
  have hunwind : ∀ {ws ws' : List Suspended} {w w' : Window},
      List.Forall₂ (fun b b' => Window.Twins m b.window b'.window ∧ b.span = b'.span) ws ws' → Window.Twins m w w' →
        Window.Twins m (unwind w ws).1 (unwind w' ws').1 ∧
          List.Forall₂ (fun b b' => Window.Twins m b.window b'.window ∧ b.span = b'.span) (unwind w ws).2 (unwind w' ws').2 := by
    intro ws ws' w w' hws hw
    induction hws generalizing w w' with
    | nil => exact ⟨hw, .nil⟩
    | cons hbelow hrest ih =>
      rw [unwind, unwind, ← Mask.isEof_eq hw.token]
      split
      · exact ih { hbelow.1 with previous := hw.previous }
      · exact ⟨hw, .cons hbelow hrest⟩
  obtain ⟨hwindow, hrest⟩ := hunwind hsuspended hw
  exact ⟨hwindow, hrest, hfiles⟩

theorem map_suspended {α : Type} (h : Twins m s s') {f : Suspended → α}
    (hf : ∀ b b' : Suspended, Window.Twins m b.window b'.window → b.span = b'.span → f b = f b') :
    s.suspended.map f = s'.suspended.map f := by
  have hsuspended := h.suspended
  generalize s.suspended = ws at hsuspended ⊢
  generalize s'.suspended = ws' at hsuspended ⊢
  induction hsuspended with
  | nil => rfl
  | cons hbelow _ ih => rw [map_cons, map_cons, ih, hf _ _ hbelow.1 hbelow.2]

theorem openFiles (h : Twins m s s') : s.openFiles = s'.openFiles :=
  openFiles_congr h.window.file (h.map_suspended fun _ _ hb _ => hb.file) h.files

theorem includeDiagnostic (h : Twins m s s') (fault : Fault) (span : Span) :
    s.includeDiagnostic fault span = s'.includeDiagnostic fault span := by
  have hroot := congrArg getLast? (h.map_suspended (f := (·.span)) fun _ _ _ hspan => hspan)
  rw [getLast?_map, getLast?_map] at hroot
  unfold Session.includeDiagnostic
  rw [h.openFiles]
  generalize s.suspended.getLast? = root at hroot
  generalize s'.suspended.getLast? = root' at hroot
  cases root with
  | none =>
    cases root' with
    | none => rfl
    | some => cases hroot
  | some root =>
    cases root' with
    | none => cases hroot
    | some root' =>
      have hspan : root.span = root'.span := Option.some.inj hroot
      dsimp only
      rw [hspan]

theorem report (h : Twins m s s') (ds ds' : List Diagnostic) : Twins m (s.report ds) (s'.report ds') :=
  ⟨h.window, h.suspended, h.files⟩

variable {c c' : Settings} {counted : Prop}

theorem openInclude (hm : m.values = false) (hplaces : m.places = true) (hstore : c.store = c'.store)
    (hadmitted : ∀ document ∈ c.store.documents, Admitted c.encoding c'.encoding document.2.toList) (h : Twins m s s')
    (halike : Alike m counted s s') (target : String) (span : Span) :
    Twins m (s.openInclude c target span) (s'.openInclude c' target span) ∧
      Alike m counted (s.openInclude c target span) (s'.openInclude c' target span) := by
  have hcurrent : s.currentFile = s'.currentFile := by rw [currentFile, currentFile, h.files, h.window.file]
  unfold Session.openInclude
  dsimp only
  rw [hcurrent, h.openFiles, ← hstore]
  generalize hopened : (if s'.openFiles.contains (Path.resolve s'.currentFile target) then .error .circularInclude
    else c.store.openInclude (Path.resolve s'.currentFile target) target) = opened
  cases opened with
  | error =>
    dsimp only
    rw [h.includeDiagnostic]
    exact ⟨h.report _ _, halike.report fun _ => rfl⟩
  | ok contents =>
    have hcontents : Admitted c.encoding c'.encoding contents.toList := by
      split at hopened
      · cases hopened
      · exact hadmitted _ (mem_documents_of_openInclude hopened)
    obtain ⟨hfault, hstart⟩ := (Window.twins_ofText (m := m) hcontents s.files.size).start hm hplaces
    dsimp only
    rw [← h.files, ← hfault, ← Mask.isEof_eq hstart.token]
    split
    · exact ⟨⟨h.window, h.suspended, rfl⟩, halike.markers, halike.flow, halike.outerFlows, halike.scopes, halike.globals,
        (halike.report fun _ => rfl).reported⟩
    · exact ⟨⟨hstart, .cons ⟨h.window, rfl⟩ h.suspended, rfl⟩, halike.markers, halike.flow, halike.outerFlows,
        halike.scopes, halike.globals, (halike.report fun _ => rfl).reported⟩

theorem passInclude (hm : m.values = false) (hplaces : m.places = true) (hstore : c.store = c'.store)
    (hadmitted : ∀ document ∈ c.store.documents, Admitted c.encoding c'.encoding document.2.toList) (h : Twins m s s')
    (halike : Alike m counted s s') :
    Twins m (s.passInclude c) (s'.passInclude c') ∧ Alike m counted (s.passInclude c) (s'.passInclude c') := by
  obtain ⟨hfault, hnext⟩ := h.window.next hm hplaces
  unfold Session.passInclude
  dsimp only
  rw [← hfault, ← (Mask.token_inj h.window.token).2.1, ← Window.Twins.span_eq hplaces h.window.token]
  have hmoved : Twins m { s with window := s.window.next.2 } { s' with window := s'.window.next.2 } :=
    ⟨hnext, h.suspended, h.files⟩
  have hopened := (hmoved.report s.window.next.1.toList s.window.next.1.toList).openInclude hm hplaces hstore hadmitted
    ((halike.still_window ..).report fun _ => rfl) s.window.token.text s.window.token.span
  exact ⟨hopened.1.resume hopened.1.window, hopened.2.still_window ..⟩

end Twins

end Session

namespace Comparison

open Session

/-- Two runs over the same documents in two encodings are compared, up to the decoded values of strings. -/
def encodings (first second : Settings) : Comparison where
  mask := { places := true, values := false }
  first := first
  second := second
  lenient := False
  tracked := True
  lineless := True
  followed := True
  faulty := True
  broken := False
  Abreast := Session.Twins { places := true, values := false }

variable {first second : Settings}

theorem lawful_encodings (hstore : first.store = second.store)
    (hadmitted : ∀ document ∈ first.store.documents, Admitted first.encoding second.encoding document.2.toList) :
    (encodings first second).Lawful where
  shown _ := trivial
  broken := False.elim
  followed := id
  places _ := id
  still := by
    rintro s s' t t' hs hst - hst' -
    exact ⟨hst.window ▸ hst'.window ▸ hs.window, hst.suspended ▸ hst'.suspended ▸ hs.suspended,
      hst.files.trans (hs.files.trans hst'.files.symm)⟩
  token h := .inl h.window.token
  previous h := by
    refine ⟨Mask.isSymbol_eq h.window.previous _, ?_⟩
    rw [Window.Twins.span_eq rfl h.window.previous]
  lookahead h := .inl (Mask.isSymbol_eq h.window.lookahead _)
  near _ h := (Mask.token_inj h.window.lookahead).2.1
  newlines h := .inl h.window.newlines
  advance := by
    intro s s' hs _ _
    obtain ⟨hfault, hnext⟩ := hs.window.next rfl rfl
    refine .inl (.inr ⟨?_, hs.resume hnext⟩)
    rw [← hfault]
    exact rel_lexical fun d hd => Window.isLexical_of_next hd
  setNewlines := by
    intro s s' shown hs _
    obtain ⟨hfault, hset⟩ := hs.window.setNewlines rfl shown
    refine .inl (.inr ⟨?_, hs.resume hset⟩)
    rw [← hfault]
    exact rel_lexical fun d hd => Window.isLexical_of_setNewlines hd
  passInclude := by
    intro s s' hs _
    obtain ⟨htwins, halike⟩ := hs.abreast.passInclude rfl rfl hstore hadmitted (hs.alike trivial)
    exact .inr ⟨htwins, fun _ => halike⟩
  undisturbed h := absurd trivial h
  lineEnd h := absurd trivial h
  showLines h := absurd trivial h
  semicolon h := absurd trivial h
  leaves := by
    intro s s' t t' _ hs _ _ _ ht _
    rw [Window.Twins.span_eq rfl hs.window.token, Window.Twins.span_eq rfl ht.window.token,
      Window.Twins.span_eq rfl ht.window.previous]
  files := by
    intro s s' _ hs
    rw [Window.Twins.span_eq rfl hs.window.token]
    exact ⟨rfl, hs.window.file⟩

end Comparison

end CartLua
