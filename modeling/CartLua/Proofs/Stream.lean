import CartLua.Proofs.Lexeme
import CartLua.Proofs.Progress
/-!
# The tokens ahead

The stream of a window is what is still to be read: the current token, the lookahead and what the cursor finds behind
it. A window that moves without meeting a fault drops the first token of its stream and nothing else, whether line ends
are shown or not. Programs without include lines have one window only, so that its stream is the rest of the program.
-/

namespace CartLua

open List

deriving instance DecidableEq for TokenKind, Token

/-- A token that stands in the text as it is written, not a line end. -/
structure Token.Genuine (t : Token) : Prop where
  newline : t.isNewline = false
  written : t.isIdentifier = true → t.span.stop.index = t.span.start.index + t.text.length
  dots : t.kind = .vararg → t.text = "..."
  short : ∀ sign, t.kind = .symbol sign → t.span.stop.index ≤ t.span.start.index + sign.chars.length

/-- The order of the tokens of a text: the first is not empty and ends before the second. -/
def Token.Before (a b : Token) : Prop :=
  a.span.start.index < a.span.stop.index ∧ a.span.stop.index ≤ b.span.start.index

def Token.isDirective (t : Token) : Bool :=
  match t.kind with
  | .directive => true
  | _ => false

/-- Whether the token can be passed: it is neither a line end nor the end of the text. -/
def Token.isSolid (t : Token) : Bool := !t.isEof && !t.isNewline

theorem Token.isSolid_iff {t : Token} : t.isSolid = true ↔ t.isEof = false ∧ t.isNewline = false := by
  simp [Token.isSolid]

variable {ts : List Token}

namespace Cursor

variable {mode : Encoding} {c next : Cursor} {t : Token} {d : Diagnostic}

theorem isEof_of_scan (h : c.scan mode = .token t next) : t.isEof = false := by
  obtain ⟨n, ch, rest, -, -, lexeme, text, hread, houtcome, -⟩ := scan_token h
  have hreading := Lexeme.reading_read hread houtcome
  unfold Token.isEof
  generalize t.kind = kind at hreading
  cases hreading with
  | word => obtain ⟨v, hv⟩ | hv | ⟨k, hv⟩ | hv := Lexeme.wordKind_cases text <;> rw [hv]
  | string | number | directive | vararg | symbol => rfl

theorem genuine_of_scan (h : c.scan mode = .token t next) : t.Genuine := by
  obtain ⟨n, ch, rest, -, hrest, lexeme, text, hread, houtcome, htext, hnext, hspan⟩ := scan_token h
  have hreading := Lexeme.reading_read hread houtcome
  have hkind : t.isNewline = false ∧ (t.isIdentifier = true → text.length = lexeme.more + 1 ∧
      lexeme.more + 1 ≤ (c.skip n).rest.length) ∧ (t.kind = .vararg → text = ['.', '.', '.']) ∧
      ∀ sign, t.kind = .symbol sign → lexeme.more + 1 = sign.chars.length := by
    unfold Token.isNewline Token.isIdentifier
    rw [hrest]
    generalize t.kind = kind at hreading
    cases hreading with
    | word hlength hle =>
      obtain ⟨v, hv⟩ | hv | ⟨k, hv⟩ | hv := Lexeme.wordKind_cases text <;> rw [hv] <;> simp [hlength]
      simpa using hle
    | vararg hdots => simp [hdots]
    | symbol sign hlength => simp [hlength]
    | string | number | directive => simp
  obtain ⟨hnewline, hidentifier, hdots, hsymbol⟩ := hkind
  refine ⟨hnewline, fun hid => ?_, fun hvararg => ?_, fun sign hsign => ?_⟩
  · obtain ⟨hlength, hle⟩ := hidentifier hid
    rw [hspan, htext, String.length_ofList, hlength]
    simp only [spanTo, hnext, skip_index]
    omega
  · rw [htext, hdots hvararg]
  · rw [hspan, ← hsymbol sign hsign]
    simp only [spanTo, hnext, skip_index]
    omega

theorem ordered_of_tokens (h : c.tokens mode = .ok ts) :
    ts.Pairwise Token.Before ∧ ∀ t ∈ ts, c.position.index ≤ t.span.start.index := by
  induction c, ts, h using Cursor.tokens_induction with
  | done c eof next hscan =>
    obtain ⟨-, rfl, n, rfl⟩ := scan_done hscan
    refine ⟨pairwise_singleton .., ?_⟩
    intro t ht
    rw [mem_singleton.mp ht]
    simp [Token.eof, Span.point, skip_index]
  | token c t next others hscan _ ih =>
    obtain ⟨n, ch, rest, -, hrest, lexeme, text, -, -, -, rfl, hspan⟩ := scan_token hscan
    obtain ⟨hpairwise, hbehind⟩ := ih
    have hstart : c.position.index ≤ t.span.start.index := by
      rw [hspan, spanTo, skip_index]
      exact Nat.le_add_right _ _
    have hlength : 0 < (c.skip n).rest.length := by rw [hrest]; exact Nat.succ_pos _
    have hproper : t.span.start.index < t.span.stop.index := by
      rw [hspan]
      simp only [spanTo, skip_index _ (lexeme.more + 1)]
      omega
    refine ⟨pairwise_cons.mpr ⟨fun u hu => ⟨hproper, ?_⟩, hpairwise⟩, ?_⟩
    · rw [hspan]
      exact hbehind u hu
    · intro u hu
      rcases mem_cons.mp hu with rfl | hu
      · exact hstart
      · have hstop : t.span.stop.index ≤ u.span.start.index := by
          rw [hspan]
          exact hbehind u hu
        omega

/-! ### Include lines -/

/-- All tokens from `c` to the end of the text, with wrong ones left out. -/
def readable (mode : Encoding) (c : Cursor) : List Token :=
  match c.scan mode, c.moves_scan mode with
  | .done .., _ => []
  | .token t next, h =>
    have : next.rest.length < c.rest.length := h
    t :: readable mode next
  | .fault _ next, h =>
    have : next.rest.length < c.rest.length := h
    readable mode next
termination_by c.rest.length

theorem readable_of_done {eof : Token} (h : c.scan mode = .done eof next) : c.readable mode = [] := by
  rw [readable]
  split <;> simp_all

theorem readable_of_token (h : c.scan mode = .token t next) : c.readable mode = t :: next.readable mode := by
  rw [readable]
  split <;> simp_all

theorem readable_of_fault (h : c.scan mode = .fault d next) : c.readable mode = next.readable mode := by
  rw [readable]
  split <;> simp_all

def Plain (mode : Encoding) (c : Cursor) : Prop := ∀ t ∈ c.readable mode, t.isDirective = false

theorem Plain.of_nil (h : c.rest = []) : c.Plain mode := by
  intro t ht
  rw [readable_of_done (scan_nil h)] at ht
  cases ht

theorem Plain.of_token (hc : c.Plain mode) (h : c.scan mode = .token t next) :
    t.isDirective = false ∧ next.Plain mode := by
  rw [Plain, readable_of_token h] at hc
  exact ⟨hc t (mem_cons_self ..), fun u hu => hc u (mem_cons_of_mem _ hu)⟩

theorem Plain.of_fault (hc : c.Plain mode) (h : c.scan mode = .fault d next) : next.Plain mode := by
  rwa [Plain, readable_of_fault h] at hc

theorem genuine_nextToken (mode : Encoding) (c : Cursor) : (c.nextToken mode).1.Genuine := by
  induction c using Cursor.scan_induction mode with
  | done c eof next h =>
    obtain ⟨-, rfl, -⟩ := scan_done h
    rw [nextToken_of_done h]
    exact ⟨rfl, nofun, nofun, nofun⟩
  | token c t next h _ =>
    rw [nextToken_of_token h]
    exact genuine_of_scan h
  | fault c d next h ih =>
    rw [nextToken_of_fault h]
    exact ih

theorem Plain.nextToken (hc : c.Plain mode) :
    (c.nextToken mode).1.isDirective = false ∧ (c.nextToken mode).2.Plain mode := by
  induction c using Cursor.scan_induction mode with
  | done c eof next h =>
    obtain ⟨hnil, rfl, -⟩ := scan_done h
    rw [nextToken_of_done h]
    exact ⟨rfl, Plain.of_nil hnil⟩
  | token c t next h _ =>
    rw [nextToken_of_token h]
    exact hc.of_token h
  | fault c d next h ih =>
    rw [nextToken_of_fault h]
    exact ih (hc.of_fault h)

end Cursor

namespace Window

variable {w : Window} {mode : Encoding} {text : String} {file : FileId}

def ahead (w : Window) : Except Diagnostic (List Token) :=
  if w.lookahead.isEof then .ok [w.lookahead] else (w.cursor.tokens w.encoding).map (w.lookahead :: ·)

/-- What is still to be read, the current token first. A line end that is shown is no part of it. -/
def stream (w : Window) : Except Diagnostic (List Token) :=
  if w.token.isEof then .ok [w.token]
  else if w.token.isNewline then w.ahead
  else w.ahead.map (w.token :: ·)

/-- The window shows tokens that stand in the text, and no include line follows. -/
structure Plain (w : Window) : Prop where
  token : w.token.isNewline = false → w.token.Genuine
  tokenKind : w.token.isDirective = false
  lookahead : w.lookahead.Genuine
  lookaheadKind : w.lookahead.isDirective = false
  cursor : w.cursor.Plain w.encoding

theorem Plain.fetch (htoken : w.token.Genuine) (hkind : w.token.isDirective = false)
    (hcursor : w.cursor.Plain w.encoding) : w.fetch.2.Plain := by
  obtain ⟨hdirective, hnext⟩ := hcursor.nextToken
  rw [fetch_eq]
  exact ⟨fun _ => htoken, hkind, Cursor.genuine_nextToken _ _, hdirective, hnext⟩

theorem Plain.next (h : w.Plain) : w.next.2.Plain := by
  unfold Window.next
  split
  · exact ⟨nofun, rfl, h.lookahead, h.lookaheadKind, h.cursor⟩
  · exact Plain.fetch h.lookahead h.lookaheadKind h.cursor

theorem Plain.setNewlines (h : w.Plain) (shown : Bool) : (w.setNewlines shown).2.Plain := by
  obtain hset | ⟨-, -, hset⟩ := w.setNewlines_cases shown
  · rw [hset]
    exact ⟨h.token, h.tokenKind, h.lookahead, h.lookaheadKind, h.cursor⟩
  · rw [hset]
    exact Plain.fetch h.lookahead h.lookaheadKind h.cursor

/-! ### What moves do to the stream -/

theorem fetch_ahead (h : w.fetch.1 = none) : w.fetch.2.ahead = w.cursor.tokens w.encoding := by
  unfold fetch at h ⊢
  split at h
  next eof cursor hscan =>
    obtain ⟨-, rfl, -⟩ := Cursor.scan_done hscan
    rw [Cursor.tokens_of_done hscan]
    rfl
  next t cursor hscan =>
    rw [Cursor.tokens_of_token hscan, ahead, if_neg (by simp [Cursor.isEof_of_scan hscan])]
  next => cases h

theorem fetch_stream (htoken : w.token = w.lookahead) (hgenuine : w.lookahead.Genuine) (h : w.fetch.1 = none) :
    w.fetch.2.stream = w.ahead := by
  have hnewline := hgenuine.newline
  rw [stream, fetch_token, htoken, fetch_ahead h, ahead]
  split
  · rfl
  · rw [if_neg (by simp [hnewline])]

theorem stream_eq_map (hsolid : w.token.isSolid = true) : w.stream = w.ahead.map (w.token :: ·) := by
  obtain ⟨heof, hnewline⟩ := Token.isSolid_iff.mp hsolid
  rw [stream, if_neg (by simp [heof]), if_neg (by simp [hnewline])]

theorem stream_solid (hsolid : w.token.isSolid = true) (h : w.stream = .ok ts) :
    ∃ tail, ts = w.token :: w.lookahead :: tail := by
  rw [stream_eq_map hsolid, ahead] at h
  split at h
  · cases h
    exact ⟨[], rfl⟩
  · cases htokens : w.cursor.tokens w.encoding with
    | error =>
      rw [htokens] at h
      cases h
    | ok tail =>
      rw [htokens] at h
      cases h
      exact ⟨tail, rfl⟩

theorem atLineEnd_solid (hsolid : w.token.isSolid = true) :
    w.atLineEnd = (w.newlines && decide (w.token.span.stop.line < w.lookahead.span.start.line)) := by
  obtain ⟨heof, hnewline⟩ := Token.isSolid_iff.mp hsolid
  simp [atLineEnd, heof, hnewline]

theorem next_stream (hplain : w.Plain) (hsolid : w.token.isSolid = true) (h : w.next.1 = none) :
    w.stream = w.next.2.stream.map (w.token :: ·) := by
  have hstream := stream_eq_map hsolid
  unfold next at h ⊢
  split at h
  next hline => rw [if_pos hline, hstream]; rfl
  next hline =>
    have hfetch := fetch_stream (w := { w with previous := w.token, token := w.lookahead }) rfl hplain.lookahead h
    rw [if_neg hline, hfetch, hstream]
    rfl

theorem setNewlines_stream (hplain : w.Plain) {shown : Bool} (h : (w.setNewlines shown).1 = none) :
    (w.setNewlines shown).2.stream = w.stream := by
  obtain hset | ⟨hnewline, -, hset⟩ := w.setNewlines_cases shown
  · rw [hset]
    rfl
  · rw [hset] at h ⊢
    have hfetch := fetch_stream (w := { w with newlines := shown, token := w.lookahead }) rfl hplain.lookahead h
    rw [hfetch, stream, if_neg, if_pos hnewline]
    · rfl
    · unfold Token.isNewline at hnewline
      unfold Token.isEof
      split <;> simp_all

@[simp] theorem fetch_previous (w : Window) : w.fetch.2.previous = w.previous := by rw [fetch_eq]

@[simp] theorem fetch_newlines (w : Window) : w.fetch.2.newlines = w.newlines := by rw [fetch_eq]

@[simp] theorem next_previous (w : Window) : w.next.2.previous = w.token := by
  unfold next
  split
  · rfl
  · rw [fetch_previous]

@[simp] theorem next_newlines (w : Window) : w.next.2.newlines = w.newlines := by
  unfold next
  split
  · rfl
  · rw [fetch_newlines]

theorem next_token (w : Window) :
    w.next.2.token = if w.atLineEnd then Token.newline w.token.span.stop else w.lookahead := by
  unfold next
  split
  · rfl
  · rw [fetch_token]

@[simp] theorem setNewlines_previous (w : Window) (shown : Bool) : (w.setNewlines shown).2.previous = w.previous := by
  obtain hset | ⟨-, -, hset⟩ := w.setNewlines_cases shown
  · rw [hset]
  · rw [hset, fetch_previous]

@[simp] theorem setNewlines_newlines (w : Window) (shown : Bool) : (w.setNewlines shown).2.newlines = shown := by
  obtain hset | ⟨-, -, hset⟩ := w.setNewlines_cases shown
  · rw [hset]
  · rw [hset, fetch_newlines]

/-- The window on the first token, before the second one is fetched. -/
def atFirst (w : Window) : Window := { w.fetch.2 with token := w.fetch.2.lookahead }

theorem start_eq (mode : Encoding) (text : String) (file : FileId) : (ofText mode text file).start =
    ((ofText mode text file).fetch.1.or (ofText mode text file).atFirst.fetch.1, (ofText mode text file).atFirst.fetch.2) := by
  have hline : (ofText mode text file).fetch.2.atLineEnd = false := by
    simp [atLineEnd, ofText]
  have hprevious : (ofText mode text file).fetch.2.token = (ofText mode text file).fetch.2.previous := by
    rw [fetch_token, fetch_previous]
    rfl
  unfold start next atFirst
  simp only [hline, Bool.false_eq_true, if_false]
  rw [hprevious]
  cases (ofText mode text file).fetch.1 <;> rfl

theorem start_stream (h : (ofText mode text file).start.1 = none) :
    (ofText mode text file).start.2.stream = tokenize mode text file := by
  rw [start_eq] at h ⊢
  obtain ⟨hfirst, hsecond⟩ := Option.or_eq_none_iff.mp h
  have hgenuine : (ofText mode text file).atFirst.lookahead.Genuine := by
    rw [atFirst, fetch_eq]
    exact Cursor.genuine_nextToken _ _
  rw [fetch_stream rfl hgenuine hsecond]
  exact fetch_ahead hfirst

theorem start_plain (h : (Cartridge.code text.toList file).Plain mode) : (ofText mode text file).start.2.Plain := by
  rw [start_eq]
  have hfirst : (ofText mode text file).fetch.2.Plain := Plain.fetch ⟨rfl, nofun, nofun, nofun⟩ rfl h
  exact Plain.fetch hfirst.lookahead hfirst.lookaheadKind hfirst.cursor

theorem isLexical_of_start {d : Diagnostic}
    (h : (ofText mode text file).start.1 = some d) : d.fault.isLexical = true := by
  rw [start_eq] at h
  obtain hfirst | ⟨-, hsecond⟩ := Option.or_eq_some_iff.mp h
  · exact isLexical_of_fetch hfirst
  · exact isLexical_of_fetch hsecond

end Window

namespace Session

variable {c : Settings} {s t : Session}

/-- No other document is open, and no include line follows. -/
structure Plain (s : Session) : Prop where
  alone : s.suspended = []
  window : s.window.Plain

theorem Plain.resume (h : s.Plain) (w : Window) : s.resume w = { s with window := w } := by
  rw [Session.resume, h.alone]
  cases s
  cases h.alone
  rfl

theorem Act.plain (h : Act c s t) (hs : s.Plain) : t.Plain := by
  obtain ⟨hwindow, hsuspended, -⟩ | rfl | ⟨shown, rfl⟩ | ⟨hkind, rfl⟩ := h.cases_window
  · exact ⟨hsuspended.trans hs.alone, hwindow ▸ hs.window⟩
  · rw [hs.resume]
    exact ⟨hs.alone, hs.window.next⟩
  · rw [hs.resume]
    exact ⟨hs.alone, hs.window.setNewlines shown⟩
  · have hdirective := hs.window.tokenKind
    simp [Token.isDirective, hkind] at hdirective

theorem Reaches.plain (h : Reaches c s t) (hs : s.Plain) : t.Plain := by
  induction h with
  | refl => exact hs
  | act _ last ih => exact last.plain ih

/-! ### Errors are kept -/

theorem openInclude_errors (c : Settings) (s : Session) (target : String) (span : Span) :
    s.errors.toList <+: (openInclude c s target span).errors.toList := by
  unfold openInclude
  dsimp only
  split
  · simp [report]
  · split <;> simp [report]

theorem Act.errors_prefix (h : Act c s t) : s.errors.toList <+: t.errors.toList := by
  cases h with
  | report => simp [Session.report]
  | directive =>
    have hmoved : s.errors.toList <+: ({ s with window := s.window.next.2 }.report s.window.next.1.toList).errors.toList := by
      simp [Session.report]
    exact hmoved.trans (openInclude_errors c _ _ _)
  | leaveFunction =>
    unfold Session.leaveFunction
    split <;> exact prefix_rfl
  | addName =>
    unfold Session.addName
    split <;> exact prefix_rfl
  | addGlobal =>
    unfold Session.addGlobal
    split <;> exact prefix_rfl
  | next | newlines | markers | openBlock | closeBlock | addLocal | addGoto | addLabel | raiseDeferred | allowVararg
  | enterFunction | openScope | closeScope | restore => exact prefix_rfl

theorem Reaches.errors_prefix (h : Reaches c s t) : s.errors.toList <+: t.errors.toList := by
  induction h with
  | refl => exact prefix_rfl
  | act _ last ih => exact ih.trans last.errors_prefix

def Clean (s : Session) : Prop := ∀ d ∈ s.errors.toList, d.fault.isFlow = true

theorem Clean.of_reaches (h : Reaches c s t) (ht : t.Clean) : s.Clean :=
  fun d hd => ht d (h.errors_prefix.subset hd)

end Session

end CartLua
