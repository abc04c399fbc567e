import CartLua.Proofs.Continuation
import CartLua.Proofs.ProgramReading
import CartLua.Proofs.ProgramSimulation
/-!
# Programs with a sequel

A program is read beside one that has the same text and goes on behind it on a new line, with a semicolon or an include
line. The windows show the same tokens up to the end of the first text. What the second one shows there depends on whether
line ends are shown: the end of the last line, or the token that follows it.
-/

namespace CartLua

open List Token Cursor

namespace Cursor

variable {mode : Encoding} {c next : Cursor} {t : Token} {rest : List Char}

theorem scan_semicolon {more : List Char} (h : c.rest = ';' :: more) :
    c.scan mode = .token ⟨.symbol .semicolon, ";", c.spanTo (c.skip 1)⟩ (c.skip 1) := by
  have htrivia : Trivia.read (';' :: more) = .clear 0 := Trivia.read_blanks (forall_mem_nil _) rfl rfl
  unfold scan
  rw [h, htrivia]
  dsimp only
  rw [skip_zero, h]
  rfl

theorem line_nextToken (mode : Encoding) (c : Cursor) : c.position.line ≤ (c.nextToken mode).1.span.start.line := by
  induction c using scan_induction mode with
  | done c eof next h =>
    obtain ⟨-, rfl, n, rfl⟩ := scan_done h
    rw [nextToken_of_done h]
    exact c.line_skip n
  | token c t next h _ =>
    obtain ⟨n, _, _, _, _, _, _, _, _, _, _, hspan⟩ := scan_token h
    rw [nextToken_of_token h, hspan]
    exact c.line_skip n
  | fault c d next h ih =>
    obtain ⟨n, rfl⟩ := scan_fault h
    rw [nextToken_of_fault h]
    exact (c.line_skip n).trans ih

theorem nextToken_newline (h : c.rest = '\n' :: rest) : c.nextToken mode = (c.skip 1).nextToken mode := by
  have hscan : c.scan mode = (c.skip 1).scan mode := scan_newline h
  cases hthis : c.scan mode with
  | done => rw [nextToken_of_done hthis, nextToken_of_done (hscan.symm.trans hthis)]
  | token => rw [nextToken_of_token hthis, nextToken_of_token (hscan.symm.trans hthis)]
  | fault => rw [nextToken_of_fault hthis, nextToken_of_fault (hscan.symm.trans hthis)]

theorem sound_newline (h : c.rest = '\n' :: rest) (n : Nat) : c.sound mode n = (c.skip 1).sound mode n := by
  cases n with
  | zero => rfl
  | succ => rw [sound, sound, scan_newline h]

theorem sound_nextToken_succ {n : Nat} (h : c.sound mode (n + 1) = true) : (c.nextToken mode).2.sound mode n = true := by
  unfold sound at h
  cases hscan : c.scan mode with
  | done =>
    obtain ⟨hrest, -, -⟩ := scan_done hscan
    rw [nextToken_of_done hscan]
    cases n with
    | zero => rfl
    | succ => rw [sound, scan_nil hrest]
  | token =>
    rw [hscan] at h
    rw [nextToken_of_token hscan]
    exact h
  | fault =>
    rw [hscan] at h
    cases h

theorem fetch_of_sound {w : Window} (h : w.cursor.sound w.encoding 1 = true) : w.fetch.1 = none := by
  unfold sound at h
  unfold Window.fetch
  split
  · rfl
  · rfl
  next hscan =>
    rw [hscan] at h
    cases h

end Cursor

theorem Cartridge.code_append {text : List Char} (h : ¬header <+: text) (more : List Char) (file : FileId) :
    code (text ++ '\n' :: more) file = (code text file).extend ('\n' :: more) := by
  have hheader : ¬header <+: text ++ '\n' :: more := by
    intro hlong
    obtain hprefix | ⟨behind, hbehind⟩ := prefix_or_prefix_of_prefix hlong (prefix_append text ('\n' :: more))
    · exact h hprefix
    · rw [← hbehind, prefix_append_right_inj] at hlong
      cases behind with
      | nil => exact h (by rw [← hbehind, append_nil])
      | cons =>
        obtain ⟨rfl, -⟩ := cons_prefix_cons.mp hlong
        have hmem : '\n' ∈ header := by simp [← hbehind]
        exact absurd hmem (by decide)
  rw [← isPrefixOf_iff_prefix] at h hheader
  rw [code, code, if_neg h, if_neg hheader]
  rfl

/-- What follows behind the line `line` on a new one: the token `stop`, and the rest of the text from `behind` on. Unless
it is followed by more, the token is a semicolon on a line of its own. Faults are met in what stands behind it only where
the text is broken there, or faulty. -/
structure StopsAt (mode : Encoding) (followed faulty broken : Prop) (line : Nat) (stop : Token) (behind : Cursor) : Prop where
  isStop : stop.isStop = true
  isNewline : stop.isNewline = false
  below : line < stop.span.start.line
  semicolon : ¬followed → stop.kind = .symbol .semicolon ∧ stop.span.stop.line < (behind.nextToken mode).1.span.start.line
  whole : ¬broken → behind.sound mode 1 = true
  faultless : ¬faulty → (behind.nextToken mode).2.sound mode 1 = true

def Sequel (mode : Encoding) (followed faulty broken : Prop) (more : List Char) : Prop :=
  ∀ e : Cursor, e.rest = [] → ∃ stop behind, (e.extend ('\n' :: more)).scan mode = .token stop behind ∧
    StopsAt mode followed faulty broken e.position.line stop behind

theorem Sequel.stopsAt {mode : Encoding} {followed faulty broken : Prop} {more : List Char} {e behind : Cursor} {stop : Token}
    (h : Sequel mode followed faulty broken more) (hrest : e.rest = [])
    (hscan : (e.extend ('\n' :: more)).scan mode = .token stop behind) :
    StopsAt mode followed faulty broken e.position.line stop behind := by
  obtain ⟨_, _, hstop, hstops⟩ := h e hrest
  obtain ⟨rfl, rfl⟩ := Scan.token.inj (hscan.symm.trans hstop)
  exact hstops

namespace Window

/-- Where two windows stand of which the second one is over a text with a sequel. -/
inductive Place (mode : Encoding) (more : List Char) (followed : Prop) (w w' : Window) : Prop where
  /-- Both tokens belong to the first text. -/
  | within (htoken : w'.token = w.token) (hopen : w.token.isEof = false) (hlookahead : w'.lookahead = w.lookahead)
    (hmore : w.lookahead.isEof = false) (hcursor : w'.cursor = w.cursor.extend ('\n' :: more))
    (hline : w.lookahead.span.stop.line ≤ w.cursor.position.line)
  /-- The token is the last one of the first text. -/
  | last (htoken : w'.token = w.token) (hopen : w.token.isEof = false) (hrest : w.cursor.rest = [])
    (hlookahead : w.lookahead = Token.eof w.cursor.position)
    (hscan : (w.cursor.extend ('\n' :: more)).scan mode = .token w'.lookahead w'.cursor)
    (hline : w.token.isNewline = false → w.token.span.stop.line ≤ w.cursor.position.line)
  /-- The second window shows that the last line of the first text ends. -/
  | lineEnd (htoken : w.token.isEof = true) (hlookahead : w.lookahead.isEof = true) (hrest : w.cursor.rest = [])
    (hmode : w.newlines = true) (hnewline : w'.token.isNewline = true)
    (hscan : (w.cursor.extend ('\n' :: more)).scan mode = .token w'.lookahead w'.cursor)
  /-- The second window shows what follows. -/
  | beyond (htoken : w.token.isEof = true) (hlookahead : w.lookahead.isEof = true) (hrest : w.cursor.rest = [])
    (hmode : w.newlines = true → ¬followed) (behind : Cursor)
    (hscan : (w.cursor.extend ('\n' :: more)).scan mode = .token w'.token behind)
    (hnext : (w'.lookahead, w'.cursor) = behind.nextToken mode)

/-- The second window stands at the same place of a text with a sequel. -/
structure Leads (mode : Encoding) (more : List Char) (followed : Prop) (w w' : Window) : Prop where
  encoding : w.encoding = mode
  encoding' : w'.encoding = mode
  newlines : w.newlines = w'.newlines
  previous : w.previous = w'.previous
  file : w.file = w'.file
  place : Place mode more followed w w'

namespace Leads

variable {mode : Encoding} {more : List Char} {followed faulty broken : Prop} {w w' : Window}

theorem withPrevious (h : Leads mode more followed w w') (p : Token) :
    Leads mode more followed { w with previous := p } { w' with previous := p } :=
  ⟨h.encoding, h.encoding', h.newlines, rfl, h.file, by
    cases h.place with
    | within htoken hopen hlookahead hmore hcursor hline => exact .within htoken hopen hlookahead hmore hcursor hline
    | last htoken hopen hrest hlookahead hscan hline => exact .last htoken hopen hrest hlookahead hscan hline
    | lineEnd htoken hlookahead hrest hmode hnewline hscan => exact .lineEnd htoken hlookahead hrest hmode hnewline hscan
    | beyond htoken hlookahead hrest hmode behind hscan hnext => exact .beyond htoken hlookahead hrest hmode behind hscan hnext⟩

theorem ended (h : Leads mode more followed w w') (heof : w.token.isEof = true) :
    w.lookahead.isEof = true ∧ w.cursor.rest = [] := by
  cases h.place with
  | within _ hopen | last _ hopen =>
    rw [hopen] at heof
    cases heof
  | lineEnd _ hlookahead hrest | beyond _ hlookahead hrest => exact ⟨hlookahead, hrest⟩

theorem token (h : Leads mode more followed w w') (hopen : w.token.isEof = false) : w'.token = w.token := by
  cases h.place with
  | within htoken | last htoken => exact htoken
  | lineEnd heof | beyond heof =>
    rw [hopen] at heof
    cases heof

end Leads

section Moves

variable {mode : Encoding} {more : List Char} {followed faulty broken : Prop} {w w' : Window}

theorem place_fetch (w w' : Window) (hsequel : Sequel mode followed faulty broken more) (hencoding : w.encoding = mode)
    (hencoding' : w'.encoding = mode) (htoken : w'.token = w.token) (hopen : w.token.isEof = false)
    (hcursor : w'.cursor = w.cursor.extend ('\n' :: more))
    (hline : w.token.isNewline = false → w.token.span.stop.line ≤ w.cursor.position.line) (hnone : w.fetch.1 = none) :
    w'.fetch.1 = none ∧ Place mode more followed w.fetch.2 w'.fetch.2 := by
  unfold fetch at hnone ⊢
  rw [hencoding] at hnone ⊢
  rw [hencoding', hcursor]
  cases hscan : w.cursor.scan mode with
  | fault =>
    rw [hscan] at hnone
    cases hnone
  | token =>
    rw [scan_extend_of_token hscan]
    obtain ⟨_, _, _, _, _, _, _, _, _, _, _, hspan⟩ := scan_token hscan
    refine ⟨rfl, .within htoken hopen rfl (isEof_of_scan hscan) rfl ?_⟩
    rw [hspan]
    exact le_rfl
  | done eof next =>
    obtain ⟨hrest, rfl, n, hskip⟩ := scan_done hscan
    obtain ⟨stop, behind, hstop, -⟩ := hsequel next hrest
    rw [scan_extend_of_done hscan, hstop]
    refine ⟨rfl, .last htoken hopen hrest rfl hstop fun hnewline => (hline hnewline).trans ?_⟩
    rw [hskip]
    exact w.cursor.line_skip n

theorem place_fetch_beyond (w w' : Window) {behind : Cursor} (hencoding' : w'.encoding = mode) (htoken : w.token.isEof = true)
    (hrest : w.cursor.rest = []) (hmode : w.newlines = true → ¬followed)
    (hscan : (w.cursor.extend ('\n' :: more)).scan mode = .token w'.token behind) (hcursor : w'.cursor = behind) :
    w.fetch.1 = none ∧ Place mode more followed w.fetch.2 w'.fetch.2 := by
  have hfetch : w.fetch = (none, { w with lookahead := eof w.cursor.position }) := by
    unfold fetch
    rw [scan_nil hrest]
  rw [hfetch, fetch_eq w', hencoding', hcursor]
  exact ⟨rfl, .beyond htoken rfl hrest hmode behind hscan rfl⟩

theorem fetch_behind (hsequel : Sequel mode followed faulty broken more) (hencoding : w.encoding = mode) {e : Cursor}
    (hrest : e.rest = []) {stop : Token} (hscan : (e.extend ('\n' :: more)).scan mode = .token stop w.cursor) :
    w.fetch.1 = none ∨ broken := by
  by_cases hbroken : broken
  · exact .inr hbroken
  · left
    apply fetch_of_sound
    rw [hencoding]
    exact (hsequel.stopsAt hrest hscan).whole hbroken

theorem fetch_encoding (w : Window) : w.fetch.2.encoding = w.encoding := by rw [fetch_eq]

theorem next_encoding (w : Window) : w.next.2.encoding = w.encoding := by
  unfold Window.next
  split
  · rfl
  · exact fetch_encoding _

theorem setNewlines_encoding (w : Window) (shown : Bool) : (w.setNewlines shown).2.encoding = w.encoding := by
  obtain h | ⟨-, -, h⟩ := w.setNewlines_cases shown
  · rw [h]
  · rw [h]
    exact fetch_encoding _

theorem next_of_atLineEnd (h : w.atLineEnd = true) :
    w.next = (none, { w with previous := w.token, token := newline w.token.span.stop }) := if_pos h

theorem next_of_not_atLineEnd (h : w.atLineEnd = false) :
    w.next = fetch { w with previous := w.token, token := w.lookahead } := if_neg (by simp [h])

theorem setNewlines_true (w : Window) : w.setNewlines true = (none, { w with newlines := true }) := rfl

theorem setNewlines_false_of_newline (h : w.token.isNewline = true) :
    w.setNewlines false = fetch { w with newlines := false, token := w.lookahead } := if_pos (by simp [h])

theorem setNewlines_false_of_not_newline (h : w.token.isNewline = false) :
    w.setNewlines false = (none, { w with newlines := false }) := if_neg (by simp [h])

variable (hsequel : Sequel mode followed faulty broken more) (h : Leads mode more followed w w')

include hsequel h

theorem Leads.isStop (heof : w.token.isEof = true) : w'.token.isStop = true := by
  cases h.place with
  | within _ hopen | last _ hopen =>
    rw [hopen] at heof
    cases heof
  | lineEnd _ _ _ _ hnewline =>
    unfold Token.isNewline at hnewline
    unfold Token.isStop
    split at hnewline <;> simp_all
  | beyond _ _ hrest _ behind hscan => exact (hsequel.stopsAt hrest hscan).isStop

theorem Leads.lookahead (hopen : w.token.isEof = false) : w.lookahead.isSymbol .assign = w'.lookahead.isSymbol .assign := by
  cases h.place with
  | within _ _ hlookahead => rw [hlookahead]
  | last _ _ hrest hlookahead hscan =>
    have hkind := (hsequel.stopsAt hrest hscan).isStop
    unfold Token.isStop at hkind
    unfold Token.isSymbol
    split at hkind <;> simp_all [Token.eof]
  | lineEnd heof | beyond heof =>
    rw [hopen] at heof
    cases heof

theorem Leads.next (hopen : w.token.isEof = false) (hnone : w.next.1 = none) :
    (Leads mode more followed w.next.2 w'.next.2 ∧
        (w'.next.1 = none ∨ (broken ∧ w.next.2.token.isEof = true))) ∨
      (w.token.isNewline = true ∧ w.next.2.token.isEof = true ∧ w.next.2.lookahead.isEof = true ∧
        w.next.2.cursor.rest = []) := by
  have htoken := h.token hopen
  have hfile : w.next.2.file = w'.next.2.file := by rw [next_file, next_file, h.file]
  have hleads : ∀ hplace : Place mode more followed w.next.2 w'.next.2, Leads mode more followed w.next.2 w'.next.2 := by
    intro hplace
    refine ⟨?_, ?_, ?_, ?_, hfile, hplace⟩
    · rw [next_encoding, h.encoding]
    · rw [next_encoding, h.encoding']
    · rw [next_newlines, next_newlines, h.newlines]
    · rw [next_previous, next_previous, htoken]
  cases h.place with
  | within _ _ hlookahead hmore hcursor hline =>
    have hsame : w'.atLineEnd = w.atLineEnd := by
      unfold atLineEnd
      rw [htoken, hlookahead, h.newlines]
    cases hbreak : w.atLineEnd with
    | true =>
      rw [hbreak] at hsame
      rw [next_of_atLineEnd hbreak, next_of_atLineEnd hsame] at hleads ⊢
      refine .inl ⟨hleads (.within ?_ rfl hlookahead hmore hcursor hline), .inl rfl⟩
      rw [htoken]
    | false =>
      rw [hbreak] at hsame
      rw [next_of_not_atLineEnd hbreak] at hnone
      rw [next_of_not_atLineEnd hbreak, next_of_not_atLineEnd hsame] at hleads ⊢
      obtain ⟨hnone', hplace⟩ := place_fetch { w with previous := w.token, token := w.lookahead }
        { w' with previous := w'.token, token := w'.lookahead } hsequel h.encoding h.encoding' hlookahead hmore
        hcursor (fun _ => hline) hnone
      exact .inl ⟨hleads hplace, .inl hnone'⟩
  | last _ _ hrest hlookahead hscan hline =>
    have hend : (fetch { w with previous := w.token, token := w.lookahead }) =
        (none, { w with previous := w.token, token := w.lookahead, lookahead := eof w.cursor.position }) := by
      unfold fetch
      rw [scan_nil hrest]
    cases hnewline : w.token.isNewline with
    | true =>
      right
      rw [next_of_not_atLineEnd (by simp [atLineEnd, hnewline]), hend]
      exact ⟨rfl, by rw [hlookahead]; rfl, rfl, hrest⟩
    | false =>
      have hbreak' : w'.atLineEnd = w.newlines := by
        have hlt := (hline hnewline).trans_lt (hsequel.stopsAt hrest hscan).below
        simp [atLineEnd, htoken, hnewline, hopen, ← h.newlines, hlt]
      left
      cases hmode : w.newlines with
      | false =>
        rw [hmode] at hbreak'
        rw [next_of_not_atLineEnd (by simp [atLineEnd, hmode]), next_of_not_atLineEnd hbreak'] at hleads ⊢
        obtain ⟨-, hplace⟩ := place_fetch_beyond { w with previous := w.token, token := w.lookahead }
          { w' with previous := w'.token, token := w'.lookahead } h.encoding' (by rw [hlookahead]; rfl) hrest
          (fun h => absurd (hmode.symm.trans h) Bool.false_ne_true) hscan rfl
        have hbehind := fetch_behind (w := { w' with previous := w'.token, token := w'.lookahead }) hsequel
          h.encoding' hrest hscan
        exact ⟨hleads hplace, hbehind.imp id fun hbroken => ⟨hbroken, by rw [hend, hlookahead]; rfl⟩⟩
      | true =>
        rw [hmode] at hbreak'
        cases hbreak : w.atLineEnd with
        | true =>
          rw [next_of_atLineEnd hbreak, next_of_atLineEnd hbreak'] at hleads ⊢
          refine ⟨hleads (.last ?_ rfl hrest hlookahead hscan fun h => absurd h.symm Bool.false_ne_true), .inl rfl⟩
          rw [htoken]
        | false =>
          rw [next_of_not_atLineEnd hbreak, next_of_atLineEnd hbreak', hend] at hleads ⊢
          exact ⟨hleads (.lineEnd (by rw [hlookahead]; rfl) rfl hrest hmode rfl hscan), .inl rfl⟩
  | lineEnd heof | beyond heof =>
    rw [hopen] at heof
    cases heof

theorem Leads.setNewlines {shown : Bool} (hmode : w.token.isEof = true → shown = true ∧ (w.newlines = true ∨ ¬followed) ∨ shown = false ∧ followed)
    (hnone : (w.setNewlines shown).1 = none) :
    Leads mode more followed (w.setNewlines shown).2 (w'.setNewlines shown).2 ∧
      ((w'.setNewlines shown).1 = none ∨ broken) := by
  have hfile : (w.setNewlines shown).2.file = (w'.setNewlines shown).2.file := by
    rw [setNewlines_file, setNewlines_file, h.file]
  have hleads : ∀ hplace : Place mode more followed (w.setNewlines shown).2 (w'.setNewlines shown).2,
      Leads mode more followed (w.setNewlines shown).2 (w'.setNewlines shown).2 := by
    intro hplace
    refine ⟨?_, ?_, ?_, ?_, hfile, hplace⟩
    · rw [setNewlines_encoding, h.encoding]
    · rw [setNewlines_encoding, h.encoding']
    · rw [setNewlines_newlines, setNewlines_newlines]
    · rw [setNewlines_previous, setNewlines_previous, h.previous]
  cases shown with
  | true =>
    refine ⟨hleads ?_, .inl rfl⟩
    cases h.place with
    | within htoken hopen hlookahead hmore hcursor hline => exact .within htoken hopen hlookahead hmore hcursor hline
    | last htoken hopen hrest hlookahead hscan hline => exact .last htoken hopen hrest hlookahead hscan hline
    | lineEnd htoken hlookahead hrest _ hnewline hscan => exact .lineEnd htoken hlookahead hrest rfl hnewline hscan
    | beyond htoken hlookahead hrest hshown behind hscan hnext =>
      refine .beyond htoken hlookahead hrest (fun _ => ?_) behind hscan hnext
      obtain ⟨-, hthis⟩ | ⟨hthis, -⟩ := hmode htoken
      · exact hthis.elim hshown id
      · cases hthis
  | false =>
    cases h.place with
    | within htoken hopen hlookahead hmore hcursor hline =>
      cases hnewline : w.token.isNewline with
      | true =>
        have hnewline' : w'.token.isNewline = true := by rw [htoken, hnewline]
        rw [setNewlines_false_of_newline hnewline] at hnone
        rw [setNewlines_false_of_newline hnewline, setNewlines_false_of_newline hnewline'] at hleads ⊢
        obtain ⟨hnone', hplace⟩ := place_fetch { w with newlines := false, token := w.lookahead }
          { w' with newlines := false, token := w'.lookahead } hsequel h.encoding h.encoding' hlookahead hmore
          hcursor (fun _ => hline) hnone
        exact ⟨hleads hplace, .inl hnone'⟩
      | false =>
        have hnewline' : w'.token.isNewline = false := by rw [htoken, hnewline]
        rw [setNewlines_false_of_not_newline hnewline, setNewlines_false_of_not_newline hnewline'] at hleads ⊢
        exact ⟨hleads (.within htoken hopen hlookahead hmore hcursor hline), .inl rfl⟩
    | last htoken hopen hrest hlookahead hscan hline =>
      cases hnewline : w.token.isNewline with
      | true =>
        have hnewline' : w'.token.isNewline = true := by rw [htoken, hnewline]
        rw [setNewlines_false_of_newline hnewline, setNewlines_false_of_newline hnewline'] at hleads ⊢
        obtain ⟨-, hplace⟩ := place_fetch_beyond { w with newlines := false, token := w.lookahead }
          { w' with newlines := false, token := w'.lookahead } h.encoding' (by rw [hlookahead]; rfl) hrest
          nofun hscan rfl
        exact ⟨hleads hplace, fetch_behind hsequel h.encoding' hrest hscan⟩
      | false =>
        have hnewline' : w'.token.isNewline = false := by rw [htoken, hnewline]
        rw [setNewlines_false_of_not_newline hnewline, setNewlines_false_of_not_newline hnewline'] at hleads ⊢
        exact ⟨hleads (.last htoken hopen hrest hlookahead hscan hline), .inl rfl⟩
    | lineEnd htoken hlookahead hrest _ hnewline' hscan =>
      rw [setNewlines_false_of_not_newline (isNewline_of_isEof htoken), setNewlines_false_of_newline hnewline']
        at hleads ⊢
      refine ⟨hleads ?_, fetch_behind hsequel h.encoding' hrest hscan⟩
      rw [fetch_eq]
      refine .beyond htoken hlookahead hrest nofun w'.cursor hscan ?_
      rw [h.encoding']
    | beyond htoken hlookahead hrest hshown behind hscan hnext =>
      have hnewline' := (hsequel.stopsAt hrest hscan).isNewline
      rw [setNewlines_false_of_not_newline (isNewline_of_isEof htoken),
        setNewlines_false_of_not_newline hnewline'] at hleads ⊢
      exact ⟨hleads (.beyond htoken hlookahead hrest nofun behind hscan hnext), .inl rfl⟩

/-- Where line ends are shown at the end of the first text, the second window shows one, or shows it next. -/
theorem Leads.lineEnds (heof : w.token.isEof = true) (hmode : w.newlines = true) : w'.token.isNewline = true ∨
      (¬followed ∧ w'.token.kind = .symbol .semicolon ∧ w'.next.1 = none ∧ w'.next.2.token.isNewline = true) := by
  cases h.place with
  | within _ hopen | last _ hopen =>
    rw [hopen] at heof
    cases heof
  | lineEnd _ _ _ _ hnewline => exact .inl hnewline
  | beyond _ _ hrest hshown behind hscan hnext =>
    have hstops := hsequel.stopsAt hrest hscan
    obtain ⟨hkind, hbelow⟩ := hstops.semicolon (hshown hmode)
    have hbreak : w'.atLineEnd = true := by
      rw [← hnext] at hbelow
      simp [atLineEnd, ← h.newlines, hmode, hstops.isNewline, isEof, hkind, hbelow]
    rw [next_of_atLineEnd hbreak]
    exact .inr ⟨hshown hmode, hkind, rfl, rfl⟩

theorem Leads.next_semicolon (hfaulty : ¬faulty) (heof : w.token.isEof = true) (hkind : w'.token.kind = .symbol .semicolon) : w'.next.1 = none := by
  cases h.place with
  | within _ hopen | last _ hopen =>
    rw [hopen] at heof
    cases heof
  | lineEnd _ _ _ _ hnewline => simp [isNewline, hkind] at hnewline
  | beyond _ _ hrest _ behind hscan hnext =>
    cases hbreak : w'.atLineEnd with
    | true => rw [next_of_atLineEnd hbreak]
    | false =>
      rw [next_of_not_atLineEnd hbreak]
      apply fetch_of_sound
      rw [h.encoding', show w'.cursor = (behind.nextToken mode).2 from congrArg Prod.snd hnext]
      exact (hsequel.stopsAt hrest hscan).faultless hfaulty

omit hsequel h in
theorem start_leads {text text' : String} (hsequel : Sequel mode followed faulty broken more)
    (hheader : ¬Cartridge.header <+: text.toList)
    (htext : text'.toList = text.toList ++ '\n' :: more) {file : FileId} (hnone : (ofText mode text file).start.1 = none) :
    Leads mode more followed (ofText mode text file).start.2 (ofText mode text' file).start.2 := by
  rw [start_eq] at hnone ⊢
  rw [start_eq]
  obtain ⟨hfirst, hsecond⟩ := Option.or_eq_none_iff.mp hnone
  have hencoding : ∀ text : String, (ofText mode text file).atFirst.encoding = mode := fun text => fetch_encoding _
  have hnewlines : ∀ text : String, (ofText mode text file).atFirst.newlines = false := fun text => fetch_newlines _
  have hprevious : ∀ text : String, (ofText mode text file).atFirst.previous = eof { file } :=
    fun text => fetch_previous _
  have hfile : ∀ text : String, (ofText mode text file).atFirst.file = file :=
    fun text => (fetch_file (ofText mode text file)).trans (Cartridge.code_file _ _)
  refine ⟨?_, ?_, ?_, ?_, ?_, ?_⟩
  · rw [fetch_encoding, hencoding]
  · rw [fetch_encoding, hencoding]
  · rw [fetch_newlines, fetch_newlines, hnewlines, hnewlines]
  · rw [fetch_previous, fetch_previous, hprevious, hprevious]
  · rw [fetch_file, fetch_file, hfile, hfile]
  have hplace : ∀ text : String, ((ofText mode text file).atFirst.token, (ofText mode text file).atFirst.cursor) =
      (Cartridge.code text.toList file).nextToken mode := by
    intro text
    rw [atFirst, fetch_eq]
    rfl
  have hcode : Cartridge.code text'.toList file = (Cartridge.code text.toList file).extend ('\n' :: more) := by
    rw [htext, Cartridge.code_append hheader]
  cases hscan : (Cartridge.code text.toList file).scan mode with
  | fault =>
    rw [fetch, show (ofText mode text file).cursor.scan (ofText mode text file).encoding = _ from hscan] at hfirst
    cases hfirst
  | token =>
    have hscan' := scan_extend_of_token hscan more
    rw [← hcode] at hscan'
    obtain ⟨htoken, hcursor⟩ := Prod.mk.inj ((hplace text).trans (nextToken_of_token hscan))
    obtain ⟨htoken', hcursor'⟩ := Prod.mk.inj ((hplace text').trans (nextToken_of_token hscan'))
    obtain ⟨_, _, _, _, _, _, _, _, _, _, _, hspan⟩ := scan_token hscan
    refine (place_fetch _ _ hsequel (hencoding text) (hencoding text') ?_ ?_ ?_ ?_ hsecond).2
    · rw [htoken, htoken']
    · rw [htoken]
      exact isEof_of_scan hscan
    · rw [hcursor, hcursor']
    · rw [htoken, hcursor, hspan]
      exact fun _ => le_rfl
  | done eof next =>
    obtain ⟨hrest, rfl, -⟩ := scan_done hscan
    obtain ⟨stop, behind, hstop, -⟩ := hsequel next hrest
    have hscan' := scan_extend_of_done hscan more
    rw [← hcode, hstop] at hscan'
    obtain ⟨htoken, hcursor⟩ := Prod.mk.inj ((hplace text).trans (nextToken_of_done hscan))
    obtain ⟨htoken', hcursor'⟩ := Prod.mk.inj ((hplace text').trans (nextToken_of_token hscan'))
    refine (place_fetch_beyond _ _ (hencoding text') ?_ ?_ (fun h => absurd ((hnewlines text).symm.trans h) Bool.false_ne_true) ?_ hcursor').2
    · rw [htoken]
      rfl
    · rw [hcursor]
      exact hrest
    · rw [hcursor, htoken']
      exact hstop

end Moves

end Window

/-! ### Sessions -/

namespace Session

/-- Two stacks of windows that differ in the document at the bottom only. -/
inductive Stacked (R : Window → Window → Prop) : Window → List Suspended → Window → List Suspended → Prop where
  | root {w w' : Window} (h : R w w') : Stacked R w [] w' []
  | above (w : Window) {below below' : Suspended} {rest rest' : List Suspended} (hspan : below.span = below'.span)
    (h : Stacked R below.window rest below'.window rest') : Stacked R w (below :: rest) w (below' :: rest')

namespace Stacked

variable {R : Window → Window → Prop} {w w' : Window} {ws ws' : List Suspended}

theorem withPrevious (hR : ∀ {w w'} p, R w w' → R { w with previous := p } { w' with previous := p })
    (h : Stacked R w ws w' ws') (p : Token) : Stacked R { w with previous := p } ws { w' with previous := p } ws' := by
  cases h with
  | root h => exact .root (hR p h)
  | above w hspan h => exact .above _ hspan h

theorem unwind (hR : ∀ {w w'} p, R w w' → R { w with previous := p } { w' with previous := p })
    (h : Stacked R w ws w' ws') :
    Stacked R (unwind w ws).1 (unwind w ws).2 (Session.unwind w' ws').1 (Session.unwind w' ws').2 := by
  induction ws generalizing w w' ws' with
  | nil =>
    cases h with
    | root h => exact .root h
  | cons below rest ih =>
    cases h with
    | above _ hspan h =>
      rw [Session.unwind, Session.unwind]
      split
      · exact ih (h.withPrevious hR _)
      · exact .above _ hspan h

theorem documents (hR : ∀ {w w'}, R w w' → w.file = w'.file) (h : Stacked R w ws w' ws') : w.file = w'.file ∧
    ws.map (·.window.file) = ws'.map (·.window.file) ∧ ws.map (·.span) = ws'.map (·.span) := by
  induction h with
  | root h => exact ⟨hR h, rfl, rfl⟩
  | above w hspan _ ih =>
    obtain ⟨hfile, hfiles, hspans⟩ := ih
    refine ⟨rfl, ?_, ?_⟩
    · rw [map_cons, map_cons, hfile, hfiles]
    · rw [map_cons, map_cons, hspan, hspans]

end Stacked

theorem open_unwind (w : Window) (ws : List Suspended) (h : (unwind w ws).2 ≠ []) : (unwind w ws).1.token.isEof = false := by
  induction ws generalizing w with
  | nil => exact absurd rfl h
  | cons below rest ih =>
    rw [unwind] at h ⊢
    split
    next heof =>
      rw [if_pos heof] at h
      exact ih _ h
    next heof => simpa using heof

variable {c c' : Settings} {s s' t : Session}

theorem Stacked.openInclude {R : Window → Window → Prop} (hR : ∀ {w w'}, R w w' → w.file = w'.file)
    (hstore : c.store = c'.store) (hencoding : c.encoding = c'.encoding) (hfiles : s.files = s'.files)
    (h : Stacked R s.window s.suspended s'.window s'.suspended) (target : String) (span : Span) :
    Stacked R (openInclude c s target span).window (Session.openInclude c s target span).suspended
        (Session.openInclude c' s' target span).window (Session.openInclude c' s' target span).suspended ∧
      (Session.openInclude c s target span).files = (Session.openInclude c' s' target span).files := by
  obtain ⟨hfile, hbelow, -⟩ := h.documents hR
  have hcurrent : s.currentFile = s'.currentFile := by rw [currentFile, currentFile, hfile, hfiles]
  unfold Session.openInclude
  dsimp only
  rw [hcurrent, openFiles_congr hfile hbelow hfiles, hstore, hencoding, hfiles]
  split
  · exact ⟨h, hfiles⟩
  · split
    · exact ⟨h, rfl⟩
    · exact ⟨.above _ rfl h, rfl⟩

theorem Alike.passInclude {m : Mask} {counted : Prop} (hcounted : ¬counted) (h : Alike m counted s s') :
    Alike m counted (s.passInclude c) (s'.passInclude c') := by
  obtain ⟨w, ws, files, errors, hopened⟩ := openInclude_eq c s.behindLine s.window.token.text s.window.token.span
  obtain ⟨w', ws', files', errors', hopened'⟩ := openInclude_eq c' s'.behindLine s'.window.token.text s'.window.token.span
  rw [passInclude_eq, passInclude_eq, hopened, hopened']
  exact ⟨h.markers, h.flow, h.outerFlows, h.scopes, h.globals, fun h => absurd h hcounted⟩

/-- The second session has the same documents open, with a sequel to the one at the bottom. -/
structure Leads (mode : Encoding) (more : List Char) (followed : Prop) (s s' : Session) : Prop where
  stack : Stacked (Window.Leads mode more followed) s.window s.suspended s'.window s'.suspended
  files : s.files = s'.files
  isOpen : s.suspended ≠ [] → s.window.token.isEof = false

namespace Leads

variable {mode : Encoding} {more : List Char} {followed faulty broken : Prop} {w w' : Window}

theorem resume (hfiles : s.files = s'.files)
    (h : Stacked (Window.Leads mode more followed) w s.suspended w' s'.suspended) :
    Leads mode more followed (s.resume w) (s'.resume w') :=
  ⟨h.unwind fun p hw => hw.withPrevious p, hfiles, open_unwind w s.suspended⟩

theorem ended (h : Leads mode more followed s s') (heof : s.window.token.isEof = true) :
    s.Ended ∧ s'.suspended = [] ∧ Window.Leads mode more followed s.window s'.window := by
  obtain ⟨hstack, -, hopen⟩ := h
  have halone : s.suspended = [] := by
    by_contra hne
    rw [hopen hne] at heof
    cases heof
  generalize hws : s.suspended = ws at hstack
  generalize hws' : s'.suspended = ws' at hstack
  generalize hw : s.window = w at hstack heof
  generalize hw' : s'.window = w' at hstack
  cases hstack with
  | root hleads =>
    obtain ⟨hlookahead, hrest⟩ := hleads.ended heof
    exact ⟨⟨hws, hw ▸ heof, hw ▸ hlookahead, hw ▸ hrest⟩, rfl, hleads⟩
  | above =>
    rw [hws] at halone
    cases halone

theorem alone_or_same (h : Leads mode more followed s s') :
    (s.suspended = [] ∧ s'.suspended = [] ∧ Window.Leads mode more followed s.window s'.window) ∨
      (s.window = s'.window ∧ s.window.token.isEof = false ∧
        ∀ w, Stacked (Window.Leads mode more followed) w s.suspended w s'.suspended) := by
  obtain ⟨hstack, -, hopen⟩ := h
  generalize s.suspended = ws at hstack hopen ⊢
  generalize s'.suspended = ws' at hstack ⊢
  generalize s.window = w at hstack hopen ⊢
  generalize s'.window = w' at hstack ⊢
  cases hstack with
  | root hleads => exact .inl ⟨rfl, rfl, hleads⟩
  | above w hspan hbelow => exact .inr ⟨rfl, hopen (cons_ne_nil _ _), fun v => .above v hspan hbelow⟩

end Leads

theorem Act.files_of_plain (h : Act c s t) (hs : s.Plain) : t.files = s.files := by
  obtain ⟨-, -, hfiles⟩ | rfl | ⟨shown, rfl⟩ | ⟨hkind, rfl⟩ := h.cases_window
  · exact hfiles
  · rfl
  · rfl
  · have hdirective := hs.window.tokenKind
    simp [isDirective, hkind] at hdirective

theorem Reaches.undisturbed_of_plain (h : Reaches c s t) (hs : s.Plain) : Undisturbed c s t := by
  have hfiles : t.files = s.files := by
    induction h with
    | refl => rfl
    | act before last ih => exact (last.files_of_plain (before.plain hs)).trans ih
  refine ⟨fun file path target contents hle hpath => ?_, by rw [(h.plain hs).alone, hs.alone]⟩
  rw [hfiles, Array.getElem?_eq_none hle] at hpath
  cases hpath

end Session

namespace Comparison

open Session

/-- A program is compared with one that has a sequel. -/
def sequel (mask : Mask) (first second : Settings) (more : List Char) (lineless followed faulty broken : Prop) :
    Comparison where
  mask := mask
  first := first
  second := second
  lenient := True
  tracked := True
  lineless := lineless
  followed := followed
  faulty := faulty
  broken := broken
  Abreast s s' := Session.Leads first.encoding more followed s s' ∧ (¬lineless → s.Plain)

variable {mask : Mask} {first second : Settings} {more : List Char} {lineless followed faulty broken : Prop}

theorem lawful_sequel (hplaces : mask.places = false) (hstore : first.store = second.store)
    (hencoding : first.encoding = second.encoding) (hsequel : Sequel first.encoding followed faulty broken more)
    (hbroken : broken → lineless) (hfollowed : followed → faulty) :
    (sequel mask first second more lineless followed faulty broken).Lawful where
  shown _ := trivial
  broken := hbroken
  followed := hfollowed
  places h := nomatch hplaces.symm.trans h
  still := by
    rintro s s' t t' ⟨hleads, hplain⟩ hst hreach hst' -
    refine ⟨⟨?_, hst.files.trans (hleads.files.trans hst'.files.symm), ?_⟩, fun h => hreach.plain (hplain h)⟩
    · rw [hst.window, hst'.window, hst.suspended, hst'.suspended]
      exact hleads.stack
    · rw [hst.window, hst.suspended]
      exact hleads.isOpen
  token := by
    rintro s s' ⟨hleads, -⟩
    cases heof : s.window.token.isEof with
    | true =>
      obtain ⟨hended, -, hwindow⟩ := hleads.ended heof
      exact .inr ⟨⟨trivial, hended⟩, hwindow.isStop hsequel heof⟩
    | false =>
      left
      obtain ⟨-, -, hwindow⟩ | ⟨hsame, -, -⟩ := hleads.alone_or_same
      · rw [hwindow.token heof]
      · rw [hsame]
  previous := by
    rintro s s' ⟨hleads, -⟩
    refine ⟨?_, Mask.position_hidden hplaces _ _⟩
    obtain ⟨-, -, hwindow⟩ | ⟨hsame, -, -⟩ := hleads.alone_or_same
    · rw [hwindow.previous]
    · rw [hsame]
  lookahead := by
    rintro s s' ⟨hleads, -⟩
    cases heof : s.window.token.isEof with
    | true => exact .inr ⟨trivial, (hleads.ended heof).1⟩
    | false =>
      left
      obtain ⟨-, -, hwindow⟩ | ⟨hsame, -, -⟩ := hleads.alone_or_same
      · exact hwindow.lookahead hsequel heof
      · rw [hsame]
  near h := absurd trivial h
  newlines := by
    rintro s s' ⟨hleads, -⟩
    left
    obtain ⟨-, -, hwindow⟩ | ⟨hsame, -, -⟩ := hleads.alone_or_same
    · exact hwindow.newlines
    · rw [hsame]
  advance := by
    rintro s s' ⟨hleads, hplain⟩ hopen -
    have hplain' : ¬lineless → (s.resume s.window.next.2).Plain := fun h => (.next s : Act first s _).plain (hplain h)
    by_cases hnone : s.window.next.1 = none
    · obtain ⟨halone, halone', hwindow⟩ | ⟨hsame, -, hstack⟩ := hleads.alone_or_same
      · obtain ⟨hnext, hfault⟩ | ⟨hnewline, heof, hlookahead, hrest⟩ := hwindow.next hsequel hopen hnone
        · have hresumed : Session.Leads first.encoding more followed (s.resume s.window.next.2)
              (s'.resume s'.window.next.2) := .resume hleads.files (by rw [halone, halone']; exact .root hnext)
          by_cases hnone' : s'.window.next.1 = none
          · rw [hnone, hnone']
            exact .inl (.inr ⟨.none, hresumed, hplain'⟩)
          · obtain ⟨hthis, heof⟩ := hfault.resolve_left hnone'
            refine .inr (.inr ⟨hthis, ⟨trivial, (hresumed.ended ?_).1⟩, hnone'⟩)
            rw [resume_alone halone]
            exact heof
        · refine .inr (.inl ⟨hnewline, trivial, ?_⟩)
          rw [resume_alone halone]
          exact ⟨halone, heof, hlookahead, hrest⟩
      · rw [hnone, ← hsame, hnone]
        exact .inl (.inr ⟨.none, .resume hleads.files (hstack _), hplain'⟩)
    · exact .inl (.inl ⟨trivial, hnone⟩)
  setNewlines := by
    rintro s s' shown ⟨hleads, hplain⟩ hmode
    have hplain' : ¬lineless → (s.resume (s.window.setNewlines shown).2).Plain :=
      fun h => (.newlines s shown : Act first s _).plain (hplain h)
    by_cases hnone : (s.window.setNewlines shown).1 = none
    · obtain ⟨halone, halone', hwindow⟩ | ⟨hsame, -, hstack⟩ := hleads.alone_or_same
      · have hallowed : s.window.token.isEof = true →
            shown = true ∧ (s.window.newlines = true ∨ ¬followed) ∨ shown = false ∧ followed := by
          intro heof
          obtain ⟨-, hthis⟩ := hmode.resolve_left fun h => h ⟨trivial, (hleads.ended heof).1⟩
          exact hthis.imp (fun h => ⟨h.1, .inl h.2⟩) id
        obtain ⟨hnext, hfault⟩ := hwindow.setNewlines hsequel hallowed hnone
        have hresumed : Session.Leads first.encoding more followed (s.resume (s.window.setNewlines shown).2)
            (s'.resume (s'.window.setNewlines shown).2) := .resume hleads.files (by rw [halone, halone']; exact .root hnext)
        obtain hnone' | hthis := hfault
        · rw [hnone, hnone']
          exact .inl (.inr ⟨.none, hresumed, hplain'⟩)
        · exact .inr ⟨trivial, hthis, hnone, hresumed, hplain'⟩
      · rw [hnone, ← hsame, hnone]
        exact .inl (.inr ⟨.none, .resume hleads.files (hstack _), hplain'⟩)
    · exact .inl (.inl ⟨trivial, hnone⟩)
  passInclude := by
    rintro s s' ⟨⟨hleads, hplain⟩, halike⟩ hkind
    have hopen : s.window.token.isEof = false := by simp [isEof, hkind]
    by_cases hnone : s.window.next.1 = none
    · right
      obtain ⟨htoken, hstack⟩ : s'.window.token = s.window.token ∧
          Stacked (Window.Leads first.encoding more followed) s.behindLine.window s.behindLine.suspended
            s'.behindLine.window s'.behindLine.suspended := by
        obtain ⟨halone, halone', hwindow⟩ | ⟨hsame, -, hstack⟩ := hleads.alone_or_same
        · obtain ⟨hnext, -⟩ | ⟨hnewline, -⟩ := hwindow.next hsequel hopen hnone
          · refine ⟨hwindow.token hopen, ?_⟩
            show Stacked _ _ s.suspended _ s'.suspended
            rw [halone, halone']
            exact .root hnext
          · simp [isNewline, hkind] at hnewline
        · refine ⟨by rw [hsame], ?_⟩
          show Stacked _ s.window.next.2 _ s'.window.next.2 _
          rw [← hsame]
          exact hstack _
      have hfiles : s.behindLine.files = s'.behindLine.files := hleads.files
      obtain ⟨hopened, hfiles⟩ := hstack.openInclude (fun h => h.file) hstore hencoding hfiles s.window.token.text
        s.window.token.span
      refine ⟨⟨?_, fun h => (.directive s hkind : Act first s _).plain (hplain h)⟩, fun _ =>
        (halike trivial).passInclude (absurd trivial)⟩
      rw [passInclude_eq, passInclude_eq, htoken]
      exact .resume hfiles hopened
    · left
      refine ⟨trivial, fun hnil => ?_⟩
      have hprefix := openInclude_errors first s.behindLine s.window.token.text s.window.token.span
      obtain ⟨d, hd⟩ := Option.ne_none_iff_exists'.mp hnone
      rw [show (s.behindLine.openInclude first s.window.token.text s.window.token.span).errors.toList = [] from hnil,
        prefix_nil] at hprefix
      simp [behindLine, Session.report, hd] at hprefix
  undisturbed h hs hreach := hreach.undisturbed_of_plain (hs.2 h)
  lineEnd := by
    rintro s s' - ⟨hleads, -⟩ hover hmode
    obtain ⟨-, halone', hwindow⟩ := hleads.ended hover.2.token
    rw [resume_alone halone']
    exact hwindow.lineEnds hsequel hover.2.token hmode
  showLines := by
    rintro s s' hthis ⟨hleads, hplain⟩ hover
    obtain ⟨-, halone', hwindow⟩ := hleads.ended hover.2.token
    obtain ⟨hnext, -⟩ := hwindow.setNewlines hsequel (fun _ => .inl ⟨rfl, .inr hthis⟩) rfl
    refine ⟨.resume hleads.files ?_, fun h => (.newlines s true : Act first s _).plain (hplain h)⟩
    rw [hover.2.alone, halone']
    exact .root hnext
  semicolon := by
    rintro s s' hthis ⟨hleads, -⟩ hover hkind
    obtain ⟨-, -, hwindow⟩ := hleads.ended hover.2.token
    exact hwindow.next_semicolon hsequel hthis hover.2.token hkind
  leaves h := absurd trivial h
  files h := absurd trivial h

end Comparison

end CartLua
