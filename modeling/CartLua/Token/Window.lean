import CartLua.Token.Scan
/-!
# Token windows

A grammar looks at three tokens at a time: the last one it has passed, the one it stands on and the one behind it. The
window slides over the tokens of one document. Where line ends matter it also shows them, as tokens of their own.
-/

namespace CartLua

/-- Three neighbouring tokens of a document. -/
structure Window where
  /-- Where reading goes on behind the lookahead. -/
  cursor : Cursor
  encoding : Encoding
  newlines : Bool := false
  previous : Token
  token : Token
  lookahead : Token
deriving Inhabited

namespace Window

def ofText (encoding : Encoding) (text : String) (file : FileId) : Window :=
  let origin := Token.eof { file }
  { cursor := Cartridge.code text.toList file, encoding, previous := origin, token := origin, lookahead := origin }

variable (w : Window)

def file : FileId := w.cursor.position.file

/-- Reads a new lookahead. When that meets a fault it is given back, and the lookahead is the first token behind it;
faults on the way there are passed over. -/
def fetch : Option Diagnostic × Window :=
  match w.cursor.scan w.encoding with
  | .done eof cursor => (none, { w with lookahead := eof, cursor })
  | .token t cursor => (none, { w with lookahead := t, cursor })
  | .fault d cursor =>
    let (t, cursor) := cursor.nextToken w.encoding
    (some d, { w with lookahead := t, cursor })

/-- Whether a line ends between the current token and the lookahead, and is to be shown. -/
def atLineEnd : Bool :=
  w.newlines && !w.token.isNewline && !w.token.isEof && w.token.span.stop.line < w.lookahead.span.start.line

/-- Moves by one token. A fault in the new lookahead is given back after the window has moved. -/
def next : Option Diagnostic × Window :=
  if w.atLineEnd then
    (none, { w with previous := w.token, token := Token.newline w.token.span.stop })
  else fetch { w with previous := w.token, token := w.lookahead }

def start : Option Diagnostic × Window :=
  let (first, w) := w.fetch
  let (second, w) := w.next
  (first <|> second, w)

/-- Says whether line ends are shown from now on. A line end that is shown already goes away again, and the token passed
last stays what it was. -/
def setNewlines (shown : Bool) : Option Diagnostic × Window :=
  let w := { w with newlines := shown }
  if !shown && w.token.isNewline then fetch { w with token := w.lookahead } else (none, w)

/-! ### Faults on the way -/

variable {w : Window} {d : Diagnostic}

theorem isLexical_of_fetch (h : w.fetch.1 = some d) : d.fault.isLexical = true := by
  unfold fetch at h
  split at h
  · cases h
  · cases h
  next hscan =>
    cases h
    exact Cursor.isLexical_of_scan hscan

theorem isLexical_of_next (h : w.next.1 = some d) : d.fault.isLexical = true := by
  unfold next at h
  split at h
  · cases h
  · exact isLexical_of_fetch h

theorem isLexical_of_setNewlines {shown : Bool} (h : (w.setNewlines shown).1 = some d) : d.fault.isLexical = true := by
  unfold setNewlines at h
  dsimp only at h
  split at h
  · exact isLexical_of_fetch h
  · cases h

end Window

end CartLua
