import CartLua.Source.Cartridge
import CartLua.Token.Lexeme
import CartLua.Token.Trivia
/-!
# Scanning

Reading tokens from a cursor. Every step but the one at the end of the text moves the cursor, so that reading ends.
-/

namespace CartLua

inductive Scan where
  | done (eof : Token) (next : Cursor)
  | token (t : Token) (next : Cursor)
  | fault (d : Diagnostic) (next : Cursor)
deriving Inhabited

namespace Cursor

def place (c : Cursor) (lexeme : Lexeme) : Scan :=
  let next := c.skip (lexeme.more + 1)
  match lexeme.outcome with
  | .ok (kind, text) => .token ⟨kind, String.ofList text, c.spanTo next⟩ next
  | .error flaw => .fault { fault := flaw.fault, span := (c.skip flaw.start).spanTo (c.skip flaw.stop) } next

def scan (mode : Encoding) (c : Cursor) : Scan :=
  match Trivia.read c.rest with
  | .unclosed offset =>
    let start := c.skip offset
    let stop := c.skip c.rest.length
    .fault { fault := .unfinishedLongComment start.position.line, span := start.spanTo stop } stop
  | .clear length =>
    let start := c.skip length
    match start.rest with
    | [] => .done (Token.eof start.position) start
    | ch :: rest => start.place (Lexeme.read mode start.position.line start.fresh ch rest)

end Cursor

namespace Scan

/-- A step that starts at `c` and finds something ends nearer to the end of the text. -/
def Moves (c : Cursor) : Scan → Prop
  | .done .. => True
  | .token _ next | .fault _ next => next.rest.length < c.rest.length

end Scan

namespace Cursor

private theorem moves_place {c : Cursor} (lexeme : Lexeme) (h : 0 < c.rest.length) : (c.place lexeme).Moves c := by
  unfold place
  split <;> simp only [Scan.Moves, rest_skip, List.length_drop] <;> omega

theorem moves_scan (c : Cursor) (mode : Encoding) : (c.scan mode).Moves c := by
  unfold scan
  split
  next offset hread =>
    have : 0 < c.rest.length := by
      cases hrest : c.rest with
      | nil => simp [hrest, Trivia.read_nil] at hread
      | cons => simp
    simpa [Scan.Moves] using this
  next length hread =>
    dsimp only
    split
    · trivial
    next ch rest hrest =>
      have hlength : 0 < (c.skip length).rest.length := by rw [hrest]; simp
      have hmoves := moves_place (Lexeme.read mode (c.skip length).position.line (c.skip length).fresh ch rest) hlength
      have hle : (c.skip length).rest.length ≤ c.rest.length := by simp
      generalize (c.skip length).place _ = s at hmoves
      cases s <;> simp only [Scan.Moves] at hmoves ⊢ <;> omega

theorem isLexical_of_scan {mode : Encoding} {c next : Cursor} {d : Diagnostic} (h : c.scan mode = .fault d next) : d.fault.isLexical = true := by
  unfold scan place at h
  split at h
  · cases h
    rfl
  · dsimp only at h
    split at h
    · cases h
    · split at h
      · cases h
      next flaw houtcome =>
        cases h
        exact Lexeme.isLexical_of_read rfl houtcome

/-- The tokens from `c` to the end of the text, or the first fault among them. -/
def tokens (mode : Encoding) (c : Cursor) : Except Diagnostic (List Token) :=
  match c.scan mode, c.moves_scan mode with
  | .done eof _, _ => .ok [eof]
  | .fault d _, _ => .error d
  | .token t next, h =>
    have : next.rest.length < c.rest.length := h
    (tokens mode next).map (t :: ·)
termination_by c.rest.length

/-- The next token from `c`, behind all faults before it. -/
def nextToken (mode : Encoding) (c : Cursor) : Token × Cursor :=
  match c.scan mode, c.moves_scan mode with
  | .done eof next, _ => (eof, next)
  | .token t next, _ => (t, next)
  | .fault _ next, h =>
    have : next.rest.length < c.rest.length := h
    nextToken mode next
termination_by c.rest.length

end Cursor

def tokenize (mode : Encoding) (text : String) (file : FileId) : Except Diagnostic (List Token) :=
  (Cartridge.code text.toList file).tokens mode

end CartLua
