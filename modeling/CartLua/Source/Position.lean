/-!
# Positions and spans

A position is a point of a document. Lines and columns count from one, indexes from zero, and all of them count
characters. A span is a stretch of text whose `stop` points just past its last character.
-/

namespace CartLua

/-- Number of a document within one parse. The root document is `0`; included ones follow in the order they were
opened. -/
abbrev FileId := Nat

structure Position where
  line : Nat := 1
  column : Nat := 1
  index : Nat := 0
  file : FileId := 0
deriving DecidableEq, Hashable, Inhabited, Repr

namespace Position

/-- The position behind the character `c` that stands at `p`. Only a line feed starts a new line. -/
def after (p : Position) (c : Char) : Position :=
  if c = '\n' then { p with line := p.line + 1, column := 1, index := p.index + 1 }
  else { p with column := p.column + 1, index := p.index + 1 }

@[simp] theorem after_index (p : Position) (c : Char) : (p.after c).index = p.index + 1 := by
  unfold after; split <;> rfl

@[simp] theorem after_file (p : Position) (c : Char) : (p.after c).file = p.file := by
  unfold after; split <;> rfl

end Position

/-- A stretch of text from `start` up to, and without, the character at `stop`. -/
structure Span where
  start : Position
  stop : Position
deriving DecidableEq, Hashable, Inhabited, Repr

namespace Span

def point (p : Position) : Span := ⟨p, p⟩

def file (s : Span) : FileId := s.start.file

/-- Whether the point lies in the span. Both ends count, so that a cursor resting right behind a name still hits it. -/
def contains (s : Span) (file : FileId) (line column : Nat) : Bool :=
  s.start.file == file && s.stop.file == file &&
    (s.start.line < line || (line == s.start.line && s.start.column ≤ column)) &&
    (line < s.stop.line || (line == s.stop.line && column ≤ s.stop.column))

def encloses (s t : Span) : Bool :=
  s.start.file == t.start.file && s.stop.file == t.stop.file &&
    s.start.index ≤ t.start.index && t.stop.index ≤ s.stop.index

/-- Number of characters; a span that stops before it starts has none. -/
def length (s : Span) : Nat := s.stop.index - s.start.index

def isEmpty (s : Span) : Bool := s.length == 0

def brief (s : Span) : String :=
  s!"{s.start.line}:{s.start.column}-{s.stop.line}:{s.stop.column}"

end Span

end CartLua
