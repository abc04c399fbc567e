import CartLua.Source.Position
/-!
# Markers

A marker remembers where a construct starts. Open markers form a stack, innermost first; closing one gives the span of
its construct.
-/

namespace CartLua

/-- The starts of the open constructs, innermost first. -/
structure MarkerStack where
  starts : List Position := []
deriving DecidableEq, Inhabited, Repr

namespace MarkerStack

variable (m : MarkerStack)

def depth : Nat := m.starts.length

def mark (p : Position) : MarkerStack := ⟨p :: m.starts⟩

/-- Opens a construct that starts where the innermost open one does. -/
def reuse : MarkerStack :=
  match m.starts with
  | [] => m
  | p :: rest => ⟨p :: p :: rest⟩

/-- Closes the innermost construct at `stop`. With nothing open the span is empty. -/
def finish (stop : Position) : Span × MarkerStack :=
  match m.starts with
  | [] => (Span.point stop, m)
  | p :: rest => (⟨p, stop⟩, ⟨rest⟩)

def pop : Option Position × MarkerStack := (m.starts.head?, ⟨m.starts.tail⟩)

def truncate (depth : Nat) : MarkerStack := ⟨m.starts.drop (m.starts.length - depth)⟩

end MarkerStack

end CartLua
