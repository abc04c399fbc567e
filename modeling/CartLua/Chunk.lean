import CartLua.CrossReference.Build
import CartLua.Grammar.Program
import CartLua.Outline
/-!
# Chunks

A chunk is a program with all that is derived from it.
-/

namespace CartLua

structure Chunk extends Program where
  warnings : List Warning
  symbols : List OutlineSymbol
  index : CrossReference
deriving Inhabited

namespace Chunk

def ofProgram (p : Program) : Chunk :=
  let (index, warnings) := CrossReference.build p.body
  { toProgram := p, warnings, symbols := Outline.build p.body, index }

/-- Reads and examines the program `source` of the document `name`. -/
def parse (options : Options) (source : String) (name : String := "main.lua") : Chunk :=
  ofProgram (Program.parse options source name)

def fileName? (c : Chunk) (file : FileId) : Option String := c.files[file]?

end Chunk

end CartLua
