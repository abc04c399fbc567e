import CartLua.Chunk
import CartLua.Cli.Arguments
import CartLua.Cli.Run
import CartLua.CrossReference.Basic
import CartLua.CrossReference.Build
import CartLua.CrossReference.Builtin
import CartLua.Diagnostic
import CartLua.Encoding
import CartLua.Flow
import CartLua.Grammar.Expression
import CartLua.Grammar.Program
import CartLua.Grammar.Statement
import CartLua.Include.Folder
import CartLua.Include.Mention
import CartLua.Include.Path
import CartLua.Include.Store
import CartLua.Json.Basic
import CartLua.Json.Printer
import CartLua.Json.Tree
import CartLua.Main
import CartLua.Marker
import CartLua.Number.Double
import CartLua.Number.Shortest
import CartLua.Outline
import CartLua.Parse.Basic
import CartLua.Parse.Recovery
import CartLua.Parse.Session
import CartLua.Readable
import CartLua.Source.Cartridge
import CartLua.Source.Cursor
import CartLua.Source.Position
import CartLua.Template
import CartLua.Text.Blank
import CartLua.Text.NameMap
import CartLua.Text.Split
import CartLua.Token.Basic
import CartLua.Token.Escape
import CartLua.Token.Keyword
import CartLua.Token.Lexeme
import CartLua.Token.LongBracket
import CartLua.Token.Numeral
import CartLua.Token.Quoted
import CartLua.Token.Scan
import CartLua.Token.Symbol
import CartLua.Token.Trivia
import CartLua.Token.Window
import CartLua.Tree.Basic
import CartLua.Tree.Name
import CartLua.Tree.Operator
import CartLua.Walk.Basic
import CartLua.Walk.Trace
import CartLua.Proofs.Bounds
import CartLua.Proofs.EncodingIndependence
import CartLua.Proofs.Globals
import CartLua.Proofs.Grouping
import CartLua.Proofs.Inclusion
import CartLua.Proofs.Jumps
import CartLua.Proofs.LineIndex
import CartLua.Proofs.Literals
import CartLua.Proofs.MemberPaths
import CartLua.Proofs.OneLine
import CartLua.Proofs.OutlineSpans
import CartLua.Proofs.Positions
import CartLua.Proofs.ProgramRoundTrip
import CartLua.Proofs.Projection
