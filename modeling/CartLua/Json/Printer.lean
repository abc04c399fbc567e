import CartLua.Json.Basic
/-!
# JSON text

Values are written on one line, or indented by two blanks a level. Doubles are written with the fewest digits that read
back.
-/

namespace CartLua

/-- How doubles are written: positionally with a digit behind the point while the first digit stands for a power of ten
from `10 ^ least` to below `10 ^ limit`, and with an exponent otherwise. -/
structure DoubleFormat where
  least : Int
  limit : Int
deriving DecidableEq, Inhabited, Repr

namespace DoubleFormat

def decimal (format : DoubleFormat) (d : Shortest.Decimal) : String :=
  let ds := Nat.toDigits 10 d.digits
  let lead := d.exponent + (ds.length : Int) - 1
  let zeros (n : Int) : List Char := List.replicate n.toNat '0'
  let chars :=
    if format.least ≤ lead ∧ lead < format.limit then
      if 0 ≤ d.exponent then ds ++ zeros d.exponent ++ ['.', '0']
      else if 0 ≤ lead then ds.take (lead.toNat + 1) ++ '.' :: ds.drop (lead.toNat + 1)
      else '0' :: '.' :: (zeros (-lead - 1) ++ ds)
    else
      let significand := match ds with
        | first :: more@(_ :: _) => first :: '.' :: more
        | few => few
      significand ++ 'e' :: (if lead < 0 then '-' else '+') :: Nat.toDigits 10 lead.natAbs
  String.ofList chars

def text? (format : DoubleFormat) (value : Float) : Option String :=
  let bits := value.toBits.toNat
  let size := bits % Double.signBit
  let body :=
    if size = 0 then "0.0" else format.decimal (Shortest.ofBits size)
  if size < Double.infinityBits then some (if bits < Double.signBit then body else "-" ++ body) else none

end DoubleFormat

namespace Json

/-- Numbers from `0.00001` to below `10 ^ 16` are positional. -/
def doubleFormat : DoubleFormat := ⟨-5, 16⟩

def escapeChar (c : Char) : List Char :=
  match c with
  | '"' => ['\\', '"']
  | '\\' => ['\\', '\\']
  | '\n' => ['\\', 'n']
  | '\r' => ['\\', 'r']
  | '\t' => ['\\', 't']
  | c =>
    if c.toNat = 0x08 then ['\\', 'b']
    else if c.toNat = 0x0C then ['\\', 'f']
    else if c.toNat < 0x20 then ['\\', 'u', '0', '0', Nat.digitChar (c.toNat / 16), Nat.digitChar (c.toNat % 16)]
    else [c]

def quote (s : String) : String := String.ofList ('"' :: s.toList.flatMap escapeChar ++ ['"'])

def atom : Json → String
  | .bool true => "true"
  | .bool false => "false"
  | .nat n => toString n
  | .double x => (doubleFormat.text? x).getD "null"
  | .string s => quote s
  | _ => "null"

mutual

def compact : Json → String
  | .array items => "[" ++ compactItems items ++ "]"
  | .object fields => "\x7b" ++ compactFields fields ++ "\x7d"
  | other => atom other

def compactItems : List Json → String
  | [] => ""
  | [item] => compact item
  | item :: rest => compact item ++ "," ++ compactItems rest

def compactFields : List (String × Json) → String
  | [] => ""
  | [(name, value)] => quote name ++ ":" ++ compact value
  | (name, value) :: rest => quote name ++ ":" ++ compact value ++ "," ++ compactFields rest

end

def lineBreak (level : Nat) : String := String.ofList ('\n' :: List.replicate (2 * level) ' ')

mutual

/-- The value with every part on a line of its own, its parts at `level + 1`. -/
def indented (level : Nat) : Json → String
  | .array [] => "[]"
  | .array items => "[" ++ indentedItems (level + 1) items ++ lineBreak level ++ "]"
  | .object [] => "\x7b\x7d"
  | .object fields => "\x7b" ++ indentedFields (level + 1) fields ++ lineBreak level ++ "\x7d"
  | other => atom other

def indentedItems (level : Nat) : List Json → String
  | [] => ""
  | [item] => lineBreak level ++ indented level item
  | item :: rest => lineBreak level ++ indented level item ++ "," ++ indentedItems level rest

def indentedFields (level : Nat) : List (String × Json) → String
  | [] => ""
  | [(name, value)] => lineBreak level ++ quote name ++ ": " ++ indented level value
  | (name, value) :: rest =>
    lineBreak level ++ quote name ++ ": " ++ indented level value ++ "," ++ indentedFields level rest

end

def pretty (value : Json) : String := indented 0 value

end Json

end CartLua
