import ServerlessTaint.Value

/-!
# Writing JSON

Items are separated by a comma and a blank, keys and values by a colon and a blank, and every
character outside printable ASCII is escaped by its code units.
-/

namespace ServerlessTaint.Json

def unitEscape (unit : Nat) : List Char := '\\' :: 'u' :: Text.hexDigits 4 unit

/-- One character inside a string. -/
def escapeChar (c : Char) : List Char :=
  if c == '"' then ['\\', '"']
  else if c == '\\' then ['\\', '\\']
  else if c == '\n' then ['\\', 'n']
  else if c == '\r' then ['\\', 'r']
  else if c == '\t' then ['\\', 't']
  else if c == '\x08' then ['\\', 'b']
  else if c == '\x0c' then ['\\', 'f']
  else if 32 ≤ c.toNat && c.toNat < 127 then [c]
  else if c.toNat < 0x10000 then unitEscape c.toNat
  else
    let n := c.toNat - 0x10000
    unitEscape (0xD800 + n / 0x400) ++ unitEscape (0xDC00 + n % 0x400)

def stringText (s : String) : String :=
  "\"" ++ String.ofList (s.toList.flatMap escapeChar) ++ "\""

/-- A number that is not an integer. -/
def realText : Binary64 → String
  | .nan => "NaN"
  | .infinite negative => if negative then "-Infinity" else "Infinity"
  | x => x.text true

mutual

def write : Value → String
  | .null => "null"
  | .bool b => if b then "true" else "false"
  | .int n => Value.intText n
  | .real x => realText x
  | .str s => stringText s
  | .list items => "[" ++ writeItems items ++ "]"
  | .map entries => "\x7b" ++ writeEntries entries ++ "\x7d"

def writeItems : List Value → String
  | [] => ""
  | [item] => write item
  | item :: items => write item ++ ", " ++ writeItems items

def writeEntries : List (String × Value) → String
  | [] => ""
  | [(key, value)] => stringText key ++ ": " ++ write value
  | (key, value) :: entries => stringText key ++ ": " ++ write value ++ ", " ++ writeEntries entries

end

end ServerlessTaint.Json
