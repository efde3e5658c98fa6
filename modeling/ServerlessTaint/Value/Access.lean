import ServerlessTaint.Fault
import ServerlessTaint.Value

/-!
# Looking into configuration values

A configuration is read by keys, by membership tests and item by item. A value that has no such parts
is a fault.
-/

namespace ServerlessTaint.Value

def get (key : String) : Value → Except Fault Value
  | .map entries =>
    match Keyed.find? key entries with
    | some v => .ok v
    | none => .error (.missingKey (Text.quoted key))
  | _ => .error .wrongType

def getAll (keys : List String) (v : Value) : Except Fault Value := keys.foldlM (fun v k => v.get k) v

def asText : Value → Except Fault String
  | .str s => .ok s
  | _ => .error .wrongType

def asMap : Value → Except Fault (List (String × Value))
  | .map entries => .ok entries
  | _ => .error .missingAttribute

/-- The items of a value: those of a list, the keys of a map, or the characters of a text. -/
def elements : Value → Except Fault (List Value)
  | .list items => .ok items
  | .map entries => .ok (entries.map fun e => .str e.1)
  | .str s => .ok (s.toList.map fun c => .str (String.singleton c))
  | _ => .error .wrongType

/-- A value as a key: a text may be one that is present, another scalar never is, and a collection
cannot be a key at all. -/
def asKey : Value → Except Fault (Option String)
  | .str s => .ok (some s)
  | .list _ | .map _ => .error .wrongType
  | _ => .ok none

def isText (text : String) (v : Value) : Bool := v.text? == some text

/-- One list of characters stands somewhere in another. -/
def contains (part : List Char) : List Char → Bool
  | [] => part.isEmpty
  | c :: rest => part.isPrefixOf (c :: rest) || contains part rest

/-- A value has a text among its parts: a key of a map, an item of a list, a part of a text. -/
def holds (text : String) : Value → Except Fault Bool
  | .map entries => .ok (Keyed.has text entries)
  | .list items => .ok (items.any fun v => v.text? == some text)
  | .str s => .ok (contains text.toList s.toList)
  | _ => .error .wrongType

end ServerlessTaint.Value
