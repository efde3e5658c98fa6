import ServerlessTaint.Fault
import ServerlessTaint.Keyed
import ServerlessTaint.Text.Lines
import ServerlessTaint.Text.Quoted

/-!
# Tables of comma-separated values

A table is written row by row, fields separated by commas and rows ended by `\r\n`. A field that holds a
comma, a quote or a line end is written in quotes, with each quote in it doubled. Reading takes text in
which `\n` ends lines; quotes may hold line ends, and a quote that does not open a field stands for itself.
-/

namespace ServerlessTaint.Csv

/-! ## Writing -/

/-- The character makes quotes necessary. -/
def isSpecial (c : Char) : Bool := c == ',' || c == '"' || c == '\r' || c == '\n'

/-- A text with each quote doubled. -/
def doubleQuotes : List Char → List Char
  | [] => []
  | c :: rest => if c = '"' then '"' :: '"' :: doubleQuotes rest else c :: doubleQuotes rest

def quotedField (field : List Char) : List Char := '"' :: doubleQuotes field ++ ['"']

def fieldText (field : List Char) : List Char := if field.any isSpecial then quotedField field else field

def fieldTexts : List (List Char) → List Char
  | [] => []
  | [field] => fieldText field
  | field :: fields => fieldText field ++ ',' :: fieldTexts fields

/-- A row as it is written. A single empty field is written in quotes, to tell it from no field. -/
def rowText (fields : List String) : String :=
  let text := if fields = [""] then ['"', '"'] else fieldTexts (fields.map String.toList)
  String.ofList (text ++ ['\r', '\n'])

/-! ## Reading -/

/-- Where a reader stands in a row. -/
inductive Place where
  | rowStart
  | fieldStart
  | plain
  | quoted
  | afterQuote
  deriving DecidableEq, Repr

/-- The rows of a text, from a place in a row of which some fields and a part of the next one have been
read. -/
def rowsFrom : Place → List String → List Char → List Char → List (List String)
  | .rowStart, _, _, [] => []
  | _, row, field, [] => [row ++ [String.ofList field]]
  | .rowStart, row, field, c :: rest =>
    if c = '\n' then [] :: rowsFrom .rowStart [] [] rest
    else if c = '"' then rowsFrom .quoted row field rest
    else if c = ',' then rowsFrom .fieldStart (row ++ [""]) [] rest
    else rowsFrom .plain row [c] rest
  | .fieldStart, row, field, c :: rest =>
    if c = '\n' then (row ++ [""]) :: rowsFrom .rowStart [] [] rest
    else if c = '"' then rowsFrom .quoted row field rest
    else if c = ',' then rowsFrom .fieldStart (row ++ [""]) [] rest
    else rowsFrom .plain row [c] rest
  | .plain, row, field, c :: rest =>
    if c = '\n' then (row ++ [String.ofList field]) :: rowsFrom .rowStart [] [] rest
    else if c = ',' then rowsFrom .fieldStart (row ++ [String.ofList field]) [] rest
    else rowsFrom .plain row (field ++ [c]) rest
  | .quoted, row, field, c :: rest =>
    if c = '"' then rowsFrom .afterQuote row field rest else rowsFrom .quoted row (field ++ [c]) rest
  | .afterQuote, row, field, c :: rest =>
    if c = '\n' then (row ++ [String.ofList field]) :: rowsFrom .rowStart [] [] rest
    else if c = '"' then rowsFrom .quoted row (field ++ [c]) rest
    else if c = ',' then rowsFrom .fieldStart (row ++ [String.ofList field]) [] rest
    else rowsFrom .plain row (field ++ [c]) rest

def rows (text : String) : List (List String) := rowsFrom .rowStart [] [] text.toList

/-! ## Records -/

/-- A row read with names for its fields: the values by name, where fields that the row does not have are
missing, and the fields beyond the last name. -/
structure Record where
  values : Keyed String (Option String)
  extra : List String
  deriving DecidableEq, Repr, Inhabited

def Record.ofRow (names row : List String) : Record :=
  let padded := row.map some ++ List.replicate (names.length - row.length) none
  ⟨Keyed.ofEntries (names.zip padded), row.drop names.length⟩

/-- The value of a field, which may be missing in the row but has to be named. -/
def Record.get (record : Record) (name : String) : Except Fault (Option String) :=
  match Keyed.find? name record.values with
  | some value => .ok value
  | none => .error (.missingKey (Text.quoted name))

/-- A table with named fields. A text without rows has no names. -/
structure Sheet where
  names : Option (List String)
  records : List Record
  deriving DecidableEq, Repr, Inhabited

/-- The table of a text: the first row holds the names; later rows without fields are passed over. -/
def Sheet.ofText (text : String) : Sheet :=
  match rows text with
  | [] => ⟨none, []⟩
  | names :: rest => ⟨some names, (rest.filter fun row => !row.isEmpty).map (Record.ofRow names)⟩

/-- The row of a record under the given names. A record with other fields cannot be written; fields that it
lacks are left empty. -/
def Record.rowText (names : List String) (record : Record) : Except Fault String :=
  if record.extra.isEmpty && record.values.all fun (name, _) => names.contains name then
    .ok (Csv.rowText (names.map fun name => ((Keyed.find? name record.values).getD none).getD ""))
  else .error (.badValue none)

end ServerlessTaint.Csv
