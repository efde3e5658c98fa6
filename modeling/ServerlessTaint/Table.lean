import ServerlessTaint.Value.Access

/-!
# Tables

A table has a line of headings and lines of cells, centred in columns that are as wide as their
widest cell. A table that cannot be drawn is replaced, from the point of failure on, by a message.
-/

namespace ServerlessTaint.Table

/-- Why a table cannot be drawn. -/
inductive Failure where
  | listIndex
  | textIndex
  | noRows
  | column (number : Nat)
  | notATable
  deriving DecidableEq, Repr

def Failure.message : Failure → String
  | .listIndex | .textIndex =>
    "--- Exception raised (IndexError) while printing a table - Details: ---\n"
  | _ => "--- Exception raised while printing a table - Details: ---\n"

def Failure.details : Failure → String
  | .listIndex => "list index out of range"
  | .textIndex => "string index out of range"
  | .noRows => "max() arg is an empty sequence"
  | .column n => toString n
  | .notATable => "not a table"

def Failure.text (f : Failure) : String :=
  let last := match f with
    | .listIndex | .textIndex => "--- Check the contents of the passed data structures ---\n"
    | _ => ""
  f.message ++ "--- " ++ f.details ++ " ---\n" ++ last

/-- The cell of a row with a number. -/
def cell (n : Nat) : Value → Except Failure Value
  | .list items =>
    match items[n]? with
    | some v => .ok v
    | none => .error .listIndex
  | .str s =>
    match s.toList[n]? with
    | some c => .ok (.str (String.singleton c))
    | none => .error .textIndex
  | .map _ => .error (.column n)
  | _ => .error .notATable

def cells (v : Value) : Except Failure (List Value) := v.elements.mapError fun _ => .notATable

/-- A text in the middle of a width. An odd rest goes to the right, unless the width is odd too. -/
def center (width : Int) (text : String) : String :=
  let length : Int := text.length
  if width ≤ length then text
  else
    let pad := (width - length).toNat
    let left := pad / 2 + if pad % 2 = 1 && width % 2 = 1 then 1 else 0
    String.ofList (List.replicate left ' ') ++ text ++ String.ofList (List.replicate (pad - left) ' ')

/-- The width of a column: that of its widest cell or its heading. -/
def columnWidth (rows : List Value) (n : Nat) (heading : String) : Except Failure Nat := do
  let lengths ← rows.mapM fun row => do return (← cell n row).display.length
  if lengths.isEmpty then throw .noRows
  return max (lengths.foldl max 0) heading.length

def columnWidths (rows : List Value) : Nat → List String → Except Failure (List Nat)
  | _, [] => .ok []
  | n, heading :: headings => do
    let width ← columnWidth rows n heading
    return width :: (← columnWidths rows (n + 1) headings)

def line (margin : Int) (widths : List Nat) (texts : List String) : Except Failure String := do
  let parts ← (texts.zip (List.range texts.length)).mapM fun (text, n) =>
    match widths[n]? with
    | some width => .ok (center (width + margin) text ++ "|")
    | none => .error (.column n)
  return "|" ++ String.join parts

def rule (c : Char) (line : String) : String := String.ofList (List.replicate line.length c)

def rowLines (margin : Int) (widths : List Nat) : List Value → String × Option Failure
  | [] => ("\n", none)
  | row :: rows =>
    match cells row >>= fun cs => line margin widths (cs.map Value.display) with
    | .error f => ("", some f)
    | .ok text =>
      let (more, failure) := rowLines margin widths rows
      (text ++ "\n" ++ rule '-' text ++ "\n" ++ more, failure)

/-- The headings if none are given: one for each cell of the first row. -/
def defaultHeadings (rows : Value) : Except Failure (List String) := do
  let first ← cell 0 rows
  let count := (← cells first).length
  return (List.range count).map fun n => "Column " ++ toString n

def layout (rows : Value) (headings : Option (List String)) (margin : Int) :
    Except Failure (String × List Value × List Nat) := do
  let headings ← match headings with
    | some headings => pure headings
    | none => defaultHeadings rows
  let items ← cells rows
  let widths ← columnWidths items 0 headings
  let head ← line margin widths headings
  return (head, items, widths)

def renderWith (rows : Value) (headings : Option (List String)) (margin : Int) : String :=
  match layout rows headings margin with
  | .error f => f.text
  | .ok (head, items, widths) =>
    let top := "\n" ++ rule '=' head ++ "\n" ++ head ++ "\n" ++ rule '=' head ++ "\n"
    let (body, failure) := rowLines margin widths items
    top ++ body ++ (failure.map Failure.text).getD ""

/-- The space around the widest cell of a column. -/
def standardMargin : Int := 2

def render (headings : List String) (rows : List (List String)) : String :=
  renderWith (.list (rows.map fun row => .list (row.map .str))) (some headings) standardMargin

end ServerlessTaint.Table
