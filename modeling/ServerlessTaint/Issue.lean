import ServerlessTaint.Csv
import ServerlessTaint.Table
import ServerlessTaint.Text.Integer
import ServerlessTaint.Text.Part

/-!
# Issues found by the analyser

Issues are asked for one after the other, by number, until an answer does not confirm the number. What an
answer says about an issue is kept: its code and message, and where the data comes from and goes to.
-/

namespace ServerlessTaint

/-- What is known about an issue. -/
structure Issue where
  code : Option String := none
  message : Option String := none
  sourceFile : Option String := none
  sourceLine : Option String := none
  sinkFile : Option String := none
  sinkLine : Option String := none
  deriving DecidableEq, Repr, Inhabited

abbrev Issues := Keyed Nat Issue

namespace Issue

/-! ## Lines of an answer -/

/-- The digits of the number in a line that confirms an issue: `Set issue to`, the number and a dot. -/
def confirmed? (line : List Char) : Option (List Char) :=
  let opening := "Set issue to ".toList
  if opening.isPrefixOf line then
    let rest := line.drop opening.length
    let digits := rest.takeWhile Text.isDecimalDigit
    if !digits.isEmpty && rest.drop digits.length == ['.'] then some digits else none
  else none

/-- What follows the first place where a word stands and no word character stands before it. -/
def afterWord? (word : List Char) : Option Char → List Char → Option (List Char)
  | _, [] => none
  | before, c :: rest =>
    if !before.any Text.isWord && word.isPrefixOf (c :: rest) then some ((c :: rest).drop word.length)
    else afterWord? word (some c) rest

def escapedLineEnd : List Char := ['\\', 'n']

/-- The first digits of a text that end a quoted line, with the digits directly before them. -/
def digitsBeforeLineEnd? (digits : List Char) : List Char → Option (List Char)
  | [] => none
  | c :: rest =>
    if Text.isDecimalDigit c then digitsBeforeLineEnd? (digits ++ [c]) rest
    else if !digits.isEmpty && escapedLineEnd.isPrefixOf (c :: rest) then some digits
    else digitsBeforeLineEnd? [] rest

def code? (line : List Char) : Option String := do
  let rest ← afterWord? "Code:".toList none line
  String.ofList <$> digitsBeforeLineEnd? [] rest

def message? (line : List Char) : Option String := do
  let rest ← afterWord? "Message:".toList none line
  let _ ← Text.after? escapedLineEnd rest
  return String.ofList (Text.trim (Text.before escapedLineEnd rest))

def afterBlankAndWord? (word : List Char) : List Char → Option (List Char)
  | [] => none
  | c :: rest =>
    if Text.isBlank c && word.isPrefixOf rest then some (rest.drop word.length)
    else afterBlankAndWord? word rest

def splitNumber? (mark : Char) (text : List Char) : Option (List Char × List Char) :=
  let digits := (text.reverse.takeWhile Text.isDecimalDigit).reverse
  let before := text.take (text.length - digits.length)
  if !digits.isEmpty && before.getLast? == some mark then some (before.dropLast, digits) else none

/-- The file and the line that stand after a word: at the end of the text come the line and two columns,
with bars between them and a colon before them. -/
def place? (word : String) (text : List Char) : Option (String × String) := do
  let rest ← afterBlankAndWord? word.toList text
  let (rest, _) ← splitNumber? '|' rest
  let (rest, _) ← splitNumber? '|' rest
  let (file, line) ← splitNumber? ':' rest
  return (String.ofList (Text.trim file), String.ofList line)

/-! ## Answers -/

/-- The state of reading an answer: whether the number is confirmed, and the issues. -/
structure Reading where
  confirmed : Bool
  issues : Issues
  deriving DecidableEq, Repr

def noteIn (number : Nat) (f : Issue → Issue) (r : Reading) : Reading :=
  { r with issues := Keyed.modify number {} f r.issues }

/-- Reads a line of the answer about an issue. A wrong number, or a code without a message, takes back the
confirmation. -/
def readLine (number : Nat) (r : Reading) (line : List Char) : Reading :=
  match confirmed? line with
  | some digits => { r with confirmed := Text.parseNat? digits == some number }
  | none =>
    match code? line with
    | some code =>
      match message? line with
      | some message => noteIn number (fun i => { i with code := some code, message := some message }) r
      | none => { noteIn number (fun i => { i with code := some code }) r with confirmed := false }
    | none =>
      match place? "source" line with
      | some (file, place) => noteIn number (fun i => { i with sourceFile := some file, sourceLine := some place }) r
      | none =>
        match place? "sink" line with
        | some (file, place) => noteIn number (fun i => { i with sinkFile := some file, sinkLine := some place }) r
        | none => r

def read (number : Nat) (answer : String) (issues : Issues) : Reading :=
  (Text.splitAt '\n' answer.toList).foldl (readLine number) ⟨false, issues⟩

/-- The numbers asked for, and the issues, when asking from a number on. Answers that are not given are
empty and confirm nothing. -/
def collect (number : Nat) (issues : Issues) : List String → List Nat × Issues
  | [] => ([number], issues)
  | answer :: answers =>
    let r := read number answer issues
    if r.confirmed then
      let (asked, issues) := collect (number + 1) r.issues answers
      (number :: asked, issues)
    else ([number], r.issues)

end Issue

namespace Issues

def sorted (issues : Issues) : Issues := issues.mergeSort fun a b => a.1 ≤ b.1

/-- What is shown for something that is not known. -/
def missing : String := "Missing information"

def fieldNames : List String :=
  ["Issue", "Source File", "Source Line", "Sink File", "Sink Line", "Code", "Message"]

def fields (issue : Issue) : List String :=
  [issue.sourceFile, issue.sourceLine, issue.sinkFile, issue.sinkLine, issue.code, issue.message].map
    (·.getD missing)

/-- The table of an issue: its number and its places. -/
def issueTable (number : Nat) (issue : Issue) : String :=
  let rows := ((fieldNames.drop 1).take 4).zip (fields issue)
  Table.renderWith (.list (.list [.str "Issue", .int number] ::
    rows.map fun (name, value) => .list [.str name, .str value])) (some ["Parameter", "Value"])
    Table.standardMargin

def tables (issues : Issues) : String := String.join ((sorted issues).map fun (n, i) => issueTable n i)

def csvText (issues : Issues) : String :=
  String.join (Csv.rowText fieldNames :: (sorted issues).map fun (number, issue) =>
    Csv.rowText (Value.intText number :: fields issue))

end Issues

end ServerlessTaint
