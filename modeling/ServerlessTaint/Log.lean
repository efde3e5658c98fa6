import ServerlessTaint.Edit

/-!
# Logs

What the tool prints goes to a log as well, line by line. The log of a run over several repositories is
split into one file for each of them: a repository's part starts with the line that announces it.
-/

namespace ServerlessTaint.Log

/-! ## Streams that are logged -/

def levelName (level : Int) : String :=
  if level = 50 then "CRITICAL"
  else if level = 40 then "ERROR"
  else if level = 30 then "WARNING"
  else if level = 20 then "INFO"
  else if level = 10 then "DEBUG"
  else if level = 0 then "NOTSET"
  else "Level " ++ Value.intText level

def standardLevel : Int := 20

/-- A stream that is logged: what has been written, what of it is not logged yet, and the lines that are. -/
structure Stream where
  level : Int
  written : String
  pending : String
  logged : List String
  deriving DecidableEq, Repr, Inhabited

namespace Stream

def start (level : Int) : Stream := ⟨level, "", "", []⟩

def write (s : Stream) (text : String) : Stream :=
  { s with written := s.written ++ text, pending := s.pending ++ text }

/-- The lines of a text as they are logged: without blanks at their ends, and without empty lines at the
end. -/
def linesOf (text : String) : List String :=
  (Text.messageLines (Text.trimEnd text.toList)).map fun line => String.ofList (Text.trimEnd line)

/-- Logs what is pending. Nothing is logged at level zero. -/
def flush (s : Stream) : Stream :=
  { s with pending := "", logged := if 0 < s.level then s.logged ++ linesOf s.pending else s.logged }

end Stream

/-! ## Splitting -/

def fileName : String := "cloudflow_log_file.log"

def fileNameFor (repository : String) : String := "cloudflow_log_repo_" ++ repository ++ ".log"

/-- The character may stand in the name of an announced repository. -/
def isNameChar (c : Char) : Bool := Text.isWord c || c == '-' || c == '.'

/-- How an announcement begins. -/
def opening : List Char := "=== Start analysis of repository: ".toList

/-- How an announcement goes on after the name of the repository. -/
def closing : List Char := " ===".toList

def announced? (line : List Char) : Option String :=
  if opening.isPrefixOf line then
    let rest := line.drop opening.length
    let name := rest.takeWhile isNameChar
    if !name.isEmpty && closing.isPrefixOf (rest.drop name.length) then some (String.ofList name) else none
  else none

/-- The part of a log that belongs to a repository. -/
structure Part where
  repository : String
  lines : List (List Char)
  deriving DecidableEq, Repr

def parts : List (List Char) → List (List Char) × List Part
  | [] => ([], [])
  | line :: rest =>
    let (before, later) := parts rest
    match announced? line with
    | some repository => ([], ⟨repository, line :: before⟩ :: later)
    | none => (line :: before, later)

/-- Writes a part to the file of its repository. A file that cannot be written is passed over. -/
def writePart (folder : String) (part : Part) : Edit Unit :=
  tryCatch (Edit.write (Path.join folder (fileNameFor part.repository)) (String.ofList part.lines.flatten))
    fun _ => pure ()

def split (folder : String) : Edit Unit := do
  let text ← Edit.read (Path.join folder fileName)
  (parts (Text.linesWithEnds text.toList)).2.forM (writePart folder)

end ServerlessTaint.Log
