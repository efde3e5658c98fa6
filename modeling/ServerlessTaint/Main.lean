import ServerlessTaint.Analysis

/-!
# The command line

The command line says what to analyse. A description of the session is read from standard input as JSON: the
`files` by absolute path, the path of the `program`, which is in the folder where the tool works, the path
of its virtual `environment`, the `findings` of the analyser by file name, and the `replies` to questions
about issues. The commands that were given and the files as they are in the end are written to standard
output.
-/

namespace ServerlessTaint.Main

def textsByName (part : String) (description : Value) : Keyed String String :=
  match description.entry? part with
  | some (.map entries) => entries.filterMap fun (name, v) => v.text?.map fun text => (name, text)
  | _ => []

def textIn (part : String) (description : Value) : Option String := (description.entry? part).bind Value.text?

def sessionOf (description : Value) : Except Fault Session := do
  let folders ← Folders.ofTool "cloudflow" ((textIn "program" description).getD "")
  let files := (textsByName "files" description).foldl (fun tree (path, text) =>
    tree.putFile ((Path.parts path).filter (!·.isEmpty)) text) FileTree.empty
  let replies := match description.entry? "replies" with
    | some (.list items) => items.filterMap Value.text?
    | _ => []
  return { files := files, folders := folders, findings := textsByName "findings" description, replies := replies }

def filesOf (session : Session) : Value :=
  .map (session.files.entries.filterMap fun (place, entry) =>
    match entry with
    | .file text => some ("/" ++ "/".intercalate place, .str text)
    | .folder => none)

def outcome (session : Session) : Value :=
  .map [("commands", .list (session.commands.map .str)), ("files", filesOf session)]

/-- The exit code and the output for a command line and a description of the session. -/
def answer (line : List String) (description : Value) : UInt32 × String :=
  match sessionOf description with
  | .error _ => (1, "")
  | .ok session =>
    match (Analysis.run line (textIn "environment" description)).run.run session with
    | (.ok _, session) => (0, Json.write (outcome session))
    | (.error (.exit code), _) => (if code == "0" then 0 else 2, "")
    | (.error _, session) => (1, Json.write (outcome session))

/-- The lines of a stream up to its end. -/
partial def readAll (stream : IO.FS.Stream) (text : String) : IO String := do
  let line ← stream.getLine
  if line.isEmpty then return text else readAll stream (text ++ line)

end ServerlessTaint.Main

def main (line : List String) : IO UInt32 := do
  let text ← ServerlessTaint.Main.readAll (← IO.getStdin) ""
  let description := (ServerlessTaint.Json.read? text).getD (.map [])
  let (code, output) := ServerlessTaint.Main.answer line description
  unless output.isEmpty do (← IO.getStdout).putStrLn output
  return code
