import ServerlessTaint.Workspace

/-!
# Sessions

A session of the tool works on files and runs other programs. The programs are known by what they leave
behind: the analyser writes files, and each question about an issue is answered by a text. Commands are
recorded in the order in which they are given; the text of a script follows its command.
-/

namespace ServerlessTaint

/-- The folders in use. A folder is known from the moment at which it is about to be made. -/
structure Folders where
  tool : String
  base : String
  source : Option String := none
  name : Option String := none
  analysis : Option String := none
  repository : Option String := none
  models : Option String := none
  results : Option String := none
  logs : Option String := none
  reports : Option String := none
  deriving DecidableEq, Repr, Inhabited

/-- The state of a session. `findings` are the files that the analyser will write, `replies` the answers to
the questions about issues that are still to come. -/
structure Session where
  files : FileTree
  folders : Folders
  commands : List String := []
  findings : Keyed String String := []
  replies : List String := []
  deriving Repr, Inhabited

/-- A step of a session. What has been done stays done if the step fails. -/
abbrev Act := ExceptT Fault (StateM Session)

namespace Act

def edit {α : Type} (e : Edit α) : Act α := do
  let session ← get
  let (result, files) := e.run.run session.files
  set { session with files := files }
  match result with
  | .ok a => return a
  | .error fault => throw fault

/-- A value that may not be there. -/
def ask {α : Type} (result : Except Fault α) : Act α :=
  match result with
  | .ok a => return a
  | .error fault => throw fault

def command (text : String) : Act Unit := modify fun s => { s with commands := s.commands ++ [text] }

/-- The answer to the next question about an issue; empty if there is none left. -/
def reply : Act String := do
  let session ← get
  match session.replies with
  | text :: rest =>
    set { session with replies := rest }
    return text
  | [] => return ""

def orElse (act : Act Unit) (other : Fault → Act Unit) : Act Unit := tryCatch act other

end Act

end ServerlessTaint
