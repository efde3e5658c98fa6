import ServerlessTaint.Session
import ServerlessTaint.Text.Part

/-!
# Making and removing folders

All folders of the tool stand in the folder in which the tool is installed, and their names start with
the name of the tool.
-/

namespace ServerlessTaint.Folders

/-- The folders of a tool, given the path of its program: the tool is installed where its name first
appears in that path. A tool has to have a name. -/
def ofTool (tool program : String) : Except Fault Folders :=
  if tool.isEmpty then .error (.badValue none)
  else .ok { tool := tool, base := String.ofList (Text.before tool.toList program.toList) }

def analysisStart (folders : Folders) : String := folders.tool ++ "-analysis"

def logFolder (folders : Folders) : String := Path.join folders.base (folders.tool ++ "-log-files")

def reportFolder (folders : Folders) : String := Path.join folders.base (folders.tool ++ "-report-files")

def known (folder : Option String) : Except Fault String :=
  match folder with
  | some path => .ok path
  | none => .error .missingAttribute

def workspace (folders : Folders) : Except Fault Workspace := do
  return ⟨← known folders.analysis, ← known folders.repository, ← known folders.models, ← known folders.results⟩

def note (f : Folders → Folders) : Act Unit := modify fun s => { s with folders := f s.folders }

/-- Makes the folders for the analysis of a repository, and copies the repository. -/
def createWorkspace (source : String) : Act Unit := do
  let source := Path.dropFinalSlash source
  let name := Path.leaf source
  let folders := (← get).folders
  let w := Workspace.ofName folders.base folders.tool name
  note fun f => { f with source := some source, name := some name, analysis := some w.analysis }
  Act.edit (Edit.change fun tree => tree.makeFolder w.analysis)
  note fun f => { f with repository := some w.repository }
  Act.edit (Edit.change fun tree => tree.copyFolder source w.repository)
  note fun f => { f with models := some w.models }
  Act.edit (Edit.change fun tree => tree.makeFolders w.models)
  note fun f => { f with results := some w.results }
  Act.edit (Edit.change fun tree => tree.makeFolder w.results)

def createLogs : Act Unit := do
  let path := (← get).folders.logFolder
  note fun f => { f with logs := some path }
  Act.edit (Edit.change fun tree => tree.makeFolder path)

def createReports : Act Unit := do
  let path := (← get).folders.reportFolder
  note fun f => { f with reports := some path }
  Act.edit (Edit.change fun tree => tree.makeFolder path)

def deleteWorkspaces : Act Unit := do
  let folders := (← get).folders
  let names ← Act.edit (Edit.ask fun tree => tree.list folders.base)
  (names.filter fun name => folders.analysisStart.toList.isPrefixOf name.toList).forM fun name =>
    Act.edit (Edit.change fun tree => tree.removeFolder (Path.join folders.base name))

/-- Removes a folder if there is one. -/
def deleteIfPresent (path : String) : Act Unit :=
  Act.orElse (Act.edit (Edit.change fun tree => tree.removeFolder path)) fun _ => pure ()

def deleteLogs : Act Unit := do deleteIfPresent (← get).folders.logFolder

def deleteReports : Act Unit := do deleteIfPresent (← get).folders.reportFolder

def deleteAll : Act Unit := do
  deleteWorkspaces
  deleteLogs
  deleteReports

end ServerlessTaint.Folders
