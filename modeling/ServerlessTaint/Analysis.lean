import ServerlessTaint.Analyser.Command
import ServerlessTaint.Analyser.Issues
import ServerlessTaint.Folders
import ServerlessTaint.Injection
import ServerlessTaint.Log
import ServerlessTaint.Model.Handler
import ServerlessTaint.Model.Supplied
import ServerlessTaint.Reference.Document
import ServerlessTaint.Request

/-!
# The analysis of repositories

Each repository is copied, and the copy is made ready for the analyser: the models are chosen and written,
client objects get their types, and calls of handlers are put in where events trigger them. Then the
analyser is run and asked for the issues. A repository whose analysis fails keeps what has been done for it,
and the reports are written in the end.
-/

namespace ServerlessTaint.Analysis

/-- What is known about the application that a configuration file describes. -/
def applicationOf (tree : FileTree) (infrastructure : String) : Except Fault Application := do
  let sources ← Reference.Sources.start tree infrastructure false
  Application.ofConfig (← sources.resolvedValue)

/-- Makes the copy of a repository ready for the analyser. -/
def prepare (settings : Settings) (w : Workspace) (environment : Option String) (infrastructure : String)
    (application : Application) : Edit Unit := do
  Analyser.writeConfiguration settings w environment
  let sources ← Edit.ask fun _ => HandlerModel.sources application.config infrastructure application.handlers
  SuppliedModel.writeAll suppliedModels Apis.catalogue application.grants.services
    application.facts.allPermissions w.models
  HandlerModel.writeAll settings w sources
  let clients ← TypeHints.addAll w.repository
  Injection.injectAll Apis.catalogue application clients

/-- Analyses a repository whose infrastructure is described by a file. `environment` is the path of the
virtual environment in which the tool runs. -/
def analyse (settings : Settings) (w : Workspace) (environment : Option String) (infrastructure : String) :
    Act Unit := do
  let application ← Act.edit (Edit.ask fun tree => applicationOf tree infrastructure)
  Act.edit (prepare settings w (environment.map Path.leaf) infrastructure application)
  Analyser.inferTypes w Analyser.standardFile
  Analyser.followData w Analyser.standardFile
  let _ ← Analyser.collectIssues {} w (Path.folder (environment.getD ""))

/-- Analyses the repository at a path. A fault in its analysis ends only this analysis. -/
def repository (settingsFile environment : Option String) (path : String) : Act Unit := do
  let settings := Settings.load (← get).files settingsFile
  Folders.createWorkspace path
  let session ← get
  let w ← Act.ask session.folders.workspace
  match Workspace.infrastructure? session.files w.repository with
  | some infrastructure =>
    Act.orElse (analyse settings w environment infrastructure) fun _ => pure ()
  | none => pure ()

/-- Analyses the repositories in a folder. The search ends at a file or folder that is missing. -/
def repositoriesIn (settingsFile environment : Option String) (folder : String) : Act Unit :=
  Act.orElse (do
    let names ← Act.edit (Edit.ask fun tree => tree.list folder)
    let files := (← get).files
    (names.filter fun name => files.isFolder (Path.join folder name)).forM fun name =>
      repository settingsFile environment (Path.join folder name)) fun
    | .missingFile => pure ()
    | fault => throw fault

def benchmarkCategory (settingsFile environment : Option String) (folder : String) : Act Unit := do
  let names ← Act.edit (Edit.ask fun tree => tree.list folder)
  names.forM fun name => repositoriesIn settingsFile environment (Path.join folder name)

def benchmarks (settingsFile environment : Option String) (asked : Category) : Act Unit := do
  let suite := Path.join (← get).folders.base "cloudbench"
  [Category.interProcedural, Category.intraProcedural].forM fun category => do
    if asked.includes category then
      benchmarkCategory settingsFile environment (Path.join suite category.label)
  if asked.includes .simpleApps then
    repositoriesIn settingsFile environment (Path.join suite Category.simpleApps.label)

/-- Analyses what is asked for. An empty path asks for nothing. -/
def task (settingsFile environment : Option String) : Task → Act Unit
  | .single path => if path.isEmpty then pure () else repository settingsFile environment path
  | .multi path => if path.isEmpty then pure () else repositoriesIn settingsFile environment path
  | .benchmarks category => benchmarks settingsFile environment category
  | .splitLog => pure ()

def fulfil (request : Request) (environment : Option String) : Act Unit := do
  match request.task with
  | .splitLog =>
    let folder := (← get).folders.logFolder
    Act.edit (Log.split folder)
  | asked =>
    Folders.deleteAll
    Folders.createLogs
    Folders.createReports
    let folders := (← get).folders
    Act.edit (Edit.write (Path.join folders.logFolder Log.fileName) "")
    task request.settingsFile environment asked
    Act.edit (Report.writeAll folders.base folders.reportFolder)

def run (line : List String) (environment : Option String) : Act Unit := do
  fulfil (← Act.ask (Request.ofWords line)) environment

end ServerlessTaint.Analysis
