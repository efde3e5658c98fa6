import ServerlessTaint.Catalogue.ServiceTypes
import ServerlessTaint.Json.Writer
import ServerlessTaint.Settings
import ServerlessTaint.Text.Part
import ServerlessTaint.Workspace

/-!
# The configuration of the analyser

The analyser reads, from a file in the folder of the analysis, which folders hold source code, where its
models are, and where the types of client objects are declared.
-/

namespace ServerlessTaint.Analyser

def standardFile : String := ".pyre_configuration"

/-- The message if the tool does not run in a virtual environment. -/
def noEnvironment : String :=
  "--- Inconsistency detected - Tool not running within a virtual environment ---"

def relative (w : Workspace) (path : String) : String := Text.replacePart w.analysis "." path

/-- The folders of a repository that hold source files, each before the folders in it. -/
def sourceFolders (tree : FileTree) (repository : String) : List String :=
  distinct (((tree.walkFiles repository).filter fun file => Path.extension file == ".py").map Path.folder)

/-- The folders of source code that the analyser is told of. In package mode the top-level folder is among
them in any case. -/
def sourceDirectories (settings : Settings) (w : Workspace) (tree : FileTree) : List String :=
  let folders := (sourceFolders tree w.repository).map (relative w)
  let top := relative w w.repository
  if !folders.contains top && (settings.packageMode w.name).isTruthy then top :: folders else folders

/-- Where the types of client objects are declared. -/
def searchPath : List Value :=
  .str "../../pyre-check/stubs" ::
    ServiceTypes.all.map fun (_, types) => .map [("site-package", .str types.module)]

def configuration (settings : Settings) (w : Workspace) (environment : String) (tree : FileTree) : Value :=
  .map [("source_directories", .list ((sourceDirectories settings w tree).map .str)),
    ("taint_models_path", .list [.str (relative w w.models),
      .str ("../" ++ environment ++ "/lib/pyre_check/taint")]),
    ("search_path", .list searchPath),
    ("use_command_v2", .bool true)]

def writeConfiguration (settings : Settings) (w : Workspace) (environment : Option String) : Edit Unit := do
  match environment with
  | some environment =>
    let tree ← get
    Edit.write (Path.join w.analysis standardFile) (Json.write (configuration settings w environment tree))
  | none => throw (.failedCheck noEnvironment)

end ServerlessTaint.Analyser
