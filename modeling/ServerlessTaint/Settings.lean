import ServerlessTaint.Catalogue.PackageRepositories
import ServerlessTaint.Evaluation
import ServerlessTaint.FileTree

/-!
# Settings

A settings file says, for repositories by name, how their analysis differs from the usual one. In package
mode the modules of a repository are known by their path from its top-level folder.
-/

namespace ServerlessTaint

/-- The settings for repositories. -/
structure Settings where
  repositories : Value
  deriving DecidableEq, Inhabited

namespace Settings

def standard : Settings := ⟨.map []⟩

def suppliedFile : String := "awsomepy_dataset_config_file.yml"

/-- The supplied settings: package mode for the repositories that need it. -/
def supplied : Settings :=
  ⟨.map (packageRepositories.map fun name =>
    (name, .map [("model-generation", .map [("package-mode", .str "True")])]))⟩

/-- The settings in a file: a supplied one, or one that is given by an absolute path. -/
def load (tree : FileTree) : Option String → Settings
  | none => standard
  | some name =>
    if name == suppliedFile then supplied
    else if name.toList.head? == some '/' then ⟨tree.loadYaml "" name⟩
    else standard

def defaultPackageMode : Value := .bool false

/-- The package mode of a repository, as it is written in the settings. It counts as switched on if its
value counts as true. -/
def packageMode (settings : Settings) (repository : String) : Value :=
  let written := do
    let text ← settings.repositories.getAll [repository, "model-generation", "package-mode"]
    Evaluation.evaluateText (← text.asText)
  match written with
  | .ok mode => mode
  | .error _ => defaultPackageMode

end Settings

end ServerlessTaint
