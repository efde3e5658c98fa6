import ServerlessTaint.Edit

/-!
# The folders of an analysis

The analysis of a repository works on a copy of it in a folder of its own, beside the models that the
analyser reads and the results that it writes.
-/

namespace ServerlessTaint

/-- The folders of the analysis of one repository. -/
structure Workspace where
  analysis : String
  repository : String
  models : String
  results : String
  deriving DecidableEq, Repr, Inhabited

namespace Workspace

/-- The folders of the analysis of the repository with a name. -/
def ofName (base tool name : String) : Workspace :=
  let analysis := Path.join base (tool ++ "-analysis-" ++ name)
  ⟨analysis, Path.join analysis name, Path.join analysis "stubs/taint", Path.join analysis "pysa-runs"⟩

def name (w : Workspace) : String := Path.leaf w.repository

def infrastructureNames : List String := ["serverless.yml", "serverless.yaml"]

def infrastructure? (tree : FileTree) (repository : String) : Option String :=
  List.find? (fun file => infrastructureNames.contains (Path.leaf file)) (tree.walkFiles repository)

end Workspace

end ServerlessTaint
