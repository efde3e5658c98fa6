import ServerlessTaint.Analyser.Configuration
import ServerlessTaint.Session

/-!
# Running the analyser

The analyser is run in the folder of the analysis, and only if its configuration file is there.
-/

namespace ServerlessTaint.Analyser

def noConfiguration : String := "--- Inconsistency detected - Pysa configuration file not found ---"

/-- The command that adds inferred types to the source code. -/
def inferenceCommand : String := "pyre infer -i"

def resultsArgument (w : Workspace) : String := "./" ++ Path.leaf w.results

def dataFlowCommand (w : Workspace) : String := "pyre analyze --save-results-to " ++ resultsArgument w

def checkConfiguration (w : Workspace) (file : String) : Act Unit := do
  let files := (← get).files
  if !files.isFolder w.analysis then throw .missingFile
  if !files.isFile (Path.join w.analysis file) then throw (.failedCheck noConfiguration)

/-- Adds inferred types to the source code. -/
def inferTypes (w : Workspace) (file : String) : Act Unit := do
  checkConfiguration w file
  Act.command inferenceCommand

def followData (w : Workspace) (file : String) : Act Unit := do
  checkConfiguration w file
  Act.command (dataFlowCommand w)
  let findings := (← get).findings
  findings.forM fun (name, text) =>
    Act.edit (Edit.write (Path.join (Path.join w.analysis (resultsArgument w)) name) text)

end ServerlessTaint.Analyser
