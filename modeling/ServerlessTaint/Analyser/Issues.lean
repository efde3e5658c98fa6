import ServerlessTaint.Issue
import ServerlessTaint.Report
import ServerlessTaint.Session

/-!
# Asking for issues

The results of the analyser are put into a database by a script, and a helper program is asked for one issue
after the other. Both stand in the folder of the analysis only for the time being.
-/

namespace ServerlessTaint.Analyser

/-- How issues are asked for: the virtual environment of the helper program, the file of results, and the
helper program with its folder. -/
structure Inquiry where
  environment : String := "venv-sapp"
  results : String := "taint-output.json"
  helper : String := "sapptoolpostprocessor.py"
  helperFolder : String := "scripts"
  deriving DecidableEq, Repr, Inhabited

/-- The helper programs that are supplied with the tool, each with its folder. -/
def suppliedHelpers : List (String × String) := [("scripts", "sapptoolpostprocessor.py")]

def databaseScript : String := "sapptooldbgeneration.sh"

def databaseScriptText (q : Inquiry) (w : Workspace) : String :=
  "#!/bin/bash\n" ++
  "python3 -m venv ../" ++ q.environment ++ "/\n" ++
  "source ../" ++ q.environment ++ "/bin/activate\n" ++
  "sapp analyze ./" ++ Path.join (Path.leaf w.results) q.results ++ "\n"

def issueCommand (q : Inquiry) (w : Workspace) (environments : String) (number : Nat) : String :=
  " ".intercalate [Path.join (Path.join environments q.environment) "bin/python3", q.helper, "-d",
    Path.join w.analysis "sapp.db", "-r", w.analysis, "-i", Value.intText number]

def makeDatabase (q : Inquiry) (w : Workspace) : Act Unit := do
  let script := Path.join w.analysis databaseScript
  Act.edit (Edit.write script (databaseScriptText q w))
  Act.command ("chmod +x " ++ databaseScript)
  Act.command ("./" ++ databaseScript)
  Act.command (databaseScriptText q w)
  Act.edit (Edit.change fun tree => tree.removeFile script)

def askIssues (q : Inquiry) (w : Workspace) (environments : String) : Act Issues := do
  if !suppliedHelpers.contains (q.helperFolder, q.helper) then throw .missingFile
  let helper := Path.join w.analysis q.helper
  Act.edit (Edit.write helper "")
  let (asked, issues) := Issue.collect 1 [] (← get).replies
  modify fun s => { s with replies := s.replies.drop asked.length }
  asked.forM fun number => Act.command (issueCommand q w environments number)
  Act.edit (Edit.change fun tree => tree.removeFile helper)
  return issues

/-- Asks for the issues of an analysis, and writes the file of results. -/
def collectIssues (q : Inquiry) (w : Workspace) (environments : String) : Act Issues := do
  if !(← get).files.isFolder w.analysis then throw .missingFile
  makeDatabase q w
  let issues ← askIssues q w environments
  Act.edit (Edit.write (Path.join w.results Report.resultsFile) (Issues.csvText issues))
  return issues

end ServerlessTaint.Analyser
