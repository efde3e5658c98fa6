import ServerlessTaint.Csv
import ServerlessTaint.Edit

/-!
# Reports

The summary has a row for every analysed repository, with the number of issues if the analysis has been
completed. The report of data flows has a row for every issue of every repository. It is made from the
summary and from the files of results.
-/

namespace ServerlessTaint.Report

def resultsFile : String := "pysa_results.csv"

def resultsFolder : String := "pysa-runs"

/-- How the names of the folders of analyses start. -/
def analysisStart : String := "cloudflow-analysis"

/-- The files that the analyser writes if it comes to an end. -/
def completionFiles : List String := ["taint-metadata.json", "taint-output.json"]

def summaryFile : String := "cloudflow_summary_report.csv"

def dataFlowsFile : String := "cloudflow_data_flows_report.csv"

def summaryNames : List String := ["Repository", "Analysis", "Individual Data Flows"]

def repositoryOf (folder : String) : String :=
  let start := (analysisStart ++ "-").toList
  if start.isPrefixOf folder.toList then String.ofList (folder.toList.drop start.length) else folder

def analysisFolders (tree : FileTree) (base : String) : Except Fault (List String) := do
  return (← tree.list base).filter fun name => analysisStart.toList.isPrefixOf name.toList

def resultsOf (base folder : String) : String := Path.join (Path.join base folder) resultsFolder

def sheet (tree : FileTree) (path : String) : Except Fault Csv.Sheet := do
  return Csv.Sheet.ofText (← tree.read path)

/-! ## Summary -/

def issueCount (tree : FileTree) (results : String) : Except Fault Nat := do
  let records := (← sheet tree (Path.join results resultsFile)).records
  let issues ← records.mapM fun record => record.get "Issue"
  return issues.length

def summaryRow (tree : FileTree) (base folder : String) (names : List String) : List String :=
  let failed := [repositoryOf folder, "Error", "N/A"]
  if completionFiles.all names.contains then
    match issueCount tree (resultsOf base folder) with
    | .ok count => [repositoryOf folder, "Completed", Value.intText count]
    | .error _ => failed
  else failed

/-- Writes the summary. Rows that have been written stay if a later one cannot be. -/
def writeSummary (base folder : String) : Edit Unit := do
  let file := Path.join folder summaryFile
  Edit.write file (Csv.rowText summaryNames)
  let folders ← Edit.ask fun tree => analysisFolders tree base
  folders.forM fun analysis => do
    let names ← Edit.ask fun tree => tree.list (resultsOf base analysis)
    let tree ← get
    Edit.append file (Csv.rowText (summaryRow tree base analysis names))

/-! ## Data flows -/

/-- The names of the fields of the first file of results that has some. A file of results that is empty is a
fault, and so is the lack of names. -/
def resultNames (tree : FileTree) (base : String) : List String → Except Fault (List String)
  | [] => .error .wrongType
  | folder :: folders => do
    let results := resultsOf base folder
    if (← tree.list results).contains resultsFile then
      match (← sheet tree (Path.join results resultsFile)).names with
      | none => throw .wrongType
      | some [] => resultNames tree base folders
      | some names => return names
    else resultNames tree base folders

def repositoryWithIssues? (row : Csv.Record) : Except Fault (Option String) := do
  match ← row.get "Individual Data Flows" with
  | none => throw .wrongType
  | some text =>
    match Text.parseInt? text.toList with
    | none => throw (.badValue none)
    | some count =>
      if 0 < count then
        match ← row.get "Repository" with
        | some repository => return some repository
        | none => throw .wrongType
      else return none

def appendIssues (base file : String) (names : List String) (repository : String) : Edit Unit := do
  let results := resultsOf base (analysisStart ++ "-" ++ repository)
  let records := (← Edit.ask fun tree => sheet tree (Path.join results resultsFile)).records
  records.forM fun record => do
    let values := Keyed.setAll [("Repository", some repository)] record.values
    let row ← Edit.ask fun _ => Csv.Record.rowText names { record with values := values }
    Edit.append file row

/-- Adds the issues of the repository of a row of the summary. A row that cannot be used is passed over, but
it has to name a repository. -/
def appendRow (base file : String) (names : List String) (row : Csv.Record) : Edit Unit :=
  tryCatch (do
    match ← Edit.ask fun _ => repositoryWithIssues? row with
    | some repository => appendIssues base file names repository
    | none => pure ()) fun _ => do
    let _ ← Edit.ask fun _ => row.get "Repository"

def writeDataFlows (base folder : String) : Edit Unit := do
  let folders ← Edit.ask fun tree => analysisFolders tree base
  let names ← Edit.ask fun tree => resultNames tree base folders
  let summary ← Edit.ask fun tree => sheet tree (Path.join folder summaryFile)
  let names := "Repository" :: names
  let file := Path.join folder dataFlowsFile
  Edit.write file (Csv.rowText names)
  summary.records.forM (appendRow base file names)

def writeAll (base folder : String) : Edit Unit := do
  writeSummary base folder
  writeDataFlows base folder

end ServerlessTaint.Report
