import ServerlessTaint.CommandLine

/-!
# Questions about issues

The helper program is asked for one issue of a database. It says what it is asked for, and then has the
issue and its trace shown.
-/

namespace ServerlessTaint

/-- A question about an issue. -/
structure IssueQuery where
  database : String
  repository : String
  issue : Int
  deriving DecidableEq, Repr

namespace IssueQuery

/-- The options of the helper program. -/
def grammar : CommandLine.Grammar where
  switches := [
    ⟨"database", ["-d", "--database-path"], .text, none⟩,
    ⟨"repository", ["-r", "--repository-path"], .text, none⟩,
    ⟨"issue", ["-i", "--issue"], .integer, none⟩]
  required := ["database", "repository", "issue"]

def ofWords (line : List String) : Except Fault IssueQuery := do
  let options ← CommandLine.parse grammar line
  match Keyed.find? "database" options, Keyed.find? "repository" options, Keyed.find? "issue" options with
  | some (.str database), some (.str repository), some (.int issue) => return ⟨database, repository, issue⟩
  | _, _, _ => throw CommandLine.wrong

/-- What the program prints first. -/
def banner : String :=
  let message := "--- SQLite database custom postprocessor ---"
  let rule := String.ofList (List.replicate message.length '-')
  rule ++ "\n" ++ message ++ "\n" ++ rule ++ "\n"

/-- What the program prints about a question. -/
def announcement (q : IssueQuery) : String :=
  "--- Database to be processed: " ++ q.database ++ " ---\n" ++
  "--- Repository to be processed: " ++ q.repository ++ " ---\n" ++
  "--- Issue to be processed: " ++ Value.intText q.issue ++ " ---\n"

/-- The text that explains the options. -/
def help : String :=
  "usage: sapptoolpostprocessor.py [-h] -d database -r repository -i issue\n" ++
  "\n" ++
  "Launches the custom postprocessing of the SQLite database generated by the\n" ++
  "SAPP Tool.\n" ++
  "\n" ++
  "options:\n" ++
  "  -h, --help            show this help message and exit\n" ++
  "  -d database, --database-path database\n" ++
  "                        Database - Full path of SQLite database to be\n" ++
  "                        processed\n" ++
  "  -r repository, --repository-path repository\n" ++
  "                        Repository - Full path of code repository to be\n" ++
  "                        processed\n" ++
  "  -i issue, --issue issue\n" ++
  "                        Issue - Number of the issue identified by Pysa to be\n" ++
  "                        processed\n"

/-- A step in answering a question. -/
inductive Step where
  | connect (database repository : String)
  | setUp
  | selectIssue (number : Int)
  | showTrace
  deriving DecidableEq, Repr

/-- The steps in answering a question. An issue has to be selected before its trace is shown. -/
def steps (q : IssueQuery) : List Step :=
  [.connect q.database q.repository, .setUp, .selectIssue q.issue, .showTrace]

def printed (line : List String) : String :=
  match ofWords line with
  | .ok q => banner ++ q.announcement
  | .error (.exit "0") => banner ++ help
  | .error _ => banner

end IssueQuery

end ServerlessTaint
