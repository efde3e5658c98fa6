import ServerlessTaint.CommandLine

/-!
# Requests to the tool

The tool analyses one repository, the repositories in a folder, or the supplied benchmarks, or it splits
the log of an earlier run. A settings file may be named.
-/

namespace ServerlessTaint

/-- The categories of the supplied benchmarks. -/
inductive Category where
  | all
  | interProcedural
  | intraProcedural
  | simpleApps
  deriving DecidableEq, Repr

namespace Category

def label : Category → String
  | all => "all"
  | interProcedural => "inter-procedural"
  | intraProcedural => "intra-procedural"
  | simpleApps => "simple-apps"

/-- All categories. -/
def every : List Category := [all, interProcedural, intraProcedural, simpleApps]

def ofLabel? (text : String) : Option Category := every.find? fun c => c.label == text

def includes (asked category : Category) : Bool := asked == all || asked == category

end Category

/-- What the tool is asked to do. -/
inductive Task where
  | single (repository : String)
  | multi (folder : String)
  | benchmarks (category : Category)
  | splitLog
  deriving DecidableEq, Repr

/-- A request: a task, and a settings file if one is named. -/
structure Request where
  task : Task
  settingsFile : Option String
  deriving DecidableEq, Repr

namespace Request

def taskGroup : String := "task"

/-- The options of the tool. -/
def grammar : CommandLine.Grammar where
  switches := [
    ⟨"single", ["-s", "--single"], .text, some taskGroup⟩,
    ⟨"multi", ["-m", "--multi"], .text, some taskGroup⟩,
    ⟨"benchmarks", ["-mb", "--microbenchmarks"], .choice (Category.every.map Category.label), some taskGroup⟩,
    ⟨"split", ["-lp", "--log-processing"], .flag, some taskGroup⟩,
    ⟨"settings", ["-cf", "--config-file"], .text, none⟩]
  requiredGroups := [taskGroup]

def taskOf? (options : Keyed String Value) : Option Task :=
  match Keyed.find? "single" options, Keyed.find? "multi" options, Keyed.find? "benchmarks" options with
  | some (.str path), _, _ => some (.single path)
  | _, some (.str path), _ => some (.multi path)
  | _, _, some (.str label) => (Category.ofLabel? label).map .benchmarks
  | _, _, _ => if Keyed.has "split" options then some .splitLog else none

def ofWords (line : List String) : Except Fault Request := do
  let options ← CommandLine.parse grammar line
  match taskOf? options with
  | some task => return ⟨task, (Keyed.find? "settings" options).bind Value.text?⟩
  | none => throw CommandLine.wrong

end Request

end ServerlessTaint
