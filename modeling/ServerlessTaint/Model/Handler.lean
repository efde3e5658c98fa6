import ServerlessTaint.Handlers
import ServerlessTaint.Pattern.Reader
import ServerlessTaint.Settings
import ServerlessTaint.Syntax.Query
import ServerlessTaint.Text.Part
import ServerlessTaint.Workspace

/-!
# Models of handlers

What a handler is given comes from outside, so its first parameter is a source of tainted data, and it is
checked as a sink too. The models of the handlers of a file are lines that name the handler by its module.
-/

namespace ServerlessTaint

open Syntax (Ast)

/-- The role of the first parameter of a handler in a model. -/
inductive ModelRole where
  | source
  | sink
  | unset
  deriving DecidableEq, Repr

namespace ModelRole

def word : ModelRole → String
  | source => "Source"
  | sink => "Sink"
  | unset => ""

def kinds : ModelRole → List String
  | source => ["Test", "UserControlled"]
  | sink => ["Test"]
  | unset => []

end ModelRole

namespace HandlerModel

def standardFile : String := "models.pysa"

/-- The message for a role without kinds of data. -/
def missingKinds : String := "--- Inconsistency detected - Missing initialization ---"

/-- The name of the module of a source file. In package mode it is the path of the file without its
extension, from which every match of the path of the repository, read as a pattern, is taken out. -/
def moduleName (settings : Settings) (w : Workspace) (source : String) : Except Fault String :=
  if (settings.packageMode w.name).isTruthy then
    match Pattern.read? (w.repository ++ "/") with
    | some pattern => .ok (Text.replacePart "/" "." (pattern.deleteAll (Path.stem source)))
    | none => .error .badPattern
  else .ok (Path.stem (Path.leaf source))

/-- The name of the first parameter of a function that may be given by position or by name. -/
def firstParameter (function : Ast) : Except Fault String :=
  match (function.field? .args).map (·.itemsOf .args) with
  | some (first :: _) => .ok ((first.nameOf? .arg).getD "")
  | _ => .error .indexOutOfRange

def line (module function parameter : String) (role : ModelRole) (kind : String) : String :=
  "def " ++ module ++ "." ++ function ++ "(" ++ parameter ++ ": Taint" ++ role.word ++ "[" ++ kind ++ "]): ...\n"

def functionName (function : Ast) : String := (function.nameOf? .name).getD ""

def writeFunction (settings : Settings) (w : Workspace) (role : ModelRole) (source file : String)
    (function : Ast) : Edit Unit :=
  role.kinds.forM fun kind => do
    let module ← Edit.ask fun _ => moduleName settings w source
    let parameter ← Edit.ask fun _ => firstParameter function
    Edit.append file (line module (functionName function) parameter role kind)

/-- Adds the models of the handlers of a source file to a file of models. Models that have been written
stay if a later one cannot be. -/
def write (settings : Settings) (w : Workspace) (role : ModelRole) (isHandler : String → Bool)
    (source modelFile : String) : Edit Unit := do
  if role.kinds.isEmpty then throw (.notImplemented missingKinds)
  let file := Path.join w.models modelFile
  unless (← get).isFile file do Edit.write file ""
  Edit.append file "# Handler-related models\n"
  let program ← Edit.program source
  (program.outerFunctions.filter fun f => isHandler (functionName f)).forM
    (writeFunction settings w role source file)
  Edit.append file "\n"

/-! ## Locations of handlers -/

/-- The module path and the function of a location: what stands before and after the last dot of its last
line. -/
def locationParts? (location : String) : Option (String × String) :=
  let cs := location.toList
  let text := if cs.getLast? == some '\n' then cs.dropLast else cs
  let line := (text.reverse.takeWhile (· != '\n')).reverse
  let function := (line.reverse.takeWhile (· != '.')).reverse
  if line.contains '.' && !function.isEmpty && function.all Text.isWord then
    some (String.ofList (line.take (line.length - function.length - 1)), String.ofList function)
  else none

def dropHere (location : String) : String :=
  match location.toList with
  | '.' :: '/' :: rest => String.ofList rest
  | _ => location

/-- The source file and the function of a handler, given the folder of the configuration. -/
def located (config : Value) (folder handler : String) : Except Fault (String × String) := do
  let location ← config.getAll ["functions", handler, "handler"]
  match locationParts? (dropHere (← location.asText)) with
  | some (path, function) => return (Path.join folder (Text.replacePart "." "/" path ++ ".py"), function)
  | none => throw .missingAttribute

def sources (config : Value) (infrastructure : String) (handlers : Handlers) :
    Except Fault (Keyed String (List String)) :=
  handlers.foldlM (fun found (handler, _) => do
    let (file, function) ← located config (Path.folder infrastructure) handler
    return Keyed.modify file [] (· ++ [function]) found) []

/-- Adds the models of all handlers, first as sources and then as sinks. A file whose models cannot be
written is passed over. -/
def writeAll (settings : Settings) (w : Workspace) (sources : Keyed String (List String)) : Edit Unit :=
  [ModelRole.source, ModelRole.sink].forM fun role =>
    sources.forM fun (file, functions) =>
      tryCatch (write settings w role functions.contains file standardFile) fun _ => pure ()

end HandlerModel

end ServerlessTaint
