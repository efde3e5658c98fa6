import ServerlessTaint.Client
import ServerlessTaint.Edit

/-!
# Type hints for client objects

In every program of a repository that imports what makes client objects, the assignments of client
objects get the types of the objects as hints, and imports of these types are put at the start.
-/

namespace ServerlessTaint

open Syntax (Ast)

abbrev FileClients := Keyed String (List Client)

abbrev RepositoryClients := Keyed ImportMode FileClients

namespace TypeHints

/-! ## Programs of a repository -/

/-- The program files of a repository that can be read as programs, with their programs. -/
def programs (tree : FileTree) (repository : String) : List (String × Ast) :=
  (tree.walkFiles repository).filterMap fun path =>
    if Path.extension path == ".py" then
      match tree.program path with
      | .ok program => some (path, program)
      | .error _ => none
    else none

/-- The files of a repository that import what makes client objects, each once for every statement that
does so. -/
def importers (mode : ImportMode) (tree : FileTree) (repository : String) : List (String × Ast) :=
  (programs tree repository).flatMap fun (path, program) =>
    (program.walk.filter (Client.isImport mode)).map fun _ => (path, program)

/-- The client objects of the files of a repository. A file counts as often as it is an importer. -/
def clients (mode : ImportMode) (tree : FileTree) (repository : String) : Except Fault FileClients :=
  (importers mode tree repository).foldlM (fun found (path, program) => do
    let made ← Client.madeBy mode program
    return if made.isEmpty then found else Keyed.modify path [] (· ++ made) found) []

/-! ## Hints -/

def hinted (clients : List Client) (statement : Ast) : Ast :=
  match statement with
  | .node .assign span [.list (target :: _), value] =>
    match clients.find? fun client => value.line? == some client.line with
    | some client =>
      match client.typeName? with
      | some type =>
        .node .annAssign span [target, .node .name none [.name type], value, .number 1]
      | none => statement
    | none => statement
  | _ => statement

mutual

def addHints (clients : List Client) : Ast → Ast
  | .node .assign span children => hinted clients (.node .assign span children)
  | .node kind span children => .node kind span (addHintsAll clients children)
  | .list items => .list (addHintsAll clients items)
  | t => t

def addHintsAll (clients : List Client) : List Ast → List Ast
  | [] => []
  | t :: ts => addHints clients t :: addHintsAll clients ts

end

/-! ## Imports -/

def importOf? (client : Client) : Option Ast := do
  let types ← client.types?
  let type ← client.typeName?
  return .node .importFrom none
    [.name types.module, .list [.node .importName none [.name type, .absent]], .number 0]

/-- A program with imports of the types of client objects at its start, that of the last first. -/
def addImports (clients : List Client) : Ast → Ast
  | .node .module span [.list body] =>
    .node .module span [.list ((clients.filterMap importOf?).reverse ++ body)]
  | t => t

/-! ## The pass -/

/-- Changes the files with client objects, each as often as it is an importer. -/
def editImporters (mode : ImportMode) (repository : String) (found : FileClients)
    (f : List Client → Ast → Ast) : Edit Unit := do
  (importers mode (← get) repository).forM fun (path, _) => do
    match Keyed.find? path found with
    | some clients => Edit.writeProgram path (f clients (← Edit.program path))
    | none => pure ()

def addFor (mode : ImportMode) (repository : String) : Edit FileClients := do
  let found ← Edit.ask fun tree => clients mode tree repository
  editImporters mode repository found addHints
  editImporters mode repository found addImports
  return found

def addAll (repository : String) : Edit RepositoryClients :=
  ImportMode.all.mapM fun mode => do return (mode, ← addFor mode repository)

end TypeHints

end ServerlessTaint
