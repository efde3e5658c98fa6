import ServerlessTaint.Catalogue.ServiceTypes
import ServerlessTaint.Syntax.Query

/-!
# Client objects

A client object gives a program access to a service. It is made by a call of `boto3.client` or
`boto3.resource`, or of `client` or `resource` when these were imported by name, and the call names the
service by its first argument or by a keyword.
-/

namespace ServerlessTaint

open Syntax (Ast)

/-- The two kinds of client objects. -/
inductive ClientKind where
  | client
  | resource
  deriving DecidableEq, Repr, Inhabited

namespace ClientKind

/-- The name of the function that makes such objects. -/
def label : ClientKind → String
  | client => "client"
  | resource => "resource"

def ofLabel? (label : String) : Option ClientKind :=
  if label == "client" then some client
  else if label == "resource" then some resource
  else none

def key (kind : ClientKind) : String := kind.label ++ "_obj"

def typeName? (kind : ClientKind) (types : ServiceTypes) : Option String :=
  match kind with
  | client => some types.client
  | resource => types.resource

end ClientKind

/-- The two ways of importing what makes client objects: the functions by name, or the whole module. -/
inductive ImportMode where
  | byName
  | whole
  deriving DecidableEq, Repr, Inhabited

namespace ImportMode

/-- The modes in the order in which they are gone through. -/
def all : List ImportMode := [.byName, .whole]

def label : ImportMode → String
  | .byName => "partial"
  | .whole => "full"

def ofLabel (label : String) : Except Fault ImportMode :=
  if label == "partial" then .ok .byName
  else if label == "full" then .ok .whole
  else .error (.badValue (some "--- Unsupported input value in TypeAnnotationManagerCls ---"))

end ImportMode

/-- A client object: the line of the call that makes it, the variable that holds it, its kind, and what
stands for its service. -/
structure Client where
  line : Nat
  name : String
  kind : ClientKind
  service : Ast
  deriving DecidableEq, Repr

namespace Client

def moduleName : String := "boto3"

def service? (client : Client) : Option String :=
  match client.service with
  | .literal (.str s) => some s
  | _ => none

def types? (client : Client) : Option ServiceTypes := client.service? >>= ServiceTypes.of?

def typeName? (client : Client) : Option String := client.types? >>= client.kind.typeName?

def isImport (mode : ImportMode) (statement : Ast) : Bool :=
  match mode, statement with
  | .whole, .node .importStmt _ [.list names] =>
    names.any fun item => item.nameOf? .name == some moduleName
  | .byName, .node .importFrom _ [module, .list names, .number level] =>
    module.name? == some moduleName && level == 0 &&
      names.any fun item => ((item.nameOf? .name).bind ClientKind.ofLabel?).isSome
  | _, _ => false

def kindMade? (mode : ImportMode) (call : Ast) : Option ClientKind :=
  match mode with
  | .whole =>
    match call.method? with
    | some (object, method) => if object == moduleName then ClientKind.ofLabel? method else none
    | none => none
  | .byName =>
    match call with
    | .node .call _ (.node .name _ [.name id] :: _) => ClientKind.ofLabel? id
    | _ => none

/-- What stands for the service in a call: the value of the keyword or else of the first argument. A
call without arguments is a fault of its own. -/
def serviceOf (call : Ast) : Except Fault Ast :=
  let keyword := (call.itemsOf .keywords).find? (Ast.hasKeyword (.str "service_name"))
  match keyword >>= Ast.keywordValue? >>= Ast.field? .value with
  | some service => .ok service
  | none =>
    match call.itemsOf .args with
    | [] => .error .indexOutOfRange
    | first :: _ =>
      match first.field? .value with
      | some service => .ok service
      | none => .error .missingAttribute

/-- The client object that an assignment makes. Assignments that do not have the needed form make
none. -/
def ofAssignment? (mode : ImportMode) : Ast → Except Fault (Option Client)
  | .node .assign _ [.list targets, call] =>
    match kindMade? mode call, targets with
    | some kind, .node .name _ [.name name] :: _ =>
      match serviceOf call with
      | .ok service => .ok (some ⟨call.line?.getD 0, name, kind, service⟩)
      | .error .missingAttribute => .ok none
      | .error fault => .error fault
    | _, _ => .ok none
  | _ => .ok none

def madeBy (mode : ImportMode) (program : Ast) : Except Fault (List Client) := do
  return (← (program.walkKind .assign).mapM (ofAssignment? mode)).filterMap id

end Client

end ServerlessTaint
