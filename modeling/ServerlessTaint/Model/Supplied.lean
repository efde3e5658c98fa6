import ServerlessTaint.Catalogue.Models
import ServerlessTaint.Edit
import ServerlessTaint.Plugin.Facts

/-!
# Choice of the supplied models

Models of the functions of a service are of use only if the application has one of the permissions that
such a function needs. A service of which nothing is known keeps all its models.
-/

namespace ServerlessTaint.SuppliedModel

/-- The character may stand in the name of a service function. -/
def isApiChar (c : Char) : Bool := ('a' ≤ c && c ≤ 'z') || ('0' ≤ c && c ≤ '9') || c == '_'

/-- The service function that a line models: the first name between a dot and a parenthesis. -/
def apiName? : List Char → Option String
  | [] => none
  | c :: rest =>
    let name := rest.takeWhile isApiChar
    if c == '.' && !name.isEmpty && (rest.drop name.length).head? == some '(' then some (String.ofList name)
    else apiName? rest

def permissionsIn (api : String) (functions : Value) : Except Fault (List String) := do
  let info ← functions.get api
  let permissions ← info.get "permissions"
  (← permissions.elements).mapM Value.asText

/-- The permissions that a service asks for a function, over all kinds of objects. A kind of object that
does not have the function asks for none. -/
def permissionsFor (api : String) (kinds : List (String × Value)) : Except Fault (List String) :=
  kinds.foldlM (fun found (_, functions) =>
    match permissionsIn api functions with
    | .ok permissions => .ok (found ++ permissions)
    | .error (.missingKey _) => .ok found
    | .error fault => .error fault) []

/-- Whether the model of a service function is kept, given what the application may do with the service. -/
def keepsApi (catalogue : Value) (service : String) (granted : List String) (api : String) : Bool :=
  match catalogue.get service with
  | .ok (.map kinds) =>
    match permissionsFor api kinds with
    | .ok required => required.any granted.contains
    | .error _ => false
  | .ok _ => true
  | .error _ => false

/-- Whether a line of models is kept. Comments, empty lines and lines without a function are. -/
def keepsLine (catalogue : Value) (service : String) (granted : List String) (line : List Char) : Bool :=
  line.head? == some '#' || line.length == 1 ||
    match apiName? line with
    | some api => keepsApi catalogue service granted api
    | none => true

def serviceOf (file : String) : String := String.ofList (file.toList.takeWhile (· != '_'))

/-- The text of a file of models for an application with the given permissions, from its configuration
and from plugins. -/
def textFor (catalogue : Value) (granted extra : ServicePermissions) (file text : String) : String :=
  let service := serviceOf file
  if !Keyed.has service granted && !Keyed.has service extra then text
  else
    let permissions := ((Keyed.find? service granted).getD []) ++ ((Keyed.find? service extra).getD [])
    let lines := Text.linesWithEnds (Text.normalizeNewlines text.toList)
    String.ofList (lines.filter (keepsLine catalogue service permissions)).flatten

def writeAll (models : List (String × String)) (catalogue : Value) (granted extra : ServicePermissions)
    (folder : String) : Edit Unit :=
  (models.filter fun m => Path.extension m.1 == ".pysa").forM fun (file, text) =>
    Edit.write (Path.join folder file) (textFor catalogue granted extra file text)

end ServerlessTaint.SuppliedModel
