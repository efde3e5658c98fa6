import ServerlessTaint.Handlers
import ServerlessTaint.Reference.Inner

/-!
# Provider-level grants

The permissions that a configuration grants to all its handlers: for each service the set of its
permissions, and for each resource the set of grants on it. Statements are read until one that has an
unsupported form; what was read before it counts.
-/

namespace ServerlessTaint

/-- A grant: a permission of a service, or a text that was not taken apart. -/
inductive Grant where
  | permission (service name : String)
  | unread (text : String)
  deriving DecidableEq, Repr, Inhabited

abbrev ResourceGrants := Keyed String (List Grant)

abbrev ServicePermissions := Keyed String (List String)

/-- The provider-level grants of a configuration. -/
structure Grants where
  services : ServicePermissions
  resources : ResourceGrants
  deriving DecidableEq, Repr, Inhabited

namespace Grants

/-- The statements of the provider: in their new place or, if that is missing, in their old one. -/
def statements (config : Value) : Value :=
  match config.getAll ["provider", "iam", "role", "statements"] with
  | .ok v => v
  | .error (.missingKey _) =>
    match config.getAll ["provider", "iamRoleStatements"] with
    | .ok v => v
    | .error _ => .map []
  | .error _ => .map []

/-- The service and the permission of an action `service:permission`; a further colon ends the
permission. There is no permission without a colon. -/
def actionParts (action : String) : String × Option String :=
  match Text.splitString ':' action with
  | service :: name :: _ => (Text.trimmed service, some (Text.trimmed name))
  | [service] => (Text.trimmed service, none)
  | [] => ("", none)

/-- What is collected from statements, and whether the reading goes on. -/
abbrev Progress (σ : Type) := σ × Bool

def untilFault {σ α : Type} (step : σ → α → Progress σ) : σ → List α → Progress σ
  | s, [] => (s, true)
  | s, a :: rest =>
    match step s a with
    | (s, true) => untilFault step s rest
    | (s, false) => (s, false)

/-- The actions of a statement that allows something; none for other statements. -/
def allowedActions (statement : Value) : Except Fault (List Value) := do
  if (← statement.get "Effect").isText "Allow" then (← statement.get "Action").elements else return []

/-- Adds an action to the permissions of its service. An action without a colon leaves its service
without a permission, and ends the reading. -/
def addAction (services : ServicePermissions) : Value → Progress ServicePermissions
  | .str action =>
    match actionParts action with
    | (service, some name) => (Keyed.modify service [] (fun s => addNew s name) services, true)
    | (service, none) => (Keyed.modify service [] id services, false)
  | _ => (services, false)

def addStatement (services : ServicePermissions) (statement : Value) : Progress ServicePermissions :=
  match allowedActions statement with
  | .ok actions => untilFault addAction services actions
  | .error _ => (services, false)

def servicesOf : Value → ServicePermissions
  | .list items => (untilFault addStatement [] items).1
  | .str text => [("undefined", [text])]
  | _ => []

def addGrant (resource : String) (resources : ResourceGrants) : Value → Progress ResourceGrants
  | .str action =>
    match actionParts action with
    | (service, some name) =>
      (Keyed.modify resource [] (fun s => addNew s (.permission service name)) resources, true)
    | (_, none) => (Keyed.modify resource [] id resources, false)
  | _ => (Keyed.modify resource [] id resources, false)

def addResource (resources : ResourceGrants) (statement : Value) : Progress ResourceGrants :=
  match statement.holds "Resource" with
  | .error _ => (resources, false)
  | .ok false => (resources, true)
  | .ok true =>
    match allowedActions statement with
    | .error _ => (resources, false)
    | .ok [] => (resources, true)
    | .ok actions =>
      match statement.get "Resource" with
      | .ok resource => untilFault (addGrant resource.display) resources actions
      | .error _ => (resources, false)

def writtenResources : Value → ResourceGrants
  | .list items => (untilFault addResource [] items).1
  | .str text => [("undefined", [.unread text])]
  | _ => []

/-- The grants with the names of resources resolved. Of two resources that become the same, the later
one counts. -/
def resolveResources (config : Value) (resources : ResourceGrants) : ResourceGrants :=
  Keyed.ofEntries (resources.map fun (resource, grants) => (Reference.resolve config resource, grants))

def ofConfig (config : Value) : Grants :=
  let statements := statements config
  ⟨servicesOf statements, resolveResources config (writtenResources statements)⟩

def serviceTable (services : ServicePermissions) : String :=
  if services.isEmpty then "--- WARNING: Empty permissions dictionary (provider-level) ---\n"
  else String.join ((Keyed.sortByKey services).map fun (service, names) =>
    Table.render ["Service " ++ service] ((sortTexts names).map fun name => [name]))

def resourceTable (resources : ResourceGrants) : String :=
  if resources.isEmpty then "--- WARNING: Empty permissions-resources dictionary (provider-level) ---\n"
  else Table.render ["Resources"] ((sortTexts (Keyed.keys resources)).map fun r => [r])

end Grants

end ServerlessTaint
