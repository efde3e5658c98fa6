import ServerlessTaint.Evaluation
import ServerlessTaint.Plugin.Facts

/-!
# Roles of single functions

A plugin gives functions roles of their own: the first statement of a function grants permissions to
it, and a setting says whether these add to the provider-level grants or override them.
-/

namespace ServerlessTaint.Roles

def pluginName : String := "IAMRolesPerFunction"

/-- The name of the parameter that says which functions override the provider-level grants. -/
def overrideName : String := "Override"

/-- The truth value of a setting that says that grants are inherited, reversed. -/
def overrides (setting : Except Fault Value) : Option Bool :=
  match setting with
  | .ok (.str text) =>
    match Evaluation.evaluateText (Evaluation.capitalize text) with
    | .ok v => some (!v.isTruthy)
    | .error _ => none
  | _ => none

/-- What holds for functions without a setting of their own. -/
def defaultOverride (config : Value) : Bool :=
  (overrides (config.getAll ["custom", "serverless-iam-roles-per-function", "defaultInherit"])).getD true

/-- The functions of a configuration with what is known about each. -/
def functions (config : Value) : Except Fault (List (Value × Except Fault Value)) := do
  let v ← config.get "functions"
  return (← v.elements).map fun
    | .str name => (.str name, v.get name)
    | key => (key, .error .wrongType)

/-- Which functions override the provider-level grants. -/
def configuration (config : Value) : Except Fault PluginParameters := do
  let fallback := defaultOverride config
  let flags ← (← functions config).mapM fun (name, info) => do
    let _ ← name.asKey
    return (name.display, (overrides (info >>= Value.get "iamRoleStatementsInherit")).getD fallback)
  return [(overrideName, distinct flags)]

def firstStatement (info : Except Fault Value) : Except Fault Value := do
  match ← (← info).get "iamRoleStatements" with
  | .list (statement :: _) => return statement
  | _ => throw .indexOutOfRange

/-- The actions of the first statement of a function, if it allows something. -/
def allowed? (info : Except Fault Value) : Option (Value × List Value) := do
  let statement ← (firstStatement info).toOption
  let effect ← (statement.get "Effect").toOption
  if effect.isText "Allow" then
    let actions ← (statement.get "Action" >>= Value.elements).toOption
    return (statement, actions)
  else none

def permissions (config : Value) : Except Fault (Keyed String (List String)) := do
  return (← functions config).filterMap fun (name, info) => do
    let (_, actions) ← allowed? info
    let texts ← actions.mapM Value.text?
    return (name.display, distinct texts)

def resources (config : Value) : Except Fault (Keyed String ResourceGrants) := do
  return (← functions config).filterMap fun (name, info) => do
    let (statement, actions) ← allowed? info
    let resource ← (statement.get "Resource").toOption
    let grants ← actions.mapM fun
      | .str action =>
        match Grants.actionParts action with
        | (service, some permission) => some (Grant.permission service permission)
        | _ => none
      | _ => none
    return (name.display, [(resource.display, distinct grants)])

end ServerlessTaint.Roles
