import ServerlessTaint.Arn
import ServerlessTaint.Environment
import ServerlessTaint.Plugin.Roles

/-!
# Permission decisions

Whether a call may be made: some permission that allows it has to be granted for its service, to all
handlers or by a plugin to the handler that makes the call, and it has to be granted on the resource
that the call names. In case of doubt about the resource the call may be made.
-/

namespace ServerlessTaint.Permission

open Syntax (Ast)

abbrev Decide := ExceptT Fault (StateM PluginFacts)

def ask {α : Type} (question : PluginFacts.Ask α) : Decide α := liftM question

/-- Two sets of permissions have one in common. -/
def meets (required granted : List String) : Bool := required.any fun p => granted.contains p

def hasRoles : Decide Bool := do
  match ← ask (PluginFacts.hasConfigFor (.str Roles.pluginName)) with
  | .ok known => return known
  | .error fault => throw fault

/-- The roles plugin has said that a handler overrides the provider-level grants. -/
def overrides (handler : String) : Decide Bool := do
  match ← ask (PluginFacts.configFor (.str Roles.pluginName)) with
  | none => throw .wrongType
  | some parameters =>
    match Keyed.find? Roles.overrideName parameters with
    | none => throw (.missingKey (Text.quoted Roles.overrideName))
    | some flags =>
      match flags.find? fun flag => flag.1 == handler with
      | some flag => return flag.2
      | none => throw .indexOutOfRange

def handlerPermissions (handler service : String) : Decide (List String) := do
  match ← ask (PluginFacts.permissionsFor (.str handler) (.str service) false) with
  | some permissions => return permissions
  | none => throw .wrongType

def serviceAllows (required granted : List String) (service : String) (handler : Option String) :
    Decide Bool := do
  match handler with
  | none => return meets required granted
  | some handler =>
    let facts ← get
    if facts.isEmpty then return meets required granted
    else if facts.hasHandlers then
      if ← hasRoles then
        if ← overrides handler then return meets required (← handlerPermissions handler service)
        else return meets required (addAllNew granted (← handlerPermissions handler service))
      else
        let own ← handlerPermissions handler service
        return meets required granted || meets required own
    else if ← hasRoles then return false
    else return meets required granted

/-- The grants on resources that hold for a handler: its own take the place of the provider-level ones
or are added to them. -/
def resourcesFor (provided : ResourceGrants) (handler : Option String) : Decide ResourceGrants := do
  match handler with
  | none => return provided
  | some handler =>
    let facts ← get
    if facts.isEmpty then return provided
    else
      let known ← hasRoles
      if facts.hasResources && known then
        if ← overrides handler then
          match ← ask (PluginFacts.resourcesFor (.str handler) .null) with
          | some own => return Keyed.setAll provided own
          | none => throw .wrongType
        else
          match ← ask (PluginFacts.resourcesFor (.str handler) .null) with
          | some own => return own.foldl (fun all (resource, grants) =>
              Keyed.modify resource [] (fun old => addAllNew old grants) all) provided
          | none => throw .missingAttribute
      else return provided

def permissionsIn (service : String) (grants : List Grant) : List String :=
  grants.filterMap fun
    | .permission s name => if s == service then some name else none
    | .unread text =>
      match text.toList with
      | s :: name :: _ => if String.singleton s == service then some (String.singleton name) else none
      | _ => none

/-- A resource is the one that a call names: its last part is the name or holds it between slashes. -/
def isNamed (name : Value) (service resource : String) : Bool :=
  let parts := (Arn.ofText resource).parts
  parts.service == service &&
    (name.isText parts.resourceId ||
      (parts.resourceId.toList.contains '/' &&
        (Text.splitString '/' parts.resourceId).any fun piece => name.isText piece))

/-- All resources are fully known: without references, and with proper names. -/
def allKnown (resources : ResourceGrants) : Bool :=
  (Keyed.keys resources).all fun resource =>
    Reference.isResolvedText resource && (Arn.ofText resource).isValid

/-- Whether the grants allow a call on a resource. If no resource has the name, unknown resources may
be meant. -/
def resourceAllows (required : List String) (resources : ResourceGrants) (service : String)
    (name : Value) : Bool :=
  match List.find? (fun entry => isNamed name service entry.1) resources with
  | some (_, grants) => meets required (permissionsIn service grants)
  | none => !allKnown resources

/-- Whether the grants allow a call, given one place of the call where a resource may be named. -/
def placeAllows (site : Site) (required : List String) (resources : ResourceGrants) (service : String)
    (call : Ast) (place : Value) : Except Fault Bool := do
  match ← place.asMap with
  | [] => throw .indexOutOfRange
  | (id, position) :: _ =>
    match ← call.callInput? (.str id) position with
    | none => return true
    | some input =>
      match input.text? with
      | some text => return resourceAllows required resources service (.str text)
      | none =>
        match ← site.inspect input with
        | .null => return true
        | name => return resourceAllows required resources service name

/-- Whether a call may be made on the resources that it names, given the places of the call where
resources are named. -/
def resourcesAllow (site : Site) (required : List String) (provided : ResourceGrants) (service : String)
    (places : Value) (call : Ast) (handler : Option String) : Decide Bool := do
  match places with
  | .null => return true
  | _ =>
    let resources ← resourcesFor provided handler
    match Keyed.find? "*" resources with
    | some grants =>
      if meets required (permissionsIn service grants) then return true
      else decideAll resources
    | none => decideAll resources
where
  /-- Goes through all places. -/
  decideAll (resources : ResourceGrants) : Decide Bool := do
    let items ← places.elements
    return (← (items.mapM (placeAllows site required resources service call) : Except Fault (List Bool))).all id

end ServerlessTaint.Permission
