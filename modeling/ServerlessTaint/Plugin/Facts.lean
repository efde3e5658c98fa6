import ServerlessTaint.Grants

/-!
# Facts from plugins

What plugins say about a configuration, in four sections: parameters of plugins, events of handlers,
permissions of handlers, and grants on resources for handlers. A section comes into being when
something is stored in it or when it is asked for.
-/

namespace ServerlessTaint

/-- Parameters of a plugin: for each name a set of handlers with a flag. -/
abbrev PluginParameters := Keyed String (List (String × Bool))

/-- An event that a plugin gives to a handler, with the method as it is written. -/
structure PluginEvent where
  service : String
  method : Value
  deriving DecidableEq, Inhabited

/-- The sections of the facts; one that has not come into being is `none`. -/
structure PluginFacts where
  config : Option (Keyed String PluginParameters) := none
  events : Option (Keyed String (List PluginEvent)) := none
  handlers : Option (Keyed String (List String)) := none
  resources : Option (Keyed String ResourceGrants) := none
  deriving Inhabited

namespace PluginFacts

def hasEvents (facts : PluginFacts) : Bool := facts.events.isSome

def hasHandlers (facts : PluginFacts) : Bool := facts.handlers.isSome

def hasResources (facts : PluginFacts) : Bool := facts.resources.isSome

/-- The names of the sections that exist, in alphabetical order. -/
def sections (facts : PluginFacts) : List String :=
  (if facts.config.isSome then ["config"] else []) ++
  (if facts.events.isSome then ["events"] else []) ++
  (if facts.handlers.isSome then ["handlers"] else []) ++
  (if facts.resources.isSome then ["resources"] else [])

def isEmpty (facts : PluginFacts) : Bool := facts.sections.isEmpty

/-! ## Storing -/

def storeConfig (plugin : String) (parameters : Option PluginParameters) (facts : PluginFacts) :
    PluginFacts :=
  match parameters with
  | some p => { facts with config := some (Keyed.set plugin p (facts.config.getD [])) }
  | none => facts

/-- Adds entries to a section; those of a key that is there already are merged. -/
def mergeInto {α : Type} (merge : α → α → α) (store : Option (Keyed String α))
    (new : Option (Keyed String α)) : Option (Keyed String α) :=
  match new with
  | none => store
  | some entries => entries.foldl (fun store (key, a) =>
      let old := store.getD []
      some (match Keyed.find? key old with
        | some b => Keyed.set key (merge b a) old
        | none => Keyed.set key a old)) store

def storeEvents (events : Option (Keyed String (List PluginEvent))) (facts : PluginFacts) : PluginFacts :=
  { facts with events := mergeInto addAllNew facts.events events }

def storeHandlers (permissions : Option (Keyed String (List String))) (facts : PluginFacts) :
    PluginFacts :=
  { facts with handlers := mergeInto addAllNew facts.handlers permissions }

def storeResources (grants : Option (Keyed String ResourceGrants)) (facts : PluginFacts) : PluginFacts :=
  { facts with resources := mergeInto Keyed.setAll facts.resources grants }

/-! ## Asking -/

/-- A question about the facts, which may bring a section into being. -/
abbrev Ask := StateM PluginFacts

def configSection : Ask (Keyed String PluginParameters) := do
  let entries := (← get).config.getD []
  modify ({ · with config := some entries })
  return entries

def handlersSection : Ask (Keyed String (List String)) := do
  let entries := (← get).handlers.getD []
  modify ({ · with handlers := some entries })
  return entries

def resourcesSection : Ask (Keyed String ResourceGrants) := do
  let entries := (← get).resources.getD []
  modify ({ · with resources := some entries })
  return entries

def lookUp {α : Type} (key : Value) (entries : Keyed String α) : Option α :=
  match key.asKey with
  | .ok (some k) => Keyed.find? k entries
  | _ => none

def hasConfigFor (plugin : Value) : Ask (Except Fault Bool) := do
  let entries ← configSection
  return plugin.asKey.map fun
    | some name => Keyed.has name entries
    | none => false

def configFor (plugin : Value) : Ask (Option PluginParameters) := do return lookUp plugin (← configSection)

/-- The permission without the letters and digits of a service and a colon at its start. -/
def withoutService (permission : String) : String :=
  let cs := permission.toList
  match cs.dropWhile Char.isAlphanum with
  | ':' :: rest => if (cs.takeWhile Char.isAlphanum).isEmpty then permission else String.ofList rest
  | _ => permission

/-- The permissions of a handler: those that start with a service if one is given, with or without
the names of services. -/
def permissionsFor (handler service : Value) (keepService : Bool) : Ask (Option (List String)) := do
  let entries ← handlersSection
  let chosen : Option (List String) := do
    let permissions ← lookUp handler entries
    match service with
    | .null => some permissions
    | .str s => some (permissions.filter fun p => s.toList.isPrefixOf p.toList)
    | _ => if permissions.isEmpty then some [] else none
  return chosen.map fun permissions =>
    if keepService then permissions else distinct (permissions.map withoutService)

/-- The grants on resources for a handler: those of a service if one is given. -/
def resourcesFor (handler service : Value) : Ask (Option ResourceGrants) := do
  let entries ← resourcesSection
  return (lookUp handler entries).map fun resources =>
    match service with
    | .null => resources
    | service => resources.map fun (resource, grants) =>
      (resource, grants.filter fun
        | .permission s _ => service.isText s
        | .unread text => (text.toList.head?.map fun c => service.isText (String.singleton c)).getD false)

/-- The permissions of all handlers by service. Those without a colon do not count. -/
def allPermissions (facts : PluginFacts) : ServicePermissions :=
  ((facts.handlers.getD []).flatMap (·.2)).foldl (fun result permission =>
    let cs := permission.toList
    if cs.contains ':' then
      let service := String.ofList (cs.takeWhile (· != ':'))
      let name := String.ofList ((cs.dropWhile (· != ':')).drop 1)
      Keyed.modify service [] (fun names => addNew names name) result
    else result) []

end PluginFacts

end ServerlessTaint
