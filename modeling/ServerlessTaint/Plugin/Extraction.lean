import ServerlessTaint.Plugin.Roles
import ServerlessTaint.Plugin.StateMachines

/-!
# Extraction of the facts of all plugins

The plugins that a configuration lists are gone through in order; those that are not supported are
skipped. A plugin that misses a key of the configuration stops where it is.
-/

namespace ServerlessTaint.PluginFacts

/-- The supported plugins. -/
inductive Plugin where
  | roles
  | stateMachines
  deriving DecidableEq, Repr

def plugin? (name : String) : Option Plugin :=
  if name == "serverless-iam-roles-per-function" then some .roles
  else if name == "serverless-step-functions" then some .stateMachines
  else none

def addPlugin (config : Value) (facts : PluginFacts) : Plugin → PluginFacts × Option Fault
  | .roles =>
    match Roles.configuration config, Roles.permissions config, Roles.resources config with
    | .ok parameters, .ok permissions, .ok resources =>
      ((facts.storeConfig Roles.pluginName (some parameters)).storeHandlers (some permissions)
        |>.storeResources (some resources), none)
    | .error fault, _, _ => (facts, some fault)
    | .ok parameters, .error fault, _ => (facts.storeConfig Roles.pluginName (some parameters), some fault)
    | .ok parameters, .ok permissions, .error fault =>
      ((facts.storeConfig Roles.pluginName (some parameters)).storeHandlers (some permissions), some fault)
  | .stateMachines =>
    match StateMachines.events config with
    | .ok events => (facts.storeEvents (some events), none)
    | .error fault => (facts, some fault)

/-- Adds the facts of plugins in order. A missing key stops only the plugin that misses it. -/
def addPlugins (config : Value) : PluginFacts → List Value → Except Fault PluginFacts
  | facts, [] => .ok facts
  | facts, name :: rest => do
    match ← name.asKey with
    | none => addPlugins config facts rest
    | some name =>
      match plugin? name with
      | none => addPlugins config facts rest
      | some plugin =>
        match addPlugin config facts plugin with
        | (facts, none) | (facts, some (.missingKey _)) => addPlugins config facts rest
        | (_, some fault) => throw fault

def ofConfig (config : Value) : Except Fault PluginFacts :=
  match config.get "plugins" with
  | .error (.missingKey _) => .ok {}
  | .error fault => .error fault
  | .ok plugins => do addPlugins config {} (← plugins.elements)

end ServerlessTaint.PluginFacts
