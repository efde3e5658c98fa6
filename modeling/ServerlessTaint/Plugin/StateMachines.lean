import ServerlessTaint.Plugin.Facts

/-!
# State machines

A plugin runs functions as states of state machines. The events of a machine trigger the functions of
its states.
-/

namespace ServerlessTaint.StateMachines

def pluginName : String := "StepFunctions"

/-- The name of the function at the end of the name of a resource: word characters after the last
hyphen. A line end may follow. -/
def functionName? (resource : String) : Option String :=
  let cs := resource.toList
  let cs := if cs.getLast? == some '\n' then cs.dropLast else cs
  let name := (cs.reverse.takeWhile Text.isWord).reverse
  if name.isEmpty then none
  else match (cs.reverse.drop name.length).head? with
    | some '-' => some (String.ofList name)
    | _ => none

def stateFunction (states : Value) (state : Value) : Except Fault String := do
  let name ← state.asText
  let resource ← (← (← states.get name).get "Resource").asText
  match functionName? resource with
  | some function => return function
  | none => throw .missingAttribute

def functionsUntilFault (functions : Except Fault Value) (states : Value) : List Value → List String
  | [] => []
  | state :: rest =>
    match stateFunction states state with
    | .error _ => []
    | .ok function =>
      match functions >>= Value.holds function with
      | .ok true => function :: functionsUntilFault functions states rest
      | .ok false => functionsUntilFault functions states rest
      | .error _ => []

def machineFunctions (config machine : Value) : List String :=
  match machine.getAll ["definition", "States"] with
  | .error _ => []
  | .ok states =>
    match states.elements with
    | .ok names => functionsUntilFault (config.get "functions") states names
    | .error _ => []

abbrev Collect := ExceptT Fault (StateM (Keyed String (List PluginEvent)))

/-- Adds an event to a function. A function whose event turns out to have no method stays without one. -/
def addEvent (service : String) (info : Value) (function : String) : Collect Unit := do
  modify (Keyed.modify function [] id)
  let method ← info.getAll [service, "method"]
  let _ ← method.asKey
  modify (Keyed.modify function [] fun events => addNew events ⟨service, method⟩)

def addMachine (config machine : Value) : Collect Unit := do
  if ← machine.holds "events" then
    let entries ← (← machine.get "events").elements
    entries.forM fun entry => do
      match ← entry.asMap with
      | [] => throw .indexOutOfRange
      | (service, _) :: _ => (machineFunctions config machine).forM (addEvent service entry)

def addMachines (config machines : Value) (names : List Value) : Collect Unit :=
  names.forM fun name => do
    let machine ← match ← name.asKey with
      | some key => machines.get key
      | none => throw .wrongType
    addMachine config machine

/-- The events of the functions that state machines run. What was collected before a fault counts, but
machines that cannot be gone through at all are a fault. -/
def events (config : Value) : Except Fault (Keyed String (List PluginEvent)) :=
  match config.getAll ["stepFunctions", "stateMachines"] with
  | .error (.missingKey _) => .ok []
  | .error _ => .error .unassignedName
  | .ok machines =>
    match machines.elements with
    | .error _ => .error .unassignedName
    | .ok names => .ok ((addMachines config machines names).run.run []).2

end ServerlessTaint.StateMachines
