import ServerlessTaint.Table

/-!
# Handlers and their events

The functions of a configuration that name a handler, each with the set of events that trigger it.
Event entries are read until one that has an unsupported form; functions are read until one whose
information cannot be looked into.
-/

namespace ServerlessTaint

/-- An event that triggers a handler: the service it comes from, and its name there. -/
structure Event where
  service : String
  name : String
  deriving DecidableEq, Repr, Inhabited

abbrev Handlers := Keyed String (List Event)

namespace Handlers

def eventKeys : List String := ["event", "method", "type"]

/-- The name of an event without the service that stands before a first colon. -/
def eventName (text : String) : String :=
  let cs := text.toList
  if cs.contains ':' then String.ofList ((cs.dropWhile (· != ':')).drop 1) else text

/-- Streams of tables belong to the table service, and every queue event is a sent message. -/
def adjust (e : Event) : Event :=
  if e = ⟨"stream", "dynamodb"⟩ then ⟨"dynamodb", "stream"⟩
  else if e.service == "sqs" then ⟨"sqs", "MessageSent"⟩
  else e

def serviceEvents (service : String) (info : Value) : Except Fault (List Event) :=
  if service == "sqs" then
    match info with
    | .map entries => .ok (if Keyed.has "arn" entries then [⟨"sqs", "MessageSent"⟩] else [])
    | _ => .ok [⟨"sqs", "MessageSent"⟩]
  else match info with
    | .map entries =>
      (entries.filter fun e => eventKeys.contains e.1).mapM fun (_, v) =>
        match v with
        | .str text => .ok ⟨service, eventName text⟩
        | _ => .error .missingAttribute
    | .str text => .ok [⟨service, text⟩]
    | _ => .ok []

def entryEvents (entry : Value) : Except Fault (List Event) := do
  let services ← entry.asMap
  let events ← services.mapM fun (service, info) => serviceEvents service info
  return (events.flatten).map adjust

/-- The events of event entries, up to the first that cannot be read. -/
def eventsUntilFault : List Value → List Event
  | [] => []
  | entry :: rest =>
    match entryEvents entry with
    | .ok events => events ++ eventsUntilFault rest
    | .error _ => []

def functionEvents (info : Value) : List Event :=
  match info.get "events" >>= Value.elements with
  | .ok entries => distinct (eventsUntilFault entries)
  | .error _ => []

/-- The handlers among functions, up to one whose information cannot be looked into. -/
def handlersUntilFault : List (String × Value) → Handlers
  | [] => []
  | (name, info) :: rest =>
    match info.holds "handler" with
    | .ok true => (name, functionEvents info) :: handlersUntilFault rest
    | .ok false => handlersUntilFault rest
    | .error _ => []

/-- The handlers of a configuration. Functions that cannot be gone through at all are a fault. -/
def ofConfig (config : Value) : Except Fault Handlers :=
  match config.get "functions" with
  | .ok (.map functions) => .ok (handlersUntilFault functions)
  | .ok functions =>
    match functions.elements with
    | .ok _ => .ok []
    | .error _ => .error .unassignedName
  | .error (.missingKey _) => .ok []
  | .error _ => .error .unassignedName

def eventCount (handlers : Handlers) : Nat := handlers.foldr (fun h n => h.2.length + n) 0

def eventText (e : Event) : String :=
  let shown := "(" ++ Text.quoted e.service ++ ", " ++ Text.quoted e.name ++ ")"
  let arrows := arrow shown.toList
  String.ofList (arrows.filter fun c => c != '(' && c != ')' && c != '\'')
where
  /-- An arrow in place of each comma that a space follows. -/
  arrow : List Char → List Char
    | ',' :: ' ' :: rest => " => ".toList ++ arrow rest
    | c :: rest => c :: arrow rest
    | [] => []

def table (handlers : Handlers) : String :=
  Table.render ["Handlers", "Events"] ((Keyed.sortByKey handlers).map fun (name, events) =>
    [name, " / ".intercalate (events.map eventText)])

/-- The handlers of each event, both in the order in which they are first met. -/
def byEvent (handlers : Handlers) : Keyed Event (List String) :=
  handlers.foldl (fun result (name, events) =>
    events.foldl (fun result e => Keyed.modify e [] (fun names => addNew names name) result) result) []

end Handlers

end ServerlessTaint
