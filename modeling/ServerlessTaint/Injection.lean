import ServerlessTaint.Catalogue.Apis
import ServerlessTaint.EventFilter
import ServerlessTaint.EventObject
import ServerlessTaint.Permission
import ServerlessTaint.Plugin.Extraction
import ServerlessTaint.TypeHints

/-!
# Injection of handler calls

A call on a service triggers handlers that are not called in the program. After each statement with
such a call, an assignment of the event object and a call of the handler are put in, if the call may be
made and the event passes the filters of the handler.

Statements are looked at in order, from the outside to the inside, left to right. Nothing inside a call
is looked at. Code is put in only into the lists of statements that are the body of something; a call
that is found elsewhere, for instance in an `else` branch, belongs to the statement of such a list that
holds it, unless a later call or body takes its place.
-/

namespace ServerlessTaint

open Syntax (Ast Field)

/-- What is known about an application: its configuration, the grants, the handlers and the facts of
plugins. -/
structure Application where
  config : Value
  grants : Grants
  handlers : Handlers
  facts : PluginFacts

namespace Application

def ofConfig (config : Value) : Except Fault Application := do
  let grants := Grants.ofConfig config
  let handlers ← Handlers.ofConfig config
  let facts ← PluginFacts.ofConfig config
  return ⟨config, grants, handlers, facts⟩

/-- A location of a handler is that of a function of a file. A location with folders has to name the
folder of the file too. -/
def isLocation (file function location : String) : Bool :=
  let name := Path.leaf (Path.stem file) ++ "." ++ function
  let full :=
    if location.toList.contains '/' then
      ((Text.splitString '/' (Path.folder file)).getLast?.getD "") ++ "/" ++ name
    else name
  full.toList.isSuffixOf location.toList

/-- The first handler whose location is that of a function of a file. The search ends without result at
a handler whose location cannot be read. -/
def firstHandlerAt? (file function : String) : List (String × Value) → Option String
  | [] => none
  | (handler, info) :: rest =>
    match info.get "handler" with
    | .ok (.str location) =>
      if isLocation file function location then some handler else firstHandlerAt? file function rest
    | _ => none

def handlerAt? (config : Value) (file : String) (function : Value) : Option String :=
  match function, config.get "functions" with
  | .str function, .ok (.map functions) => firstHandlerAt? file function functions
  | _, _ => none

/-- The name by which a file calls a handler: with its module, unless the module is the file itself. -/
def calledName (config : Value) (file : String) (handler : Value) : Except Fault String := do
  let info ← (Selector.ofValue handler).part (← config.get "functions")
  let location ← match ← info.get "handler" with
    | .str location => pure location
    | _ => throw .missingAttribute
  let name := (Text.splitString '/' location).getLast?.getD ""
  match Text.splitString '.' name with
  | [] => return name
  | [module] => if module == Path.leaf (Path.stem file) then throw .indexOutOfRange else return name
  | module :: function :: _ => if module == Path.leaf (Path.stem file) then return function else return name

end Application

/-- The work on one client object of one file: the catalogue of calls, the application, the file with
its program, the client object, and the calls on it. -/
structure Injection where
  apis : Value
  application : Application
  file : String
  program : Ast
  client : Client
  found : ClientCalls

namespace Injection

def ofProgram (apis : Value) (application : Application) (file : String) (client : Client)
    (program : Ast) : Injection :=
  ⟨apis, application, file, program, client, ClientCalls.ofProgram client.name program⟩

def site (work : Injection) (handler : Value) : Site := ⟨work.application.config, handler, .ok work.program⟩

/-- What the catalogue says about a call. -/
def apiInfo (work : Injection) (api : String) : Except Fault Value :=
  match work.client.service? with
  | some service => work.apis.getAll [service, work.client.kind.key, api]
  | none => .error (.missingKey "")

def serviceName (work : Injection) : String := work.client.service?.getD ""

/-- A value of the catalogue that may be missing. -/
def optionalInfo (key : String) (info : Value) : Except Fault Value := do
  return (Keyed.find? key (← info.asMap)).getD .null

/-! ## Calls that trigger handlers -/

def isAllowed (work : Injection) (call : Ast) (info : Value) (function : Option String) :
    Except Fault Bool := do
  let required := (← (← info.get "permissions").elements).filterMap Value.text?
  let places ← optionalInfo "resources" info
  let app := work.application
  let handler := function.bind fun f => Application.handlerAt? app.config work.file (.str f)
  let granted := (Keyed.find? work.serviceName app.grants.services).getD []
  let decision : Permission.Decide Bool := do
    let byService ← Permission.serviceAllows required granted work.serviceName handler
    let onResources ← Permission.resourcesAllow (work.site (handler.elim .null .str)) required
      app.grants.resources work.serviceName places call handler
    return byService && onResources
  (decision.run.run app.facts).1

/-- A call is on the line of a call on the client object, is in the catalogue and may be made. -/
def isTrigger (work : Injection) (call : Ast) : Bool :=
  match call, call.line? with
  | .node .call _ (func :: _), some line =>
    match func.nameOf? .attr with
    | some api =>
      if work.found.lines.contains line then
        match work.apiInfo api with
        | .ok info =>
          match work.isAllowed call info (work.found.functionAt? line) with
          | .ok allowed => allowed
          | .error _ => false
        | .error _ => false
      else false
    | none => false
  | _, _ => false

/-! ## The statements that are put in -/

/-- The assignment of an event object. One without an event object has no value. -/
def eventAssignment (event : Option Ast) : Ast :=
  .node .assign none [.list [.node .name none [.name "event"]], event.getD .absent]

def handlerCall (calledName : String) : Ast :=
  let func := match Text.splitString '.' calledName with
    | module :: function :: _ => .node .attributeRef none [.node .name none [.name module], .name function]
    | _ => .node .name none [.name calledName]
  .node .exprStmt none [.node .call none
    [func, .list [.node .name none [.name "event"], .node .name none [.name "context"]], .list []]]

/-- The statements for one handler; none if the event does not pass its filters. -/
def handlerCode (work : Injection) (call : Ast) (places : Value) (event handler : String) :
    Except Fault (List Ast) := do
  if ← EventFilter.callAdmits (work.site (.str handler)) (.str work.serviceName) places call then
    let name ← Application.calledName work.application.config work.file (.str handler)
    let object ← EventObject.ofNode work.serviceName (.str event) work.found.origins call
    return [eventAssignment object, handlerCall name]
  else return []

/-- The statements for handlers, up to the first with a fault. -/
def handlersCode (work : Injection) (call : Ast) (places : Value) (event : String) : List String → List Ast
  | [] => []
  | handler :: rest =>
    match work.handlerCode call places event handler with
    | .ok code => code ++ handlersCode work call places event rest
    | .error _ => []

def eventCode (work : Injection) (call : Ast) (places : Value) (event : Value) : List Ast :=
  match event with
  | .str event =>
    let handlers := Keyed.find? ⟨work.serviceName, event⟩ (Handlers.byEvent work.application.handlers)
    work.handlersCode call places event (handlers.getD [])
  | _ => []

def callCode (work : Injection) (call : Ast) : Except Fault (List Ast) :=
  match call with
  | .node .call _ (func :: _) => do
    let info ← work.apiInfo ((func.nameOf? .attr).getD "")
    let places ← optionalInfo "events_filtering" info
    let events ← (← info.get "events").elements
    return events.flatMap (work.eventCode call places)
  | _ => .ok []

/-! ## The pass over a program -/

/-- A pass keeps the call for which code is to be put in, if there is one. -/
abbrev Pass := StateM (Option Ast)

mutual

/-- Looks at a tree that is the value of a field; bodies are looked at statement by statement. -/
def visit (work : Injection) (isBody : Bool) : Ast → Pass Ast
  | .node .call span children => do
    let call := Ast.node .call span children
    set (if work.isTrigger call then some call else none)
    return call
  | .node kind span children =>
    if isBody then do
      set (none : Option Ast)
      return .node kind span children
    else do return .node kind span (← visitFields work kind.fields children)
  | .list items =>
    if isBody then do
      let body ← visitBody work items
      set (none : Option Ast)
      return .list body
    else do return .list (← visitItems work items)
  | leaf => do
    if isBody then set (none : Option Ast)
    return leaf

/-- Looks at the fields of a node in order. -/
def visitFields (work : Injection) : List Field → List Ast → Pass (List Ast)
  | _, [] => return []
  | [], child :: rest => do
    let child ← visit work false child
    return child :: (← visitFields work [] rest)
  | field :: fields, child :: rest => do
    let child ← visit work (field = .body) child
    return child :: (← visitFields work fields rest)

def visitItems (work : Injection) : List Ast → Pass (List Ast)
  | [] => return []
  | item :: rest => do
    let item ← visit work false item
    return item :: (← visitItems work rest)

/-- Looks at the statements of a body and puts in code after those that hold a call that triggers
handlers. A fault ends the work on the body. -/
def visitBody (work : Injection) : List Ast → Pass (List Ast)
  | [] => return []
  | statement :: rest => do
    set (none : Option Ast)
    let statement ← visit work false statement
    match ← get with
    | none => return statement :: (← visitBody work rest)
    | some call =>
      match work.callCode call with
      | .ok code => return statement :: (code ++ (← visitBody work rest))
      | .error _ => return statement :: rest

end

/-- A program with the code for its client object put in. -/
def run (work : Injection) : Ast := (visit work false work.program none).1

def injectClient (apis : Value) (application : Application) (file : String) (client : Client) : Edit Unit := do
  let program ← Edit.program file
  Edit.writeProgram file (ofProgram apis application file client program).run

def injectAll (apis : Value) (application : Application) (clients : RepositoryClients) : Edit Unit :=
  clients.forM fun (_, files) => files.forM fun (file, made) => made.forM (injectClient apis application file)

end Injection

end ServerlessTaint
