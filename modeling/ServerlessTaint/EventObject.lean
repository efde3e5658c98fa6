import ServerlessTaint.Client.Calls

/-!
# Event objects

When a call on a service triggers a handler, the handler gets an event object. Its shape depends on the
service, and its parts are expressions of the program: arguments of the call, or of the call that made
the object on which it is made. A part that was found first stays; a part that is not found is `None`.
-/

namespace ServerlessTaint

open Syntax (Ast Constant)

/-- The parts of event objects. -/
inductive EventPart where
  | bucketName
  | bucketArn
  | objectKey
  | sourceArn
  | itemKeys
  | newImage
  | messageBody
  deriving DecidableEq, Repr

abbrev EventParts := Keyed EventPart Ast

/-- The services that have event objects. -/
inductive EventService where
  | storage
  | table
  | queue
  deriving DecidableEq, Repr

namespace EventService

def ofName? (name : String) : Option EventService :=
  if name == "s3" then some storage
  else if name == "dynamodb" then some table
  else if name == "sqs" then some queue
  else none

def furtherObjects : EventService → Value
  | storage => .map [("Bucket", .map [("name", .str "0")]),
      ("Object", .map [("bucket_name", .str "0"), ("key", .str "1")])]
  | table => .map [("Table", .map [("name", .str "0")])]
  | queue => .map [("Queue", .map [("url", .str "0")])]

end EventService

namespace EventParts

def setOnce (part : EventPart) (value : Ast) (parts : EventParts) : EventParts :=
  if Keyed.has part parts then parts else Keyed.set part value parts

def setBucket (value : Ast) (parts : EventParts) : EventParts :=
  setOnce .bucketArn value (setOnce .bucketName value parts)

def setItem (value : Ast) (parts : EventParts) : EventParts :=
  setOnce .newImage value (setOnce .itemKeys value parts)

def takeKeywords (setter : String → Option (Ast → EventParts → EventParts)) (keywords : List Ast)
    (parts : EventParts) : EventParts :=
  keywords.foldl (fun parts keyword =>
    match keyword with
    | .node .keyword _ [.name name, value] =>
      match setter name with
      | some set => set value parts
      | none => parts
    | _ => parts) parts

def takeArgument (set : Ast → EventParts → EventParts) (keyword : String) (position : Nat) (call : Ast)
    (parts : EventParts) : EventParts :=
  let parts := takeKeywords (fun name => if name == keyword then some set else none)
    (call.itemsOf .keywords) parts
  match (call.itemsOf .args)[position]? with
  | some value => set value parts
  | none => parts

end EventParts

namespace EventObject

open EventParts

/-! ## Finding the parts -/

abbrev Search := ExceptT Fault (StateM EventParts)

/-- What the call that makes a further object of a service says about the parts, if anything. -/
def fromFurtherObject? (service : EventService) (object : String) (call : Ast) :
    Option (EventParts → EventParts) :=
  match service with
  | .storage =>
    if object == "bucket" then some (takeArgument setBucket "name" 0 call)
    else if object == "object" then some fun parts =>
      let parts := takeKeywords (fun name =>
        if name == "bucket_name" then some setBucket
        else if name == "key" then some (setOnce .objectKey)
        else none) (call.itemsOf .keywords) parts
      match call.itemsOf .args with
      | [] => parts
      | [bucket] => setBucket bucket parts
      | bucket :: key :: _ => setOnce .objectKey key (setBucket bucket parts)
    else none
  | .table => if object == "table" then some (takeArgument (setOnce .sourceArn) "name" 0 call) else none
  | .queue => if object == "queue" then some (takeArgument (setOnce .sourceArn) "url" 0 call) else none

/-- Takes the parts from the call that made the object of a call. -/
def takeOrigin (service : EventService) (objects : Value) (origin : Ast) : Search Unit := do
  match origin with
  | .node .call _ (func :: _) =>
    match func.nameOf? .attr with
    | none => throw .missingAttribute
    | some object =>
      if ← objects.holds object then
        match fromFurtherObject? service (String.ofList (object.toList.map Char.toLower)) origin with
        | some find => modify find
        | none => return
  | _ => throw .missingAttribute

def originOnLine? (origins : List Origin) (call : Ast) : Option Ast :=
  (origins.find? fun origin => some origin.line == call.line?).map (·.call)

def originOfObject? (origins : List Origin) (call : Ast) : Option Ast :=
  match ClientCalls.receiver? call with
  | some object => (origins.find? fun origin => origin.name == some object).map (·.call)
  | none => none

/-- Takes the parts from the origins of a call: first by line, then by object. -/
def takeOrigins (service : EventService) (objects : Value) (origins : List Origin) (call : Ast) :
    Search Unit := do
  match originOnLine? origins call with
  | some origin => takeOrigin service objects origin
  | none => pure ()
  match originOfObject? origins call with
  | some origin => takeOrigin service objects origin
  | none => pure ()

/-- An item with its values under the type of texts. Only a map written out has values. -/
def typedItem : Ast → Ast
  | .node .dict _ [.list keys, .list values] =>
    .node .dict none [.list keys, .list (values.map fun value =>
      .node .dict none [.list [.node .constant none [.literal (.str "S")]], .list [value]])]
  | item => item

def takeCallKeywords (service : EventService) (call : Ast) : Search Unit := do
  let keywords := call.itemsOf .keywords
  match service with
  | .storage => modify (takeKeywords (fun name =>
      if name == "Bucket" then some setBucket
      else if name == "Key" then some (setOnce .objectKey)
      else none) keywords)
  | .queue => modify (takeKeywords (fun name =>
      if name == "QueueUrl" then some (setOnce .sourceArn)
      else if name == "MessageBody" then some (setOnce .messageBody)
      else none) keywords)
  | .table =>
    if keywords.any (Ast.hasKeyword (.str "TableName")) then
      modify (takeKeywords (fun name =>
        if name == "Item" then some setItem
        else if name == "TableName" then some (setOnce .sourceArn)
        else none) keywords)
    else match keywords.find? (Ast.hasKeyword (.str "Item")) >>= Ast.keywordValue? with
      | some item => modify (setItem (typedItem item))
      | none => throw .indexOutOfRange

/-- Takes the parts from the positional arguments of an upload: the file, then the bucket and the key
unless they were found before. -/
def takeUpload (call : Ast) (parts : EventParts) : EventParts :=
  let bucketPlace := if Keyed.has .bucketName parts then none else some 1
  let keyPlace :=
    if Keyed.has .objectKey parts then none
    else if Keyed.has .bucketName parts then some 1 else some 2
  let args := call.itemsOf .args
  let parts := match bucketPlace >>= fun n => args[n]? with
    | some bucket => setBucket bucket parts
    | none => parts
  match keyPlace >>= fun n => args[n]? with
  | some key => setOnce .objectKey key parts
  | none => parts

def isSupported (service : EventService) (api : String) : Bool :=
  match service with
  | .storage => api == "put_object" || api == "upload_file"
  | .table => api == "put_item"
  | .queue => api == "send_message"

/-- Finds the parts. -/
def search (service : EventService) (objects : Value) (origins : List Origin) (call : Ast) : Search Unit := do
  match call with
  | .node .call _ (func :: _) =>
    match func.nameOf? .attr with
    | none => return
    | some api =>
      if isSupported service api then
        takeOrigins service objects origins call
        takeCallKeywords service call
        if api == "upload_file" then modify (takeUpload call)
  | _ => return

/-- The parts that are found for a call; those found before the search breaks off count. -/
def partsOf (service : EventService) (objects : Value) (origins : List Origin) (call : Ast) : EventParts :=
  ((search service objects origins call).run.run []).2

/-! ## The objects -/

def literal (c : Constant) : Ast := .node .constant none [.literal c]

/-- A map that was made. -/
def record (entries : List (String × Ast)) : Ast :=
  .node .dict none [.list (entries.map fun e => literal (.str e.1)), .list (entries.map (·.2))]

def partOr (parts : EventParts) (part : EventPart) : Ast := (Keyed.find? part parts).getD (literal .none)

def build (service : EventService) (event : Constant) (parts : EventParts) : Ast :=
  let entry := match service with
    | .storage => record [("eventName", literal event),
        ("s3", record [
          ("bucket", record [("name", partOr parts .bucketName), ("arn", partOr parts .bucketArn)]),
          ("object", record [("key", partOr parts .objectKey)])])]
    | .table => record [("eventName", literal event), ("eventSourceARN", partOr parts .sourceArn),
        ("dynamodb", record [("Keys", partOr parts .itemKeys), ("NewImage", partOr parts .newImage)])]
    | .queue => record [("body", partOr parts .messageBody), ("eventSourceARN", partOr parts .sourceArn)]
  record [("Records", .node .list none [.list [entry]])]

/-- The steps of making an event object that each service has its own way for. -/
inductive ServiceStep where
  | emptyParts
  | callArguments
  | object
  deriving DecidableEq, Repr

def ServiceStep.fault : ServiceStep → Fault
  | emptyParts => .notImplemented "Method init_model_data_dict not implemented"
  | callArguments => .notImplemented "Method analyse_api_call_kw_args not implemented"
  | object => .notImplemented "Method get_event_obj_model not implemented"

def ofCall (service : EventService) (objects : Value) (event : Constant) (origins : List Origin)
    (call : Ast) : Ast :=
  build service event (partsOf service objects origins call)

/-- The event object of a call on a service, if the service has event objects. Only calls have any. -/
def ofNode (service : String) (event : Constant) (origins : List Origin) (call : Ast) :
    Except Fault (Option Ast) :=
  if call.isKind .call then
    .ok ((EventService.ofName? service).map fun s => ofCall s s.furtherObjects event origins call)
  else .error (.failedCheck "--- Instance of class EventObjModelGeneratorCls cannot be created ---")

end EventObject

end ServerlessTaint
