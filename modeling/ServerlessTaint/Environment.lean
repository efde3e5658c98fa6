import ServerlessTaint.Reference.Inner
import ServerlessTaint.Syntax.Query

/-!
# Environment variables

A configuration gives variables to each handler and to all handlers. A program reads them by
`os.environ[...]` or `os.getenv(...)`, directly or through a variable of its own. `Site.inspect` finds
the value of such an expression.
-/

namespace ServerlessTaint

open Syntax (Ast)

/-- The place of a call: the configuration, the handler that runs, and the program. The program may
have been impossible to read. -/
structure Site where
  config : Value
  handler : Value
  program : Except Fault Ast

/-- How a part of a value is selected. -/
inductive Selector where
  | key (text : String)
  | index (place : Int)
  | none
  deriving DecidableEq, Repr

namespace Selector

def ofValue : Value → Selector
  | .str s => key s
  | .int n => index n
  | .bool b => index (if b then 1 else 0)
  | _ => none

def ofTree : Ast → Selector
  | .literal (.str s) => key s
  | .literal (.int n) => index n
  | .literal .true => index 1
  | .literal .false => index 0
  | _ => none

/-- The selected part of a value: maps are selected from by key, lists and texts by place. -/
def part : Selector → Value → Except Fault Value
  | .key k, v => v.get k
  | .index n, .list items => ((Ast.itemAt? items n).map .ok).getD (.error .indexOutOfRange)
  | .index n, .str s =>
    ((Ast.itemAt? s.toList n).map fun c => .ok (.str (String.singleton c))).getD (.error .indexOutOfRange)
  | .index n, .map _ => .error (.missingKey (Value.intText n))
  | _, _ => .error .wrongType

end Selector

namespace Environment

/-- The text of a variable, if it holds no reference after references to the configuration were
replaced. -/
def resolvedText (config : Value) (text : String) : Value :=
  if Reference.isResolvedText text then .str text
  else
    let resolved := Reference.resolve config text
    if Reference.isResolvedText resolved then .str resolved else .null

/-- The value of a variable if the environment refers to another section of the configuration. -/
def referredValue (config : Value) (environment : String) (name : Selector) : Value :=
  if Reference.isResolvedText environment then .null
  else match Reference.paths environment.toList with
    | path :: _ =>
      match config.getAll (Text.splitString '.' (String.ofList path)) >>= name.part with
      | .ok v => v
      | .error _ => .null
    | [] => .null

def levelValue (config : Value) (level : Except Fault Value) (name : Selector) : Value :=
  match level >>= Value.get "environment" with
  | .error _ => .null
  | .ok environment =>
    match name.part environment with
    | .ok v => resolvedText config v.display
    | .error _ => referredValue config environment.display name

/-- An expression `os.environ[...]`. Only a subscript of an attribute of a name can be judged. -/
def isEnviron : Ast → Except Fault Bool
  | .node .subscript _ (.node .attributeRef _ [.node .name _ [.name object], .name attr] :: _) =>
    .ok (object == "os" && attr == "environ")
  | _ => .error .missingAttribute

/-- A call `os.getenv(...)`. Only a call of a method of a name can be judged. -/
def isGetenv (call : Ast) : Except Fault Bool :=
  match call.method? with
  | some (object, method) => .ok (object == "os" && method == "getenv")
  | none => .error .missingAttribute

def valueBelow (tree : Ast) : Except Fault Ast :=
  match tree.field? .value with
  | some v => .ok v
  | none => .error .missingAttribute

/-- The variable in a subscript: the value below the value of its index. -/
def subscriptVariable (subscript : Ast) : Except Fault Selector := do
  match subscript.field? .slice with
  | some index => return .ofTree (← valueBelow (← valueBelow index))
  | none => throw .missingAttribute

/-- The variable in a call: the value below its first argument. -/
def callVariable (call : Ast) : Except Fault Selector := do
  match call.itemsOf .args with
  | first :: _ => return .ofTree (← valueBelow first)
  | [] => throw .indexOutOfRange

end Environment

namespace Site

def handlerInfo (site : Site) : Except Fault Value := do
  let functions ← (← site.config.get "functions").asMap
  match ← site.handler.asKey with
  | some name => return (Keyed.find? name functions).getD .null
  | none => return .null

/-- The value of an environment variable: that of the handler or, if it has none, that of the
provider. -/
def variableValue (site : Site) (name : Selector) : Except Fault Value := do
  let info ← site.handlerInfo
  match Environment.levelValue site.config (.ok info) name with
  | .null => return Environment.levelValue site.config (site.config.get "provider") name
  | v => return v

def firstRead (site : Site) : List (Except Fault Ast) → Except Fault Value
  | [] => .ok .null
  | value :: rest => do
    let value ← value
    match value.kind? with
    | some .subscript =>
      if ← Environment.isEnviron value then site.variableValue (← Environment.subscriptVariable value)
      else firstRead site rest
    | some .call =>
      if ← Environment.isGetenv value then site.variableValue (← Environment.callVariable value)
      else firstRead site rest
    | _ => firstRead site rest

def assignedValue (site : Site) (name : Value) : Except Fault Value := do
  let _ ← site.handlerInfo
  site.firstRead ((← site.program).assignedTo name)

def inspect (site : Site) (tree : Ast) : Except Fault Value := do
  let _ ← site.handlerInfo
  match tree with
  | .node .subscript _ _ =>
    if ← Environment.isEnviron tree then site.variableValue (← Environment.subscriptVariable tree)
    else return .null
  | .node .call _ _ =>
    if ← Environment.isGetenv tree then site.variableValue (← Environment.callVariable tree)
    else return .null
  | .node .name _ [.name id] => site.assignedValue (.str id)
  | _ => return .null

end Site

end ServerlessTaint
