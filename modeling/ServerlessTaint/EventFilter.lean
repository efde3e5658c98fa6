import ServerlessTaint.Environment

/-!
# Filters of events

A handler may be triggered only by objects whose names have a given start or end. Such rules are held
against the name that a call uses, which is a literal or a variable of the program. In case of doubt
an event passes.
-/

namespace ServerlessTaint.EventFilter

open Syntax (Ast)

/-- Whether a rule lets a name pass; a rule of another kind says nothing. -/
def ruleAdmits (name rule : Value) : Except Fault (Option Bool) := do
  if ← rule.holds "prefix" then
    return some ((← (← rule.get "prefix").asText).toList.isPrefixOf (← name.asText).toList)
  else if ← rule.holds "suffix" then
    return some ((← (← rule.get "suffix").asText).toList.isSuffixOf (← name.asText).toList)
  else return none

def storageRules (config handler : Value) : Except Fault (List Value) := do
  let events ← (← (← (Selector.ofValue handler).part (← config.get "functions")).get "events").elements
  let storage ← events.filterM fun event => event.holds "s3"
  let infos ← storage.mapM fun event => event.get "s3"
  match ← infos.filterM fun info => info.holds "rules" with
  | [] => throw .indexOutOfRange
  | first :: rest =>
    let _ ← rest.mapM fun info => info.get "rules"
    (← first.get "rules").elements

/-- A storage event passes if all rules let the name pass, or if the rules cannot be read. -/
def storageAdmits (name config handler : Value) : Bool :=
  match (do (← storageRules config handler).mapM (ruleAdmits name) : Except Fault (List (Option Bool))) with
  | .ok results => results.all fun result => result != some false
  | .error _ => true

def firstText : List (Except Fault Ast) → Except Fault (Option String)
  | [] => .ok none
  | value :: rest => do
    match (← value).text? with
    | some text => return some text
    | none => firstText rest

/-- The forms of a name in a call. -/
inductive NameForm where
  | literal
  | assigned
  deriving DecidableEq, Repr

def NameForm.ofValue (v : Value) : Except Fault NameForm :=
  if v.isText "resolved" then .ok .literal
  else if v.isText "unresolved" then .ok .assigned
  else .error (.badValue (some ("Exception raised - Input " ++ v.display ++ " not supported")))

/-- The filter of a service. Only the storage service has one. -/
def serviceAdmits (site : Site) (service name : Value) : Except Fault Bool := do
  match ← service.asKey with
  | some "s3" => return storageAdmits name site.config site.handler
  | _ => throw (.missingKey service.inline)

/-- Whether an event passes, given the name in a call. A variable without a known text passes. -/
def admits (site : Site) (service name : Value) : NameForm → Except Fault Bool
  | .literal => serviceAdmits site service name
  | .assigned => do
    match ← firstText ((← site.program).assignedTo name) with
    | some text => serviceAdmits site service (.str text)
    | none => return true

/-- Whether an event passes, given one place of a call where a name may stand. -/
def placeAdmits (site : Site) (service : Value) (call : Ast) (place : Value) : Except Fault Bool := do
  match ← place.asMap with
  | [] => throw .indexOutOfRange
  | (id, position) :: _ =>
    match ← call.callInput? (.str id) position with
    | none => return true
    | some input =>
      match input.text? with
      | some text => admits site service (.str text) .literal
      | none =>
        match input with
        | .node .name _ [.name id] => admits site service (.str id) .assigned
        | _ => return true

/-- Whether the event of a call passes the filter of the triggered handler, given the places of the
call where names stand. -/
def callAdmits (site : Site) (service places : Value) (call : Ast) : Except Fault Bool :=
  match places with
  | .null => .ok true
  | _ => do return (← (← places.elements).mapM (placeAdmits site service call)).all id

end ServerlessTaint.EventFilter
