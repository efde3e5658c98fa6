import ServerlessTaint.Client

/-!
# Calls on client objects

The calls of a program on a client object, or on an object that a call on it made. A call on the client
is also the origin of such a further object: by the variable to which the further object is assigned,
or by the line if a call is made on it at once.
-/

namespace ServerlessTaint

open Syntax (Ast)

/-- A call on a client that may make a further object: its line, the variable that holds the object, and
the call. -/
structure Origin where
  line : Nat
  name : Option String
  call : Ast
  deriving DecidableEq, Repr

/-- What is found in a program: the calls, their origins, the names of further objects, and the functions
that were met. -/
structure ClientCalls where
  calls : List Ast := []
  origins : List Origin := []
  objects : List String := []
  functions : List Ast := []

namespace ClientCalls

def receiver? (call : Ast) : Option String :=
  match call with
  | .node .call _ (func :: _) =>
    match func.field? .value with
    | some (.node .name _ [.name id]) => some id
    | _ => none
  | _ => none

/-- The names among the targets of an assignment, up to the first that is none. -/
def plainNames : List Ast → List String
  | .node .name _ [.name id] :: rest => id :: plainNames rest
  | _ => []

def add (client : String) (found : ClientCalls) (node : Ast) : ClientCalls :=
  match node with
  | .node .call _ _ =>
    match receiver? node with
    | none => found
    | some object =>
      if object ∈ found.objects then { found with calls := addNew found.calls node }
      else if object = client then
        { found with
          calls := addNew found.calls node
          origins := addNew found.origins ⟨node.line?.getD 0, none, node⟩ }
      else found
  | .node .assign _ [.list targets, value] =>
    if receiver? value = some client then
      let names := plainNames targets
      let found := { found with objects := addAllNew found.objects names }
      if names.length = targets.length then
        { found with origins := addNew found.origins ⟨value.line?.getD 0, names.head?, value⟩ }
      else found
    else found
  | .node .functionDef _ _ => { found with functions := addNew found.functions node }
  | _ => found

def ofProgram (client : String) (program : Ast) : ClientCalls := program.walk.foldl (add client) {}

def functionOf? (functions : List Ast) (call : Ast) : Option Ast :=
  functions.find? fun function => function.walk.contains call

def functionName? (function : Ast) : Option String := function.nameOf? .name

def lines (found : ClientCalls) : List Nat := found.calls.filterMap Ast.line?

/-- The name of the function that holds the last call on a line; there is none for calls outside
functions. -/
def functionAt? (found : ClientCalls) (line : Nat) : Option String :=
  match found.calls.reverse.find? fun call => call.line? == some line with
  | some call => functionOf? found.functions call >>= functionName?
  | none => none

end ClientCalls

end ServerlessTaint
