import ServerlessTaint.Text.Integer
import ServerlessTaint.Value.Access

/-!
# Questions about programs

Small questions that several analyses ask: the argument of a call, the functions of a module, and the
assignments to a variable.
-/

namespace ServerlessTaint.Syntax.Ast

/-! ## Calls -/

/-- A position as a number: texts are read as integers, fractions are cut off. -/
def positionOf : Value → Option Int
  | .int n => some n
  | .bool b => some (if b then 1 else 0)
  | .str s => Text.parseInt? s.toList
  | .real x => x.truncate?
  | _ => none

def itemAt? {α : Type} (items : List α) (position : Int) : Option α :=
  let place := if position < 0 then position + items.length else position
  if place < 0 then none else items[place.toNat]?

/-- A keyword argument has the given name; arguments that spread a map have none. -/
def hasKeyword (name : Value) (keyword : Ast) : Bool :=
  match keyword, name with
  | .node .keyword _ [.name text, _], .str s => text == s
  | .node .keyword _ [.absent, _], .null => true
  | _, _ => false

def keywordValue? : Ast → Option Ast
  | .node .keyword _ [_, value] => some value
  | _ => none

def callInput? (name position : Value) : Ast → Except Fault (Option Ast)
  | .node .call _ [_, .list args, .list keywords] =>
    match keywords.find? (hasKeyword name) with
    | some keyword => .ok keyword.keywordValue?
    | none => .ok (positionOf position >>= itemAt? args)
  | _ => .error .missingAttribute

/-- The object and the method of a call of a method on a named object. -/
def method? : Ast → Option (String × String)
  | .node .call _ (.node .attributeRef _ [.node .name _ [.name object], .name method] :: _) =>
    some (object, method)
  | _ => none

/-! ## Functions -/

mutual

/-- The functions of a tree that do not stand inside another function or a class, in the order of the
text. Functions inside asynchronous ones count. -/
def outerFunctions : Ast → List Ast
  | .node .functionDef span children => [.node .functionDef span children]
  | .node .classDef _ _ => []
  | .node _ _ children => outerFunctionsOf children
  | .list items => outerFunctionsOf items
  | _ => []

/-- The functions of trees that do not stand inside another function or a class. -/
def outerFunctionsOf : List Ast → List Ast
  | [] => []
  | t :: ts => outerFunctions t ++ outerFunctionsOf ts

end

/-! ## Assignments -/

/-- The values that a program assigns to a variable as a first target, level by level. A first target
that is not a variable is a fault, which only matters to those who look that far. -/
def assignedTo (target : Value) (tree : Ast) : List (Except Fault Ast) :=
  (tree.walkKind .assign).filterMap fun
    | .node .assign _ [.list (.node .name _ [.name id] :: _), value] =>
      if target.isText id then some (.ok value) else none
    | _ => some (.error .missingAttribute)

end ServerlessTaint.Syntax.Ast
