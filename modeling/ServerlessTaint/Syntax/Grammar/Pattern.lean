import ServerlessTaint.Syntax.Grammar.Expression

/-!
# Patterns

The patterns of `match` statements: literals, captures, dotted names, sequences, mappings, class
patterns and alternatives.
-/

namespace ServerlessTaint.Syntax

open Parse

def signedNumber : Parse Ast := do
  let start ← here
  let number : Parse Ast := do
    let t ← ofClass .number
    match numberValue? t.text with
    | some value => literalNode t.start value
    | none => halt .invalid
  if ← opIfNext "-" then
    let operand ← number
    node .unaryOp start [mark .uSub, operand]
  else number

def isImaginary (tree : Ast) : Bool :=
  match tree.constant? with
  | some (.imaginary _) => true
  | _ => false

/-- A signed number, or the sum or difference of a real and an imaginary number. -/
def numberPattern : Parse Ast := do
  let start ← here
  let first ← signedNumber
  let t ← peek
  if t.isOp "+" || t.isOp "-" then
    let real := match first with
      | .node .unaryOp _ [_, operand] => !isImaginary operand
      | tree => !isImaginary tree
    let _ ← next
    let second ← signedNumber
    if real && isImaginary second then
      node .binOp start [first, mark (if t.isOp "+" then .add else .sub), second]
    else fail
  else return first

def dottedRest (start : Position) (first : Ast) : Parse Ast := do
  let parts ← many (op "." *> identifier)
  let rec build : List Token → Ast → Ast
    | [], tree => tree
    | t :: ts, tree =>
      build ts (.node .attributeRef (some ⟨start, t.stop⟩) [tree, .name t.text])
  return build parts first

def maybeStarPattern (r : Rules) : Parse Ast := do
  let start ← here
  if ← opIfNext "*" then
    let name ← identifier
    node .matchStar start [if name.text == "_" then .absent else .name name.text]
  else r .pattern

def sequenceRest (r : Rules) (close : String) : Parse (List Ast) := do
  let items ← many (maybeStarPattern r <* op ",")
  if ← opIfNext close then return items
  else
    let item ← maybeStarPattern r
    let _ ← op close
    return items ++ [item]

/-- The key of a mapping pattern: a literal or a dotted name. -/
def mappingKey (r : Rules) : Parse Ast := do
  let t ← peek
  match t.cls with
  | .string => stringAtom (starExpressions r)
  | .name =>
    if t.isIdentifier then
      let first ← nameNode
      let tree ← dottedRest t.start first
      if tree.isKind .name then fail else return tree
    else atom r
  | _ => numberPattern

/-- An entry of a mapping pattern: a key with a pattern, or the name for all other entries. -/
def mappingEntry (r : Rules) : Parse (Sum (Ast × Ast) String) := do
  if ← opIfNext "**" then
    let name ← identifier
    if name.text == "_" then fail else return .inr name.text
  else
    let key ← mappingKey r
    let _ ← op ":"
    return .inl (key, ← r .pattern)

/-- A mapping pattern. The name for all other entries comes last. -/
def mappingPattern (r : Rules) : Parse Ast := do
  let start ← here
  let _ ← op "\x7b"
  let entries ← if ← opNext "\x7d" then pure [] else do
    let entries ← commaSeparated (mappingEntry r)
    let _ ← opIfNext ","
    pure entries
  let _ ← op "\x7d"
  let pairs := entries.filterMap fun
    | .inl pair => some pair
    | .inr _ => none
  let rests := entries.filterMap fun
    | .inl _ => none
    | .inr name => some name
  let lastIsRest := match entries.getLast? with
    | some (.inr _) => true
    | _ => false
  if rests.length = 0 || (rests.length = 1 && lastIsRest) then
    node .matchMapping start [.list (pairs.map (·.1)), .list (pairs.map (·.2)),
      match rests with
      | name :: _ => .name name
      | [] => .absent]
  else fail

def classArgument (r : Rules) : Parse (Sum Ast (String × Ast)) := do
  if ← nameThenOp "=" then
    let name ← identifier
    let _ ← op "="
    return .inr (name.text, ← r .pattern)
  else return .inl (← r .pattern)

/-- A class pattern, after the name of the class. Positional patterns come first. -/
def classPattern (r : Rules) (start : Position) (cls : Ast) : Parse Ast := do
  let _ ← op "("
  let arguments ← if ← opNext ")" then pure [] else do
    let arguments ← commaSeparated (classArgument r)
    let _ ← opIfNext ","
    pure arguments
  let _ ← op ")"
  let positional := arguments.filterMap fun
    | .inl p => some p
    | .inr _ => none
  let keyword := arguments.filterMap fun
    | .inl _ => none
    | .inr pair => some pair
  let ordered := (arguments.dropWhile fun | .inl _ => true | .inr _ => false).all fun
    | .inl _ => false
    | .inr _ => true
  if ordered then
    node .matchClass start [cls, .list positional, .list (keyword.map fun p => .name p.1),
      .list (keyword.map (·.2))]
  else fail

/-- A pattern without alternatives and without a name for the whole. -/
def closedPattern (r : Rules) : Parse Ast := do
  let start ← here
  let t ← peek
  match t.cls with
  | .number =>
    let value ← numberPattern
    node .matchValue start [value]
  | .string =>
    let value ← stringAtom (starExpressions r)
    node .matchValue start [value]
  | .name =>
    if t.isIdentifier then
      let first ← nameNode
      let name ← dottedRest start first
      if ← opNext "(" then classPattern r start name
      else if name.isKind .name then
        if t.text == "_" then node .matchAs start [.absent, .absent]
        else node .matchAs start [.absent, .name t.text]
      else node .matchValue start [name]
    else if t.text == "None" then next *> node .matchSingleton start [.literal .none]
    else if t.text == "True" then next *> node .matchSingleton start [.literal .true]
    else if t.text == "False" then next *> node .matchSingleton start [.literal .false]
    else fail
  | .op =>
    if t.text == "-" then
      let value ← numberPattern
      node .matchValue start [value]
    else if t.text == "(" then
      let _ ← next
      if ← opIfNext ")" then node .matchSequence start [.list []]
      else
        let first ← maybeStarPattern r
        if ← opIfNext "," then
          let rest ← sequenceRest r ")"
          node .matchSequence start [.list (first :: rest)]
        else
          let _ ← op ")"
          if first.isKind .matchStar then fail else return first
    else if t.text == "[" then
      let _ ← next
      let items ← sequenceRest r "]"
      node .matchSequence start [.list items]
    else if t.text == "\x7b" then mappingPattern r
    else fail
  | _ => fail

/-- Alternatives of patterns, with an optional name for what matches. -/
def pattern (r : Rules) : Parse Ast := do
  let start ← here
  let first ← closedPattern r
  let rest ← many (op "|" *> closedPattern r)
  let tree ← if rest.isEmpty then pure first else node .matchOr start [.list (first :: rest)]
  if ← wordIfNext "as" then
    let name ← identifier
    if name.text == "_" then fail else node .matchAs start [tree, .name name.text]
  else return tree

/-- The pattern of a case: a pattern, or a sequence without brackets. -/
def casePattern (r : Rules) : Parse Ast := do
  let start ← here
  let first ← maybeStarPattern r
  if ← opNext "," then
    let rest ← many (op "," *> maybeStarPattern r)
    let _ ← opIfNext ","
    node .matchSequence start [.list (first :: rest)]
  else if first.isKind .matchStar then fail
  else return first

end ServerlessTaint.Syntax
