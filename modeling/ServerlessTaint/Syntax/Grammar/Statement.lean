import ServerlessTaint.Syntax.Grammar.Pattern

/-!
# Statements

Simple statements stand on one logical line, compound ones open blocks. A statement rule answers a
list, since one line may hold several simple statements.
-/

namespace ServerlessTaint.Syntax

open Parse

/-! ## Simple statements -/

/-- The operators that assign to what they change. -/
def augmentedOps : List (String × Kind) :=
  [("+=", .add), ("-=", .sub), ("*=", .mult), ("@=", .matMult), ("/=", .div), ("%=", .mod),
   ("&=", .bitAnd), ("|=", .bitOr), ("^=", .bitXor), ("<<=", .lShift), (">>=", .rShift),
   ("**=", .pow), ("//=", .floorDiv)]

/-- The right side of an assignment. -/
def assignedValue (r : Rules) : Parse Ast := do
  if ← wordNext "yield" then yieldExpression r else starExpressions r

/-- The targets of a chain of assignments after the first, and the value. -/
def assignmentRest (r : Rules) : Nat → List Ast → Parse (List Ast × Ast)
  | 0, _ => fail
  | n + 1, targets => do
    let value ← assignedValue r
    if ← opIfNext "=" then
      if isTarget value then assignmentRest r n (targets ++ [value]) else fail
    else return (targets, value)

/-- An assignment of any kind, or an expression by itself. -/
def expressionStatement (r : Rules) : Parse Ast := do
  let start ← here
  if ← wordNext "yield" then
    let value ← yieldExpression r
    node .exprStmt start [value]
  else
    let first ← starExpressions r
    let t ← peek
    if t.isOp ":" then
      let bare := first.isKind .name && (first.span?.map (·.start)) == some start
      if isSingleTarget first then
        let _ ← next
        let hint ← r .expression
        let value ← if ← opIfNext "=" then assignedValue r else pure .absent
        node .annAssign start [first, hint, value, .number (if bare then 1 else 0)]
      else fail
    else if t.isOp "=" then
      if isTarget first then
        let _ ← next
        let (targets, value) ← fun c => assignmentRest r (c.tokens.length + 1) [first] c
        node .assign start [.list targets, value]
      else fail
    else match if t.cls == .op then augmentedOps.lookup t.text else none with
      | some kind =>
        if isSingleTarget first then
          let _ ← next
          let value ← assignedValue r
          node .augAssign start [first, mark kind, value]
        else fail
      | none => node .exprStmt start [first]

def nameList : Parse Ast := do
  let names ← commaSeparated identifier
  return .list (names.map fun t => .name t.text)

def dottedName : Parse String := do
  let first ← identifier
  let rest ← many (op "." *> identifier)
  return ".".intercalate ((first :: rest).map (·.text))

def importedAs : Parse Ast := do
  if ← wordIfNext "as" then return .name (← identifier).text else return .absent

def importedModule : Parse Ast := do
  let start ← here
  let name ← dottedName
  let asname ← importedAs
  node .importName start [.name name, asname]

def importedName : Parse Ast := do
  let start ← here
  let name ← identifier
  let asname ← importedAs
  node .importName start [.name name.text, asname]

def importLevel : Parse Nat := do
  let dots ← many (orElse (op ".") (op "..."))
  return dots.foldr (fun t n => t.text.length + n) 0

def importFromStatement : Parse Ast := do
  let start ← here
  let _ ← word "from"
  let level ← importLevel
  let module ← if level = 0 then some <$> dottedName else optional dottedName
  let _ ← word "import"
  let names ←
    if ← opNext "*" then do
      let place ← here
      let _ ← next
      let all ← node .importName place [.name "*", .absent]
      pure [all]
    else if ← opIfNext "(" then do
      let names ← commaSeparated importedName
      let _ ← opIfNext ","
      let _ ← op ")"
      pure names
    else do
      let names ← commaSeparated importedName
      if ← opNext "," then fail else pure names
  node .importFrom start
    [match module with
     | some name => .name name
     | none => .absent,
     .list names, .number level]

def keywordStatement (text : String) (kind : Kind) : Parse Ast := do
  let start ← here
  let _ ← word text
  node kind start []

def simpleStatement (r : Rules) : Parse Ast := do
  let start ← here
  let t ← peek
  if t.cls != .name then expressionStatement r
  else match t.text with
    | "return" =>
      let _ ← next
      let value ← optional (starExpressions r)
      node .returnStmt start [value.getD .absent]
    | "import" =>
      let _ ← next
      let names ← commaSeparated importedModule
      node .importStmt start [.list names]
    | "from" => importFromStatement
    | "raise" =>
      let _ ← next
      match ← optional (r .expression) with
      | none => node .raiseStmt start [.absent, .absent]
      | some exc =>
        let cause ← if ← wordIfNext "from" then r .expression else pure .absent
        node .raiseStmt start [exc, cause]
    | "pass" => keywordStatement "pass" .passStmt
    | "del" =>
      let _ ← next
      let targets ← commaSeparated (r .expression)
      let _ ← opIfNext ","
      let t ← peek
      if areDeletable targets && (t.isOp ";" || t.cls == .newline) then
        node .deleteStmt start [.list targets]
      else fail
    | "assert" =>
      let _ ← next
      let test ← r .expression
      let msg ← if ← opIfNext "," then r .expression else pure .absent
      node .assertStmt start [test, msg]
    | "break" => keywordStatement "break" .breakStmt
    | "continue" => keywordStatement "continue" .continueStmt
    | "global" =>
      let _ ← next
      let names ← nameList
      node .globalStmt start [names]
    | "nonlocal" =>
      let _ ← next
      let names ← nameList
      node .nonlocalStmt start [names]
    | _ => expressionStatement r

def simpleStatements (r : Rules) : Parse Ast := do
  let first ← simpleStatement r
  let rest ← many (op ";" *> simpleStatement r)
  let _ ← opIfNext ";"
  let _ ← ofClass .newline
  return .list (first :: rest)

/-! ## Compound statements -/

/-- A block: the rest of the line, or the lines indented below it. -/
def block (r : Rules) : Parse Ast := do
  let t ← peek
  if t.cls == .newline then
    let _ ← next
    let t ← peek
    if t.cls != .indent then halt .indentation
    else
      let _ ← next
      let first ← r .statements
      let rest ← many (r .statements)
      let _ ← ofClass .dedent
      return .list ((first :: rest).flatMap Ast.items)
  else simpleStatements r

def colonBlock (r : Rules) : Parse Ast := op ":" *> block r

def elseBlock (r : Rules) : Parse Ast := do
  if ← wordIfNext "else" then colonBlock r else return .list []

/-- A conditional from its keyword on; `elif` starts a conditional inside the other branch. -/
def conditional (r : Rules) : Nat → Parse Ast
  | 0 => fail
  | n + 1 => do
    let start ← here
    let _ ← next
    let test ← namedExpression r
    let body ← colonBlock r
    let orelse ← if ← wordNext "elif" then do
        let inner ← conditional r n
        pure (.list [inner])
      else elseBlock r
    node .ifStmt start [test, body, orelse]

/-- A loop over the items of something. -/
def forStatement (r : Rules) (start : Position) (kind : Kind) : Parse Ast := do
  let _ ← word "for"
  let target ← loopTargets r
  let _ ← word "in"
  let iter ← starExpressions r
  let body ← colonBlock r
  let orelse ← elseBlock r
  node kind start [target, iter, body, orelse]

def withItem (r : Rules) : Parse Ast := do
  let context ← r .expression
  if ← wordIfNext "as" then
    let target ← loopTarget r
    return .node .withItem none [context, target]
  else return .node .withItem none [context, .absent]

/-- A `with` statement. Its items may stand in brackets. -/
def withStatement (r : Rules) (start : Position) (kind : Kind) : Parse Ast := do
  let _ ← word "with"
  let inBrackets : Parse (List Ast) := do
    let _ ← op "("
    let items ← commaSeparated (withItem r)
    let _ ← opIfNext ","
    let _ ← op ")"
    if ← opNext ":" then return items else fail
  let items ← orElse inBrackets (commaSeparated (withItem r))
  let body ← colonBlock r
  node kind start [.list items, body]

def exceptHandler (r : Rules) : Parse (Ast × Bool) := do
  let start ← here
  let _ ← word "except"
  let group ← opIfNext "*"
  if !group && (← opNext ":") then
    let body ← colonBlock r
    return (← node .exceptHandler start [.absent, .absent, body], false)
  else
    let type ← r .expression
    let name ← if ← wordIfNext "as" then do
        let name ← identifier
        pure (.name name.text)
      else pure .absent
    let body ← colonBlock r
    return (← node .exceptHandler start [type, name, body], group)

/-- A `try` statement: handlers for single exceptions and for groups do not mix. -/
def tryStatement (r : Rules) (start : Position) : Parse Ast := do
  let _ ← word "try"
  let body ← colonBlock r
  let handlers ← many (exceptHandler r)
  let orelse ← if handlers.isEmpty then pure (.list []) else elseBlock r
  let final ← if ← wordIfNext "finally" then some <$> colonBlock r else pure none
  if handlers.isEmpty && final.isNone then halt .invalid
  else
    let groups := handlers.any (·.2)
    if groups && !handlers.all (·.2) then fail
    else
      node (if groups then .tryStar else .tryStmt) start
        [body, .list (handlers.map (·.1)), orelse, final.getD (.list [])]

def functionDefinition (r : Rules) (start : Position) (kind : Kind) (decorators : List Ast) :
    Parse Ast := do
  let _ ← word "def"
  let name ← identifier
  let _ ← op "("
  let arguments ← parameters r true ")"
  let _ ← op ")"
  let returns ← if ← opIfNext "->" then r .expression else pure .absent
  let body ← colonBlock r
  node kind start [.name name.text, arguments, body, .list decorators, returns]

def classDefinition (r : Rules) (start : Position) (decorators : List Ast) : Parse Ast := do
  let _ ← word "class"
  let name ← identifier
  let arguments ← if ← opIfNext "(" then
      fun c => argumentLoop r (c.tokens.length + 1) {} .positional c
    else pure {}
  let body ← colonBlock r
  node .classDef start
    [.name name.text, .list arguments.positional, .list arguments.keywords, body, .list decorators]

/-- A definition with its decorators. -/
def decorated (r : Rules) : Parse Ast := do
  let decorator : Parse Ast := do
    let _ ← op "@"
    let value ← namedExpression r
    let _ ← ofClass .newline
    return value
  let decorators ← many decorator
  let start ← here
  if ← wordNext "class" then classDefinition r start decorators
  else if ← wordIfNext "async" then functionDefinition r start .asyncFunctionDef decorators
  else functionDefinition r start .functionDef decorators

def matchCase (r : Rules) : Parse Ast := do
  let _ ← word "case"
  let casePattern ← casePattern r
  let guard ← if ← wordIfNext "if" then namedExpression r else pure .absent
  let body ← colonBlock r
  return .node .matchCase none [casePattern, guard, body]

def matchStatement (r : Rules) (start : Position) : Parse Ast := do
  let _ ← word "match"
  let subject ← tupleOf (starNamedExpression r)
  if subject.isKind .starred then fail
  let _ ← op ":"
  let _ ← ofClass .newline
  let t ← peek
  if t.cls != .indent then halt .indentation
  else
    let _ ← next
    let first ← matchCase r
    let rest ← many (matchCase r)
    let _ ← ofClass .dedent
    node .matchStmt start [subject, .list (first :: rest)]

def statement (r : Rules) : Parse Ast := do
  let start ← here
  let t ← peek
  let single (p : Parse Ast) : Parse Ast := do return .list [← p]
  if t.isOp "@" then single (decorated r)
  else if t.cls != .name then simpleStatements r
  else match t.text with
    | "def" | "class" => single (decorated r)
    | "async" =>
      let second ← peekSecond?
      if (second.map (·.isWord "for")).getD false then
        single (next *> forStatement r start .asyncFor)
      else if (second.map (·.isWord "with")).getD false then
        single (next *> withStatement r start .asyncWith)
      else single (decorated r)
    | "if" => single fun c => conditional r (c.tokens.length + 1) c
    | "for" => single (forStatement r start .forLoop)
    | "while" =>
      let _ ← next
      let test ← namedExpression r
      let body ← colonBlock r
      let orelse ← elseBlock r
      single (node .whileLoop start [test, body, orelse])
    | "with" => single (withStatement r start .withBlock)
    | "try" => single (tryStatement r start)
    | "match" => orElse (single (matchStatement r start)) (simpleStatements r)
    | _ => simpleStatements r

def rules : Nat → Rules
  | 0, _ => fail
  | n + 1, goal =>
    match goal with
    | .expression => expression (rules n)
    | .disjunction => disjunction (rules n)
    | .inversion => inversion (rules n)
    | .bitwiseOr => bitwiseOr (rules n)
    | .factor => factor (rules n)
    | .pattern => pattern (rules n)
    | .statements => statement (rules n)

end ServerlessTaint.Syntax
