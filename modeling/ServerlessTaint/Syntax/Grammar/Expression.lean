import ServerlessTaint.Syntax.Grammar.Formatted

/-!
# Expressions

The rules for expressions, from the loosest to the tightest binding ones. Every rule takes the
meaning of the recursive parts as an argument and calls it only behind a token, so that the depth of
calls is bounded by the length of the text.
-/

namespace ServerlessTaint.Syntax

open Parse

/-! ## Lists of expressions and comprehensions -/

def starExpression (r : Rules) : Parse Ast := do
  let start ← here
  if ← opIfNext "*" then
    let value ← r .bitwiseOr
    node .starred start [value]
  else r .expression

def tupleOf (element : Parse Ast) : Parse Ast := do
  let start ← here
  let first ← element
  if ← opNext "," then
    let rest ← many (op "," *> element)
    let _ ← opIfNext ","
    node .tuple start [.list (first :: rest)]
  else return first

def starExpressions (r : Rules) : Parse Ast := tupleOf (starExpression r)

/-- A name comes next, and after it the given operator. -/
def nameThenOp (text : String) : Parse Bool := do
  let t ← peek
  let second ← peekSecond?
  return t.isIdentifier && (second.map (·.isOp text)).getD false

def namedExpression (r : Rules) : Parse Ast := do
  let start ← here
  if ← nameThenOp ":=" then
    let target ← nameNode
    let _ ← op ":="
    let value ← r .expression
    node .namedExpr start [target, value]
  else r .expression

def starNamedExpression (r : Rules) : Parse Ast := do
  let start ← here
  if ← opIfNext "*" then
    let value ← r .bitwiseOr
    node .starred start [value]
  else namedExpression r

def yieldExpression (r : Rules) : Parse Ast := do
  let start ← here
  let _ ← word "yield"
  if ← wordIfNext "from" then
    let value ← r .expression
    node .yieldFrom start [value]
  else
    let value ← optional (starExpressions r)
    node .yield start [value.getD .absent]

/-- The target of a loop or of a `with` item: an operand that can be assigned to. -/
def loopTarget (r : Rules) : Parse Ast := do
  let start ← here
  let target ← if ← opIfNext "*" then do
      let value ← r .bitwiseOr
      node .starred start [value]
    else r .bitwiseOr
  if isTarget target then return target else fail

def loopTargets (r : Rules) : Parse Ast := tupleOf (loopTarget r)

def forClause (r : Rules) : Parse Ast := do
  let isAsync ← wordIfNext "async"
  let _ ← word "for"
  let target ← loopTargets r
  let _ ← word "in"
  let iter ← r .disjunction
  let conditions ← many (word "if" *> r .disjunction)
  return .node .comprehension none
    [target, iter, .list conditions, .number (if isAsync then 1 else 0)]

def clauseNext : Parse Bool := do
  if ← wordNext "for" then return true
  else if ← wordNext "async" then return ((← peekSecond?).map (·.isWord "for")).getD false
  else return false

def forClauses (r : Rules) : Parse Ast := do
  let first ← forClause r
  let rest ← many (forClause r)
  return .list (first :: rest)

/-! ## Parameters -/

/-- The parameters read so far. -/
structure Parameters where
  positionalOnly : List Ast := []
  positional : List Ast := []
  defaults : List Ast := []
  vararg : Ast := .absent
  keywordOnly : List Ast := []
  keywordDefaults : List Ast := []
  kwarg : Ast := .absent

/-- The node of a parameter list. -/
def Parameters.tree (p : Parameters) : Ast :=
  .node .arguments none
    [.list p.positionalOnly, .list p.positional, p.vararg, .list p.keywordOnly,
     .list p.keywordDefaults, p.kwarg, .list p.defaults]

def parameter (r : Rules) (annotated starAllowed : Bool) : Parse Ast := do
  let start ← here
  let name ← identifier
  let hint ←
    if annotated then
      if ← opIfNext ":" then
        if starAllowed then starExpression r else r .expression
      else pure .absent
    else pure .absent
  node .arg start [.name name.text, hint]

/-- Where a parameter list has got to. -/
inductive ParameterStage where
  /-- Positional parameters; whether `/` was seen. -/
  | positional (slash : Bool)
  /-- After `*`; whether a parameter must still follow. -/
  | keyword (pending : Bool)
  /-- After the parameter for all other keywords. -/
  | complete

def parameterStep (r : Rules) (annotated : Bool) (p : Parameters) (stage : ParameterStage) :
    Parse (Parameters × ParameterStage) := do
  match stage with
  | .complete => fail
  | .positional slash =>
    if ← opIfNext "/" then
      if slash || p.positional.isEmpty then fail
      else
        return ({ p with positionalOnly := p.positional, positional := [] }, .positional true)
    else if ← opIfNext "**" then
      let kwarg ← parameter r annotated false
      return ({ p with kwarg := kwarg }, .complete)
    else if ← opIfNext "*" then
      if ← opNext "," then return (p, .keyword true)
      else
        let vararg ← parameter r annotated true
        return ({ p with vararg := vararg }, .keyword false)
    else
      let name ← parameter r annotated false
      if ← opIfNext "=" then
        let value ← r .expression
        return ({ p with positional := p.positional ++ [name], defaults := p.defaults ++ [value] },
          stage)
      else if p.defaults.isEmpty then
        return ({ p with positional := p.positional ++ [name] }, stage)
      else fail
  | .keyword pending =>
    if ← opNext "**" then
      if pending then fail
      else
        let _ ← next
        let kwarg ← parameter r annotated false
        return ({ p with kwarg := kwarg }, .complete)
    else
      let name ← parameter r annotated false
      let value ← if ← opIfNext "=" then r .expression else pure .absent
      return ({ p with keywordOnly := p.keywordOnly ++ [name],
                       keywordDefaults := p.keywordDefaults ++ [value] }, .keyword false)

/-- The rest of a parameter list up to the closing token, which is not taken. -/
def parameterLoop (r : Rules) (annotated : Bool) (close : String) :
    Nat → Parameters → ParameterStage → Parse Parameters
  | 0, _, _ => fail
  | n + 1, p, stage => do
    if ← opNext close then
      match stage with
      | .keyword true => fail
      | _ => return p
    else
      let (p, stage) ← parameterStep r annotated p stage
      if ← opNext close then
        match stage with
        | .keyword true => fail
        | _ => return p
      else
        let _ ← op ","
        parameterLoop r annotated close n p stage

/-- A parameter list up to the closing token, which is not taken. -/
def parameters (r : Rules) (annotated : Bool) (close : String) : Parse Ast := fun c =>
  ((·.tree) <$> parameterLoop r annotated close (c.tokens.length + 1) {} (.positional false)) c

/-- A function without a name. -/
def lambdaExpression (r : Rules) : Parse Ast := do
  let start ← here
  let _ ← word "lambda"
  let arguments ← parameters r false ":"
  let _ ← op ":"
  let body ← r .expression
  node .lambdaExpr start [arguments, body]

/-! ## Calls and subscripts -/

/-- The arguments read so far. -/
structure Arguments where
  positional : List Ast := []
  keywords : List Ast := []

/-- Where an argument list has got to: only positional arguments so far, a keyword argument was seen,
or arguments from a mapping were seen. -/
inductive ArgumentStage where
  | positional
  | keyword
  | mapping
  deriving DecidableEq

def argumentStep (r : Rules) (a : Arguments) (stage : ArgumentStage) :
    Parse (Arguments × ArgumentStage) := do
  let start ← here
  let t ← peek
  if t.isOp "**" then
    let _ ← next
    let value ← r .expression
    let argument ← node .keyword start [.absent, value]
    return ({ a with keywords := a.keywords ++ [argument] }, .mapping)
  else if ← nameThenOp "=" then
    let name ← identifier
    let _ ← op "="
    let value ← r .expression
    let argument ← node .keyword start [.name name.text, value]
    let stage := if stage = .positional then .keyword else stage
    return ({ a with keywords := a.keywords ++ [argument] }, stage)
  else if t.isOp "*" then
    if stage = .mapping then fail
    else
      let _ ← next
      let value ← r .expression
      let argument ← node .starred start [value]
      return ({ a with positional := a.positional ++ [argument] }, stage)
  else if stage = .positional then
    let argument ← namedExpression r
    return ({ a with positional := a.positional ++ [argument] }, stage)
  else fail

/-- The rest of an argument list with its closing bracket. -/
def argumentLoop (r : Rules) : Nat → Arguments → ArgumentStage → Parse Arguments
  | 0, _, _ => fail
  | n + 1, a, stage => do
    if ← opIfNext ")" then return a
    else
      let (a, stage) ← argumentStep r a stage
      if ← opIfNext ")" then return a
      else
        let _ ← op ","
        argumentLoop r n a stage

/-- The arguments of a call, from its opening bracket to its closing one. A comprehension needs no
brackets of its own if it is the only argument. -/
def callArguments (r : Rules) : Parse Arguments := do
  let start ← here
  let _ ← op "("
  let t ← peek
  if !(t.isOp ")" || t.isOp "*" || t.isOp "**") && !(← nameThenOp "=") then
    let first ← namedExpression r
    if ← clauseNext then
      let clauses ← forClauses r
      let _ ← op ")"
      let generator ← node .generatorExp start [first, clauses]
      return ⟨[generator], []⟩
    else if ← opIfNext ")" then return ⟨[first], []⟩
    else
      let _ ← op ","
      fun c => argumentLoop r (c.tokens.length + 1) ⟨[first], []⟩ .positional c
  else fun c => argumentLoop r (c.tokens.length + 1) {} .positional c

def sliceElement (r : Rules) : Parse Ast := do
  let start ← here
  if ← opNext ":" then sliceFrom start .absent
  else
    let bound ← nameThenOp ":="
    let first ← namedExpression r
    if !bound && (← opNext ":") then sliceFrom start first else return first
where
  /-- The bounds of a slice after the first. -/
  sliceFrom (start : Position) (lower : Ast) : Parse Ast := do
    let _ ← op ":"
    let upper ← optional (r .expression)
    let step ← if ← opIfNext ":" then optional (r .expression) else pure none
    node .slice start [lower, upper.getD .absent, step.getD .absent]

/-- The index of a subscript. -/
def slices (r : Rules) : Parse Ast := do
  let start ← here
  let element : Parse Ast := do
    let start ← here
    if ← opIfNext "*" then
      let value ← r .expression
      node .starred start [value]
    else sliceElement r
  let first ← element
  if first.isKind .starred || (← opNext ",") then
    let rest ← many (op "," *> element)
    let _ ← opIfNext ","
    node .tuple start [.list (first :: rest)]
  else return first

/-! ## Atoms -/

/-- Something in round brackets: a tuple, a group or a comprehension. -/
def parenthesized (r : Rules) : Parse Ast := do
  let start ← here
  let _ ← op "("
  if ← opIfNext ")" then node .tuple start [.list []]
  else if ← wordNext "yield" then
    let value ← yieldExpression r
    let _ ← op ")"
    return value
  else
    let first ← starNamedExpression r
    if ← opNext "," then
      let rest ← many (op "," *> starNamedExpression r)
      let _ ← opIfNext ","
      let _ ← op ")"
      node .tuple start [.list (first :: rest)]
    else if first.isKind .starred then fail
    else if ← clauseNext then
      let clauses ← forClauses r
      let _ ← op ")"
      node .generatorExp start [first, clauses]
    else
      let _ ← op ")"
      return first

/-- Something in square brackets: a list or a comprehension. -/
def bracketed (r : Rules) : Parse Ast := do
  let start ← here
  let _ ← op "["
  if ← opIfNext "]" then node .list start [.list []]
  else
    let first ← starNamedExpression r
    if !first.isKind .starred && (← clauseNext) then
      let clauses ← forClauses r
      let _ ← op "]"
      node .listComp start [first, clauses]
    else
      let rest ← many (op "," *> starNamedExpression r)
      let _ ← opIfNext ","
      let _ ← op "]"
      node .list start [.list (first :: rest)]

/-- An entry of a dictionary: a key and a value, or a mapping whose entries are taken over. -/
def dictEntry (r : Rules) : Parse (Ast × Ast) := do
  if ← opIfNext "**" then return (.absent, ← r .bitwiseOr)
  else
    let key ← r .expression
    let _ ← op ":"
    return (key, ← r .expression)

def dictRest (r : Rules) (start : Position) (first : Ast × Ast) : Parse Ast := do
  let rest ← many (op "," *> dictEntry r)
  let _ ← opIfNext ","
  let _ ← op "\x7d"
  let entries := first :: rest
  node .dict start [.list (entries.map (·.1)), .list (entries.map (·.2))]

/-- Something in braces: a dictionary, a set or a comprehension. -/
def braced (r : Rules) : Parse Ast := do
  let start ← here
  let _ ← op "\x7b"
  if ← opIfNext "\x7d" then node .dict start [.list [], .list []]
  else if ← opNext "**" then dictRest r start (← dictEntry r)
  else
    let bound ← nameThenOp ":="
    let first ← starNamedExpression r
    if !bound && !first.isKind .starred && (← opIfNext ":") then
      let value ← r .expression
      if ← clauseNext then
        let clauses ← forClauses r
        let _ ← op "\x7d"
        node .dictComp start [first, value, clauses]
      else dictRest r start (first, value)
    else if !first.isKind .starred && (← clauseNext) then
      let clauses ← forClauses r
      let _ ← op "\x7d"
      node .setComp start [first, clauses]
    else
      let rest ← many (op "," *> starNamedExpression r)
      let _ ← opIfNext ","
      let _ ← op "\x7d"
      node .set start [.list (first :: rest)]

def literalNode (start : Position) (value : Constant) : Parse Ast :=
  node .constant start [.literal value]

def atom (r : Rules) : Parse Ast := do
  let t ← peek
  match t.cls with
  | .name =>
    if t.isIdentifier then nameNode
    else if t.text == "True" then next *> literalNode t.start .true
    else if t.text == "False" then next *> literalNode t.start .false
    else if t.text == "None" then next *> literalNode t.start .none
    else fail
  | .number =>
    let _ ← next
    match numberValue? t.text with
    | some value => literalNode t.start value
    | none => halt .invalid
  | .string => stringAtom (starExpressions r)
  | .op =>
    if t.text == "(" then parenthesized r
    else if t.text == "[" then bracketed r
    else if t.text == "\x7b" then braced r
    else if t.text == "..." then next *> literalNode t.start .ellipsis
    else fail
  | _ => fail

/-- The attributes, calls and subscripts after an atom. -/
def trailers (r : Rules) (start : Position) : Nat → Ast → Parse Ast
  | 0, tree => return tree
  | n + 1, tree => do
    if ← opIfNext "." then
      let name ← identifier
      let tree ← node .attributeRef start [tree, .name name.text]
      trailers r start n tree
    else if ← opNext "(" then
      let a ← callArguments r
      let tree ← node .call start [tree, .list a.positional, .list a.keywords]
      trailers r start n tree
    else if ← opIfNext "[" then
      let index ← slices r
      let _ ← op "]"
      let tree ← node .subscript start [tree, index]
      trailers r start n tree
    else return tree

/-- An atom with its attributes, calls and subscripts. -/
def primary (r : Rules) : Parse Ast := do
  let start ← here
  let tree ← atom r
  fun c => trailers r start (c.tokens.length + 1) tree c

/-! ## Operators -/

/-- The rest of a chain of operators of one level, which bind to the left. -/
def binaryRest (ops : List (String × Kind)) (operand : Parse Ast) (start : Position) :
    Nat → Ast → Parse Ast
  | 0, left => return left
  | n + 1, left => do
    let t ← peek
    match if t.cls == .op then ops.lookup t.text else none with
    | some kind =>
      let _ ← next
      let right ← operand
      let tree ← node .binOp start [left, mark kind, right]
      binaryRest ops operand start n tree
    | none => return left

/-- A chain of operators of one level. -/
def binaryLevel (ops : List (String × Kind)) (operand : Parse Ast) : Parse Ast := do
  let start ← here
  let left ← operand
  fun c => binaryRest ops operand start (c.tokens.length + 1) left c

/-- A primary expression that may be awaited, with its exponent. -/
def power (r : Rules) : Parse Ast := do
  let start ← here
  let base ← if ← wordIfNext "await" then do
      let value ← primary r
      node .await start [value]
    else primary r
  if ← opIfNext "**" then
    let exponent ← r .factor
    node .binOp start [base, mark .pow, exponent]
  else return base

def signOps : List (String × Kind) := [("+", .uAdd), ("-", .uSub), ("~", .invert)]

/-- A power with its signs. -/
def factor (r : Rules) : Parse Ast := do
  let start ← here
  let t ← peek
  match if t.cls == .op then signOps.lookup t.text else none with
  | some kind =>
    let _ ← next
    let operand ← r .factor
    node .unaryOp start [mark kind, operand]
  | none => power r

/-- Products. -/
def term (r : Rules) : Parse Ast :=
  binaryLevel [("*", .mult), ("/", .div), ("//", .floorDiv), ("%", .mod), ("@", .matMult)] (factor r)

def sum (r : Rules) : Parse Ast := binaryLevel [("+", .add), ("-", .sub)] (term r)

def shift (r : Rules) : Parse Ast := binaryLevel [("<<", .lShift), (">>", .rShift)] (sum r)

def bitwiseOr (r : Rules) : Parse Ast :=
  binaryLevel [("|", .bitOr)] (binaryLevel [("^", .bitXor)] (binaryLevel [("&", .bitAnd)] (shift r)))

def comparisonOps : List (String × Kind) :=
  [("==", .eq), ("!=", .notEq), ("<", .lt), ("<=", .ltE), (">", .gt), (">=", .gtE)]

def comparisonOp : Parse Ast := do
  let t ← peek
  if t.cls == .op then
    match comparisonOps.lookup t.text with
    | some kind => next *> pure (mark kind)
    | none => fail
  else if ← wordIfNext "in" then return mark .inOp
  else if ← wordIfNext "is" then
    if ← wordIfNext "not" then return mark .isNot else return mark .is
  else if ← wordIfNext "not" then
    let _ ← word "in"
    return mark .notIn
  else fail

def comparison (r : Rules) : Parse Ast := do
  let start ← here
  let left ← bitwiseOr r
  let rest ← many do
    let kind ← comparisonOp
    let right ← bitwiseOr r
    return (kind, right)
  if rest.isEmpty then return left
  else node .compare start [left, .list (rest.map (·.1)), .list (rest.map (·.2))]

/-- Negations. -/
def inversion (r : Rules) : Parse Ast := do
  let start ← here
  if ← wordIfNext "not" then
    let operand ← r .inversion
    node .unaryOp start [mark .not, operand]
  else comparison r

/-- Operands joined by one word. -/
def booleanLevel (text : String) (kind : Kind) (operand : Parse Ast) : Parse Ast := do
  let start ← here
  let first ← operand
  let rest ← many (word text *> operand)
  if rest.isEmpty then return first
  else node .boolOp start [mark kind, .list (first :: rest)]

/-- Alternatives of conditions. -/
def disjunction (r : Rules) : Parse Ast :=
  booleanLevel "or" .or (booleanLevel "and" .and (inversion r))

/-- An expression: a condition, a choice between two values or a function. -/
def expression (r : Rules) : Parse Ast := do
  if ← wordNext "lambda" then lambdaExpression r
  else
    let start ← here
    let value ← disjunction r
    if ← wordIfNext "if" then
      let test ← disjunction r
      let _ ← word "else"
      let other ← r .expression
      node .ifExp start [test, value, other]
    else return value

end ServerlessTaint.Syntax
