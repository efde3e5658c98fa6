import ServerlessTaint.Syntax.Lexer

/-!
# Parsing steps

A parsing step takes tokens from the front of the rest of the text. It either matches, or does not
match, in which case an alternative may be tried at the same place, or shows that the text is no
program at all.
-/

namespace ServerlessTaint.Syntax

/-- Why a parsing step has no result. -/
inductive Stop where
  /-- The tokens do not match; the number of tokens left where this showed. -/
  | noMatch (left : Nat)
  /-- The text is no program. -/
  | fatal (fault : SyntaxFault)
  deriving Repr, Inhabited

/-- The tokens that are left, the end of the visible token taken last, the fewest tokens that were
left when some step did not match, and the fault at which the tokens end, if they do not end with the
text. -/
structure Cursor where
  tokens : List Token
  last : Position
  furthest : Nat
  fault : Option SyntaxFault

/-- A parsing step with a result. -/
abbrev Parse := StateT Cursor (Except Stop)

namespace Parse

def fail {α : Type} : Parse α := fun c => .error (.noMatch (min c.furthest c.tokens.length))

/-- The text is no program. -/
def halt {α : Type} (fault : SyntaxFault) : Parse α := fun _ => .error (.fatal fault)

def peek : Parse Token := fun c =>
  match c.tokens with
  | t :: _ => .ok (t, c)
  | [] => .error (.fatal (c.fault.getD .invalid))

def peekSecond? : Parse (Option Token) := fun c => .ok ((c.tokens.drop 1).head?, c)

def next : Parse Token := fun c =>
  match c.tokens with
  | t :: rest => .ok (t, { c with tokens := rest, last := if t.isVisible then t.stop else c.last })
  | [] => .error (.fatal (c.fault.getD .invalid))

def orElse {α : Type} (first second : Parse α) : Parse α := fun c =>
  match first c with
  | .error (.noMatch left) => second { c with furthest := min c.furthest left }
  | result => result

/-- Takes the next token if it is the given operator. -/
def op (text : String) : Parse Token := do
  let t ← peek
  if t.isOp text then next else fail

def word (text : String) : Parse Token := do
  let t ← peek
  if t.isWord text then next else fail

def opNext (text : String) : Parse Bool := do return (← peek).isOp text

def wordNext (text : String) : Parse Bool := do return (← peek).isWord text

def opIfNext (text : String) : Parse Bool := do
  if ← opNext text then
    let _ ← next
    return true
  else return false

def wordIfNext (text : String) : Parse Bool := do
  if ← wordNext text then
    let _ ← next
    return true
  else return false

def ofClass (cls : TokenClass) : Parse Token := do
  let t ← peek
  if t.cls == cls then next else fail

def identifier : Parse Token := do
  let t ← peek
  if t.isIdentifier then next else fail

/-- A step that may be missing. -/
def optional {α : Type} (p : Parse α) : Parse (Option α) := orElse (some <$> p) (pure none)

/-- Repeats a step as long as it matches, at most the given number of times. -/
def upTo {α : Type} (p : Parse α) : Nat → Parse (List α)
  | 0 => pure []
  | n + 1 => do
    match ← optional p with
    | none => return []
    | some a => return a :: (← upTo p n)

/-- Repeats a step as long as it matches. -/
def many {α : Type} (p : Parse α) : Parse (List α) := fun c => upTo p c.tokens.length c

/-- A step once or more, with commas between. -/
def commaSeparated {α : Type} (p : Parse α) : Parse (List α) := do
  let first ← p
  let rest ← many (op "," *> p)
  return first :: rest

/-- The place of the next token. -/
def here : Parse Position := do return (← peek).start

/-- A node from a place to the end of the token taken last. -/
def node (kind : Kind) (start : Position) (children : List Ast) : Parse Ast := fun c =>
  .ok (.node kind (some ⟨start, c.last⟩) children, c)

/-- A node for an operator that was just taken. -/
def mark (kind : Kind) : Ast := .node kind none []

def nameNode : Parse Ast := do
  let t ← identifier
  return .node .name (some ⟨t.start, t.stop⟩) [.name t.text]

end Parse

/-- The parts of the grammar that refer to themselves. -/
inductive Goal where
  | expression
  | disjunction
  | inversion
  | bitwiseOr
  | factor
  | pattern
  | statements
  deriving DecidableEq, Repr

abbrev Rules := Goal → Parse Ast

/-! ## Targets -/

mutual

/-- The expression can be assigned to; starred parts are allowed. -/
def isTarget : Ast → Bool
  | .node .name _ _ | .node .attributeRef _ _ | .node .subscript _ _ => true
  | .node .starred _ [.node .starred _ _] => false
  | .node .starred _ [t] => isTarget t
  | .node .tuple _ [.list ts] | .node .list _ [.list ts] => areTargets ts
  | _ => false

/-- All expressions can be assigned to. -/
def areTargets : List Ast → Bool
  | [] => true
  | t :: ts => isTarget t && areTargets ts

end

mutual

/-- The expression can be deleted. -/
def isDeletable : Ast → Bool
  | .node .name _ _ | .node .attributeRef _ _ | .node .subscript _ _ => true
  | .node .tuple _ [.list ts] | .node .list _ [.list ts] => areDeletable ts
  | _ => false

/-- All expressions can be deleted. -/
def areDeletable : List Ast → Bool
  | [] => true
  | t :: ts => isDeletable t && areDeletable ts

end

/-- The expression is a single target: a name, an attribute or a subscript. -/
def isSingleTarget : Ast → Bool
  | .node .name _ _ | .node .attributeRef _ _ | .node .subscript _ _ => true
  | _ => false

end ServerlessTaint.Syntax
