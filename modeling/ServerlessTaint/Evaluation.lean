import ServerlessTaint.Syntax.Program
import ServerlessTaint.Value.Access

/-!
# Evaluation of settings

Some settings are expressions of constants: literals, lists, truth values and comparisons. No name has
a value. Only what is needed is evaluated, so that `True or x` is true.
-/

namespace ServerlessTaint.Evaluation

open Syntax

/-- The value of a literal. Bytes and imaginary numbers have none here. -/
def ofConstant : Constant → Except Fault Value
  | .none => .ok .null
  | .true => .ok (.bool true)
  | .false => .ok (.bool false)
  | .str text => .ok (.str text)
  | .int n => .ok (.int n)
  | .float x => .ok (.real x)
  | _ => .error .wrongType

def number? : Value → Option Int
  | .bool b => some (if b then 1 else 0)
  | .int n => some n
  | _ => none

mutual

/-- Two values are equal. Truth values count as numbers. -/
def same : Value → Value → Bool
  | .str a, .str b => a == b
  | .null, .null => true
  | .real a, .real b => a == b
  | .list xs, .list ys => sameItems xs ys
  | .map xs, .map ys => sameEntries xs ys
  | a, b =>
    match number? a, number? b with
    | some m, some n => m == n
    | _, _ => false

def sameItems : List Value → List Value → Bool
  | [], [] => true
  | a :: as, b :: bs => same a b && sameItems as bs
  | _, _ => false

def sameEntries : List (String × Value) → List (String × Value) → Bool
  | [], [] => true
  | (k, a) :: as, (l, b) :: bs => k == l && same a b && sameEntries as bs
  | _, _ => false

end

/-- The order of two values, where they have one. -/
def less (a b : Value) : Except Fault Bool :=
  match a, b with
  | .str a, .str b => .ok (decide (a < b))
  | a, b =>
    match number? a, number? b with
    | some m, some n => .ok (decide (m < n))
    | _, _ => .error .wrongType

/-- The result of a comparison. -/
def compare (op : Kind) (a b : Value) : Except Fault Bool :=
  match op with
  | .eq | .is => .ok (same a b)
  | .notEq | .isNot => .ok (!same a b)
  | .lt => less a b
  | .gt => less b a
  | .ltE => (less b a).map (!·)
  | .gtE => (less a b).map (!·)
  | .inOp => b.elements.map fun items => items.any (same a)
  | .notIn => b.elements.map fun items => !items.any (same a)
  | _ => .error .wrongType

/-- The result of an operation on numbers, texts or lists. -/
def combine (op : Kind) (a b : Value) : Except Fault Value :=
  match op, a, b with
  | .add, .str a, .str b => .ok (.str (a ++ b))
  | .add, .list a, .list b => .ok (.list (a ++ b))
  | op, a, b =>
    match number? a, number? b with
    | some m, some n =>
      match op with
      | .add => .ok (.int (m + n))
      | .sub => .ok (.int (m - n))
      | .mult => .ok (.int (m * n))
      | .floorDiv => if n = 0 then .error .arithmetic else .ok (.int (m.fdiv n))
      | .mod => if n = 0 then .error .arithmetic else .ok (.int (m.fmod n))
      | _ => .error .wrongType
    | _, _ => .error .wrongType

def kindOf (tree : Ast) : Kind := tree.kind?.getD .module

/-- The value of an expression, evaluated to a depth. -/
def evaluateTo : Nat → Ast → Except Fault Value
  | 0, _ => .error .endlessNesting
  | depth + 1, tree =>
    let e := evaluateTo depth
    match tree with
    | .node .constant _ [.literal value] => ofConstant value
    | .node .name _ _ => .error .undefinedName
    | .node .list _ [.list items] | .node .tuple _ [.list items] | .node .set _ [.list items] => do
      return .list (← items.mapM e)
    | .node .dict _ [.list keys, .list values] => do
      let entries ← (keys.zip values).mapM fun (k, v) => do
        let key ← e k
        let value ← e v
        return (← key.asText, value)
      return .map (Keyed.ofEntries entries)
    | .node .unaryOp _ [op, operand] => do
      let v ← e operand
      match kindOf op, v, number? v with
      | .not, _, _ => return .bool (!v.isTruthy)
      | .uSub, .real x, _ => return .real x.negate
      | .uAdd, .real x, _ => return .real x
      | .uSub, _, some n => return .int (-n)
      | .uAdd, _, some n => return .int n
      | .invert, _, some n => return .int (-n - 1)
      | _, _, _ => throw .wrongType
    | .node .boolOp _ [op, .list values] => connect e (kindOf op == .or) values
    | .node .binOp _ [left, op, right] => do
      let a ← e left
      let b ← e right
      combine (kindOf op) a b
    | .node .compare _ [left, .list ops, .list comparators] => do
      let first ← e left
      chain e first (ops.zip comparators)
    | .node .ifExp _ [test, body, orelse] => do
      if (← e test).isTruthy then e body else e orelse
    | _ => .error .wrongType
where
  /-- The first operand that decides a connection, or the last one. -/
  connect (e : Ast → Except Fault Value) (isOr : Bool) : List Ast → Except Fault Value
    | [] => .error .wrongType
    | [t] => e t
    | t :: ts => do
      let v ← e t
      if v.isTruthy == isOr then return v else connect e isOr ts
  /-- Comparisons in a row, up to the first that fails. -/
  chain (e : Ast → Except Fault Value) (a : Value) : List (Ast × Ast) → Except Fault Value
    | [] => .ok (.bool true)
    | (op, t) :: rest => do
      let b ← e t
      if ← compare (kindOf op) a b then chain e b rest else return .bool false

def evaluate (tree : Ast) : Except Fault Value := evaluateTo (tree.height + 1) tree

/-- The value of the expression that a text denotes. Blanks before it are ignored. -/
def evaluateText (text : String) : Except Fault Value := do
  let cs := text.toList.dropWhile fun c => c == ' ' || c == '\t'
  match parseExpression (String.ofList cs) with
  | .ok tree => evaluate tree
  | .error fault => throw (.invalidSource fault)

/-- A text with its first letter in upper case and the others in lower case, for the letters of
ASCII. -/
def capitalize (text : String) : String :=
  match text.toList with
  | [] => ""
  | c :: rest => String.ofList (c.toUpper :: rest.map Char.toLower)

end ServerlessTaint.Evaluation
