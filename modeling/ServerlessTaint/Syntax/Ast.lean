import ServerlessTaint.Decimal.Binary64
import ServerlessTaint.Syntax.Kind

/-!
# Syntax trees

A tree is a node of some kind with its fields, a list of trees, or a leaf. Nodes that were read from
a source text know where they stand in it; nodes that were made otherwise do not. `walk` lists the
nodes of a tree level by level, the order in which the analyses look at a program.
-/

namespace ServerlessTaint.Syntax

/-- A place in a source text: lines from 1, columns from 0 in bytes of UTF-8. -/
structure Position where
  line : Nat
  column : Nat
  deriving DecidableEq, Repr, Inhabited

/-- The stretch of a source text from a first to a last place. -/
structure Span where
  start : Position
  stop : Position
  deriving DecidableEq, Repr, Inhabited

/-- The values of literals. -/
inductive Constant where
  | none
  | true
  | false
  | ellipsis
  | str (text : String)
  | bytes (data : List UInt8)
  | int (value : Nat)
  | float (value : Binary64)
  | imaginary (value : Binary64)
  deriving DecidableEq, Repr, Inhabited

/-- A syntax tree. `absent` stands in the place of an optional field that is missing. -/
inductive Ast where
  | absent
  | node (kind : Kind) (span : Option Span) (children : List Ast)
  | list (items : List Ast)
  | name (text : String)
  | number (value : Int)
  | literal (value : Constant)
  deriving Inhabited, Repr

namespace Ast

mutual

/-- Equality of trees, places in the source included. -/
def decEq : (a b : Ast) → Decidable (a = b)
  | .absent, .absent => isTrue rfl
  | .node k s cs, .node k' s' cs' =>
    if hk : k = k' then
      if hs : s = s' then
        match decEqList cs cs' with
        | isTrue hc => isTrue (by rw [hk, hs, hc])
        | isFalse hc => isFalse (by intro h; injection h; exact hc ‹_›)
      else isFalse (by intro h; injection h; exact hs ‹_›)
    else isFalse (by intro h; injection h; exact hk ‹_›)
  | .list xs, .list ys =>
    match decEqList xs ys with
    | isTrue h => isTrue (by rw [h])
    | isFalse h => isFalse (by intro h'; injection h'; exact h ‹_›)
  | .name a, .name b =>
    if h : a = b then isTrue (by rw [h]) else isFalse (by intro h'; injection h'; exact h ‹_›)
  | .number a, .number b =>
    if h : a = b then isTrue (by rw [h]) else isFalse (by intro h'; injection h'; exact h ‹_›)
  | .literal a, .literal b =>
    if h : a = b then isTrue (by rw [h]) else isFalse (by intro h'; injection h'; exact h ‹_›)
  | .absent, .node .. | .absent, .list _ | .absent, .name _ | .absent, .number _
  | .absent, .literal _ | .node .., .absent | .node .., .list _ | .node .., .name _
  | .node .., .number _ | .node .., .literal _ | .list _, .absent | .list _, .node ..
  | .list _, .name _ | .list _, .number _ | .list _, .literal _ | .name _, .absent
  | .name _, .node .. | .name _, .list _ | .name _, .number _ | .name _, .literal _
  | .number _, .absent | .number _, .node .. | .number _, .list _ | .number _, .name _
  | .number _, .literal _ | .literal _, .absent | .literal _, .node .. | .literal _, .list _
  | .literal _, .name _ | .literal _, .number _ => isFalse (by intro h; cases h)

def decEqList : (as bs : List Ast) → Decidable (as = bs)
  | [], [] => isTrue rfl
  | a :: as, b :: bs =>
    match decEq a b with
    | isTrue h =>
      match decEqList as bs with
      | isTrue hs => isTrue (by rw [h, hs])
      | isFalse hs => isFalse (by intro h'; injection h'; exact hs ‹_›)
    | isFalse h => isFalse (by intro h'; injection h'; exact h ‹_›)
  | [], _ :: _ => isFalse (by intro h; cases h)
  | _ :: _, [] => isFalse (by intro h; cases h)

end

instance : DecidableEq Ast := decEq

/-! ## Nodes and their fields -/

def isNode : Ast → Bool
  | .node .. => true
  | _ => false

def kind? : Ast → Option Kind
  | .node kind _ _ => some kind
  | _ => none

def isKind (kind : Kind) (tree : Ast) : Bool := tree.kind? == some kind

/-- The place of a node in its source text. -/
def span? : Ast → Option Span
  | .node _ span _ => span
  | _ => none

def line? (tree : Ast) : Option Nat := tree.span?.map (·.start.line)

def field? (field : Field) : Ast → Option Ast
  | .node kind _ children => (kind.fields.zip children).lookup field
  | _ => none

def items : Ast → List Ast
  | .list items => items
  | _ => []

def itemsOf (field : Field) (tree : Ast) : List Ast :=
  match tree.field? field with
  | some t => t.items
  | none => []

/-- The text of an identifier. -/
def name? : Ast → Option String
  | .name text => some text
  | _ => none

def nameOf? (field : Field) (tree : Ast) : Option String := tree.field? field >>= name?

/-- The value of a literal. -/
def constant? : Ast → Option Constant
  | .node .constant _ [.literal value] => some value
  | _ => none

def text? (tree : Ast) : Option String :=
  match tree.constant? with
  | some (.str text) => some text
  | _ => none

/-- The nodes directly below a node: in its fields, or in lists in its fields. -/
def subnodes : Ast → List Ast
  | .node _ _ children => children.flatMap fun
    | .node kind span cs => [.node kind span cs]
    | .list items => items.filter isNode
    | _ => []
  | _ => []

mutual

/-- A bound on the number of levels of nodes. -/
def height : Ast → Nat
  | .node _ _ children => heightList children + 1
  | .list items => heightList items
  | _ => 0

def heightList : List Ast → Nat
  | [] => 0
  | t :: ts => max t.height (heightList ts)

end

/-- The nodes at a given depth below a node, from left to right. -/
def nodesAt : Nat → Ast → List Ast
  | 0, t => if t.isNode then [t] else []
  | depth + 1, t => t.subnodes.flatMap (nodesAt depth)

/-- The nodes of a tree level by level, each level from left to right. -/
def walk (tree : Ast) : List Ast := (List.range tree.height).flatMap fun d => nodesAt d tree

/-- The nodes of a given kind, level by level. -/
def walkKind (kind : Kind) (tree : Ast) : List Ast := tree.walk.filter (isKind kind)

end Ast

end ServerlessTaint.Syntax
