import ServerlessTaint.Syntax.Grammar.Parse

/-!
# The abstract grammar

Nodes fall into classes, and each kind of node says of what sort its fields are: a node of a class, a list
of such nodes, a name, and so on. A tree conforms to a sort if this holds down to its leaves.
-/

namespace ServerlessTaint.Syntax

/-- The classes of nodes. -/
inductive NodeClass where
  | module | statement | expression | operator | comprehension | handler | parameters | parameter | keyword
  | imported | withItem | case | pattern
  deriving DecidableEq, Repr

/-- What a field of a node holds: a node, which may be missing, a list of nodes, in which some may be
missing, what can be annotated, names, a number or a literal. -/
inductive FieldSort where
  | one (cls : NodeClass)
  | optional (cls : NodeClass)
  | many (cls : NodeClass)
  | gapped (cls : NodeClass)
  | target
  | name
  | optionalName
  | names
  | number
  | literal
  deriving DecidableEq, Repr

def Kind.cls : Kind → NodeClass
  | .module => .module
  | .functionDef | .asyncFunctionDef | .classDef | .returnStmt | .deleteStmt | .assign | .augAssign | .annAssign
  | .forLoop | .asyncFor | .whileLoop | .ifStmt | .withBlock | .asyncWith | .matchStmt | .raiseStmt | .tryStmt
  | .tryStar | .assertStmt | .importStmt | .importFrom | .globalStmt | .nonlocalStmt | .exprStmt | .passStmt
  | .breakStmt | .continueStmt => .statement
  | .boolOp | .namedExpr | .binOp | .unaryOp | .lambdaExpr | .ifExp | .dict | .set | .listComp | .setComp | .dictComp
  | .generatorExp | .await | .yield | .yieldFrom | .compare | .call | .formattedValue | .joinedStr | .constant
  | .attributeRef | .subscript | .starred | .name | .list | .tuple | .slice => .expression
  | .comprehension => .comprehension
  | .exceptHandler => .handler
  | .arguments => .parameters
  | .arg => .parameter
  | .keyword => .keyword
  | .importName => .imported
  | .withItem => .withItem
  | .matchCase => .case
  | .matchValue | .matchSingleton | .matchSequence | .matchMapping | .matchClass | .matchStar | .matchAs
  | .matchOr => .pattern
  | .and | .or | .add | .sub | .mult | .matMult | .div | .mod | .pow | .lShift | .rShift | .bitOr | .bitXor | .bitAnd
  | .floorDiv | .invert | .not | .uAdd | .uSub | .eq | .notEq | .lt | .ltE | .gt | .gtE | .is | .isNot | .inOp
  | .notIn => .operator

def Kind.sorts : Kind → List FieldSort
  | .module => [.many .statement]
  | .functionDef | .asyncFunctionDef =>
    [.name, .one .parameters, .many .statement, .many .expression, .optional .expression]
  | .classDef => [.name, .many .expression, .many .keyword, .many .statement, .many .expression]
  | .returnStmt | .yield => [.optional .expression]
  | .deleteStmt | .joinedStr | .list | .tuple | .set => [.many .expression]
  | .assign => [.many .expression, .one .expression]
  | .augAssign => [.target, .one .operator, .one .expression]
  | .annAssign => [.target, .one .expression, .optional .expression, .number]
  | .forLoop | .asyncFor => [.one .expression, .one .expression, .many .statement, .many .statement]
  | .whileLoop | .ifStmt => [.one .expression, .many .statement, .many .statement]
  | .withBlock | .asyncWith => [.many .withItem, .many .statement]
  | .matchStmt => [.one .expression, .many .case]
  | .raiseStmt => [.optional .expression, .optional .expression]
  | .tryStmt | .tryStar => [.many .statement, .many .handler, .many .statement, .many .statement]
  | .assertStmt | .withItem => [.one .expression, .optional .expression]
  | .importStmt => [.many .imported]
  | .importFrom => [.optionalName, .many .imported, .number]
  | .globalStmt | .nonlocalStmt => [.names]
  | .exprStmt | .await | .yieldFrom | .starred | .matchValue => [.one .expression]
  | .boolOp => [.one .operator, .many .expression]
  | .namedExpr | .subscript => [.one .expression, .one .expression]
  | .binOp => [.one .expression, .one .operator, .one .expression]
  | .unaryOp => [.one .operator, .one .expression]
  | .lambdaExpr => [.one .parameters, .one .expression]
  | .ifExp => [.one .expression, .one .expression, .one .expression]
  | .dict => [.gapped .expression, .many .expression]
  | .listComp | .setComp | .generatorExp => [.one .expression, .many .comprehension]
  | .dictComp => [.one .expression, .one .expression, .many .comprehension]
  | .compare => [.one .expression, .many .operator, .many .expression]
  | .call => [.one .expression, .many .expression, .many .keyword]
  | .formattedValue => [.one .expression, .number, .optional .expression]
  | .constant | .matchSingleton => [.literal]
  | .attributeRef => [.one .expression, .name]
  | .name => [.name]
  | .slice => [.optional .expression, .optional .expression, .optional .expression]
  | .comprehension => [.one .expression, .one .expression, .many .expression, .number]
  | .exceptHandler => [.optional .expression, .optionalName, .many .statement]
  | .arguments =>
    [.many .parameter, .many .parameter, .optional .parameter, .many .parameter, .gapped .expression,
     .optional .parameter, .many .expression]
  | .arg => [.name, .optional .expression]
  | .keyword => [.optionalName, .one .expression]
  | .importName => [.name, .optionalName]
  | .matchCase => [.one .pattern, .optional .expression, .many .statement]
  | .matchSequence | .matchOr => [.many .pattern]
  | .matchMapping => [.many .expression, .many .pattern, .optionalName]
  | .matchClass => [.one .expression, .many .pattern, .names, .many .pattern]
  | .matchStar => [.optionalName]
  | .matchAs => [.optional .pattern, .optionalName]
  | .passStmt | .breakStmt | .continueStmt
  | .and | .or | .add | .sub | .mult | .matMult | .div | .mod | .pow | .lShift | .rShift | .bitOr | .bitXor | .bitAnd
  | .floorDiv | .invert | .not | .uAdd | .uSub | .eq | .notEq | .lt | .ltE | .gt | .gtE | .is | .isNot | .inOp
  | .notIn => []

namespace FieldSort

def takes : FieldSort → Kind → Bool
  | .one cls, kind | .optional cls, kind => kind.cls = cls
  | .target, kind => kind = .name || kind = .attributeRef || kind = .subscript
  | _, _ => false

def item? : FieldSort → Option FieldSort
  | .many cls => some (.one cls)
  | .gapped cls => some (.optional cls)
  | .names => some .name
  | _ => none

def takesLeaf : FieldSort → Ast → Bool
  | .optional _, .absent | .optionalName, .absent | .name, .name _ | .optionalName, .name _
  | .number, .number _ | .literal, .literal _ => true
  | _, _ => false

end FieldSort

namespace Ast

mutual

/-- The tree is of a sort, down to its leaves. -/
def conforms (s : FieldSort) : Ast → Bool
  | .node kind _ children => s.takes kind && fits kind.sorts children
  | .list items =>
    match s.item? with
    | some sort => allConform sort items
    | none => false
  | leaf => s.takesLeaf leaf

def fits : List FieldSort → List Ast → Bool
  | [], [] => true
  | s :: sorts, t :: ts => conforms s t && fits sorts ts
  | _, _ => false

def allConform (s : FieldSort) : List Ast → Bool
  | [] => true
  | t :: ts => conforms s t && allConform s ts

end

attribute [grind =] Kind.cls Kind.sorts

@[simp, grind =]
theorem fits_nil : fits [] [] := rfl

variable {ts : List Ast} {s : FieldSort}

@[simp, grind =]
theorem fits_cons {sorts : List FieldSort} {t : Ast} :
    fits (s :: sorts) (t :: ts) = (conforms s t && fits sorts ts) := rfl

@[simp, grind =]
theorem allConform_iff : allConform s ts ↔ ∀ t ∈ ts, conforms s t := by
  induction ts with
  | nil => simp [allConform]
  | cons t ts ih => simp [allConform, ih]

section

variable {cls : NodeClass} {kind : Kind} {span : Option Span} {children items : List Ast} {text : String}

@[simp, grind =]
theorem conforms_one :
    conforms (.one cls) (.node kind span children) = (decide (kind.cls = cls) && fits kind.sorts children) :=
  rfl

@[simp, grind =]
theorem conforms_many : conforms (.many cls) (.list items) = allConform (.one cls) items := rfl

@[simp, grind =]
theorem conforms_gapped : conforms (.gapped cls) (.list items) = allConform (.optional cls) items := rfl

@[simp, grind =]
theorem conforms_names : conforms .names (.list items) = allConform .name items := rfl

@[simp, grind =]
theorem conforms_optional_absent : conforms (.optional cls) .absent := rfl

@[simp, grind =]
theorem conforms_name : conforms .name (.name text) := rfl

@[simp, grind =]
theorem conforms_optionalName : conforms .optionalName (.name text) := rfl

@[simp, grind =]
theorem conforms_optionalName_absent : conforms .optionalName .absent := rfl

@[simp, grind =]
theorem conforms_number {value : Int} : conforms .number (.number value) := rfl

@[simp, grind =]
theorem conforms_literal {value : Constant} : conforms .literal (.literal value) := rfl

/-- What may be missing need not be. -/
@[simp, grind →]
theorem conforms_optional {t : Ast} (h : conforms (.one cls) t) : conforms (.optional cls) t := by
  cases t with
  | node => exact h
  | _ => cases h

end

abbrev IsExpression (t : Ast) : Prop := t.conforms (.one .expression) = true

end Ast

end ServerlessTaint.Syntax
