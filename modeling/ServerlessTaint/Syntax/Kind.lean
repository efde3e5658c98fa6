/-!
# Kinds of syntax tree nodes

Every node of a Python syntax tree has a kind, and the kind fixes the names and the order of its
fields.
-/

namespace ServerlessTaint.Syntax

/-- The names of the fields of nodes. -/
inductive Field where
  | typeHint | arg | args | argument | asname | attr | bases | body | cases | cause | classRef
  | comparators | contextExpr | conversion | decorators | defaults | elt | elts | exc
  | finalbody | formatSpec | func | generators | guard | handlers | id | ifs | isAsync | items | iter
  | keywords | key | keys | kwDefaults | kwarg | kwonlyargs | kwdAttrs | kwdPatterns | left | level
  | lower | module | msg | name | names | op | operand | ops | optionalVars | orelse | pattern
  | patterns | posonlyargs | rest | returns | right | simple | slice | step | subject | target
  | targets | test | type | upper | value | values | vararg
  deriving DecidableEq, Repr

/-- The kinds of nodes. -/
inductive Kind where
  | module
  | functionDef | asyncFunctionDef | classDef | returnStmt | deleteStmt | assign | augAssign
  | annAssign | forLoop | asyncFor | whileLoop | ifStmt | withBlock | asyncWith | matchStmt | raiseStmt
  | tryStmt | tryStar | assertStmt | importStmt | importFrom | globalStmt | nonlocalStmt | exprStmt
  | passStmt | breakStmt | continueStmt
  | boolOp | namedExpr | binOp | unaryOp | lambdaExpr | ifExp | dict | set | listComp | setComp
  | dictComp | generatorExp | await | yield | yieldFrom | compare | call | formattedValue | joinedStr
  | constant | attributeRef | subscript | starred | name | list | tuple | slice
  | comprehension | exceptHandler | arguments | arg | keyword | importName | withItem | matchCase
  | matchValue | matchSingleton | matchSequence | matchMapping | matchClass | matchStar | matchAs
  | matchOr
  | and | or | add | sub | mult | matMult | div | mod | pow | lShift | rShift | bitOr | bitXor | bitAnd
  | floorDiv | invert | not | uAdd | uSub | eq | notEq | lt | ltE | gt | gtE | is | isNot | inOp | notIn
  deriving DecidableEq, Repr

namespace Kind

def fields : Kind → List Field
  | module => [.body]
  | functionDef | asyncFunctionDef => [.name, .args, .body, .decorators, .returns]
  | classDef => [.name, .bases, .keywords, .body, .decorators]
  | returnStmt => [.value]
  | deleteStmt => [.targets]
  | assign => [.targets, .value]
  | augAssign => [.target, .op, .value]
  | annAssign => [.target, .typeHint, .value, .simple]
  | forLoop | asyncFor => [.target, .iter, .body, .orelse]
  | whileLoop => [.test, .body, .orelse]
  | ifStmt => [.test, .body, .orelse]
  | withBlock | asyncWith => [.items, .body]
  | matchStmt => [.subject, .cases]
  | raiseStmt => [.exc, .cause]
  | tryStmt | tryStar => [.body, .handlers, .orelse, .finalbody]
  | assertStmt => [.test, .msg]
  | importStmt => [.names]
  | importFrom => [.module, .names, .level]
  | globalStmt | nonlocalStmt => [.names]
  | exprStmt => [.value]
  | boolOp => [.op, .values]
  | namedExpr => [.target, .value]
  | binOp => [.left, .op, .right]
  | unaryOp => [.op, .operand]
  | lambdaExpr => [.args, .body]
  | ifExp => [.test, .body, .orelse]
  | dict => [.keys, .values]
  | set => [.elts]
  | listComp | setComp | generatorExp => [.elt, .generators]
  | dictComp => [.key, .value, .generators]
  | await | yield | yieldFrom => [.value]
  | compare => [.left, .ops, .comparators]
  | call => [.func, .args, .keywords]
  | formattedValue => [.value, .conversion, .formatSpec]
  | joinedStr => [.values]
  | constant => [.value]
  | attributeRef => [.value, .attr]
  | subscript => [.value, .slice]
  | starred => [.value]
  | name => [.id]
  | list | tuple => [.elts]
  | slice => [.lower, .upper, .step]
  | comprehension => [.target, .iter, .ifs, .isAsync]
  | exceptHandler => [.type, .name, .body]
  | arguments => [.posonlyargs, .args, .vararg, .kwonlyargs, .kwDefaults, .kwarg, .defaults]
  | arg => [.arg, .typeHint]
  | keyword => [.arg, .value]
  | importName => [.name, .asname]
  | withItem => [.contextExpr, .optionalVars]
  | matchCase => [.pattern, .guard, .body]
  | matchValue | matchSingleton => [.value]
  | matchSequence | matchOr => [.patterns]
  | matchMapping => [.keys, .patterns, .rest]
  | matchClass => [.classRef, .patterns, .kwdAttrs, .kwdPatterns]
  | matchStar => [.name]
  | matchAs => [.pattern, .name]
  | _ => []

def label : Kind → String
  | module => "Module"
  | functionDef => "FunctionDef"
  | asyncFunctionDef => "AsyncFunctionDef"
  | classDef => "ClassDef"
  | returnStmt => "Return"
  | deleteStmt => "Delete"
  | assign => "Assign"
  | augAssign => "AugAssign"
  | annAssign => "AnnAssign"
  | forLoop => "For"
  | asyncFor => "AsyncFor"
  | whileLoop => "While"
  | ifStmt => "If"
  | withBlock => "With"
  | asyncWith => "AsyncWith"
  | matchStmt => "Match"
  | raiseStmt => "Raise"
  | tryStmt => "Try"
  | tryStar => "TryStar"
  | assertStmt => "Assert"
  | importStmt => "Import"
  | importFrom => "ImportFrom"
  | globalStmt => "Global"
  | nonlocalStmt => "Nonlocal"
  | exprStmt => "Expr"
  | passStmt => "Pass"
  | breakStmt => "Break"
  | continueStmt => "Continue"
  | boolOp => "BoolOp"
  | namedExpr => "NamedExpr"
  | binOp => "BinOp"
  | unaryOp => "UnaryOp"
  | lambdaExpr => "Lambda"
  | ifExp => "IfExp"
  | dict => "Dict"
  | set => "Set"
  | listComp => "ListComp"
  | setComp => "SetComp"
  | dictComp => "DictComp"
  | generatorExp => "GeneratorExp"
  | await => "Await"
  | yield => "Yield"
  | yieldFrom => "YieldFrom"
  | compare => "Compare"
  | call => "Call"
  | formattedValue => "FormattedValue"
  | joinedStr => "JoinedStr"
  | constant => "Constant"
  | attributeRef => "Attribute"
  | subscript => "Subscript"
  | starred => "Starred"
  | name => "Name"
  | list => "List"
  | tuple => "Tuple"
  | slice => "Slice"
  | comprehension => "comprehension"
  | exceptHandler => "ExceptHandler"
  | arguments => "arguments"
  | arg => "arg"
  | keyword => "keyword"
  | importName => "alias"
  | withItem => "withitem"
  | matchCase => "match_case"
  | matchValue => "MatchValue"
  | matchSingleton => "MatchSingleton"
  | matchSequence => "MatchSequence"
  | matchMapping => "MatchMapping"
  | matchClass => "MatchClass"
  | matchStar => "MatchStar"
  | matchAs => "MatchAs"
  | matchOr => "MatchOr"
  | and => "And"
  | or => "Or"
  | add => "Add"
  | sub => "Sub"
  | mult => "Mult"
  | matMult => "MatMult"
  | div => "Div"
  | mod => "Mod"
  | pow => "Pow"
  | lShift => "LShift"
  | rShift => "RShift"
  | bitOr => "BitOr"
  | bitXor => "BitXor"
  | bitAnd => "BitAnd"
  | floorDiv => "FloorDiv"
  | invert => "Invert"
  | not => "Not"
  | uAdd => "UAdd"
  | uSub => "USub"
  | eq => "Eq"
  | notEq => "NotEq"
  | lt => "Lt"
  | ltE => "LtE"
  | gt => "Gt"
  | gtE => "GtE"
  | is => "Is"
  | isNot => "IsNot"
  | inOp => "In"
  | notIn => "NotIn"

end Kind

end ServerlessTaint.Syntax
