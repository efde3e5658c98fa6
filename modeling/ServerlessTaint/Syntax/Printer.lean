import ServerlessTaint.Syntax.Ast
import ServerlessTaint.Text.Quoted
import ServerlessTaint.Text.Lines

/-!
# Printing of programs

A program is printed with one line for each simple statement and each head of a compound statement,
and an empty line before each definition. Expressions that are not atoms stand in brackets, so that
no precedence is needed to read them back. Only a docstring may spread over several lines.
-/

namespace ServerlessTaint.Syntax.Printer

/-! ## Literals -/

/-- Text in the given delimiter without escapes, for places where no backslash may stand. -/
def rawText (delimiter : String) (text : String) : String := delimiter ++ text ++ delimiter

def textLiteral (nesting : Nat) (text : String) : String :=
  if nesting = 0 then Text.quoted text
  else
    let cs := text.toList
    if cs.contains '\n' then rawText "'''" text
    else if nesting < 3 && cs.contains '\'' then rawText (if cs.contains '"' then "'''" else "\"") text
    else rawText "'" text

def byteText (b : UInt8) : List Char :=
  let c := Char.ofNat b.toNat
  if c == '\'' || c == '\\' then ['\\', c]
  else if 32 ≤ b.toNat && b.toNat < 127 then [c]
  else '\\' :: 'x' :: Text.hexDigits 2 b.toNat

/-- A real number; one that is too great for the format is written as a decimal that is too great. -/
def realText : Binary64 → String
  | .infinite _ => "1e309"
  | value => value.text true

/-- The text of a literal inside the given number of formatted strings. -/
def constantText (nesting : Nat) : Constant → String
  | .none => "None"
  | .true => "True"
  | .false => "False"
  | .ellipsis => "..."
  | .str text => textLiteral nesting text
  | .bytes data => "b'" ++ String.ofList (data.flatMap byteText) ++ "'"
  | .int value => toString value
  | .float value => realText value
  | .imaginary value => realText value ++ "j"

/-- The delimiter of a formatted string inside the given number of others. -/
def delimiter : Nat → String
  | 0 => "\"\"\""
  | 1 => "'''"
  | 2 => "\""
  | _ => "'"

/-- The text of a formatted string between its parts. Braces are doubled, unless the text is part of
a format. -/
def formattedText (nesting : Nat) (inFormat : Bool) (text : String) : String :=
  String.ofList (text.toList.flatMap fun c =>
    if !inFormat && (c == '\x7b' || c == '\x7d') then [c, c]
    else if nesting = 0 then Text.quoteChar '"' c
    else [c])

def inBrackets (text : String) : String := "(" ++ text ++ ")"

def commas (texts : List String) : String := ", ".intercalate texts

def symbol : Kind → String
  | .and => "and"
  | .or => "or"
  | .add => "+"
  | .sub => "-"
  | .mult => "*"
  | .matMult => "@"
  | .div => "/"
  | .mod => "%"
  | .pow => "**"
  | .lShift => "<<"
  | .rShift => ">>"
  | .bitOr => "|"
  | .bitXor => "^"
  | .bitAnd => "&"
  | .floorDiv => "//"
  | .invert => "~"
  | .not => "not "
  | .uAdd => "+"
  | .uSub => "-"
  | .eq => "=="
  | .notEq => "!="
  | .lt => "<"
  | .ltE => "<="
  | .gt => ">"
  | .gtE => ">="
  | .is => "is"
  | .isNot => "is not"
  | .inOp => "in"
  | .notIn => "not in"
  | _ => ""

def symbolOf (tree : Ast) : String := (tree.kind?.map symbol).getD ""

def nameText (tree : Ast) : String := tree.name?.getD ""

def conversionText : Ast → String
  | .number code => if code < 0 then "" else "!" ++ String.singleton (Char.ofNat code.toNat)
  | _ => ""

/-! ## Expressions -/

abbrev ExpressionPrinter := Nat → Ast → String

def parameterText (p : ExpressionPrinter) (nesting : Nat) : Ast → String
  | .node .arg _ [name, .absent] => nameText name
  | .node .arg _ [name, hint] => nameText name ++ ": " ++ p nesting hint
  | _ => ""

/-- The parameters of a function. Defaults belong to the last of the positional ones. -/
def parametersText (p : ExpressionPrinter) (nesting : Nat) (tree : Ast) : String :=
  let parameter := parameterText p nesting
  let only := tree.itemsOf .posonlyargs
  let plain := tree.itemsOf .args
  let defaults := tree.itemsOf .defaults
  let unset := only.length + plain.length - defaults.length
  let positional := ((only ++ plain).zip
    ((List.replicate unset none) ++ defaults.map some)).map fun (a, d) =>
      match d with
      | some d => parameter a ++ "=" ++ p nesting d
      | none => parameter a
  let slash := if only.isEmpty then [] else ["/"]
  let rest := match tree.field? .vararg with
    | some (.node kind span cs) => ["*" ++ parameter (.node kind span cs)]
    | _ => if (tree.itemsOf .kwonlyargs).isEmpty then [] else ["*"]
  let keyword := ((tree.itemsOf .kwonlyargs).zip (tree.itemsOf .kwDefaults)).map fun (a, d) =>
    match d with
    | .absent => parameter a
    | d => parameter a ++ "=" ++ p nesting d
  let mapping := match tree.field? .kwarg with
    | some (.node kind span cs) => ["**" ++ parameter (.node kind span cs)]
    | _ => []
  commas (positional.take only.length ++ slash ++ positional.drop only.length ++ rest ++ keyword
    ++ mapping)

def clausesText (p : ExpressionPrinter) (nesting : Nat) (clauses : List Ast) : String :=
  String.join (clauses.map fun
    | .node .comprehension _ [target, iter, .list ifs, async] =>
      (if async == .number 1 then " async for " else " for ") ++ p nesting target ++ " in "
        ++ p nesting iter ++ String.join (ifs.map fun t => " if " ++ p nesting t)
    | _ => "")

def keywordText (p : ExpressionPrinter) (nesting : Nat) : Ast → String
  | .node .keyword _ [.name name, value] => name ++ "=" ++ p nesting value
  | .node .keyword _ [_, value] => "**" ++ p nesting value
  | _ => ""

def argumentsText (p : ExpressionPrinter) (nesting : Nat) (args keywords : List Ast) : String :=
  commas (args.map (p nesting) ++ keywords.map (keywordText p nesting))

def boundText (p : ExpressionPrinter) (nesting : Nat) : Ast → String
  | .absent => ""
  | tree => p nesting tree

/-- What stands in the brackets of a subscript. -/
def sliceText (p : ExpressionPrinter) (nesting : Nat) (tree : Ast) : String :=
  match tree with
  | .node .tuple _ [.list [item]] =>
    if item.isKind .slice then p nesting item ++ "," else p nesting tree
  | .node .tuple _ [.list items] =>
    if items.any (Ast.isKind .slice) then commas (items.map (p nesting)) else p nesting tree
  | _ => p nesting tree

/-- The parts of a formatted string, or of a format inside one. The texts of both are printed by the
same rule, apart from braces. -/
def partText (p : ExpressionPrinter) (formatOf : Ast → String) (nesting : Nat) (inFormat : Bool) :
    Ast → String
  | .node .constant _ [.literal (.str text)] => formattedText nesting inFormat text
  | .node .formattedValue _ [value, conversion, format] =>
    "\x7b" ++ inBrackets (p (nesting + 1) value) ++ conversionText conversion ++
      (match format with
       | .absent => ""
       | format => ":" ++ formatOf format) ++ "\x7d"
  | _ => ""

/-- The format of a value inside a formatted string. Formats hold values without formats of their
own. -/
def formatText (p : ExpressionPrinter) (nesting : Nat) : Ast → String
  | .node .joinedStr _ [.list parts] =>
    String.join (parts.map (partText p (fun _ => "") nesting true))
  | _ => ""

/-- An expression, printed to a depth. All but atoms stand in brackets. -/
def expressionTo : Nat → ExpressionPrinter
  | 0, _, _ => ""
  | depth + 1, nesting, tree =>
    let p := expressionTo depth
    let e := p nesting
    match tree with
    | .node .constant _ [.literal value] => constantText nesting value
    | .node .name _ [id] => nameText id
    | .node .attributeRef _ [value, attr] =>
      let number := match value.constant? with
        | some (.int _) | some (.float _) | some (.imaginary _) => true
        | _ => false
      (if number then inBrackets (e value) else e value) ++ "." ++ nameText attr
    | .node .subscript _ [value, slice] => e value ++ "[" ++ sliceText p nesting slice ++ "]"
    | .node .slice _ [lower, upper, step] =>
      boundText p nesting lower ++ ":" ++ boundText p nesting upper ++
        (match step with
         | .absent => ""
         | step => ":" ++ e step)
    | .node .call _ [func, .list args, .list keywords] =>
      e func ++ inBrackets (argumentsText p nesting args keywords)
    | .node .list _ [.list items] => "[" ++ commas (items.map e) ++ "]"
    | .node .tuple _ [.list [item]] => inBrackets (e item ++ ",")
    | .node .tuple _ [.list items] => inBrackets (commas (items.map e))
    | .node .set _ [.list items] => "\x7b" ++ commas (items.map e) ++ "\x7d"
    | .node .dict _ [.list keys, .list values] =>
      "\x7b" ++ commas ((keys.zip values).map fun
        | (.absent, value) => "**" ++ e value
        | (key, value) => e key ++ ": " ++ e value) ++ "\x7d"
    | .node .listComp _ [elt, .list clauses] => "[" ++ e elt ++ clausesText p nesting clauses ++ "]"
    | .node .setComp _ [elt, .list clauses] =>
      "\x7b" ++ e elt ++ clausesText p nesting clauses ++ "\x7d"
    | .node .dictComp _ [key, value, .list clauses] =>
      "\x7b" ++ e key ++ ": " ++ e value ++ clausesText p nesting clauses ++ "\x7d"
    | .node .generatorExp _ [elt, .list clauses] =>
      inBrackets (e elt ++ clausesText p nesting clauses)
    | .node .joinedStr _ [.list parts] =>
      "f" ++ delimiter nesting
        ++ String.join (parts.map (partText p (formatText p nesting) nesting false))
        ++ delimiter nesting
    | .node .starred _ [value] => "*" ++ e value
    | .node .boolOp _ [op, .list values] =>
      inBrackets ((" " ++ symbolOf op ++ " ").intercalate (values.map e))
    | .node .namedExpr _ [target, value] => inBrackets (e target ++ " := " ++ e value)
    | .node .binOp _ [left, op, right] => inBrackets (e left ++ " " ++ symbolOf op ++ " " ++ e right)
    | .node .unaryOp _ [op, operand] => inBrackets (symbolOf op ++ e operand)
    | .node .lambdaExpr _ [arguments, body] =>
      inBrackets ("lambda " ++ parametersText p nesting arguments ++ ": " ++ e body)
    | .node .ifExp _ [test, body, orelse] =>
      inBrackets (e body ++ " if " ++ e test ++ " else " ++ e orelse)
    | .node .await _ [value] => inBrackets ("await " ++ e value)
    | .node .yield _ [.absent] => "(yield)"
    | .node .yield _ [value] => inBrackets ("yield " ++ e value)
    | .node .yieldFrom _ [value] => inBrackets ("yield from " ++ e value)
    | .node .compare _ [left, .list ops, .list comparators] =>
      inBrackets (e left ++ String.join ((ops.zip comparators).map fun (op, right) =>
        " " ++ symbolOf op ++ " " ++ e right))
    | _ => ""

def expression (tree : Ast) : String := expressionTo (tree.height + 1) 0 tree

/-! ## Statements -/

/-- The delimiter and the escaped text of a docstring. Tabs and line ends stay as they are. -/
def docstring (text : String) : String :=
  let escaped := text.toList.flatMap fun c =>
    if c == '\n' || c == '\t' then [c] else Text.quoteChar '\\' c
  let holds (d : String) : Bool := (String.ofList escaped).splitOn d |>.length |> (1 < ·)
  let free := ["\"\"\"", "'''"].filter fun d => !holds d
  let last := escaped.getLast?
  let sorted := free.filter (fun d => d.toList.head? != last) ++
    free.filter fun d => d.toList.head? == last
  match sorted with
  | d :: _ =>
    let escaped := match last with
      | some q => if d.toList.head? == last then escaped.dropLast ++ ['\\', q] else escaped
      | none => escaped
    d ++ String.ofList escaped ++ d
  | [] => Text.quoted text

/-- Lines one block deeper. Only the first character of a line that spreads over several is moved. -/
def indent (lines : List String) : List String :=
  lines.map fun line => if line.isEmpty then line else "    " ++ line

/-- An imported name. -/
def aliasText : Ast → String
  | .node .importName _ [name, .name asname] => nameText name ++ " as " ++ asname
  | .node .importName _ [name, _] => nameText name
  | _ => ""

/-- An item of a `with` statement. A tuple stands in brackets of its own. -/
def withItemText : Ast → String
  | .node .withItem _ [context, target] =>
    (if context.isKind .tuple then inBrackets (expression context) else expression context) ++
      (match target with
       | .absent => ""
       | target => " as " ++ expression target)
  | _ => ""

def wordAnd (word : String) : Ast → String
  | .absent => word
  | tree => word ++ " " ++ expression tree

abbrev StatementPrinter := Ast → List String

def blockLines (p : StatementPrinter) (body : List Ast) : List String := indent (body.flatMap p)

/-- The statements of a definition or module, whose first may be a docstring. -/
def documentedLines (p : StatementPrinter) : List Ast → List String
  | .node .exprStmt span [value] :: rest =>
    match value.text? with
    | some text => docstring text :: rest.flatMap p
    | none => (.node .exprStmt span [value] :: rest).flatMap p
  | body => body.flatMap p

def namedBlock (p : StatementPrinter) (head : String) : List Ast → List String
  | [] => []
  | body => head :: blockLines p body

/-- A conditional after its first word. A conditional alone in the other branch shares its line with
that branch. -/
def conditionalLines (p : StatementPrinter) (word : String) :
    Nat → Ast → List Ast → List Ast → List String
  | 0, _, _, _ => []
  | depth + 1, test, body, orelse =>
    (word ++ " " ++ expression test ++ ":") :: blockLines p body ++
      match orelse with
      | [.node .ifStmt _ [test, .list body, .list orelse]] =>
        conditionalLines p "elif" depth test body orelse
      | orelse => namedBlock p "else:" orelse

def handlerLines (p : StatementPrinter) : Ast → List String
  | .node .exceptHandler _ [type, name, .list body] =>
    (wordAnd "except" type ++
      (match name with
       | .name text => " as " ++ text
       | _ => "") ++ ":") :: blockLines p body
  | _ => []

/-- A definition: an empty line, its decorators, its head and its body. -/
def definitionLines (p : StatementPrinter) (decorators : List Ast) (head : String)
    (body : List Ast) : List String :=
  "" :: decorators.map (fun d => "@" ++ expression d) ++ head :: indent (documentedLines p body)

def functionHead (word : String) (name arguments returns : Ast) : String :=
  word ++ nameText name ++
    inBrackets (parametersText (expressionTo (arguments.height + 1)) 0 arguments) ++
    (match returns with
     | .absent => ""
     | tree => " -> " ++ expression tree) ++ ":"

def namesText (names : List Ast) : String := commas (names.map nameText)

def statementTo : Nat → StatementPrinter
  | 0, _ => []
  | depth + 1, tree =>
    let p := statementTo depth
    match tree with
    | .node .functionDef _ [name, arguments, .list body, .list decorators, returns] =>
      definitionLines p decorators (functionHead "def " name arguments returns) body
    | .node .asyncFunctionDef _ [name, arguments, .list body, .list decorators, returns] =>
      definitionLines p decorators (functionHead "async def " name arguments returns) body
    | .node .classDef _ [name, .list bases, .list keywords, .list body, .list decorators] =>
      let deep := (Ast.heightList (bases ++ keywords)) + 1
      let arguments := if bases.isEmpty && keywords.isEmpty then ""
        else inBrackets (argumentsText (expressionTo deep) 0 bases keywords)
      definitionLines p decorators ("class " ++ nameText name ++ arguments ++ ":") body
    | .node .returnStmt _ [value] => [wordAnd "return" value]
    | .node .deleteStmt _ [.list targets] => ["del " ++ commas (targets.map expression)]
    | .node .assign _ [.list targets, value] =>
      [String.join (targets.map fun t => expression t ++ " = ") ++ expression value]
    | .node .augAssign _ [target, op, value] =>
      [expression target ++ " " ++ symbolOf op ++ "= " ++ expression value]
    | .node .annAssign _ [target, hint, value, simple] =>
      let bare := !(target.isKind .name) || simple == .number 1
      [(if bare then expression target else inBrackets (expression target)) ++ ": " ++
        expression hint ++
        (match value with
         | .absent => ""
         | value => " = " ++ expression value)]
    | .node .forLoop _ [target, iter, .list body, .list orelse] =>
      ("for " ++ expression target ++ " in " ++ expression iter ++ ":") :: blockLines p body ++
        namedBlock p "else:" orelse
    | .node .asyncFor _ [target, iter, .list body, .list orelse] =>
      ("async for " ++ expression target ++ " in " ++ expression iter ++ ":") :: blockLines p body ++
        namedBlock p "else:" orelse
    | .node .whileLoop _ [test, .list body, .list orelse] =>
      ("while " ++ expression test ++ ":") :: blockLines p body ++ namedBlock p "else:" orelse
    | .node .ifStmt _ [test, .list body, .list orelse] =>
      conditionalLines p "if" (tree.height + 1) test body orelse
    | .node .withBlock _ [.list items, .list body] =>
      ("with " ++ commas (items.map withItemText) ++ ":") :: blockLines p body
    | .node .asyncWith _ [.list items, .list body] =>
      ("async with " ++ commas (items.map withItemText) ++ ":") :: blockLines p body
    | .node .raiseStmt _ [.absent, _] => ["raise"]
    | .node .raiseStmt _ [exc, .absent] => ["raise " ++ expression exc]
    | .node .raiseStmt _ [exc, cause] => ["raise " ++ expression exc ++ " from " ++ expression cause]
    | .node .tryStmt _ [.list body, .list handlers, .list orelse, .list final] =>
      "try:" :: blockLines p body ++ handlers.flatMap (handlerLines p) ++
        namedBlock p "else:" orelse ++ namedBlock p "finally:" final
    | .node .assertStmt _ [test, .absent] => ["assert " ++ expression test]
    | .node .assertStmt _ [test, msg] => ["assert " ++ expression test ++ ", " ++ expression msg]
    | .node .importStmt _ [.list names] => ["import " ++ commas (names.map aliasText)]
    | .node .importFrom _ [module, .list names, level] =>
      let dots := match level with
        | .number n => String.ofList (List.replicate n.toNat '.')
        | _ => ""
      ["from " ++ dots ++ nameText module ++ " import " ++ commas (names.map aliasText)]
    | .node .globalStmt _ [.list names] => ["global " ++ namesText names]
    | .node .nonlocalStmt _ [.list names] => ["nonlocal " ++ namesText names]
    | .node .exprStmt _ [value] => [expression value]
    | .node .passStmt _ _ => ["pass"]
    | .node .breakStmt _ _ => ["break"]
    | .node .continueStmt _ _ => ["continue"]
    | _ => []

/-- The text of a module: one line end after each line, and no empty line before the first. -/
def moduleText (tree : Ast) : String :=
  let lines := documentedLines (statementTo (tree.height + 1)) (tree.itemsOf .body)
  let lines := match lines with
    | "" :: rest => rest
    | lines => lines
  String.join (lines.map (· ++ "\n"))

/-- A node can be printed. There is no text for a statement that matches patterns or handles groups of
exceptions, nor for an assignment that lacks its value. -/
def hasText (tree : Ast) : Bool :=
  match tree with
  | .node .matchStmt _ _ => false
  | .node .tryStar _ _ => false
  | .node .assign _ _ => tree.field? .value != some .absent
  | _ => true

def isComplete (tree : Ast) : Bool := tree.walk.all hasText

end Printer

/-- The source text of a module, unless a node in it cannot be printed. -/
def Ast.source? (tree : Ast) : Option String :=
  if Printer.isComplete tree then some (Printer.moduleText tree) else none

end ServerlessTaint.Syntax
