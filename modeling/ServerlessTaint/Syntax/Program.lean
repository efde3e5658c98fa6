import ServerlessTaint.Syntax.Grammar.Statement

/-!
# Programs

Reading of whole source texts: modules and single expressions.
-/

namespace ServerlessTaint.Syntax

/-- The fault that a failed parse shows: lines that are indented where no block opens are a fault of
indentation, and a missing block gives way to a later text that cannot be split into tokens. -/
def Stop.fault (tokens : List Token) (lexFault : Option SyntaxFault) : Stop → SyntaxFault
  | .fatal fault =>
    if fault == .indentation && lexFault == some .invalid then .invalid else fault
  | .noMatch left =>
    match (tokens.drop (tokens.length - left)).head? with
    | some t => if t.cls == .indent || t.cls == .dedent then .indentation else .invalid
    | none => lexFault.getD .invalid

def runParse {α : Type} (split : List Char → Lexed) (text : String) (step : Nat → Parse α) :
    Except SyntaxFault α :=
  let cs := text.toList
  if cs.contains '\x00' then .error .invalid
  else
    let lexed := split cs
    match step (4 * cs.length + 64)
        ⟨lexed.tokens, ⟨1, 0⟩, lexed.tokens.length, lexed.fault⟩ with
    | .ok (a, _) => .ok a
    | .error stop => .error (stop.fault lexed.tokens lexed.fault)

def parseModule (text : String) : Except SyntaxFault Ast :=
  runParse lex text fun depth => do
    let statements ← Parse.many (rules depth .statements)
    let _ ← Parse.ofClass .endOfText
    return .node .module none [.list (statements.flatMap Ast.items)]

def parseExpression (text : String) : Except SyntaxFault Ast :=
  runParse (lexFrom ⟨1, 0⟩) text fun depth => do
    let tree ← tupleOf (rules depth .expression)
    let _ ← Parse.many (Parse.ofClass .newline)
    let _ ← Parse.ofClass .endOfText
    return tree

end ServerlessTaint.Syntax
