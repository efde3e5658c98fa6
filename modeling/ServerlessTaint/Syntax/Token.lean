import ServerlessTaint.Syntax.Ast

/-!
# Tokens of source text

A token keeps its text as written, so that literals can be decoded where they are used. The ends of
logical lines and the changes of indentation are tokens of their own.
-/

namespace ServerlessTaint.Syntax

/-- The ways in which a source text can fail to be a program: it is not of the language, it ends
inside brackets or breaks off a continued line, its lines are indented wrongly, or they mix tabs and
spaces. -/
inductive SyntaxFault where
  | invalid
  | unfinished
  | indentation
  | tabs
  deriving DecidableEq, Repr, Inhabited

/-- The classes of tokens. -/
inductive TokenClass where
  | name
  | number
  | string
  | op
  | newline
  | indent
  | dedent
  | endOfText
  deriving DecidableEq, Repr, Inhabited

/-- A token: its class, its text and its place. -/
structure Token where
  cls : TokenClass
  text : String
  start : Position
  stop : Position
  deriving Repr, Inhabited

/-- The words that are never identifiers. -/
def keywords : List String :=
  ["False", "None", "True", "and", "as", "assert", "async", "await", "break", "class", "continue",
   "def", "del", "elif", "else", "except", "finally", "for", "from", "global", "if", "import", "in",
   "is", "lambda", "nonlocal", "not", "or", "pass", "raise", "return", "try", "while", "with",
   "yield"]

def Token.isIdentifier (token : Token) : Bool :=
  token.cls == .name && !keywords.contains token.text

def Token.isOp (token : Token) (text : String) : Bool := token.cls == .op && token.text == text

def Token.isWord (token : Token) (text : String) : Bool := token.cls == .name && token.text == text

/-- The token stands for characters that can be seen, not for the layout of lines. -/
def Token.isVisible (token : Token) : Bool :=
  match token.cls with
  | .newline | .indent | .dedent | .endOfText => false
  | _ => true

/-- The place after some characters. -/
def Position.after (p : Position) (cs : List Char) : Position :=
  cs.foldl (fun p c =>
    if c == '\n' then ⟨p.line + 1, 0⟩ else ⟨p.line, p.column + c.utf8Size⟩) p

end ServerlessTaint.Syntax
