import ServerlessTaint.Syntax.Token
import ServerlessTaint.Text.Lines
import ServerlessTaint.Text.Printable

/-!
# From source text to tokens

The lexer reads the text line by line. At the start of a logical line it compares the indentation
with the enclosing blocks; inside brackets lines and indentation do not count. Tabs reach to the next
multiple of eight columns, and the comparison must come out the same if they count as one column.
-/

namespace ServerlessTaint.Syntax

/-- The deepest nesting of brackets. -/
def maxBrackets : Nat := 200

/-- The number of indentation levels, the outermost included, that is not reached. -/
def maxIndents : Nat := 100

/-! ## Single tokens -/

def isWordLike (c : Char) : Bool := c.isAlphanum || c == '_' || 128 ≤ c.toNat

/-- Digits in which single underscores stand only between digits: the digits read and the rest.
An underscore without a digit after it is an error. -/
def digitTail (isDigit : Char → Bool) : List Char → Option (List Char × List Char)
  | '_' :: d :: rest =>
    if isDigit d then (digitTail isDigit rest).map fun (ds, r) => ('_' :: d :: ds, r) else none
  | ['_'] => none
  | c :: rest =>
    if isDigit c then (digitTail isDigit rest).map fun (ds, r) => (c :: ds, r)
    else some ([], c :: rest)
  | [] => some ([], [])

/-- What may follow a number directly: no word, except a word that can follow an operand. -/
def mayFollowNumber (cs : List Char) : Bool :=
  match cs with
  | 'a' :: 'n' :: 'd' :: _ | 'e' :: 'l' :: 's' :: 'e' :: _ | 'f' :: 'o' :: 'r' :: _
  | 'i' :: 'f' :: _ | 'i' :: 'n' :: _ | 'i' :: 's' :: _ | 'o' :: 'r' :: _
  | 'n' :: 'o' :: 't' :: _ => true
  | c :: _ => !isWordLike c
  | [] => true

def endNumber (read rest : List Char) : Option (List Char × List Char) :=
  if mayFollowNumber rest then some (read, rest) else none

/-- The mark of an imaginary number, or the end of a number. -/
def imaginaryTail (read : List Char) : List Char → Option (List Char × List Char)
  | 'j' :: rest => endNumber (read ++ ['j']) rest
  | 'J' :: rest => endNumber (read ++ ['J']) rest
  | rest => endNumber read rest

/-- The exponent of a number and what follows it. An `e` that no digits follow may start a word that
can follow an operand. -/
def exponentTail (read : List Char) (cs : List Char) : Option (List Char × List Char) :=
  match cs with
  | e :: rest =>
    if e == 'e' || e == 'E' then
      match rest with
      | s :: d :: _ =>
        if s == '+' || s == '-' then
          if d.isDigit then do
            let (ds, rest) ← digitTail Char.isDigit (rest.drop 1)
            imaginaryTail (read ++ e :: s :: ds) rest
          else none
        else if s.isDigit then do
          let (ds, rest) ← digitTail Char.isDigit rest
          imaginaryTail (read ++ e :: ds) rest
        else endNumber read cs
      | [s] =>
        if s.isDigit then do
          let (ds, rest) ← digitTail Char.isDigit rest
          imaginaryTail (read ++ e :: ds) rest
        else if s == '+' || s == '-' then none
        else endNumber read cs
      | [] => endNumber read cs
    else imaginaryTail read cs
  | [] => some (read, [])

/-- The fraction of a number, after its point, and what follows it. -/
def fractionTail (read : List Char) (cs : List Char) : Option (List Char × List Char) :=
  match cs with
  | d :: _ =>
    if d.isDigit then do
      let (ds, rest) ← digitTail Char.isDigit cs
      exponentTail (read ++ ds) rest
    else exponentTail read cs
  | [] => some (read, [])

/-- A number with a base: its digits after the mark of the base. -/
def basedNumber (read : List Char) (isDigit : Char → Bool) (cs : List Char) :
    Option (List Char × List Char) :=
  match cs with
  | c :: rest =>
    if isDigit c || (c == '_' && (rest.head?.map isDigit).getD false) then do
      let (ds, rest) ← digitTail isDigit cs
      match rest with
      | d :: _ => if d.isDigit then none else endNumber (read ++ ds) rest
      | [] => endNumber (read ++ ds) rest
    else none
  | [] => none

def isHexDigit (c : Char) : Bool :=
  c.isDigit || ('a' ≤ c && c ≤ 'f') || ('A' ≤ c && c ≤ 'F')

/-- A number at the start of a text that begins with a digit. A decimal integer with leading zeros
is zero. -/
def scanNumber (cs : List Char) : Option (List Char × List Char) :=
  match cs with
  | '0' :: x :: rest =>
    if x == 'x' || x == 'X' then basedNumber ['0', x] isHexDigit rest
    else if x == 'o' || x == 'O' then basedNumber ['0', x] (fun c => '0' ≤ c && c ≤ '7') rest
    else if x == 'b' || x == 'B' then basedNumber ['0', x] (fun c => c == '0' || c == '1') rest
    else do
      let (ds, rest) ← digitTail Char.isDigit (x :: rest)
      let read := '0' :: ds
      match rest with
      | '.' :: rest => fractionTail (read ++ ['.']) rest
      | c :: _ =>
        if c == 'e' || c == 'E' then exponentTail read rest
        else if c == 'j' || c == 'J' then imaginaryTail read rest
        else if ds.any fun d => d != '0' && d != '_' then none
        else endNumber read rest
      | [] => if ds.any fun d => d != '0' && d != '_' then none else some (read, [])
  | _ => do
    let (ds, rest) ← digitTail Char.isDigit cs
    match rest with
    | '.' :: rest => fractionTail (ds ++ ['.']) rest
    | rest => exponentTail ds rest

/-- A string in single quotes of its kind, after the opening quote, up to and with the closing
one. -/
def shortString (quote : Char) : List Char → Option (List Char × List Char)
  | '\\' :: c :: rest => (shortString quote rest).map fun (s, r) => ('\\' :: c :: s, r)
  | c :: rest =>
    if c == quote then some ([c], rest)
    else if c == '\n' || c == '\\' then none
    else (shortString quote rest).map fun (s, r) => (c :: s, r)
  | [] => none

/-- A string in triple quotes, after the opening quotes, up to and with the closing ones. -/
def longString (quote : Char) : List Char → Option (List Char × List Char)
  | '\\' :: c :: rest => (longString quote rest).map fun (s, r) => ('\\' :: c :: s, r)
  | a :: b :: c :: rest =>
    if a == quote && b == quote && c == quote then some ([a, b, c], rest)
    else (longString quote (b :: c :: rest)).map fun (s, r) => (a :: s, r)
  | _ => none

def scanString (quote : Char) (cs : List Char) : Option (List Char × List Char) :=
  match cs with
  | a :: b :: rest =>
    if a == quote then
      if b == quote then (longString quote rest).map fun (s, r) => (a :: b :: s, r)
      else some ([a], b :: rest)
    else shortString quote cs
  | _ => shortString quote cs

def opensString (cs : List Char) : Bool :=
  ["b", "u", "r", "f", "br", "rb", "fr", "rf"].contains
    (String.ofList (cs.map Char.toLower))

/-- The operators of three characters. -/
def longOps : List String := ["**=", "//=", ">>=", "<<=", "..."]

/-- The operators of two characters. -/
def pairOps : List String :=
  ["!=", "%=", "&=", "**", "*=", "+=", "-=", "->", "//", "/=", ":=", "<<", "<=", "<>", "==", ">=",
   ">>", "@=", "^=", "|="]

/-- The operator at the start of a text. -/
def scanOp (cs : List Char) : List Char × List Char :=
  if longOps.contains (String.ofList (cs.take 3)) then cs.splitAt 3
  else if pairOps.contains (String.ofList (cs.take 2)) then cs.splitAt 2
  else cs.splitAt 1

/-! ## Lines and indentation -/

/-- What the lexer knows between two tokens. -/
structure LexState where
  rest : List Char
  place : Position
  /-- The brackets that are open, the innermost first. -/
  brackets : List Char
  /-- The indentations of the enclosing blocks, the innermost first: the columns with tabs of eight
  and of one column. -/
  indents : List (Nat × Nat)

/-- The tokens of a text, up to the place where it stops being one. -/
structure Lexed where
  tokens : List Token
  fault : Option SyntaxFault

def Lexed.push (lexed : Lexed) (tokens : List Token) : Lexed :=
  { lexed with tokens := tokens ++ lexed.tokens }

/-- No more tokens. -/
def Lexed.stop (fault : SyntaxFault) : Lexed := ⟨[], some fault⟩

/-- The indentation at the start of a line. -/
structure Indentation where
  /-- The columns with tabs of eight columns. -/
  column : Nat
  /-- The columns with tabs of one column. -/
  narrow : Nat
  /-- The columns before the first line continuation, if there is one. -/
  continued : Nat

/-- Reads the blanks at the start of a line: the indentation, the blanks and what follows them. A
backslash at the end of a line of blanks goes on with the next line. -/
def readIndentation (i : Indentation) : List Char → Option (Indentation × List Char × List Char)
  | ' ' :: rest =>
    (readIndentation { i with column := i.column + 1, narrow := i.narrow + 1 } rest).map
      fun (j, b, r) => (j, ' ' :: b, r)
  | '\t' :: rest =>
    (readIndentation { i with column := (i.column / 8 + 1) * 8, narrow := i.narrow + 1 } rest).map
      fun (j, b, r) => (j, '\t' :: b, r)
  | '\x0c' :: rest =>
    (readIndentation { i with column := 0, narrow := 0 } rest).map
      fun (j, b, r) => (j, '\x0c' :: b, r)
  | '\\' :: rest =>
    let i := { i with continued := if i.continued = 0 then i.column else i.continued }
    match rest with
    | '\n' :: c :: rest =>
      (readIndentation i (c :: rest)).map fun (j, b, r) => (j, '\\' :: '\n' :: b, r)
    | _ => none
  | rest => some (i, [], rest)

def Token.mark (cls : TokenClass) (place : Position) : Token := ⟨cls, "", place, place⟩

/-- Compares the indentation of a line with the enclosing blocks: the marks to put before the line,
and the blocks that enclose it. -/
def indentMarks (place : Position) (column narrow : Nat) (indents : List (Nat × Nat)) :
    Except SyntaxFault (List Token × List (Nat × Nat)) :=
  match indents with
  | [] => .error .indentation
  | (top, topNarrow) :: outer =>
    if column = top then
      if narrow = topNarrow then .ok ([], indents) else .error .tabs
    else if top < column then
      if maxIndents ≤ indents.length then .error .indentation
      else if narrow ≤ topNarrow then .error .tabs
      else .ok ([.mark .indent place], (column, narrow) :: indents)
    else
      let left := indents.dropWhile fun (c, _) => column < c
      match left with
      | (c, n) :: _ =>
        if c ≠ column then .error .indentation
        else if n ≠ narrow then .error .tabs
        else .ok (List.replicate (outer.length + 1 - left.length) (.mark .dedent place), left)
      | [] => .error .indentation

def closing : Char → Char
  | '(' => ')'
  | '[' => ']'
  | _ => '\x7d'

mutual

def lexLine : Nat → LexState → Lexed
  | 0, _ => .stop .invalid
  | fuel + 1, s =>
    match readIndentation ⟨0, 0, 0⟩ s.rest with
    | none => .stop .unfinished
    | some (i, blanks, rest) =>
      let place := s.place.after blanks
      match rest with
      | '#' :: _ | '\n' :: _ =>
        let (comment, rest) := rest.span (· != '\n')
        match rest with
        | nl :: rest =>
          lexLine fuel { s with rest := rest, place := place.after (comment ++ [nl]) }
        | [] => lexLine fuel { s with rest := [], place := place.after comment }
      | _ =>
        let column := if i.continued = 0 then i.column else i.continued
        let narrow := if i.continued = 0 then i.narrow else i.continued
        match indentMarks place column narrow s.indents with
        | .error fault => .stop fault
        | .ok (marks, indents) =>
          (lexTokens fuel { s with rest := rest, place := place, indents := indents }).push marks

def lexTokens : Nat → LexState → Lexed
  | 0, _ => .stop .invalid
  | fuel + 1, s =>
    let word (cls : TokenClass) (read rest : List Char) : Lexed :=
      let stop := s.place.after read
      (lexTokens fuel { s with rest := rest, place := stop }).push
        [⟨cls, String.ofList read, s.place, stop⟩]
    let skip (read rest : List Char) : Lexed :=
      lexTokens fuel { s with rest := rest, place := s.place.after read }
    match s.rest with
    | [] =>
      if s.brackets.isEmpty then ⟨[.mark .endOfText s.place], none⟩ else .stop .unfinished
    | c :: rest =>
      if c == ' ' || c == '\t' || c == '\x0c' then skip [c] rest
      else if c == '#' then
        let (comment, rest) := rest.span (· != '\n')
        skip (c :: comment) rest
      else if c == '\n' then
        if s.brackets.isEmpty then
          (lexLine fuel { s with rest := rest, place := s.place.after [c] }).push
            [.mark .newline s.place]
        else skip [c] rest
      else if c == '\\' then
        match rest with
        | '\n' :: d :: rest => skip [c, '\n'] (d :: rest)
        | _ => .stop .unfinished
      else if c.isDigit || (c == '.' && (rest.head?.map Char.isDigit).getD false) then
        let number := if c == '.' then fractionTail ['.'] rest else scanNumber s.rest
        match number with
        | some (read, rest) => word .number read rest
        | none => .stop .invalid
      else if c == '"' || c == '\'' then
        match scanString c rest with
        | some (read, rest) => word .string (c :: read) rest
        | none => .stop .invalid
      else if c.isAlpha || c == '_' || 128 ≤ c.toNat then
        let (read, rest) := s.rest.span isWordLike
        let quoted : Option (Char × List Char) := match rest with
          | q :: after =>
            if (q == '"' || q == '\'') && opensString read then some (q, after) else none
          | [] => none
        match quoted with
        | some (q, after) =>
          match scanString q after with
          | some (string, rest) => word .string (read ++ q :: string) rest
          | none => .stop .invalid
        | none =>
          if read.all (·.toNat < 128) || Text.isIdentifier read then word .name read rest
          else .stop .invalid
      else if !Text.isPrintable c then .stop .invalid
      else
        let (read, rest) := scanOp s.rest
        let stop := s.place.after read
        let token : Token := ⟨.op, String.ofList read, s.place, stop⟩
        if c == '(' || c == '[' || c == '\x7b' then
          if maxBrackets ≤ s.brackets.length then .stop .invalid
          else
            (lexTokens fuel
              { s with rest := rest, place := stop, brackets := c :: s.brackets }).push [token]
        else if c == ')' || c == ']' || c == '\x7d' then
          match s.brackets with
          | opening :: outer =>
            if closing opening == c then
              (lexTokens fuel { s with rest := rest, place := stop, brackets := outer }).push [token]
            else .stop .invalid
          | [] => .stop .invalid
        else (lexTokens fuel { s with rest := rest, place := stop }).push [token]

end

/-- The tokens of a text that starts at the given place. -/
def lexFrom (place : Position) (cs : List Char) : Lexed :=
  let cs := Text.normalizeNewlines cs
  lexLine (2 * cs.length + 3) ⟨cs, place, [], [(0, 0)]⟩

def endLine (cs : List Char) : List Char :=
  if cs.isEmpty || cs.getLast? == some '\n' then cs else cs ++ ['\n']

/-- The tokens of the source text of a module, whose last line always ends. -/
def lex (cs : List Char) : Lexed := lexFrom ⟨1, 0⟩ (endLine (Text.normalizeNewlines cs))

end ServerlessTaint.Syntax
