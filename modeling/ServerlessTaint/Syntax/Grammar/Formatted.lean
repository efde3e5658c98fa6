import ServerlessTaint.Syntax.Grammar.Parse
import ServerlessTaint.Syntax.Literal

/-!
# String literals and formatted strings

Adjacent string literals are one literal. A formatted string holds expressions in braces, each with
an optional conversion and format; the expressions are read in place, as if the braces were
parentheses, so their nodes stand where they are written.
-/

namespace ServerlessTaint.Syntax

/-- A piece of a string literal: text, or the value of an expression. -/
inductive Piece where
  | text (chars : List Char)
  | value (tree : Ast)

/-- How a stretch of plain text in a formatted string ends. -/
inductive LiteralEnd where
  | finished
  | opening
  | closing
  | doubled
  deriving DecidableEq

/-- Plain text at the start of a formatted string: the text as written, how it ends, and the rest,
with a single brace still in it. Inside a format braces are not doubled. -/
def literalRun (raw nested : Bool) : List Char → Option (List Char × LiteralEnd × List Char)
  | [] => some ([], .finished, [])
  | '\\' :: c :: rest =>
    if raw then
      (literalRun raw nested (c :: rest)).map fun (s, e, r) => ('\\' :: s, e, r)
    else if c == '\x7b' || c == '\x7d' then
      (literalRun raw nested (c :: rest)).map fun (s, e, r) => ('\\' :: s, e, r)
    else (literalRun raw nested rest).map fun (s, e, r) => ('\\' :: c :: s, e, r)
  | '\x7b' :: rest =>
    match nested, rest with
    | false, '\x7b' :: rest => some (['\x7b'], .doubled, rest)
    | _, _ => some ([], .opening, '\x7b' :: rest)
  | '\x7d' :: rest =>
    match nested, rest with
    | false, '\x7d' :: rest => some (['\x7d'], .doubled, rest)
    | false, _ => none
    | true, _ => some ([], .closing, '\x7d' :: rest)
  | c :: rest => (literalRun raw nested rest).map fun (s, e, r) => (c :: s, e, r)

/-- The text of an expression in braces, after the opening brace, up to the character that ends it:
an exclamation mark, a colon, an equals sign or the closing brace. `quote` is the quote of the string
the scan is in, and whether it is a triple one; `stack` holds the open brackets; `verbatim` counts
the characters that belong to a quote or an operator seen already. -/
def expressionRun (quote : Option (Char × Bool)) (stack : List Char) :
    Nat → List Char → Option (List Char × List Char)
  | _, [] => none
  | verbatim, c :: rest =>
    let go (quote : Option (Char × Bool)) (stack : List Char) (verbatim : Nat) :=
      (expressionRun quote stack verbatim rest).map fun (s, r) => (c :: s, r)
    if c == '\\' then none
    else if 0 < verbatim then go quote stack (verbatim - 1)
    else
      let tripled := rest.take 2 == [c, c]
      match quote with
      | some (q, triple) =>
        if c != q then go quote stack 0
        else if !triple then go none stack 0
        else if tripled then go none stack 2
        else go quote stack 0
      | none =>
        if c == '\'' || c == '"' then
          if tripled then go (some (c, true)) stack 2 else go (some (c, false)) stack 0
        else if c == '(' || c == '[' || c == '\x7b' then go none (c :: stack) 0
        else if c == '#' then none
        else if stack.isEmpty && (c == '!' || c == '=' || c == '<' || c == '>') &&
            rest.head? == some '=' then go none stack 1
        else if stack.isEmpty && (c == '!' || c == ':' || c == '\x7d' || c == '=') then
          some ([], c :: rest)
        else if c == ')' || c == ']' || c == '\x7d' then
          match stack with
          | opening :: outer => if closing opening == c then go none outer 0 else none
          | [] => none
        else go none stack 0

/-- Reads an expression that stands in braces: the brackets that replace them start at the place of
the opening brace. -/
def embedded (whole : Parse Ast) (place : Position) (text : List Char) : Except Stop Ast :=
  if text.all fun c => c == ' ' || c == '\t' || c == '\n' || c == '\x0c' then
    .error (.fatal .invalid)
  else
    let lexed := lexFrom place ('(' :: text ++ [')'])
    match whole ⟨lexed.tokens, place, lexed.tokens.length, lexed.fault⟩ with
    | .ok (tree, _) => .ok tree
    | .error _ => .error (.fatal .invalid)

/-- Adjacent texts joined, empty ones left out. -/
def joinPieces : List Piece → List Piece
  | [] => []
  | .text [] :: rest => joinPieces rest
  | .text a :: rest =>
    match joinPieces rest with
    | .text b :: rest => .text (a ++ b) :: rest
    | rest => .text a :: rest
  | .value t :: rest => .value t :: joinPieces rest

def Piece.node (span : Span) : Piece → Ast
  | .text chars => .node .constant (some span) [.literal (.str (String.ofList chars))]
  | .value tree => tree

def joinedNode (span : Span) (pieces : List Piece) : Ast :=
  .node .joinedStr (some span) [.list ((joinPieces pieces).map (Piece.node span))]

def conversionCode? : Char → Option Int
  | 's' => some 115
  | 'r' => some 114
  | 'a' => some 97
  | _ => none

mutual

/-- The pieces of a formatted string from a place on, and what is left: nothing, or inside a format
the text from its closing brace on. -/
def formattedPieces (whole : Parse Ast) (raw : Bool) (span : Span) :
    Nat → Nat → Position → List Char → Except Stop (List Piece × Position × List Char)
  | 0, _, _, _ => .error (.fatal .invalid)
  | fuel + 1, level, place, cs => do
    match literalRun raw (level != 0) cs with
    | none => .error (.fatal .invalid)
    | some (written, ending, rest) =>
      let text ← match (if raw then some written else decodeText written 0) with
        | some text => pure text
        | none => .error (.fatal .invalid)
      let place := place.after (cs.take (cs.length - rest.length))
      match ending with
      | .finished | .closing => return ([.text text], place, rest)
      | .doubled =>
        let (pieces, place, rest) ← formattedPieces whole raw span fuel level place rest
        return (.text text :: pieces, place, rest)
      | .opening =>
        let (value, place, rest) ← formattedValue whole raw span fuel level place rest
        let (pieces, place, rest) ← formattedPieces whole raw span fuel level place rest
        return (.text text :: value ++ pieces, place, rest)

/-- The pieces of an expression in braces, from its opening brace on: the text of the expression if
it is followed by an equals sign, and its value. -/
def formattedValue (whole : Parse Ast) (raw : Bool) (span : Span) :
    Nat → Nat → Position → List Char → Except Stop (List Piece × Position × List Char)
  | 0, _, _, _ => .error (.fatal .invalid)
  | fuel + 1, level, place, cs => do
    if 2 ≤ level then .error (.fatal .invalid)
    else
      let body := cs.drop 1
      match expressionRun none [] 0 body with
      | none => .error (.fatal .invalid)
      | some (text, rest) =>
        let tree ← embedded whole place text
        let (shown, rest) := match rest with
          | '=' :: rest =>
            let blanks := rest.takeWhile fun c =>
              c == ' ' || (9 ≤ c.toNat && c.toNat ≤ 13)
            (some (text ++ '=' :: blanks), rest.drop blanks.length)
          | rest => (none, rest)
        let (conversion, rest) ← match rest with
          | '!' :: c :: rest =>
            match conversionCode? c with
            | some code => pure (some code, rest)
            | none => .error (.fatal .invalid)
          | '!' :: [] => .error (.fatal .invalid)
          | rest => pure (none, rest)
        let placeOf (left : List Char) : Position := place.after (cs.take (cs.length - left.length))
        let (format, rest) ← match rest with
          | ':' :: rest =>
            if rest.isEmpty then .error (.fatal .invalid)
            else
              let (pieces, _, rest) ←
                formattedPieces whole raw span fuel (level + 1) (placeOf rest) rest
              pure (some (joinedNode span pieces), rest)
          | rest => pure (none, rest)
        match rest with
        | '\x7d' :: rest =>
          let conversion : Int := match conversion, shown, format with
            | some code, _, _ => code
            | none, some _, none => 114
            | none, _, _ => -1
          let value := Ast.node .formattedValue (some span)
            [tree, .number conversion, format.getD .absent]
          let pieces := match shown with
            | some s => [.text s, .value value]
            | none => [.value value]
          return (pieces, placeOf rest, rest)
        | _ => .error (.fatal .invalid)

end

/-- What a string token is, by the letters before its quote. -/
structure StringForm where
  raw : Bool
  bytes : Bool
  formatted : Bool

/-- A string token taken apart: its form, the number of characters before its contents, and its
contents. -/
def splitString (text : List Char) : StringForm × Nat × List Char :=
  let (letters, quoted) := text.span fun c => c != '\'' && c != '"'
  let letters' := letters.map Char.toLower
  let form : StringForm :=
    ⟨letters'.contains 'r', letters'.contains 'b', letters'.contains 'f'⟩
  let width := match quoted with
    | a :: b :: c :: _ => if a == b && b == c then 3 else 1
    | _ => 1
  let contents := (quoted.drop width).take (quoted.length - 2 * width)
  (form, letters.length + width, contents)

def stringPieces (whole : Parse Ast) (span : Span) (token : Token) : Except Stop (List Piece) := do
  let chars := token.text.toList
  let (form, before, contents) := splitString chars
  if form.formatted then
    let place := token.start.after (chars.take before)
    let (pieces, _, _) ←
      formattedPieces whole form.raw span (2 * contents.length + 2) 0 place contents
    return pieces
  else
    match (if form.raw then some contents else decodeText contents 0) with
    | some text => return [.text text]
    | none => .error (.fatal .invalid)

def stringBytes (token : Token) : Except Stop (List UInt8) :=
  let (form, _, contents) := splitString token.text.toList
  if !contents.all (·.toNat < 128) then .error (.fatal .invalid)
  else if form.raw then .ok (contents.map fun c => c.toNat.toUInt8)
  else match decodeBytes contents 0 with
    | some bytes => .ok bytes
    | none => .error (.fatal .invalid)

/-- The literal that adjacent string tokens denote. Text and bytes do not mix. -/
def stringLiteral (whole : Parse Ast) (span : Span) (tokens : List Token) : Except Stop Ast := do
  let forms := tokens.map fun t => (splitString t.text.toList).1
  if forms.all (·.bytes) then
    let bytes ← tokens.mapM stringBytes
    return .node .constant (some span) [.literal (.bytes bytes.flatten)]
  else if forms.any (·.bytes) then .error (.fatal .invalid)
  else
    let pieces := (← tokens.mapM (stringPieces whole span)).flatten
    if forms.any (·.formatted) then return joinedNode span pieces
    else
      let chars := pieces.flatMap fun
        | .text cs => cs
        | .value _ => []
      return .node .constant (some span) [.literal (.str (String.ofList chars))]

def stringAtom (whole : Parse Ast) : Parse Ast := do
  let start ← Parse.here
  let first ← Parse.ofClass .string
  let rest ← Parse.many (Parse.ofClass .string)
  fun c =>
    match stringLiteral whole ⟨start, c.last⟩ (first :: rest) with
    | .ok tree => .ok (tree, c)
    | .error stop => .error stop

end ServerlessTaint.Syntax
