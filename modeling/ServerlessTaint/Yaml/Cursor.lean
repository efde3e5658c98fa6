import ServerlessTaint.Yaml.Token

/-!
# Reading positions

A cursor is the text that is left together with its place. The byte order mark takes no column.
-/

namespace ServerlessTaint.Yaml

/-- The character ends a line. -/
def isBreak (c : Char) : Bool :=
  c == '\r' || c == '\n' || c == '\u0085' || c == '\u2028' || c == '\u2029'

def isSpaceOrTab (c : Char) : Bool := c == ' ' || c == '\t'

def endsLine : Option Char → Bool
  | none => true
  | some c => isBreak c

def endsField (c : Option Char) : Bool := endsLine c || c == some ' '

/-- The end of the text or of a line, or a space or tab. -/
def endsWord (c : Option Char) : Bool := endsField c || c == some '\t'

/-- A letter or digit of ASCII, a hyphen or an underscore. -/
def isNameChar (c : Char) : Bool := c.isAlphanum || c == '-' || c == '_'

/-- A reading position. -/
structure Cursor where
  rest : List Char
  mark : Mark
  deriving Repr, Inhabited

namespace Cursor

def ofText (cs : List Char) : Cursor := ⟨cs, ⟨0, 0, 0⟩⟩

/-- The next character. -/
def peek? (c : Cursor) : Option Char := c.rest.head?

/-- The character after a number of others. -/
def peekAt? (n : Nat) (c : Cursor) : Option Char := (c.rest.drop n).head?

def isNext (x : Char) (c : Cursor) : Bool := c.peek? == some x

def column (c : Cursor) : Nat := c.mark.column

/-- The place after a character, given the character that follows it. -/
def markAfter (m : Mark) (x : Char) (following : Option Char) : Mark :=
  if isBreak x && !(x == '\r' && following == some '\n') then ⟨m.index + 1, m.line + 1, 0⟩
  else if x == '\ufeff' then { m with index := m.index + 1 }
  else { m with index := m.index + 1, column := m.column + 1 }

/-- The position one character further. -/
def step : Cursor → Cursor
  | ⟨[], m⟩ => ⟨[], m⟩
  | ⟨x :: rest, m⟩ => ⟨rest, markAfter m x rest.head?⟩

/-- The position a number of characters further. -/
def advance : Nat → Cursor → Cursor
  | 0, c => c
  | n + 1, c => advance n c.step

/-- The longest run of characters of a kind, and the position after it. -/
def takeWhile (p : Char → Bool) (c : Cursor) : List Char × Cursor :=
  let taken := c.rest.takeWhile p
  (taken, c.advance taken.length)

/-- The position after the longest run of characters of a kind. -/
def skipWhile (p : Char → Bool) (c : Cursor) : Cursor := (c.takeWhile p).2

def skipSpaces (c : Cursor) : Cursor := c.skipWhile (· == ' ')

/-- The position after spaces, at most as far as a column. -/
def skipIndent (indent : Nat) (c : Cursor) : Cursor :=
  c.advance ((c.rest.take (indent - c.column)).takeWhile (· == ' ')).length

def skipComment (c : Cursor) : Cursor :=
  if c.isNext '#' then c.skipWhile (!isBreak ·) else c

/-- A line end: what it counts as, and the position after it. -/
def lineBreak? (c : Cursor) : Option (Char × Cursor) :=
  match c.rest with
  | '\r' :: '\n' :: _ => some ('\n', c.advance 2)
  | x :: _ =>
    if x == '\u2028' || x == '\u2029' then some (x, c.step)
    else if isBreak x then some ('\n', c.step)
    else none
  | [] => none

/-- The position after the line end, if one is here. -/
def skipBreak (c : Cursor) : Cursor :=
  match c.lineBreak? with
  | some (_, c) => c
  | none => c

/-- The text starts with a mark of a document, `---` or `...`, that stands by itself. -/
def atDocumentMark (c : Cursor) : Bool :=
  let first := c.rest.take 3
  (first == ['-', '-', '-'] || first == ['.', '.', '.']) && endsWord (c.peekAt? 3)

/-- The rest of a line may hold a comment only; the position after it. -/
def ignoredLine (c : Cursor) : Except YamlFault Cursor :=
  let c := c.skipSpaces.skipComment
  if endsLine c.peek? then .ok c.skipBreak else .error .malformed

end Cursor

end ServerlessTaint.Yaml
