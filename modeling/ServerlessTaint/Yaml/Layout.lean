import ServerlessTaint.Text.Quoted
import ServerlessTaint.Yaml.Cursor

/-!
# Layout of scalars

A written scalar is plain, quoted or a block, depending on its characters. Lines are folded at single
spaces once they are longer than the width. Characters outside printable ASCII are escaped.
-/

namespace ServerlessTaint.Yaml

/-! ## Which styles a text allows -/

/-- What matters for the choice of a style. -/
structure Analysis where
  isEmpty : Bool
  multiline : Bool
  flowPlain : Bool
  blockPlain : Bool
  single : Bool
  block : Bool
  deriving DecidableEq, Repr

/-- A line end inside a written text; a carriage return is not one. -/
def isLineEnd (c : Char) : Bool := c == '\n' || c == '\u0085' || c == ' ' || c == ' '

/-- A character that needs escapes. -/
def isSpecial (c : Char) : Bool := !(c == '\n' || (' ' ≤ c && c ≤ '~'))

/-- A character with its neighbours: the one before it, and the one after it. -/
def withNeighbours (before : Option Char) : List Char → List (Option Char × Char × Option Char)
  | [] => []
  | c :: rest => (before, c, rest.head?) :: withNeighbours (some c) rest

/-- A character makes a plain scalar impossible inside flow collections. -/
def flowMark : Option Char × Char × Option Char → Bool
  | (none, c, after) =>
    "#,[]\x7b\x7d&*!|>'\"%@\x60?:".toList.contains c || (c == '-' && endsWord after)
  | (some b, c, _) => ",?[]\x7b\x7d:".toList.contains c || (c == '#' && endsWord (some b))

/-- A character makes a plain scalar impossible in block context. -/
def blockMark : Option Char × Char × Option Char → Bool
  | (none, c, after) =>
    "#,[]\x7b\x7d&*!|>'\"%@\x60".toList.contains c ||
      ((c == '?' || c == ':' || c == '-') && endsWord after)
  | (some b, c, after) => (c == ':' && endsWord after) || (c == '#' && endsWord (some b))

/-- Two characters of the given kinds follow each other. -/
def hasPair (p q : Char → Bool) (cs : List Char) : Bool :=
  (cs.zip (cs.drop 1)).any fun (a, b) => p a && q b

/-- What the characters of a text allow. -/
def analyse (cs : List Char) : Analysis :=
  if cs.isEmpty then ⟨true, false, false, true, true, false⟩
  else
    let isSpace (c : Char) : Bool := c == ' '
    let parts := withNeighbours none cs
    let separator := cs.take 3 == ['-', '-', '-'] || cs.take 3 == ['.', '.', '.']
    let blankAt (c : Option Char) : Bool := (c.map fun c => isSpace c || isLineEnd c).getD false
    let edges := blankAt cs.head? || blankAt cs.getLast?
    let multiline := cs.any isLineEnd
    let breakSpace := hasPair isLineEnd isSpace cs
    let hard := hasPair isSpace isLineEnd cs || cs.any isSpecial
    let plain := !edges && !breakSpace && !hard && !multiline
    { isEmpty := false
      multiline := multiline
      flowPlain := plain && !separator && !parts.any flowMark
      blockPlain := plain && !separator && !parts.any blockMark
      single := !breakSpace && !hard
      block := !(cs.getLast?.map isSpace).getD false && !hard }

/-! ## Writing -/

/-- The text written so far, the column of its end, and whether the end is blank, is the indentation
of a line, or leaves the document open. -/
structure Sheet where
  out : String := ""
  column : Nat := 0
  blank : Bool := true
  indentation : Bool := true
  openEnded : Bool := false
  deriving Repr

/-- Lines longer than this are folded. -/
def width : Nat := 80

namespace Sheet

/-- Adds characters to the line. -/
def put (cs : List Char) (s : Sheet) : Sheet :=
  { s with out := s.out ++ String.ofList cs, column := s.column + cs.length }

def newline (ending : Char) (s : Sheet) : Sheet :=
  { s with out := s.out.push ending, column := 0, blank := true, indentation := true }

/-- Moves to an indentation, on a new line unless the current one is still blank there. -/
def indentTo (indent : Nat) (s : Sheet) : Sheet :=
  let s := if !s.indentation || indent < s.column || (s.column = indent && !s.blank)
    then s.newline '\n' else s
  if s.column < indent then
    { s.put (List.replicate (indent - s.column) ' ') with blank := true }
  else s

/-- Writes a mark, after a space where one is needed. `blank` says whether it counts as a blank
itself, `indentation` whether it may be part of an indentation. -/
def mark (text : String) (needsBlank blank indentation : Bool) (s : Sheet) : Sheet :=
  let data := if s.blank || !needsBlank then text.toList else ' ' :: text.toList
  { s.put data with
    blank := blank
    indentation := s.indentation && indentation
    openEnded := false }

/-- Notes that text follows on the same line. -/
def inText (s : Sheet) : Sheet := { s with blank := false, indentation := false }

end Sheet

/-! ## Runs of characters -/

/-- The kinds of runs in a text. -/
inductive Run where
  | spaces
  | breaks
  | word
  deriving DecidableEq, Repr

def runOf (c : Char) : Run :=
  if c == ' ' then .spaces else if isLineEnd c then .breaks else .word

/-- The text as runs of spaces, line ends and other characters. -/
def runs : List Char → List (Run × List Char)
  | [] => []
  | c :: rest =>
    match runs rest with
    | (kind, cs) :: more =>
      if kind = runOf c then (kind, c :: cs) :: more else (runOf c, [c]) :: (kind, cs) :: more
    | [] => [(runOf c, [c])]

/-- Writes line ends. -/
def putBreaks (cs : List Char) (s : Sheet) : Sheet := cs.foldl (fun s c => s.newline c) s

/-- Line ends between two parts of a quoted scalar; the first is doubled, since a single one would be
read as a space. -/
def putQuotedBreaks (indent : Nat) (cs : List Char) (s : Sheet) : Sheet :=
  let s := if cs.head? == some '\n' then s.newline '\n' else s
  (putBreaks cs s).indentTo indent

def putSingleRuns (indent : Nat) (split first : Bool) : List (Run × List Char) → Sheet → Sheet
  | [], s => s
  | (kind, cs) :: rest, s =>
    let s := match kind with
      | .spaces =>
        if cs.length = 1 && width < s.column && split && !first && !rest.isEmpty then s.indentTo indent
        else s.put cs
      | .breaks => putQuotedBreaks indent cs s
      | .word => s.put (cs.flatMap fun c => if c == '\'' then ['\'', '\''] else [c])
    putSingleRuns indent split false rest s

def putSingle (indent : Nat) (split : Bool) (cs : List Char) (s : Sheet) : Sheet :=
  (putSingleRuns indent split true (runs cs) (s.mark "'" true false false)).mark "'" false false false

def putPlainRuns (indent : Nat) (split : Bool) : List (Run × List Char) → Sheet → Sheet
  | [], s => s
  | (kind, cs) :: rest, s =>
    let s := match kind with
      | .spaces =>
        if cs.length = 1 && width < s.column && split then (s.indentTo indent).inText else s.put cs
      | .breaks => (putQuotedBreaks indent cs s).inText
      | .word => s.put cs
    putPlainRuns indent split rest s

/-- A plain scalar. One that is the whole document leaves its end open. -/
def putPlain (indent : Nat) (split isRoot : Bool) (cs : List Char) (s : Sheet) : Sheet :=
  let s := if isRoot then { s with openEnded := true } else s
  if cs.isEmpty then s
  else putPlainRuns indent split (runs cs) (if s.blank then s else s.put [' ']).inText

def escapeLetter? (c : Char) : Option Char :=
  [('\x00', '0'), ('\x07', 'a'), ('\x08', 'b'), ('\t', 't'), ('\n', 'n'), ('\x0b', 'v'), ('\x0c', 'f'),
   ('\r', 'r'), ('\x1b', 'e'), ('"', '"'), ('\\', '\\'), ('\u0085', 'N'), (' ', '_'),
   (' ', 'L'), (' ', 'P')].lookup c

/-- An escaped character. -/
def escapeOf (c : Char) : List Char :=
  let hex (n : Nat) : List Char := (Text.hexDigits n c.toNat).map Char.toUpper
  match escapeLetter? c with
  | some letter => ['\\', letter]
  | none =>
    if c.toNat ≤ 0xff then '\\' :: 'x' :: hex 2
    else if c.toNat ≤ 0xffff then '\\' :: 'u' :: hex 4
    else '\\' :: 'U' :: hex 8

def standsForItself (c : Char) : Bool := ' ' ≤ c && c ≤ '~' && c != '"' && c != '\\'

/-- The characters of a double-quoted scalar. `held` are those that are read and not yet written;
a line is folded before a space or after an escape, and a space at the start of a line is escaped. -/
def putDoubleChars (indent : Nat) (split first : Bool) : List Char → List Char → Sheet → Sheet
  | held, [], s => s.put held
  | held, c :: rest, s =>
    let plain := standsForItself c
    let s := if plain then s else (s.put held).put (escapeOf c)
    let held := if plain then held else []
    let reach := if plain then s.column + held.length else s.column - 1
    let fold := !first && !rest.isEmpty && (c == ' ' || !plain || held.isEmpty) && width < reach && split
    if fold then
      let s := ((s.put (held ++ ['\\'])).indentTo indent).inText
      let upcoming := if plain then some c else rest.head?
      let s := if upcoming == some ' ' then s.put ['\\'] else s
      putDoubleChars indent split false (if plain then [c] else []) rest s
    else putDoubleChars indent split false (if plain then held ++ [c] else []) rest s

def putDouble (indent : Nat) (split : Bool) (cs : List Char) (s : Sheet) : Sheet :=
  (putDoubleChars indent split true [] cs (s.mark "\"" true false false)).mark "\"" false false false

/-- The marks at the head of a block scalar: its indentation if the text starts with a blank, and
what happens to the line ends after it. -/
def blockHints (cs : List Char) : List Char :=
  let indentation := match cs.head? with
    | some c => if c == ' ' || isLineEnd c then ['2'] else []
    | none => []
  let chomping := match cs.reverse with
    | [] => []
    | last :: before =>
      if !isLineEnd last then ['-']
      else match before with
        | [] => ['+']
        | c :: _ => if isLineEnd c then ['+'] else []
  indentation ++ chomping

def putBlockHead (style : Char) (cs : List Char) (s : Sheet) : Sheet :=
  let hints := blockHints cs
  let s := s.mark (String.ofList (style :: hints)) true false false
  let s := if hints.getLast? == some '+' then { s with openEnded := true } else s
  s.newline '\n'

def putLiteralRuns (indent : Nat) : List (List Char × Bool) → Sheet → Sheet
  | [], s => s
  | (cs, isBreaks) :: rest, s =>
    let s :=
      if isBreaks then
        let s := putBreaks cs s
        if rest.isEmpty then s else s.indentTo indent
      else
        let s := { s with out := s.out ++ String.ofList cs }
        if rest.isEmpty then s.newline '\n' else s
    putLiteralRuns indent rest s

def lineRuns : List Char → List (List Char × Bool)
  | [] => []
  | c :: rest =>
    match lineRuns rest with
    | (cs, isBreaks) :: more =>
      if isBreaks = isLineEnd c then (c :: cs, isBreaks) :: more
      else ([c], isLineEnd c) :: (cs, isBreaks) :: more
    | [] => [([c], isLineEnd c)]

def putLiteral (indent : Nat) (cs : List Char) (s : Sheet) : Sheet :=
  let s := putBlockHead '|' cs s
  let s := if (cs.head?.map isLineEnd).getD true then s else s.indentTo indent
  putLiteralRuns indent (lineRuns cs) s

/-- The parts of a folded scalar. `spaced` says that the current line starts with a space, or is the
first: the line end before the next line is not doubled then. -/
def putFoldedRuns (indent : Nat) : Bool → List (Run × List Char) → Sheet → Sheet
  | _, [], s => s
  | spaced, (kind, cs) :: rest, s =>
    let next := rest.head? >>= fun (_, cs) => cs.head?
    match kind with
    | .breaks =>
      let double := !spaced && next.isSome && next != some ' ' && cs.head? == some '\n'
      let s := putBreaks cs (if double then s.newline '\n' else s)
      let s := if next.isSome then s.indentTo indent else s
      putFoldedRuns indent (next == some ' ') rest s
    | .spaces =>
      let s := if cs.length = 1 && width < s.column then s.indentTo indent else s.put cs
      putFoldedRuns indent spaced rest s
    | .word =>
      let s := s.put cs
      putFoldedRuns indent spaced rest (if rest.isEmpty then s.newline '\n' else s)

def putFolded (indent : Nat) (cs : List Char) (s : Sheet) : Sheet :=
  let s := putBlockHead '>' cs s
  match cs.head? with
  | none => s
  | some c =>
    if isLineEnd c then putFoldedRuns indent true (runs cs) s
    else putFoldedRuns indent (c == ' ') (runs cs) (s.indentTo indent)

end ServerlessTaint.Yaml
