import ServerlessTaint.Yaml.Cursor
import ServerlessTaint.Json.Reader

/-!
# Scalars

The texts of scalars in their styles: block scalars with chomping and indentation, quoted scalars
with escapes and folded lines, and plain scalars.
-/

namespace ServerlessTaint.Yaml

open Cursor

/-- The text of a scalar and the position after it. -/
structure ScannedScalar where
  text : List Char
  stop : Mark
  after : Cursor
  deriving Repr, Inhabited

/-! ## Block scalars -/

/-- What happens to the line ends after the last line of a block scalar. -/
inductive Chomping where
  | clip
  | strip
  | keep
  deriving DecidableEq, Repr

def chomping? : Option Char → Option Chomping
  | some '+' => some .keep
  | some '-' => some .strip
  | _ => none

/-- The digit of an indentation. -/
def increment? : Option Char → Option Nat
  | some c => if c.isDigit then some (c.toNat - 48) else none
  | none => none

def blockHead (c : Cursor) : Except YamlFault (Chomping × Option Nat × Cursor) := do
  let (chomping, increment, c) :=
    match chomping? c.peek? with
    | some chomping =>
      match increment? c.step.peek? with
      | some n => (chomping, some n, c.advance 2)
      | none => (chomping, none, c.step)
    | none =>
      match increment? c.peek? with
      | some n =>
        match chomping? c.step.peek? with
        | some chomping => (chomping, some n, c.advance 2)
        | none => (.clip, some n, c.step)
      | none => (.clip, none, c)
  if increment == some 0 || !endsField c.peek? then throw .malformed
  return (chomping, increment, c)

/-- Line ends before the next line of a block scalar with a known indentation. -/
def blockBreaks (indent : Nat) : Nat → Cursor → List Char × Mark × Cursor
  | 0, c => ([], c.mark, c)
  | fuel + 1, c =>
    let here := c.mark
    let c := c.skipIndent indent
    match c.lineBreak? with
    | none => ([], here, c)
    | some (b, c) =>
      let (more, stop, c) := blockBreaks indent fuel c
      (b :: more, stop, c)

/-- Line ends before the first line of a block scalar, and the widest indentation met. -/
def blockIndentation : Nat → Mark → Nat → Cursor → List Char × Nat × Mark × Cursor
  | 0, stop, width, c => ([], width, stop, c)
  | fuel + 1, stop, width, c =>
    if c.isNext ' ' then
      let c := c.step
      blockIndentation fuel stop (max width c.column) c
    else match c.lineBreak? with
      | some (b, c) =>
        let (more, width, stop, c) := blockIndentation fuel c.mark width c
        (b :: more, width, stop, c)
      | none => ([], width, stop, c)

/-- The lines of a block scalar: its text up to the end of the last line, that line's end, the line
ends after it, and the position there. -/
def blockLines (indent : Nat) (folded : Bool) :
    Nat → List Char → Mark → Cursor → List Char × Option Char × List Char × Mark × Cursor
  | 0, breaks, stop, c => ([], none, breaks, stop, c)
  | fuel + 1, breaks, stop, c =>
    if c.column = indent && c.peek?.isSome then
      let flush := !(c.peek?.map isSpaceOrTab).getD false
      let (line, c) := c.takeWhile (!isBreak ·)
      let ending := c.lineBreak?.map (·.1)
      let c := c.skipBreak
      let (breaks', stop', c) := blockBreaks indent c.rest.length.succ c
      if c.column = indent && c.peek?.isSome then
        let joint :=
          if folded && ending == some '\n' && flush && !(c.peek?.map isSpaceOrTab).getD false then
            if breaks'.isEmpty then [' '] else []
          else ending.toList
        let (more, last) := blockLines indent folded fuel breaks' stop' c
        (breaks ++ line ++ joint ++ more, last)
      else (breaks ++ line, ending, breaks', stop', c)
    else ([], none, breaks, stop, c)

/-- A block scalar after its mark. `least` is the least indentation of its lines. -/
def blockScalar (folded : Bool) (least : Nat) (c : Cursor) : Except YamlFault ScannedScalar := do
  let (chomping, increment, c) ← blockHead c
  let c ← c.ignoredLine
  let least := max least 1
  let fuel := c.rest.length + 1
  let (indent, breaks, stop, c) :=
    match increment with
    | none =>
      let (breaks, width, stop, c) := blockIndentation fuel c.mark 0 c
      (max least width, breaks, stop, c)
    | some n =>
      let indent := least + n - 1
      (indent, blockBreaks indent fuel c)
  let (text, ending, breaks, stop, c) := blockLines indent folded fuel breaks stop c
  let tail := match chomping with
    | .clip => ending.toList
    | .strip => []
    | .keep => ending.toList ++ breaks
  return ⟨text ++ tail, stop, c⟩

/-! ## Quoted scalars -/

def escapes : List (Char × Char) :=
  [('0', '\x00'), ('a', '\x07'), ('b', '\x08'), ('t', '\t'), ('\t', '\t'), ('n', '\n'), ('v', '\x0b'),
   ('f', '\x0c'), ('r', '\r'), ('e', '\x1b'), (' ', ' '), ('"', '"'), ('\\', '\\'), ('/', '/'),
   ('N', '\u0085'), ('_', '\u00a0'), ('L', '\u2028'), ('P', '\u2029')]

/-- The number of digits of an escape by code point. -/
def escapeWidth? : Char → Option Nat
  | 'x' => some 2
  | 'u' => some 4
  | 'U' => some 8
  | _ => none

def maxCodeNumber : Nat := 0x7fffffff

/-- The character with a code point. A surrogate has none of its own. -/
def charOfCode (n : Nat) : Except YamlFault Char :=
  if maxCodeNumber < n then .error .codePointTooLarge
  else if 0x10ffff < n then .error .codePointOutOfRange
  else .ok (if 0xd800 ≤ n && n ≤ 0xdfff then '\ufffd' else Char.ofNat n)

/-- The lines between two parts of a quoted scalar: one line end for each empty line. -/
def quotedBreaks : Nat → Cursor → Except YamlFault (List Char × Cursor)
  | 0, c => .ok ([], c)
  | fuel + 1, c =>
    if c.atDocumentMark then .error .malformed
    else
      let c := c.skipWhile isSpaceOrTab
      match c.lineBreak? with
      | some (b, c) => do
        let (more, c) ← quotedBreaks fuel c
        return (b :: more, c)
      | none => .ok ([], c)

/-- The escape after a backslash. -/
def escaped (c : Cursor) : Except YamlFault (List Char × Cursor) :=
  match c.peek? with
  | none => .error .malformed
  | some x =>
    match escapes.lookup x with
    | some y => .ok ([y], c.step)
    | none =>
      match escapeWidth? x with
      | some width => do
        let digits := c.step.rest.take width
        let values := digits.filterMap Json.hexValue?
        if values.length < width then throw .malformed
        let y ← charOfCode (values.foldl (fun n d => 16 * n + d) 0)
        return ([y], c.advance (width + 1))
      | none =>
        match c.lineBreak? with
        | some (_, c) => quotedBreaks (c.rest.length + 1) c
        | none => .error .malformed

def quotedWord (double : Bool) : Nat → Cursor → Except YamlFault (List Char × Cursor)
  | 0, c => .ok ([], c)
  | fuel + 1, c => do
    let special (x : Char) : Bool := x == '\'' || x == '"' || x == '\\' || isSpaceOrTab x || isBreak x
    let (plain, c) := c.takeWhile (!special ·)
    match c.rest with
    | '\'' :: '\'' :: _ =>
      if double then
        let (more, c) ← quotedWord double fuel c.step
        return (plain ++ '\'' :: more, c)
      else
        let (more, c) ← quotedWord double fuel (c.advance 2)
        return (plain ++ '\'' :: more, c)
    | x :: _ =>
      if (double && x == '\'') || (!double && (x == '"' || x == '\\')) then
        let (more, c) ← quotedWord double fuel c.step
        return (plain ++ x :: more, c)
      else if double && x == '\\' then
        let (chars, c) ← escaped c.step
        let (more, c) ← quotedWord double fuel c
        return (plain ++ chars ++ more, c)
      else return (plain, c)
    | [] => return (plain, c)

/-- The spaces or line ends between two parts of a quoted scalar. A single line end counts as a
space. -/
def quotedSpaces (c : Cursor) : Except YamlFault (List Char × Cursor) :=
  let (blanks, c) := c.takeWhile isSpaceOrTab
  match c.peek? with
  | none => .error .malformed
  | some _ =>
    match c.lineBreak? with
    | some (b, c) => do
      let (breaks, c) ← quotedBreaks (c.rest.length + 1) c
      return ((if b != '\n' then [b] else if breaks.isEmpty then [' '] else []) ++ breaks, c)
    | none => .ok (blanks, c)

def quotedParts (double : Bool) : Nat → Cursor → Except YamlFault (List Char × Cursor)
  | 0, _ => .error .malformed
  | fuel + 1, c => do
    let (word, c) ← quotedWord double (c.rest.length + 1) c
    if c.isNext (if double then '"' else '\'') then return (word, c.step)
    else
      let (spaces, c) ← quotedSpaces c
      let (more, c) ← quotedParts double fuel c
      return (word ++ spaces ++ more, c)

def quotedScalar (double : Bool) (c : Cursor) : Except YamlFault ScannedScalar := do
  let (text, c) ← quotedParts double (c.rest.length + 1) c
  return ⟨text, c.mark, c⟩

/-! ## Plain scalars -/

def isFlowMark (c : Char) : Bool :=
  c == ',' || c == '[' || c == ']' || c == '\x7b' || c == '\x7d'

/-- A plain scalar cannot go on with the first of the characters. -/
def endsPlain (inFlow : Bool) : List Char → Bool
  | [] => true
  | ':' :: rest => endsWord rest.head? || (inFlow && (rest.head?.map isFlowMark).getD false)
  | x :: _ => endsWord (some x) || (inFlow && (isFlowMark x || x == '?'))

def plainLength (inFlow : Bool) : List Char → Nat
  | [] => 0
  | x :: rest => if endsPlain inFlow (x :: rest) then 0 else plainLength inFlow rest + 1

/-- The line ends between two lines of a plain scalar; none if the document ends there. -/
def plainBreaks : Nat → Cursor → Option (List Char) × Cursor
  | 0, c => (some [], c)
  | fuel + 1, c =>
    if c.isNext ' ' then plainBreaks fuel c.step
    else match c.lineBreak? with
      | some (b, c) =>
        if c.atDocumentMark then (none, c)
        else
          let (more, c) := plainBreaks fuel c
          (more.map (b :: ·), c)
      | none => (some [], c)

/-- The blanks between two parts of a plain scalar, whether they hold a line end, and the position
after them. There are none where the scalar ends. -/
def plainSpaces (c : Cursor) : List Char × Bool × Cursor :=
  let (blanks, c) := c.takeWhile (· == ' ')
  match c.lineBreak? with
  | some (b, c) =>
    if c.atDocumentMark then ([], true, c)
    else
      match plainBreaks (c.rest.length + 1) c with
      | (none, c) => ([], true, c)
      | (some breaks, c) =>
        ((if b != '\n' then [b] else if breaks.isEmpty then [' '] else []) ++ breaks, true, c)
  | none => (blanks, false, c)

/-- The parts of a plain scalar, with the blanks that stand before the first of them. The last
component says whether a line end was read after the last part. -/
def plainParts (inFlow : Bool) (indent : Nat) :
    Nat → List Char → Bool → Mark → Cursor → List Char × Mark × Cursor × Bool
  | 0, _, broken, stop, c => ([], stop, c, broken)
  | fuel + 1, spaces, broken, stop, c =>
    let n := if c.isNext '#' then 0 else plainLength inFlow c.rest
    if n = 0 then ([], stop, c, broken)
    else
      let word := c.rest.take n
      let c := c.advance n
      let stop := c.mark
      let (blanks, broken, c) := plainSpaces c
      if blanks.isEmpty || c.isNext '#' || (!inFlow && c.column < indent) then
        (spaces ++ word, stop, c, broken)
      else
        let (more, last) := plainParts inFlow indent fuel blanks broken stop c
        (spaces ++ word ++ more, last)

/-- A plain scalar, and whether a line end was read after it. `indent` is the least indentation of
its further lines. -/
def plainScalar (inFlow : Bool) (indent : Nat) (c : Cursor) : ScannedScalar × Bool :=
  let (text, stop, after, broken) :=
    plainParts inFlow indent (c.rest.length + 1) [] false c.mark c
  (⟨text, stop, after⟩, broken)

end ServerlessTaint.Yaml
