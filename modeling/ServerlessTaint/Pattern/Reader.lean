import ServerlessTaint.Pattern

/-!
# Reading search patterns

The written form of a pattern: `.` for any character, sets in brackets, `*`, `+`, `?` and counts in
braces after what is repeated, `|` between choices, parentheses, `^` and `$` for the ends of the text,
and a backslash before classes, codes and characters that would have a meaning of their own.
-/

namespace ServerlessTaint.Pattern

/-- What is taken of a repetition: as much as possible, as little, or as much and no less. -/
inductive Manner where
  | most
  | least
  | allOrNothing
  deriving DecidableEq, Repr

/-- A part of a written pattern. -/
inductive Token where
  | one (set : CharSet)
  | anchor (a : Anchor)
  | opening
  | closing
  | bar
  | count (least : Nat) (most : Option Nat) (manner : Manner)
  deriving DecidableEq, Repr

/-! ## Escapes -/

/-- What a backslash and the characters after it stand for. -/
inductive Escape where
  | char (c : Char)
  | part (item : CharItem)
  | anchor (a : Anchor)
  deriving DecidableEq, Repr

def hexValue? (c : Char) : Option Nat :=
  if '0' ≤ c && c ≤ '9' then some (c.toNat - 48)
  else if 'a' ≤ c && c ≤ 'f' then some (c.toNat - 87)
  else if 'A' ≤ c && c ≤ 'F' then some (c.toNat - 55)
  else none

def charOfCode? (n : Nat) : Option Char := if n.isValidChar then some (Char.ofNat n) else none

/-- A character given by so many hexadecimal digits. -/
def hexEscape? (width : Nat) (cs : List Char) : Option (Escape × List Char) := do
  let digits ← (cs.take width).mapM hexValue?
  if digits.length = width then
    return (.char (← charOfCode? (digits.foldl (fun n d => 16 * n + d) 0)), cs.drop width)
  else none

/-- The character is a digit from 0 to 7. -/
def isOctal (c : Char) : Bool := '0' ≤ c && c ≤ '7'

def octalEscape? (digits rest : List Char) : Option (Escape × List Char) := do
  let n := digits.foldl (fun n d => 8 * n + (d.toNat - 48)) 0
  if n < 256 then return (.char (← charOfCode? n), rest) else none

/-- The escapes that mean the same everywhere. -/
def commonEscape? : List Char → Option (Escape × List Char)
  | [] => none
  | c :: rest =>
    match c with
    | 'd' => some (.part (.ofClass true .digit), rest)
    | 'D' => some (.part (.ofClass false .digit), rest)
    | 's' => some (.part (.ofClass true .blank), rest)
    | 'S' => some (.part (.ofClass false .blank), rest)
    | 'w' => some (.part (.ofClass true .word), rest)
    | 'W' => some (.part (.ofClass false .word), rest)
    | 'a' => some (.char '\x07', rest)
    | 'f' => some (.char '\x0c', rest)
    | 'n' => some (.char '\n', rest)
    | 'r' => some (.char '\r', rest)
    | 't' => some (.char '\t', rest)
    | 'v' => some (.char '\x0b', rest)
    | 'x' => hexEscape? 2 rest
    | 'u' => hexEscape? 4 rest
    | 'U' => hexEscape? 8 rest
    | c => if c.isAlphanum then none else some (.char c, rest)

/-- An escape outside of a set. -/
def escape? : List Char → Option (Escape × List Char)
  | 'A' :: rest => some (.anchor .start, rest)
  | 'Z' :: rest => some (.anchor .stop, rest)
  | 'b' :: rest => some (.anchor .wordEdge, rest)
  | 'B' :: rest => some (.anchor .noWordEdge, rest)
  | '0' :: rest =>
    let digits := (rest.take 2).takeWhile isOctal
    octalEscape? digits (rest.drop digits.length)
  | a :: b :: c :: rest =>
    if isOctal a && isOctal b && isOctal c then octalEscape? [a, b, c] rest
    else commonEscape? (a :: b :: c :: rest)
  | cs => commonEscape? cs

def setEscape? : List Char → Option (Escape × List Char)
  | 'b' :: rest => some (.char '\x08', rest)
  | c :: rest =>
    if isOctal c then
      let digits := ((c :: rest).take 3).takeWhile isOctal
      octalEscape? digits ((c :: rest).drop digits.length)
    else commonEscape? (c :: rest)
  | [] => none

/-! ## Sets -/

def setItem? : List Char → Option (CharItem × List Char)
  | '\\' :: rest => do
    match ← setEscape? rest with
    | (.char c, rest) => return (.range c c, rest)
    | (.part item, rest) => return (item, rest)
    | (.anchor _, _) => none
  | c :: rest => some (.range c c, rest)
  | [] => none

def rangeBetween? : CharItem → CharItem → Option CharItem
  | .range a a', .range b b' => if a = a' && b = b' && a ≤ b then some (.range a b) else none
  | _, _ => none

/-- The parts of a set up to its bracket. A bracket at the start is a part. -/
def setItems? : Nat → List CharItem → List Char → Option (List CharItem × List Char)
  | 0, _, _ => none
  | fuel + 1, items, cs =>
    match items, cs with
    | _ :: _, ']' :: rest => some (items, rest)
    | items, cs => do
      let (item, rest) ← setItem? cs
      match rest with
      | '-' :: ']' :: rest => return (items ++ [item, .range '-' '-'], rest)
      | '-' :: rest =>
        let (last, rest) ← setItem? rest
        setItems? fuel (items ++ [← rangeBetween? item last]) rest
      | rest => setItems? fuel (items ++ [item]) rest

def set? (cs : List Char) : Option (CharSet × List Char) :=
  match cs with
  | '^' :: rest => (setItems? cs.length [] rest).map fun (items, rest) => (⟨false, items⟩, rest)
  | _ => (setItems? (cs.length + 1) [] cs).map fun (items, rest) => (⟨true, items⟩, rest)

/-! ## Counts -/

def manner : List Char → Manner × List Char
  | '?' :: rest => (.least, rest)
  | '+' :: rest => (.allOrNothing, rest)
  | cs => (.most, cs)

def countToken (least : Nat) (most : Option Nat) (cs : List Char) : Token × List Char :=
  let (m, rest) := manner cs
  (.count least most m, rest)

def number? (digits : List Char) : Option Nat :=
  if digits.isEmpty then none else some (digits.foldl (fun n d => 10 * n + (d.toNat - 48)) 0)

/-- The least and the greatest number of a count in braces, after its opening brace. -/
def bounds? (cs : List Char) : Option ((Nat × Option Nat) × List Char) :=
  let low := cs.takeWhile Char.isDigit
  match cs.head?, cs.drop low.length with
  | some '\x7d', _ => none
  | _, ',' :: rest =>
    let high := rest.takeWhile Char.isDigit
    match rest.drop high.length with
    | '\x7d' :: rest => some (((number? low).getD 0, number? high), rest)
    | _ => none
  | _, '\x7d' :: rest => some (((number? low).getD 0, number? low), rest)
  | _, _ => none

/-! ## Tokens -/

def token? : List Char → Option (Token × List Char)
  | [] => none
  | '\\' :: rest => do
    match ← escape? rest with
    | (.char c, rest) => return (.one (.only c), rest)
    | (.part item, rest) => return (.one ⟨true, [item]⟩, rest)
    | (.anchor a, rest) => return (.anchor a, rest)
  | '[' :: rest => (set? rest).map fun (set, rest) => (.one set, rest)
  | '.' :: rest => some (.one .any, rest)
  | '^' :: rest => some (.anchor .start, rest)
  | '$' :: rest => some (.anchor .lastLineEnd, rest)
  | '(' :: '?' :: ':' :: rest => some (.opening, rest)
  | '(' :: '?' :: _ => none
  | '(' :: rest => some (.opening, rest)
  | ')' :: rest => some (.closing, rest)
  | '|' :: rest => some (.bar, rest)
  | '*' :: rest => some (countToken 0 none rest)
  | '+' :: rest => some (countToken 1 none rest)
  | '?' :: rest => some (countToken 0 (some 1) rest)
  | '\x7b' :: rest =>
    match bounds? rest with
    | some ((least, most), rest) => some (countToken least most rest)
    | none => some (.one (.only '\x7b'), rest)
  | c :: rest => some (.one (.only c), rest)

def tokens? : Nat → List Char → Option (List Token)
  | _, [] => some []
  | 0, _ => none
  | fuel + 1, cs => do
    let (token, rest) ← token? cs
    return token :: (← tokens? fuel rest)

/-! ## Patterns -/

/-- Whether a part can be repeated. -/
inductive Standing where
  | single
  | place
  | repeated
  deriving DecidableEq, Repr

/-- A group that is not closed yet: its finished choices and the parts of the last one. -/
structure Frame where
  choices : List Pattern
  parts : List (Pattern × Standing)
  deriving DecidableEq, Repr

namespace Frame

/-- A group with nothing in it. -/
def start : Frame := ⟨[], []⟩

/-- The last choice. -/
def current (f : Frame) : Pattern := f.parts.foldr (fun p rest => .sequence p.1 rest) .empty

def add (f : Frame) (p : Pattern) (standing : Standing) : Frame := { f with parts := f.parts ++ [(p, standing)] }

/-- Starts a new choice. -/
def split (f : Frame) : Frame := ⟨f.choices ++ [f.current], []⟩

def close (f : Frame) : Pattern := f.choices.foldr .choice f.current

/-- Repeats the last part. A place, a repetition or nothing at all cannot be repeated. -/
def repeatLast? (f : Frame) (least : Nat) (most : Option Nat) (manner : Manner) : Option Frame :=
  match f.parts.getLast? with
  | some (p, .single) =>
    if most.any (· < least) then none
    else
      let body := Pattern.repetition least most (manner != .least) p
      let whole := if manner = .allOrNothing then .best body else body
      some { f with parts := f.parts.dropLast ++ [(whole, .repeated)] }
  | _ => none

end Frame

/-- The innermost group after one more token, and the groups around it. -/
def step? : Frame × List Frame → Token → Option (Frame × List Frame)
  | (f, outer), .one set => some (f.add (.one set) .single, outer)
  | (f, outer), .anchor a => some (f.add (.anchor a) .place, outer)
  | (f, outer), .opening => some (.start, f :: outer)
  | (f, g :: outer), .closing => some (g.add f.close .single, outer)
  | (_, []), .closing => none
  | (f, outer), .bar => some (f.split, outer)
  | (f, outer), .count least most manner => (f.repeatLast? least most manner).map fun f => (f, outer)

def read? (text : String) : Option Pattern := do
  let tokens ← tokens? text.length text.toList
  match ← tokens.foldlM step? (Frame.start, []) with
  | (f, []) => return f.close
  | (_, _ :: _) => none

end ServerlessTaint.Pattern
