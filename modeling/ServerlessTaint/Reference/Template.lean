import ServerlessTaint.Text.Identifier
import ServerlessTaint.Text.Integer

/-!
# Replacement templates

The text that takes the place of a reference is a template: a backslash starts an escape, and `\g<0>`
stands for the replaced text itself. A template with a wrong escape replaces nothing.
-/

namespace ServerlessTaint.Template

/-- A part of a template: a character, or the replaced text. -/
inductive Part where
  | char (c : Char)
  | whole
  deriving DecidableEq, Repr

def octal? (c : Char) : Option Nat := if '0' ≤ c && c ≤ '7' then some (c.toNat - 48) else none

def octalValue (cs : List Char) : Nat := cs.foldl (fun n c => 8 * n + (c.toNat - 48)) 0

/-- The character of an escape by one letter. -/
def escape? : Char → Option Char
  | 'a' => some '\x07'
  | 'b' => some '\x08'
  | 'f' => some '\x0c'
  | 'n' => some '\n'
  | 'r' => some '\r'
  | 't' => some '\t'
  | 'v' => some '\x0b'
  | '\\' => some '\\'
  | _ => none

/-- The name in a group reference and what follows it. A backslash takes the next character with it. -/
def groupName : List Char → Option (List Char × List Char)
  | [] => none
  | '>' :: rest => some ([], rest)
  | '\\' :: c :: rest => do
    let (name, rest) ← groupName rest
    return ('\\' :: c :: name, rest)
  | c :: rest => do
    let (name, rest) ← groupName rest
    return (c :: name, rest)

/-- A name of a group refers to the whole match: there are no other groups. -/
def isWhole (name : List Char) : Bool :=
  !name.isEmpty && !Text.isIdentifier name && Text.parseInt? name == some 0

/-- An escape that starts with a digit: octal if it has three octal digits or starts with 0. -/
def digitEscape (c : Char) (rest : List Char) : Option (Part × List Char) :=
  if c == '0' then
    let digits := (rest.take 2).takeWhile fun d => (octal? d).isSome
    some (.char (Char.ofNat (octalValue digits % 256)), rest.drop digits.length)
  else match rest with
    | d :: e :: more =>
      if (octal? c).isSome && (octal? d).isSome && (octal? e).isSome then
        let n := octalValue [c, d, e]
        if n ≤ 0o377 then some (.char (Char.ofNat n), more) else none
      else none
    | _ => none

/-- What an escape stands for, given the characters after its backslash, and what follows it. -/
def escapeAt? (c : Char) (rest : List Char) : Option (List Part × List Char) :=
  if c == 'g' then
    match rest with
    | '<' :: rest => do
      let (name, rest) ← groupName rest
      if isWhole name then some ([.whole], rest) else none
    | _ => none
  else if c.isDigit then (digitEscape c rest).map fun (p, r) => ([p], r)
  else match escape? c with
    | some x => some ([.char x], rest)
    | none => if c.isAlpha then none else some ([.char '\\', .char c], rest)

def parse : Nat → List Char → Option (List Part)
  | 0, _ => some []
  | _, [] => some []
  | _, ['\\'] => none
  | fuel + 1, '\\' :: c :: rest => do
    let (part, rest) ← escapeAt? c rest
    let more ← parse fuel rest
    return part ++ more
  | fuel + 1, c :: rest => do
    let more ← parse fuel rest
    return .char c :: more

def ofText? (text : String) : Option (List Part) := parse (text.length + 1) text.toList

def fill (parts : List Part) (replaced : List Char) : List Char :=
  parts.flatMap fun
    | .char c => [c]
    | .whole => replaced

end ServerlessTaint.Template
