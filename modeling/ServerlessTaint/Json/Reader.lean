import ServerlessTaint.Text.Integer
import ServerlessTaint.Value

/-!
# Reading JSON

The reader accepts the words `NaN`, `Infinity` and `-Infinity` beside the numbers of the standard,
takes the last value of a repeated key, and refuses a byte order mark and control characters inside
strings.
-/

namespace ServerlessTaint.Json

def isSpace (c : Char) : Bool := c == ' ' || c == '\t' || c == '\n' || c == '\r'

/-- The text without the blanks at its start. -/
def skipSpace (cs : List Char) : List Char := cs.dropWhile isSpace

def hexValue? (c : Char) : Option Nat :=
  if '0' ≤ c && c ≤ '9' then some (c.toNat - 48)
  else if 'a' ≤ c && c ≤ 'f' then some (c.toNat - 87)
  else if 'A' ≤ c && c ≤ 'F' then some (c.toNat - 55)
  else none

def codeUnit? (a b c d : Char) : Option Nat := do
  let a ← hexValue? a
  let b ← hexValue? b
  let c ← hexValue? c
  let d ← hexValue? d
  return ((a * 16 + b) * 16 + c) * 16 + d

def escapeLetter? : Char → Option Char
  | '"' => some '"'
  | '\\' => some '\\'
  | '/' => some '/'
  | 'b' => some '\x08'
  | 'f' => some '\x0c'
  | 'n' => some '\n'
  | 'r' => some '\r'
  | 't' => some '\t'
  | _ => none

def surrogatePair? (high low : Nat) : Option Char :=
  if 0xD800 ≤ high && high < 0xDC00 && 0xDC00 ≤ low && low < 0xE000 then
    some (Char.ofNat (0x10000 + (high - 0xD800) * 0x400 + (low - 0xDC00)))
  else none

/-- The character of a single code unit; a surrogate that stands alone has none of its own. -/
def unitChar (unit : Nat) : Char :=
  if 0xD800 ≤ unit && unit < 0xE000 then '�' else Char.ofNat unit

/-- The characters of a string up to its closing quote, and what follows it. -/
def stringBody : List Char → Option (List Char × List Char)
  | [] => none
  | '"' :: rest => some ([], rest)
  | '\\' :: 'u' :: a :: b :: c :: d :: '\\' :: 'u' :: e :: f :: g :: h :: rest =>
    match codeUnit? a b c d with
    | none => none
    | some high =>
      match codeUnit? e f g h with
      | none => none
      | some low =>
        match surrogatePair? high low with
        | some ch => (stringBody rest).map fun (cs, r) => (ch :: cs, r)
        | none =>
          (stringBody ('\\' :: 'u' :: e :: f :: g :: h :: rest)).map fun (cs, r) =>
            (unitChar high :: cs, r)
  | '\\' :: 'u' :: a :: b :: c :: d :: rest =>
    match codeUnit? a b c d with
    | none => none
    | some unit => (stringBody rest).map fun (cs, r) => (unitChar unit :: cs, r)
  | '\\' :: e :: rest =>
    match escapeLetter? e with
    | none => none
    | some ch => (stringBody rest).map fun (cs, r) => (ch :: cs, r)
  | c :: rest =>
    if c.toNat < 32 || c == '\\' then none
    else (stringBody rest).map fun (cs, r) => (c :: cs, r)

/-- A run of ASCII digits at the start of a text. -/
def digits (cs : List Char) : List Char × List Char := cs.span Char.isDigit

def fractionPart : List Char → List Char × List Char
  | '.' :: rest =>
    let (ds, rest') := digits rest
    if ds.isEmpty then ([], '.' :: rest) else (ds, rest')
  | rest => ([], rest)

/-- The exponent part of a number: its sign and digits. -/
def exponentPart : List Char → Option (Bool × List Char) × List Char
  | c :: rest =>
    if c == 'e' || c == 'E' then
      let (negative, body) := match rest with
        | '-' :: body => (true, body)
        | '+' :: body => (false, body)
        | body => (false, body)
      let (ds, rest') := digits body
      if ds.isEmpty then (none, c :: rest) else (some (negative, ds), rest')
    else (none, c :: rest)
  | [] => (none, [])

def natOf (ds : List Char) : Nat := Text.ofDigits (ds.map fun c => c.toNat - 48)

def number? (negative : Bool) (cs : List Char) : Option (Value × List Char) :=
  let (whole, rest) := match cs with
    | '0' :: rest => (['0'], rest)
    | cs => digits cs
  if whole.isEmpty then none
  else
    let (frac, rest) := fractionPart rest
    let (exp, rest) := exponentPart rest
    if frac.isEmpty && exp.isNone then
      if Text.maxIntegerDigits < whole.length then none
      else some (.int (if negative then -(natOf whole : Int) else natOf whole), rest)
    else
      let power : Int := match exp with
        | none => 0
        | some (neg, ds) => if neg then -(natOf ds : Int) else natOf ds
      some (.real (Binary64.ofDecimal negative (natOf (whole ++ frac)) (power - frac.length)), rest)

def word? (word : String) (value : Value) (cs : List Char) : Option (Value × List Char) :=
  let w := word.toList
  if w.isPrefixOf cs then some (value, cs.drop w.length) else none

mutual

/-- A value at the start of a text. The first argument bounds the nesting. -/
def value? : Nat → List Char → Option (Value × List Char)
  | 0, _ => none
  | fuel + 1, cs =>
    match cs with
    | '"' :: rest => (stringBody rest).map fun (s, r) => (.str (String.ofList s), r)
    | '[' :: rest =>
      match skipSpace rest with
      | ']' :: rest => some (.list [], rest)
      | rest => (items? fuel rest).map fun (vs, r) => (.list vs, r)
    | '\x7b' :: rest =>
      match skipSpace rest with
      | '\x7d' :: rest => some (.map [], rest)
      | rest => (entries? fuel rest).map fun (es, r) => (.map (Keyed.ofEntries es), r)
    | 'n' :: _ => word? "null" .null cs
    | 't' :: _ => word? "true" (.bool true) cs
    | 'f' :: _ => word? "false" (.bool false) cs
    | 'N' :: _ => word? "NaN" (.real .nan) cs
    | 'I' :: _ => word? "Infinity" (.real (.infinite false)) cs
    | '-' :: 'I' :: _ => word? "-Infinity" (.real (.infinite true)) cs
    | '-' :: rest => number? true rest
    | _ => number? false cs

def items? : Nat → List Char → Option (List Value × List Char)
  | 0, _ => none
  | fuel + 1, cs => do
    let (v, rest) ← value? fuel cs
    match skipSpace rest with
    | ']' :: rest => some ([v], rest)
    | ',' :: rest => (items? fuel (skipSpace rest)).map fun (vs, r) => (v :: vs, r)
    | _ => none

def entries? : Nat → List Char → Option (List (String × Value) × List Char)
  | 0, _ => none
  | fuel + 1, cs =>
    match cs with
    | '"' :: rest => do
      let (key, rest) ← stringBody rest
      match skipSpace rest with
      | ':' :: rest => do
        let (v, rest) ← value? fuel (skipSpace rest)
        match skipSpace rest with
        | '\x7d' :: rest => some ([(String.ofList key, v)], rest)
        | ',' :: rest =>
          (entries? fuel (skipSpace rest)).map fun (es, r) => ((String.ofList key, v) :: es, r)
        | _ => none
      | _ => none
    | _ => none

end

def read? (text : String) : Option Value :=
  let cs := text.toList
  match value? (cs.length + 1) (skipSpace cs) with
  | some (v, rest) => if (skipSpace rest).isEmpty then some v else none
  | none => none

end ServerlessTaint.Json
