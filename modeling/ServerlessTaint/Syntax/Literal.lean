import ServerlessTaint.Json.Reader
import ServerlessTaint.Syntax.Ast

/-!
# The values of literals

Decoding of numbers, of byte strings and of the escapes in texts. Escapes that name no character are
kept as they are written; escapes that are cut short are errors.
-/

namespace ServerlessTaint.Syntax

def hexNumber? (cs : List Char) : Option Nat :=
  cs.foldlM (fun n c => (Json.hexValue? c).map (16 * n + ·)) 0

/-- The character with a code point; surrogates have none of their own. -/
def charOfCode? (n : Nat) : Option Char :=
  if n < 0x110000 then some (Json.unitChar n) else none

def simpleEscape? : Char → Option Char
  | '\\' => some '\\'
  | '\'' => some '\''
  | '"' => some '"'
  | 'a' => some '\x07'
  | 'b' => some '\x08'
  | 'f' => some '\x0c'
  | 'n' => some '\n'
  | 'r' => some '\r'
  | 't' => some '\t'
  | 'v' => some '\x0b'
  | _ => none

def octalValue? (c : Char) : Option Nat :=
  if '0' ≤ c && c ≤ '7' then some (c.toNat - 48) else none

/-- One to three octal digits: their value and how many there are. -/
def octalEscape (cs : List Char) : Nat × Nat :=
  let digits := ((cs.take 3).takeWhile fun c => (octalValue? c).isSome).filterMap octalValue?
  (digits.foldl (fun n d => 8 * n + d) 0, digits.length)

/-- What an escape stands for: its characters, and how many characters after the backslash it is
written with. -/
def escape? (cs : List Char) : Option (List Char × Nat) :=
  match cs with
  | [] => some (['\\'], 0)
  | '\n' :: _ => some ([], 1)
  | 'x' :: rest => do
    let code ← if (rest.take 2).length = 2 then hexNumber? (rest.take 2) else none
    return ([← charOfCode? code], 3)
  | 'u' :: rest => do
    let code ← if (rest.take 4).length = 4 then hexNumber? (rest.take 4) else none
    return ([← charOfCode? code], 5)
  | 'U' :: rest => do
    let code ← if (rest.take 8).length = 8 then hexNumber? (rest.take 8) else none
    return ([← charOfCode? code], 9)
  | 'N' :: _ => none
  | c :: _ =>
    match simpleEscape? c with
    | some ch => some ([ch], 1)
    | none =>
      if (octalValue? c).isSome then
        let (code, count) := octalEscape cs
        (charOfCode? code).map fun ch => ([ch], count)
      else some (['\\', c], 1)

/-- The text of a string literal between its quotes. The second argument counts the characters that
belong to an escape read already. -/
def decodeText : List Char → Nat → Option (List Char)
  | [], _ => some []
  | _ :: rest, skip + 1 => decodeText rest skip
  | '\\' :: rest, 0 => do
    let (cs, count) ← escape? rest
    return cs ++ (← decodeText rest count)
  | c :: rest, 0 => (decodeText rest 0).map (c :: ·)

/-- The bytes that an escape in a byte string stands for, and how many characters after the backslash
it is written with. -/
def byteEscape? (cs : List Char) : Option (List UInt8 × Nat) :=
  match cs with
  | [] => none
  | '\n' :: _ => some ([], 1)
  | 'x' :: rest => do
    let code ← if (rest.take 2).length = 2 then hexNumber? (rest.take 2) else none
    return ([code.toUInt8], 3)
  | c :: _ =>
    match simpleEscape? c with
    | some ch => some ([ch.toNat.toUInt8], 1)
    | none =>
      if (octalValue? c).isSome then
        let (code, count) := octalEscape cs
        some ([code.toUInt8], count)
      else some ([92, c.toNat.toUInt8], 1)

/-- The bytes of a byte string between its quotes. -/
def decodeBytes : List Char → Nat → Option (List UInt8)
  | [], _ => some []
  | _ :: rest, skip + 1 => decodeBytes rest skip
  | '\\' :: rest, 0 => do
    let (bs, count) ← byteEscape? rest
    return bs ++ (← decodeBytes rest count)
  | c :: rest, 0 => (decodeBytes rest 0).map (c.toNat.toUInt8 :: ·)

/-! ## Numbers -/

def basedNat (base : Nat) (cs : List Char) : Nat :=
  cs.foldl (fun n c => base * n + (Json.hexValue? c).getD 0) 0

/-- The floating point number that a decimal text denotes. -/
def floatOf (cs : List Char) : Binary64 :=
  let (mantissa, exponent) := cs.span fun c => c != 'e' && c != 'E'
  let (whole, fraction) := mantissa.span (· != '.')
  let fraction := fraction.drop 1
  let power : Int := match exponent.drop 1 with
    | '-' :: ds => -(Json.natOf ds : Int)
    | '+' :: ds => Json.natOf ds
    | ds => Json.natOf ds
  Binary64.ofDecimal false (Json.natOf (whole ++ fraction)) (power - fraction.length)

def numberValue? (text : String) : Option Constant :=
  let cs := text.toList.filter (· != '_')
  match cs with
  | '0' :: 'x' :: ds | '0' :: 'X' :: ds => some (.int (basedNat 16 ds))
  | '0' :: 'o' :: ds | '0' :: 'O' :: ds => some (.int (basedNat 8 ds))
  | '0' :: 'b' :: ds | '0' :: 'B' :: ds => some (.int (basedNat 2 ds))
  | _ =>
    match cs.getLast? with
    | some 'j' | some 'J' => some (.imaginary (floatOf cs.dropLast))
    | _ =>
      if cs.any fun c => c == '.' || c == 'e' || c == 'E' then some (.float (floatOf cs))
      else if Text.maxIntegerDigits < cs.length then none
      else some (.int (Json.natOf cs))

end ServerlessTaint.Syntax
