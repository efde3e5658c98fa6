import ServerlessTaint.Text.Lines
import ServerlessTaint.Yaml.Node

/-!
# Tags of plain scalars

A plain scalar without a tag is a number, a truth value, a date and so on by its form. The forms are
those of YAML 1.1. A line end after the last character does not change the form.
-/

namespace ServerlessTaint.Yaml

def isDigitOrBar (c : Char) : Bool := c.isDigit || c == '_'

/-- The text without a leading sign. -/
def unsigned : List Char → List Char
  | '+' :: rest => rest
  | '-' :: rest => rest
  | cs => cs

/-- The text is a run of at least one character of a kind. -/
def isRun (p : Char → Bool) (cs : List Char) : Bool := !cs.isEmpty && cs.all p

def isDigits : List Char → Bool
  | c :: rest => c.isDigit && rest.all isDigitOrBar
  | [] => false

/-- A number below 60 of one or two digits. -/
def isSixtieth : List Char → Bool
  | [a] => a.isDigit
  | [a, b] => '0' ≤ a && a ≤ '5' && b.isDigit
  | _ => false

/-- Parts of a number in base sixty after the first. -/
def areSixtieths (parts : List (List Char)) : Bool := !parts.isEmpty && parts.all isSixtieth

def isIntForm (cs : List Char) : Bool :=
  match unsigned cs with
  | '0' :: 'b' :: rest => isRun (fun c => c == '0' || c == '1' || c == '_') rest
  | '0' :: 'x' :: rest => isRun (fun c => (Json.hexValue? c).isSome || c == '_') rest
  | ['0'] => true
  | '0' :: rest => isRun (fun c => ('0' ≤ c && c ≤ '7') || c == '_') rest
  | c :: rest =>
    '1' ≤ c && c ≤ '9' &&
      match Text.splitAt ':' rest with
      | first :: parts => first.all isDigitOrBar && (parts.isEmpty || areSixtieths parts)
      | [] => false
  | [] => false

def isExponent : List Char → Bool
  | [] => true
  | e :: sign :: digits => (e == 'e' || e == 'E') && (sign == '+' || sign == '-') &&
    isRun Char.isDigit digits
  | _ => false

def isFraction (cs : List Char) : Bool := isExponent (cs.dropWhile isDigitOrBar)

def isFloatForm (cs : List Char) : Bool :=
  let u := unsigned cs
  let whole := u.takeWhile (· != '.')
  let fraction := (u.dropWhile (· != '.')).drop 1
  let pointed := u.contains '.'
  let sixty := match Text.splitAt ':' whole with
    | first :: parts => isDigits first && areSixtieths parts && fraction.all isDigitOrBar
    | [] => false
  let leading := match cs with
    | '.' :: c :: rest => c.isDigit && isFraction rest
    | _ => false
  (pointed && (isDigits whole && isFraction fraction || sixty)) || leading
    || [".inf", ".Inf", ".INF"].contains (String.ofList u)
    || [".nan", ".NaN", ".NAN"].contains (String.ofList cs)

/-- A number of one or two digits at the start, and the rest. -/
def shortNumber? : List Char → List (List Char)
  | a :: rest =>
    if !a.isDigit then []
    else match rest with
      | b :: rest' => if b.isDigit then [rest', rest] else [rest]
      | [] => [rest]
  | [] => []

def twoDigits : List Char → List (List Char)
  | a :: b :: rest => if a.isDigit && b.isDigit then [rest] else []
  | _ => []

/-- A given character at the start. -/
def charThen (c : Char) : List Char → List (List Char)
  | x :: rest => if x == c then [rest] else []
  | [] => []

def isZone (cs : List Char) : Bool :=
  match cs.dropWhile isSpaceOrTab with
  | [] => cs.isEmpty
  | ['Z'] => true
  | sign :: rest =>
    (sign == '+' || sign == '-') && (shortNumber? rest).any fun rest =>
      rest.isEmpty || ((charThen ':' rest).flatMap twoDigits).any (·.isEmpty)

def timeStarts : List Char → List (List Char)
  | 'T' :: rest => [rest]
  | 't' :: rest => [rest]
  | c :: rest => if isSpaceOrTab c then [rest.dropWhile isSpaceOrTab] else []
  | [] => []

def isSecondsTail : List Char → Bool
  | '.' :: rest => isZone (rest.dropWhile Char.isDigit)
  | cs => isZone cs

def isTimestampForm (cs : List Char) : Bool :=
  let year := cs.take 4
  let rest := cs.drop 4
  let dated := (charThen '-' rest).flatMap twoDigits |>.flatMap (charThen '-') |>.flatMap twoDigits
  let timed := (charThen '-' rest).flatMap shortNumber? |>.flatMap (charThen '-')
    |>.flatMap shortNumber? |>.flatMap timeStarts |>.flatMap shortNumber? |>.flatMap (charThen ':')
    |>.flatMap twoDigits |>.flatMap (charThen ':') |>.flatMap twoDigits
  year.length == 4 && year.all Char.isDigit &&
    (dated.any (·.isEmpty) || timed.any isSecondsTail)

def boolWords : List String :=
  ["yes", "Yes", "YES", "no", "No", "NO", "true", "True", "TRUE", "false", "False", "FALSE", "on", "On",
   "ON", "off", "Off", "OFF"]

def nullWords : List String := ["~", "null", "Null", "NULL"]

def formTag? (cs : List Char) : Option String :=
  let word := String.ofList cs
  if boolWords.contains word then some "bool"
  else if isFloatForm cs then some "float"
  else if isIntForm cs then some "int"
  else if word == "<<" then some "merge"
  else if nullWords.contains word then some "null"
  else if isTimestampForm cs then some "timestamp"
  else if word == "=" then some "value"
  else if ["!", "&", "*"].contains word then some "yaml"
  else none

def implicitTag (text : String) : String :=
  let cs := text.toList
  if cs.isEmpty then coreTags ++ "null"
  else
    let trimmed := if cs.getLast? == some '\n' then cs.dropLast else cs
    match formTag? trimmed with
    | some name => coreTags ++ name
    | none => textTag

end ServerlessTaint.Yaml
