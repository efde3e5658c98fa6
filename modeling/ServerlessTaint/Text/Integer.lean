import ServerlessTaint.Text.Blank
import ServerlessTaint.Text.Digit

/-!
# Integers written as text

An integer is written with an optional sign and decimal digits of any script, single underscores
between digits, and blanks around it. More than 4300 digits are refused.
-/

namespace ServerlessTaint.Text

def maxIntegerDigits : Nat := 4300

/-- The digit values of a run of digits in which single underscores may stand between digits. -/
def digitRun? : List Char → Option (List Nat)
  | [] => none
  | [c] => (digitValue? c).map ([·])
  | c :: '_' :: rest => do
    let value ← digitValue? c
    let values ← digitRun? rest
    return value :: values
  | c :: rest => do
    let value ← digitValue? c
    let values ← digitRun? rest
    return value :: values

/-- The number that decimal digits denote, the most significant first. -/
def ofDigits (digits : List Nat) : Nat := digits.foldl (fun n d => 10 * n + d) 0

/-- The number that a run of digits denotes. -/
def parseNat? (cs : List Char) : Option Nat := do
  let digits ← digitRun? cs
  if digits.length ≤ maxIntegerDigits then some (ofDigits digits) else none

def parseInt? (cs : List Char) : Option Int :=
  match trim cs with
  | '-' :: rest => (parseNat? rest).map fun n => -(n : Int)
  | '+' :: rest => (parseNat? rest).map fun n => (n : Int)
  | rest => (parseNat? rest).map fun n => (n : Int)

end ServerlessTaint.Text
