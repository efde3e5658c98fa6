/-!
# Binary floating point numbers and their decimal texts

A 64-bit floating point number is a sign, a significand below `2 ^ 53` and a power of two. Reading
rounds a decimal to the nearest such number, ties to the even significand; writing finds the fewest
digits that read back. All arithmetic is exact, on natural numbers.
-/

namespace ServerlessTaint

/-- A floating point number of 64 bits. A finite one is `significand * 2 ^ exponent`, where the
significand is at least `2 ^ 52` unless the exponent is the least one, `-1074`. -/
inductive Binary64 where
  | nan
  | infinite (negative : Bool)
  | finite (negative : Bool) (significand : Nat) (exponent : Int)
  deriving DecidableEq, Repr, Inhabited

namespace Binary64

/-- The least exponent of a finite number. -/
def minExponent : Int := -1074

/-- The greatest exponent of a finite number. -/
def maxExponent : Int := 971

/-- The number with the other sign. -/
def negate : Binary64 → Binary64
  | .nan => .nan
  | .infinite negative => .infinite (!negative)
  | .finite negative significand exponent => .finite (!negative) significand exponent

/-- A positive fraction times `2 ^ (-e)`, as a fraction. -/
def scaleDown (num den : Nat) (e : Int) : Nat × Nat :=
  if 0 ≤ e then (num, den * Nat.pow 2 e.toNat) else (num * Nat.pow 2 (-e).toNat, den)

/-- The exponent that brings a positive fraction into the range of a full significand, or the least
exponent if that is greater. -/
def exponentFor (num den : Nat) : Int :=
  let estimate : Int := (Nat.log2 num : Int) - (Nat.log2 den : Int) - 52
  let (n, d) := scaleDown num den estimate
  let exact := if n / d < Nat.pow 2 52 then estimate - 1 else estimate
  if exact < minExponent then minExponent else exact

/-- The integer nearest to a fraction, ties to the even one. -/
def roundHalfEven (num den : Nat) : Nat :=
  let q := num / den
  let r := num % den
  if 2 * r < den then q
  else if den < 2 * r then q + 1
  else if q % 2 = 0 then q else q + 1

def ofFraction (negative : Bool) (num den : Nat) : Binary64 :=
  if num = 0 then .finite negative 0 minExponent
  else
    let e := exponentFor num den
    let (n, d) := scaleDown num den e
    let m := roundHalfEven n d
    let (m, e) := if m = Nat.pow 2 53 then (Nat.pow 2 52, e + 1) else (m, e)
    if maxExponent < e then .infinite negative else .finite negative m e

/-- The number nearest to `digits * 10 ^ power`. Powers far outside the range of finite numbers are
not computed. -/
def ofDecimal (negative : Bool) (digits : Nat) (power : Int) : Binary64 :=
  let size : Int := (Nat.toDigits 10 digits).length
  if digits = 0 then .finite negative 0 minExponent
  else if 400 < power + size then .infinite negative
  else if power + size < -400 then .finite negative 0 minExponent
  else if 0 ≤ power then ofFraction negative (digits * Nat.pow 10 power.toNat) 1
  else ofFraction negative digits (Nat.pow 10 (-power).toNat)

/-! ## The fewest digits that read back -/

def fraction (significand : Nat) (exponent : Int) : Nat × Nat :=
  if 0 ≤ exponent then (significand * Nat.pow 2 exponent.toNat, 1)
  else (significand, Nat.pow 2 (-exponent).toNat)

/-- The power of ten of the leading digit of a positive fraction. -/
def leadingPower (num den : Nat) : Int :=
  let estimate : Int :=
    ((Nat.toDigits 10 num).length : Int) - ((Nat.toDigits 10 den).length : Int)
  let reaches (p : Int) : Bool :=
    if 0 ≤ p then den * Nat.pow 10 p.toNat ≤ num else den ≤ num * Nat.pow 10 (-p).toNat
  if reaches estimate then estimate else estimate - 1

/-- The decimal with the given number of digits that is nearest to the number, if it reads back. The
result is the digits as a number and the power of ten of the last digit. -/
def withDigits? (significand : Nat) (exponent : Int) (count : Nat) : Option (Nat × Int) :=
  let (num, den) := fraction significand exponent
  let last := leadingPower num den - (count : Int) + 1
  let (n, d) := if 0 ≤ last then (num, den * Nat.pow 10 last.toNat) else (num * Nat.pow 10 (-last).toNat, den)
  let low := n / d
  let nearest := roundHalfEven n d
  let other := if nearest = low then low + 1 else low
  let readsBack (digits : Nat) : Bool :=
    ofDecimal false digits last == .finite false significand exponent
  if readsBack nearest then some (nearest, last)
  else if readsBack other then some (other, last)
  else none

/-- The fewest digits that read back, without zeros at the end. -/
def shortest (significand : Nat) (exponent : Int) : Nat × Int :=
  ((List.range 17).findSome? fun i => withDigits? significand exponent (i + 1)).getD (0, 0)

/-- Digits with a point after the first `before` of them; zeros fill up on both sides. -/
def positional (digits : List Char) (before : Int) : List Char :=
  if before ≤ 0 then
    '0' :: '.' :: List.replicate (-before).toNat '0' ++ digits
  else if (digits.length : Int) ≤ before then
    digits ++ List.replicate (before.toNat - digits.length) '0'
  else digits.take before.toNat ++ '.' :: digits.drop before.toNat

/-- An exponent: a sign and at least two digits. -/
def exponentText (e : Int) : List Char :=
  let digits := Nat.toDigits 10 e.natAbs
  'e' :: (if e < 0 then '-' else '+') :: (if digits.length < 2 then '0' :: digits else digits)

/-- The digits of a finite number without sign: positional from `1e-4` up to `1e16`, with an exponent
otherwise. -/
def magnitudeText (significand : Nat) (exponent : Int) : List Char :=
  if significand = 0 then ['0']
  else
    let (digits, last) := shortest significand exponent
    let digits := Nat.toDigits 10 digits
    let leading : Int := last + (digits.length : Int) - 1
    let digits := (digits.reverse.dropWhile (· == '0')).reverse
    if -4 ≤ leading && leading < 16 then positional digits (leading + 1)
    else
      let rest := digits.drop 1
      digits.take 1 ++ (if rest.isEmpty then [] else '.' :: rest) ++ exponentText leading

/-- The text of a number; an integral one keeps `.0` only if asked for. -/
def text (keepPoint : Bool) : Binary64 → String
  | .nan => "nan"
  | .infinite negative => if negative then "-inf" else "inf"
  | .finite negative significand exponent =>
    let digits := magnitudeText significand exponent
    let digits :=
      if keepPoint && !digits.any (fun c => c == '.' || c == 'e') then digits ++ ['.', '0']
      else digits
    String.ofList (if negative then '-' :: digits else digits)

def isZero : Binary64 → Bool
  | .finite _ significand _ => significand == 0
  | _ => false

/-- The integer that remains of a finite number when its fraction is cut off. -/
def truncate? : Binary64 → Option Int
  | .finite negative significand exponent =>
    let (num, den) := fraction significand exponent
    some (if negative then -(num / den : Nat) else (num / den : Nat))
  | _ => none

end Binary64

end ServerlessTaint
