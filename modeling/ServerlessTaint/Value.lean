import ServerlessTaint.Decimal.Binary64
import ServerlessTaint.Keyed
import ServerlessTaint.Text.Quoted

/-!
# Configuration values

A value read from a configuration file: text, a list or a map with text keys, and from some formats
also null, truth values and numbers. `inline` is the one-line form in which values are shown inside
messages and tables, `display` the same with a top-level text shown as itself.
-/

namespace ServerlessTaint

/-- A value of a configuration. -/
inductive Value where
  | null
  | bool (value : Bool)
  | int (value : Int)
  | real (value : Binary64)
  | str (value : String)
  | list (items : List Value)
  | map (entries : List (String × Value))
  deriving Inhabited

namespace Value

mutual

/-- Equality of values. -/
def decEq : (a b : Value) → Decidable (a = b)
  | .null, .null => isTrue rfl
  | .bool a, .bool b =>
    if h : a = b then isTrue (by rw [h]) else isFalse (by intro h'; injection h'; exact h ‹_›)
  | .int a, .int b =>
    if h : a = b then isTrue (by rw [h]) else isFalse (by intro h'; injection h'; exact h ‹_›)
  | .real a, .real b =>
    if h : a = b then isTrue (by rw [h]) else isFalse (by intro h'; injection h'; exact h ‹_›)
  | .str a, .str b =>
    if h : a = b then isTrue (by rw [h]) else isFalse (by intro h'; injection h'; exact h ‹_›)
  | .list as, .list bs =>
    match decEqItems as bs with
    | isTrue h => isTrue (by rw [h])
    | isFalse h => isFalse (by intro h'; injection h'; exact h ‹_›)
  | .map as, .map bs =>
    match decEqEntries as bs with
    | isTrue h => isTrue (by rw [h])
    | isFalse h => isFalse (by intro h'; injection h'; exact h ‹_›)
  | .null, .bool _ | .null, .int _ | .null, .real _ | .null, .str _ | .null, .list _ | .null, .map _
  | .bool _, .null | .bool _, .int _ | .bool _, .real _ | .bool _, .str _ | .bool _, .list _
  | .bool _, .map _ | .int _, .null | .int _, .bool _ | .int _, .real _ | .int _, .str _
  | .int _, .list _ | .int _, .map _ | .real _, .null | .real _, .bool _ | .real _, .int _
  | .real _, .str _ | .real _, .list _ | .real _, .map _ | .str _, .null | .str _, .bool _
  | .str _, .int _ | .str _, .real _ | .str _, .list _ | .str _, .map _ | .list _, .null
  | .list _, .bool _ | .list _, .int _ | .list _, .real _ | .list _, .str _ | .list _, .map _
  | .map _, .null | .map _, .bool _ | .map _, .int _ | .map _, .real _ | .map _, .str _
  | .map _, .list _ => isFalse (by intro h; cases h)

def decEqItems : (as bs : List Value) → Decidable (as = bs)
  | [], [] => isTrue rfl
  | a :: as, b :: bs =>
    match decEq a b with
    | isTrue h =>
      match decEqItems as bs with
      | isTrue hs => isTrue (by rw [h, hs])
      | isFalse hs => isFalse (by intro h'; injection h'; exact hs ‹_›)
    | isFalse h => isFalse (by intro h'; injection h'; exact h ‹_›)
  | [], _ :: _ => isFalse (by intro h; cases h)
  | _ :: _, [] => isFalse (by intro h; cases h)

def decEqEntries : (as bs : List (String × Value)) → Decidable (as = bs)
  | [], [] => isTrue rfl
  | (k, a) :: as, (k', b) :: bs =>
    if hk : k = k' then
      match decEq a b with
      | isTrue h =>
        match decEqEntries as bs with
        | isTrue hs => isTrue (by rw [hk, h, hs])
        | isFalse hs => isFalse (by intro h'; injection h'; exact hs ‹_›)
      | isFalse h => isFalse (by intro h'; injection h' with h' _; injection h'; exact h ‹_›)
    else isFalse (by intro h'; injection h' with h' _; injection h'; exact hk ‹_›)
  | [], _ :: _ => isFalse (by intro h; cases h)
  | _ :: _, [] => isFalse (by intro h; cases h)

end

instance : DecidableEq Value := decEq

/-- An integer in decimal. -/
def intText (n : Int) : String :=
  if n < 0 then "-" ++ String.ofList (Nat.toDigits 10 n.natAbs)
  else String.ofList (Nat.toDigits 10 n.natAbs)

mutual

/-- The one-line form of a value: texts quoted, lists in brackets, maps in braces. -/
def inline : Value → String
  | .null => "None"
  | .bool b => if b then "True" else "False"
  | .int n => intText n
  | .real x => x.text true
  | .str s => Text.quoted s
  | .list items => "[" ++ inlineItems items ++ "]"
  | .map entries => "\x7b" ++ inlineEntries entries ++ "\x7d"

def inlineItems : List Value → String
  | [] => ""
  | [item] => inline item
  | item :: items => inline item ++ ", " ++ inlineItems items

def inlineEntries : List (String × Value) → String
  | [] => ""
  | [(key, value)] => Text.quoted key ++ ": " ++ inline value
  | (key, value) :: entries =>
    Text.quoted key ++ ": " ++ inline value ++ ", " ++ inlineEntries entries

end

/-- The displayed form of a value: a text is shown as itself. -/
def display : Value → String
  | .str s => s
  | v => v.inline

def entry? (key : String) : Value → Option Value
  | .map entries => Keyed.find? key entries
  | _ => none

/-- The value counts as true: it is not null, false, zero or empty. -/
def isTruthy : Value → Bool
  | .null => false
  | .bool b => b
  | .int n => n != 0
  | .real x => !x.isZero
  | .str s => !s.isEmpty
  | .list items => !items.isEmpty
  | .map entries => !entries.isEmpty

def text? : Value → Option String
  | .str s => some s
  | _ => none

end Value

end ServerlessTaint
