import ServerlessTaint.Text.Lines
import ServerlessTaint.Value.Access

/-!
# Resource names

An ARN names a resource of the cloud: six parts with colons between, the first of which is a fixed
word. A parameter `#{Provider::Name}` inside it is written without its marks first.
-/

namespace ServerlessTaint

/-- The parts of a resource name after the first. -/
structure ArnParts where
  division : String := ""
  service : String := ""
  region : String := ""
  accountId : String := ""
  resourceId : String := ""
  deriving DecidableEq, Repr, Inhabited

/-- A resource name with its parameters in plain form, and its parts. -/
structure Arn where
  text : String
  parts : ArnParts
  deriving DecidableEq, Repr

namespace Arn

/-- The provider and the name of a parameter at the start of a text, and its length. -/
def parameterAt? (cs : List Char) : Option (List Char × Nat) :=
  match cs with
  | '#' :: '\x7b' :: rest =>
    let provider := rest.takeWhile Text.isWord
    match rest.dropWhile Text.isWord with
    | ':' :: ':' :: rest =>
      let name := rest.takeWhile Text.isWord
      match rest.dropWhile Text.isWord with
      | '\x7d' :: _ =>
        if provider.isEmpty || name.isEmpty then none
        else some (provider ++ name, provider.length + name.length + 5)
      | _ => none
    | _ => none
  | _ => none

/-- A text with its parameters in plain form, after skipping a number of characters. -/
def sanitizeFrom : Nat → List Char → List Char
  | _, [] => []
  | skip + 1, _ :: rest => sanitizeFrom skip rest
  | 0, c :: rest =>
    match parameterAt? (c :: rest) with
    | some (text, length) => text ++ sanitizeFrom (length - 1) rest
    | none => c :: sanitizeFrom 0 rest

/-- A text with its parameters in plain form. -/
def sanitize (text : String) : String := String.ofList (sanitizeFrom 0 text.toList)

/-- The number of parts of a resource name. -/
def standardParts : Nat := 6

def split (count : Value) (text : String) : ArnParts :=
  let pieces := Text.splitString ':' text
  let fits := match count with
    | .int n => n == pieces.length
    | _ => false
  if fits then
    match pieces.drop 1 with
    | [] => {}
    | [a] => ⟨a, "", "", "", ""⟩
    | [a, b] => ⟨a, b, "", "", ""⟩
    | [a, b, c] => ⟨a, b, c, "", ""⟩
    | [a, b, c, d] => ⟨a, b, c, d, ""⟩
    | [a, b, c, d, e] => ⟨a, b, c, d, e⟩
    | _ => {}
  else {}

/-- The resource name that a text denotes, with a given number of parts. -/
def ofTextWith (count : Value) (text : String) : Arn :=
  let text := sanitize text
  ⟨text, split count text⟩

def ofText (text : String) : Arn := ofTextWith (.int standardParts) text

/-- Some part of a resource name is not empty. -/
def isValid (arn : Arn) : Bool := arn.parts != {}

end Arn

end ServerlessTaint
