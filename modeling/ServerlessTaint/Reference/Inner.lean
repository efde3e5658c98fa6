import ServerlessTaint.Reference.Template
import ServerlessTaint.Text.Lines
import ServerlessTaint.Value.Access

/-!
# References into the same configuration

A text may refer to another value of its configuration by `${self:path}`, where the path names keys
with dots between. References are replaced in rounds: each round replaces the references that the
text holds at its start, and the values put in may bring new ones.
-/

namespace ServerlessTaint.Reference

def selfOpening : List Char := "$\x7bself:".toList

def isPathChar (c : Char) : Bool := Text.isWord c || c == '.' || c == '-'

def pathAt? (cs : List Char) : Option (List Char) :=
  if selfOpening.isPrefixOf cs then
    let path := (cs.drop selfOpening.length).takeWhile isPathChar
    if !path.isEmpty && (cs.drop (selfOpening.length + path.length)).head? == some '\x7d' then
      some path
    else none
  else none

/-- The paths of all references in a text, from left to right. -/
def paths : List Char → List (List Char)
  | [] => []
  | c :: rest => (pathAt? (c :: rest)).toList ++ paths rest

/-- A text starts with the given characters, where a dot stands for any character but a line end. -/
def startsLike : List Char → List Char → Bool
  | [], _ => true
  | _ :: _, [] => false
  | p :: ps, c :: cs => (if p == '.' then c != '\n' else p == c) && startsLike ps cs

/-- A text starts with a reference to a path, where a dot in the path stands for any character. -/
def refersTo (path : List Char) (cs : List Char) : Bool :=
  selfOpening.isPrefixOf cs && startsLike (path ++ ['\x7d']) (cs.drop selfOpening.length)

/-- Replaces the references to a path, after skipping a number of characters. -/
def replaceFrom (path : List Char) (parts : List Template.Part) : Nat → List Char → List Char
  | _, [] => []
  | skip + 1, _ :: rest => replaceFrom path parts skip rest
  | 0, c :: rest =>
    if refersTo path (c :: rest) then
      let length := selfOpening.length + path.length + 1
      Template.fill parts ((c :: rest).take length) ++ replaceFrom path parts (length - 1) rest
    else c :: replaceFrom path parts 0 rest

def templateAt? (config : Value) (path : List Char) : Option (List Template.Part) := do
  let keys := (Text.splitAt '.' path).map String.ofList
  let text ← (config.getAll keys).toOption >>= Value.text?
  Template.ofText? text

def replacePath (config : Value) (text : List Char) (path : List Char) : List Char :=
  match templateAt? config path with
  | some parts => replaceFrom path parts 0 text
  | none => text

/-- Replaces the references that a text holds, one path after the other. -/
def round (config : Value) (text : List Char) : List Char :=
  (paths text).foldl (replacePath config) text

/-- Replaces references in at most the given number of rounds. -/
def resolveChars (config : Value) : Nat → List Char → List Char
  | 0, text => text
  | n + 1, text => if (paths text).isEmpty then text else resolveChars config n (round config text)

/-- The number of rounds if none is given. -/
def defaultRounds : Nat := 10

/-- Replaces references in a text in at most the given number of rounds. -/
def resolveIn (config : Value) (rounds : Nat) (text : String) : String :=
  String.ofList (resolveChars config rounds text.toList)

def resolve (config : Value) (text : String) : String := resolveIn config defaultRounds text

def resolveValue (config : Value) (rounds : Nat) (v : Value) : Except Fault String :=
  v.asText.map (resolveIn config rounds)

def hasOpening : List Char → Bool
  | '$' :: '\x7b' :: _ => true
  | _ :: rest => hasOpening rest
  | [] => false

def isResolvedText (text : String) : Bool := !hasOpening text.toList

/-- A text without references, a list of such texts, or a map with such keys. -/
def isResolved : Value → Bool
  | .str s => isResolvedText s
  | .list items => items.all fun
    | .str s => isResolvedText s
    | _ => false
  | .map entries => entries.all fun e => isResolvedText e.1
  | _ => false

end ServerlessTaint.Reference
