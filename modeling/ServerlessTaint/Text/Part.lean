/-!
# Parts of texts

Finding and replacing a part of a text.
-/

namespace ServerlessTaint.Text

/-- The text before the first place where a part stands; the whole text if it stands nowhere. -/
def before (part : List Char) : List Char → List Char
  | [] => []
  | c :: rest => if part.isPrefixOf (c :: rest) then [] else c :: before part rest

def after? (part : List Char) : List Char → Option (List Char)
  | [] => if part.isEmpty then some [] else none
  | c :: rest =>
    if part.isPrefixOf (c :: rest) then some ((c :: rest).drop part.length) else after? part rest

/-- A text with a part replaced wherever it stands. `skipped` characters belong to a place that has been
replaced. -/
def replaceFrom (part new : List Char) : Nat → List Char → List Char
  | _, [] => []
  | skipped + 1, _ :: rest => replaceFrom part new skipped rest
  | 0, c :: rest =>
    if part.isPrefixOf (c :: rest) then new ++ replaceFrom part new (part.length - 1) rest
    else c :: replaceFrom part new 0 rest

def replacePart (part new text : String) : String :=
  String.ofList (replaceFrom part.toList new.toList 0 text.toList)

end ServerlessTaint.Text
