import ServerlessTaint.Text.Lines

/-!
# Path texts

Operations on paths as texts, with `/` between the parts.
-/

namespace ServerlessTaint.Path

/-- The place of the last `/`, counted from 1; 0 if there is none. -/
def lastSlash (cs : List Char) : Nat := cs.length - (cs.reverse.takeWhile (· != '/')).length

/-- The part before the last `/`, without slashes at its end unless it has nothing else. -/
def folder (path : String) : String :=
  let cs := path.toList
  let head := cs.take (lastSlash cs)
  if head.all (· == '/') then String.ofList head
  else String.ofList (head.reverse.dropWhile (· == '/')).reverse

/-- The part after the last `/`. -/
def leaf (path : String) : String :=
  let cs := path.toList
  String.ofList (cs.drop (lastSlash cs))

/-- A path below a folder. An absolute path stands for itself. -/
def join (folder path : String) : String :=
  if path.toList.head? == some '/' then path
  else if folder.isEmpty || folder.toList.getLast? == some '/' then folder ++ path
  else folder ++ "/" ++ path

/-- The place of the dot before the extension, counted from the start: the last dot of the last part,
if something other than dots stands before it. -/
def dotPlace? (cs : List Char) : Option Nat :=
  let start := lastSlash cs
  let name := cs.drop start
  if name.contains '.' then
    let before := name.length - (name.reverse.takeWhile (· != '.')).length - 1
    if (name.take before).all (· == '.') then none else some (start + before)
  else none

/-- The extension of a path with its dot; empty if it has none. -/
def extension (path : String) : String :=
  match dotPlace? path.toList with
  | some n => String.ofList (path.toList.drop n)
  | none => ""

def stem (path : String) : String :=
  match dotPlace? path.toList with
  | some n => String.ofList (path.toList.take n)
  | none => path

/-- The path without a slash at its end. A line end after the slash stays. -/
def dropFinalSlash (path : String) : String :=
  match path.toList.reverse with
  | '/' :: rest => String.ofList rest.reverse
  | '\n' :: '/' :: rest => String.ofList (rest.reverse ++ ['\n'])
  | _ => path

def parts (path : String) : List String := Text.splitString '/' path

end ServerlessTaint.Path
