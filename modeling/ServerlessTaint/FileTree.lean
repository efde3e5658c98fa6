import ServerlessTaint.Fault
import ServerlessTaint.Path
import ServerlessTaint.Yaml.Node

/-!
# Files and folders

A file tree maps places, lists of names from the root on, to files and folders. Path texts are looked
up part by part: `.` stays, `..` goes up, and every part but the last has to be a folder.
-/

namespace ServerlessTaint

/-- What stands at a place. -/
inductive Entry where
  | file (text : String)
  | folder
  deriving DecidableEq, Repr, Inhabited

/-- A place: the names on the way from the root. -/
abbrev Place := List String

/-- Files and folders by place. The root is always a folder. -/
structure FileTree where
  entries : Keyed Place Entry
  deriving Repr, Inhabited

namespace FileTree

def empty : FileTree := ⟨[]⟩

def at? (tree : FileTree) (place : Place) : Option Entry :=
  if place.isEmpty then some .folder else Keyed.find? place tree.entries

def put (place : Place) (entry : Entry) (tree : FileTree) : FileTree :=
  ⟨Keyed.set place entry tree.entries⟩

def putFoldersFrom (start : Place) : List String → FileTree → FileTree
  | [], tree => tree
  | name :: rest, tree =>
    let place := start ++ [name]
    putFoldersFrom place rest (if (tree.at? place).isSome then tree else tree.put place .folder)

def putFolders (tree : FileTree) (place : Place) : FileTree := putFoldersFrom [] place tree

def putFile (place : Place) (text : String) (tree : FileTree) : FileTree :=
  (tree.putFolders place.dropLast).put place (.file text)

def step (tree : FileTree) (place : Place) (part : String) : Except Fault Place :=
  match tree.at? place with
  | none => .error .missingFile
  | some (.file _) => .error .notAFolder
  | some .folder =>
    if part.isEmpty || part == "." then .ok place
    else if part == ".." then .ok place.dropLast
    else .ok (place ++ [part])

/-- The place that a path leads to. It need not exist, but the folders on the way do. -/
def locate (tree : FileTree) (path : String) : Except Fault Place :=
  if path.isEmpty then .error .missingFile
  else (Path.parts path).foldlM tree.step []

def lookup (tree : FileTree) (path : String) : Except Fault (Place × Entry) := do
  let place ← tree.locate path
  match tree.at? place with
  | some entry => return (place, entry)
  | none => throw .missingFile

def stored (tree : FileTree) (path : String) : Except Fault String := do
  match ← tree.lookup path with
  | (_, .file text) => return text
  | (_, .folder) => throw .isAFolder

def read (tree : FileTree) (path : String) : Except Fault String := Text.readAsText <$> tree.stored path

def isFile (tree : FileTree) (path : String) : Bool :=
  match tree.lookup path with
  | .ok (_, .file _) => true
  | _ => false

def isFolder (tree : FileTree) (path : String) : Bool :=
  match tree.lookup path with
  | .ok (_, .folder) => true
  | _ => false

def pathExists (tree : FileTree) (path : String) : Bool := (tree.lookup path).toBool

def write (tree : FileTree) (path : String) (text : String) : Except Fault FileTree := do
  let place ← tree.locate path
  match tree.at? place with
  | some .folder => throw .isAFolder
  | _ => return tree.put place (.file text)

def append (tree : FileTree) (path : String) (text : String) : Except Fault FileTree := do
  let place ← tree.locate path
  match tree.at? place with
  | some .folder => throw .isAFolder
  | some (.file old) => return tree.put place (.file (old ++ text))
  | none => return tree.put place (.file text)

def makeFolder (tree : FileTree) (path : String) : Except Fault FileTree := do
  let place ← tree.locate path
  match tree.at? place with
  | some _ => throw .fileExists
  | none =>
    match tree.at? place.dropLast with
    | some .folder => return tree.put place .folder
    | some (.file _) => throw .notAFolder
    | none => throw .missingFile

def removeFile (tree : FileTree) (path : String) : Except Fault FileTree := do
  match ← tree.lookup path with
  | (place, .file _) => return ⟨Keyed.remove place tree.entries⟩
  | (_, .folder) => throw .isAFolder

def isBelow (folder place : Place) : Bool := folder.isPrefixOf place && folder.length < place.length

def removeBelow (tree : FileTree) (place : Place) : FileTree :=
  ⟨tree.entries.filter fun e => !(place.isPrefixOf e.1)⟩

def names (tree : FileTree) (folder : Place) : List String :=
  sortTexts (tree.entries.filterMap fun e =>
    if e.1.dropLast = folder then e.1.getLast? else none)

/-- The names in the folder that a path leads to, in order. -/
def list (tree : FileTree) (path : String) : Except Fault (List String) := do
  match ← tree.lookup path with
  | (place, .folder) => return tree.names place
  | (_, .file _) => throw .notAFolder

/-- Everything below a place: the names on the way from it, and what stands there. -/
def below (tree : FileTree) (folder : Place) : Keyed Place Entry :=
  tree.entries.filterMap fun e =>
    if isBelow folder e.1 then some (e.1.drop folder.length, e.2) else none

/-! ## Whole folders -/

def makeFolders (tree : FileTree) (path : String) : Except Fault FileTree := do
  let above ← ((Path.parts path).dropLast.foldlM makeNext (tree, ([] : Place)))
  above.1.makeFolder path
where
  /-- Goes on by one part of a path, and makes the folder if it is missing. -/
  makeNext (state : FileTree × Place) (part : String) : Except Fault (FileTree × Place) := do
    let place ← state.1.step state.2 part
    match state.1.at? place with
    | some _ => return (state.1, place)
    | none => return (state.1.put place .folder, place)

/-- Copies a folder with everything in it to a path where nothing stands yet. -/
def copyFolder (tree : FileTree) (source target : String) : Except Fault FileTree := do
  match ← tree.lookup source with
  | (_, .file _) => throw .notAFolder
  | (start, .folder) =>
    let made ← tree.makeFolders target
    let top ← made.locate target
    return (tree.below start).foldl (fun t (names, entry) => t.put (top ++ names) entry) made

def removeFolder (tree : FileTree) (path : String) : Except Fault FileTree := do
  match ← tree.lookup path with
  | (_, .file _) => throw .notAFolder
  | (place, .folder) => return tree.removeBelow place

/-! ## Configuration files -/

/-- The value of a configuration file, if a reader takes its text; an empty map otherwise. The name of
the file has to have one of the given extensions. -/
def loadWith (reader : String → Option Value) (extensions : List String) (tree : FileTree)
    (folder name : String) : Value :=
  if extensions.contains (Path.extension name) then
    match tree.read (Path.join folder name) with
    | .ok text => (reader text).getD (.map [])
    | .error _ => .map []
  else .map []

/-- The value of a YAML file; an empty map if it cannot be read. -/
def loadYaml (tree : FileTree) (folder name : String) : Value :=
  tree.loadWith (fun text => (Yaml.load text).toOption) [".yml", ".yaml"] folder name

/-- The value of a JSON file; an empty map if it cannot be read. -/
def loadJson (tree : FileTree) (folder name : String) : Value :=
  tree.loadWith Json.read? [".json"] folder name

end FileTree

end ServerlessTaint
