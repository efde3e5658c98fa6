import ServerlessTaint.Reference.External
import ServerlessTaint.Yaml.Dump

/-!
# Inclusion of other files

A scalar that holds a reference to a whole file is replaced by the written content of that file,
indented to the column of the scalar. References are replaced from the last to the first, so that the
places of those before stay valid.
-/

namespace ServerlessTaint.Reference

def ofYaml {α : Type} (result : Except Yaml.YamlFault α) : Except Fault α :=
  result.mapError .malformedDocument

def composeFile (tree : FileTree) (path : String) : Except Fault (Option Yaml.Node) := do
  ofYaml (Yaml.compose (← tree.read path))

/-- The text of a document. There is none without content. -/
def writeRoot : Option Yaml.Node → Except Fault String
  | some root => .ok root.write
  | none => .error (.malformedDocument .malformed)

/-- The content of a file, written in the standard layout. -/
def normalized (tree : FileTree) (path : String) : Except Fault String := do
  writeRoot (← composeFile tree path)

def shiftRight (offset : Nat) (text : List Char) : List Char :=
  text.flatMap fun c => if c == '\n' then c :: List.replicate offset ' ' else [c]

/-- The content of a file with its lines after the first moved to the right. -/
def shifted (tree : FileTree) (path : String) (offset : Int) : Except Fault String := do
  let text ← normalized tree path
  return String.ofList (shiftRight offset.toNat text.toList)

/-- A reference to a file in a text: its place and the path. -/
structure Inclusion where
  start : Yaml.Mark
  stop : Yaml.Mark
  path : String
  deriving Repr

/-- The references to files among the scalars of a text. -/
def inclusions (text : String) : Except Fault (List Inclusion) := do
  let tokens ← ofYaml (Yaml.lex text)
  return tokens.filterMap fun t =>
    match t.kind with
    | .scalar value _ => (filePath? value).map fun path => ⟨t.start, t.stop, path⟩
    | _ => none

def splice (text : List Char) (start stop : Nat) (replacement : List Char) : List Char :=
  text.take start ++ replacement ++ text.drop stop

/-- Replaces stretches of a text from the last to the first; one without a replacement stays. -/
def spliceAll (text : List Char) (stretches : List (Nat × Nat × Option (List Char))) : List Char :=
  stretches.foldr (fun (start, stop, replacement) text =>
    match replacement with
    | some r => splice text start stop r
    | none => text) text

/-- The text that takes the place of a reference to a file, if the file can be read. -/
def Sources.included? (s : Sources) (i : Inclusion) : Option (List Char) :=
  let path := s.fullPath (resolve s.config i.path)
  match shifted s.tree path i.start.column with
  | .ok text => some text.toList
  | .error _ => none

/-- The text of the configuration file with the files it refers to included. -/
def Sources.includeFiles (s : Sources) : Except Fault String := do
  let text ← normalized s.tree s.file
  let found ← inclusions text
  return String.ofList
    (spliceAll text.toList (found.map fun i => (i.start.index, i.stop.index, s.included? i)))

def Sources.includedValue (s : Sources) : Except Fault Value := do
  ofYaml (Yaml.load (← s.includeFiles))

def Sources.ofFile (tree : FileTree) (file : String) : Sources :=
  ⟨tree, file, tree.loadYaml (Path.folder file) (Path.leaf file)⟩

/-- The files after the references to files were replaced in a configuration file. -/
def Sources.writeIncluded (tree : FileTree) (file : String) : Except Fault FileTree := do
  let text ← (Sources.ofFile tree file).includeFiles
  tree.write file (← ofYaml (Yaml.dump text))

end ServerlessTaint.Reference
