import ServerlessTaint.FileTree
import ServerlessTaint.Syntax.Printer
import ServerlessTaint.Syntax.Program

/-!
# Edits of files

A pass over the files of a repository reads and writes them one after the other. If it gives up, the
files stay as they are at that moment.
-/

namespace ServerlessTaint

open Syntax (Ast)

/-- A pass over files. -/
abbrev Edit := ExceptT Fault (StateM FileTree)

def programOf (text : String) : Except Fault Ast :=
  match Syntax.parseModule text with
  | .ok program => .ok program
  | .error fault => .error (.invalidSource fault)

namespace FileTree

/-- One list of names comes before another when folders are gone through from the top: the files of a
folder in order, then what is in its folders in order. -/
def walkBefore : Place → Place → Bool
  | [a], [b] => decide (a < b)
  | [_], _ => true
  | _, [_] => false
  | a :: as, b :: bs => if a = b then walkBefore as bs else decide (a < b)
  | [], _ => true
  | _, [] => false

def walkFiles (tree : FileTree) (folder : String) : List String :=
  match tree.lookup folder with
  | .ok (place, .folder) =>
    let files := (tree.below place).filterMap fun (names, entry) =>
      match entry with
      | .file _ => some names
      | .folder => none
    (files.mergeSort fun a b => !walkBefore b a).map fun names => Path.join folder ("/".intercalate names)
  | _ => []

def program (tree : FileTree) (path : String) : Except Fault Ast := do programOf (← tree.read path)

end FileTree

namespace Edit

def ask {α : Type} (question : FileTree → Except Fault α) : Edit α := do
  match question (← get) with
  | .ok a => return a
  | .error fault => throw fault

/-- Changes the files. -/
def change (f : FileTree → Except Fault FileTree) : Edit Unit := do
  match f (← get) with
  | .ok tree => set tree
  | .error fault => throw fault

/-- The text of a file. -/
def read (path : String) : Edit String := ask fun tree => tree.read path

/-- Writes a file. -/
def write (path text : String) : Edit Unit := change fun tree => tree.write path text

def append (path text : String) : Edit Unit := change fun tree => tree.append path text

def program (path : String) : Edit Ast := ask fun tree => tree.program path

/-- Writes a program to a file. The file is emptied first; a program that has no text leaves it empty. -/
def writeProgram (path : String) (program : Ast) : Edit Unit := do
  write path ""
  match program.source? with
  | some text => write path text
  | none => throw .missingAttribute

end Edit

end ServerlessTaint
