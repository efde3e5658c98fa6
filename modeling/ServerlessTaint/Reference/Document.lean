import ServerlessTaint.Reference.Inclusion

/-!
# Resolution of documents

The scalars of a document, keys included, are resolved one after the other. After each of them the
configuration is read again from the document, so that later references see resolved values. An alias
visits the node that it stands for once more.
-/

namespace ServerlessTaint.Reference

open Yaml (Node)

/-- Where a node stands: at each level the place of a child. The entry with number `i` of a mapping
has its key at `2 * i` and its value at `2 * i + 1`. -/
abbrev Address := List Nat

mutual

def setText (text : String) : Address → Node → Node
  | [], .scalar anchor tag style _ => .scalar anchor tag style text
  | i :: rest, .sequence anchor tag flow items =>
    .sequence anchor tag flow (setItem text rest i items)
  | i :: rest, .mapping anchor tag flow entries =>
    .mapping anchor tag flow (setEntry text rest i entries)
  | _, node => node

def setItem (text : String) (rest : Address) : Nat → List Node → List Node
  | _, [] => []
  | 0, item :: items => setText text rest item :: items
  | i + 1, item :: items => item :: setItem text rest i items

/-- Changes the key or value with a number. -/
def setEntry (text : String) (rest : Address) : Nat → List (Node × Node) → List (Node × Node)
  | _, [] => []
  | 0, (key, value) :: entries => (setText text rest key, value) :: entries
  | 1, (key, value) :: entries => (key, setText text rest value) :: entries
  | i + 2, entry :: entries => entry :: setEntry text rest i entries

end

mutual

def textOf? : Address → Node → Option String
  | [], .scalar _ _ _ text => some text
  | i :: rest, .sequence _ _ _ items => textOfItem? rest i items
  | i :: rest, .mapping _ _ _ entries => textOfEntry? rest i entries
  | _, _ => none

def textOfItem? (rest : Address) : Nat → List Node → Option String
  | _, [] => none
  | 0, item :: _ => textOf? rest item
  | i + 1, _ :: items => textOfItem? rest i items

def textOfEntry? (rest : Address) : Nat → List (Node × Node) → Option String
  | _, [] => none
  | 0, (key, _) :: _ => textOf? rest key
  | 1, (_, value) :: _ => textOf? rest value
  | i + 2, _ :: entries => textOfEntry? rest i entries

end

/-- A step of going through a document: a scalar is resolved, a key turns out to be a collection, or
a node turns out to contain itself. -/
inductive Visit where
  | text (address : Address)
  | collectionKey
  | endless
  deriving DecidableEq, Repr

/-- What is known of an anchored node: its visits, and whether it is a scalar. -/
structure Visited where
  visits : List Visit
  isText : Bool
  deriving Repr, Inhabited

def bindVisited (anchor : Option String) (v : Visited) (known : List (String × Visited)) :
    List (String × Visited) :=
  match anchor with
  | some name => (name, v) :: known
  | none => known

mutual

def visitsOf (address : Address) (known : List (String × Visited)) :
    Node → Visited × List (String × Visited)
  | .aliasOf name => ((known.lookup name).getD ⟨[.endless], false⟩, known)
  | .scalar anchor _ _ _ =>
    let v : Visited := ⟨[.text address], true⟩
    (v, bindVisited anchor v known)
  | .sequence anchor _ _ items =>
    let (visits, known) := visitsOfItems address 0 known items
    let v : Visited := ⟨visits, false⟩
    (v, bindVisited anchor v known)
  | .mapping anchor _ _ entries =>
    let (visits, known) := visitsOfEntries address 0 known entries
    let v : Visited := ⟨visits, false⟩
    (v, bindVisited anchor v known)

def visitsOfItems (address : Address) (i : Nat) (known : List (String × Visited)) :
    List Node → List Visit × List (String × Visited)
  | [] => ([], known)
  | item :: items =>
    let (v, known) := visitsOf (address ++ [i]) known item
    let (more, known) := visitsOfItems address (i + 1) known items
    (v.visits ++ more, known)

def visitsOfEntries (address : Address) (i : Nat) (known : List (String × Visited)) :
    List (Node × Node) → List Visit × List (String × Visited)
  | [] => ([], known)
  | (key, value) :: entries =>
    let (k, known) := visitsOf (address ++ [i]) known key
    let (v, known) := visitsOf (address ++ [i + 1]) known value
    let (more, known) := visitsOfEntries address (i + 2) known entries
    (k.visits ++ v.visits ++ (if k.isText then [] else [.collectionKey]) ++ more, known)

end

def visits (root : Node) : List Visit := (visitsOf [] [] root).1.visits

/-- A document and the configuration that its references lead into. -/
structure Resolving where
  root : Node
  config : Value

def visit (s : Sources) (r : Resolving) : Visit → Except Fault Resolving
  | .collectionKey => .error .wrongType
  | .endless => .error .endlessNesting
  | .text address => do
    let old := (textOf? address r.root).getD ""
    let new := String.ofList (process { s with config := r.config } old.toList)
    let root := setText new address r.root
    return ⟨root, ← ofYaml (Yaml.load root.write)⟩

def resolveRoot (s : Sources) (root : Node) : Except Fault Node := do
  let r ← (visits root).foldlM (visit s) ⟨root, s.config⟩
  return r.root

def Sources.resolved (s : Sources) : Except Fault (Option Node) := do
  match ← composeFile s.tree s.file with
  | some root => some <$> resolveRoot s root
  | none => return none

/-- The sources of a configuration file, and the files, after the files that it refers to were
included if that is wanted. -/
def Sources.start (tree : FileTree) (file : String) (including : Bool) : Except Fault Sources := do
  let tree ← if including then Sources.writeIncluded tree file else pure tree
  return Sources.ofFile tree file

def Sources.resolvedValue (s : Sources) : Except Fault Value := do
  ofYaml (Yaml.load (← writeRoot (← s.resolved)))

/-- The form in which a resolved document is asked for. -/
inductive Form where
  | value
  | text
  | unrecognized
  deriving DecidableEq, Repr

def Sources.resolvedAs (s : Sources) : Form → Except Fault Value
  | .value => s.resolvedValue
  | .text => do return .str (← writeRoot (← s.resolved))
  | .unrecognized => do
    let _ ← s.resolved
    throw (.badValue (some "--- Unrecognized output type ---"))

end ServerlessTaint.Reference
