import ServerlessTaint.Yaml.Lexer

/-!
# YAML documents

A document is a tree of scalars, sequences and mappings; an alias stands for an earlier node that has
an anchor. `compose` reads a document, and `Node.load` gives the value it denotes, in which every
scalar is a text.
-/

namespace ServerlessTaint.Yaml

/-- A node of a document. Every node has a tag; collections are written in flow or block style. -/
inductive Node where
  | scalar (anchor : Option String) (tag : String) (style : Style) (text : String)
  | sequence (anchor : Option String) (tag : String) (flow : Bool) (items : List Node)
  | mapping (anchor : Option String) (tag : String) (flow : Bool) (entries : List (Node × Node))
  | aliasOf (name : String)
  deriving Repr, Inhabited

/-! ## Tags -/

/-- What the handle `!!` stands for. -/
def coreTags : String := "tag:yaml.org,2002:"

def textTag : String := coreTags ++ "str"

def sequenceTag : String := coreTags ++ "seq"

def mappingTag : String := coreTags ++ "map"

def defaultHandles : List (String × String) := [("!", "!"), ("!!", coreTags)]

/-- The tag of a node: the one that is given, unless it is missing or says nothing. -/
def tagOr (default : String) : Option String → String
  | some "!" => default
  | some tag => tag
  | none => default

/-! ## Reading -/

/-- The tokens that are left, and the handles of tags. -/
structure Composing where
  tokens : List Token
  handles : List (String × String)

/-- A step of reading a document. -/
abbrev Compose := StateT Composing (Except YamlFault)

namespace Compose

def peek : Compose TokenKind := do
  match (← get).tokens with
  | t :: _ => return t.kind
  | [] => return .streamEnd

def skip : Compose Unit := modify fun s => { s with tokens := s.tokens.drop 1 }

def expect (kind : TokenKind) : Compose Unit := do
  if (← peek) == kind then skip else throw .malformed

def empty : Node := .scalar none textTag .plain ""

def anchor? : Compose (Option String) := do
  match ← peek with
  | .anchor name =>
    skip
    return some name
  | _ => return none

def tag? : Compose (Option String) := do
  match ← peek with
  | .tag none rest =>
    skip
    return some rest
  | .tag (some handle) rest =>
    skip
    match (← get).handles.lookup handle with
    | some expansion => return some (expansion ++ rest)
    | none => throw .malformed
  | _ => return none

/-- The anchor and the tag of a node, in either order. -/
def properties : Compose (Option String × Option String) := do
  match ← anchor? with
  | some name => return (some name, ← tag?)
  | none =>
    match ← tag? with
    | some tag => return (← anchor?, some tag)
    | none => return (none, none)

def missing (anchor tag : Option String) : Compose Node :=
  if anchor.isSome || tag.isSome then return .scalar anchor (tagOr textTag tag) .plain ""
  else throw .malformed

mutual

/-- A node. In block context it may be a block collection, and as part of a mapping also a sequence
that is not indented. -/
def node : Nat → Bool → Bool → Compose Node
  | 0, _, _ => throw .malformed
  | fuel + 1, inBlock, indentless => do
    if let .aliasOf name ← peek then
      skip
      return .aliasOf name
    let (anchor, tag) ← properties
    match ← peek with
    | .scalar text style =>
      skip
      return .scalar anchor (tagOr textTag tag) style text
    | .flowSequenceStart =>
      skip
      return .sequence anchor (tagOr sequenceTag tag) true (← flowItems fuel true)
    | .flowMappingStart =>
      skip
      return .mapping anchor (tagOr mappingTag tag) true (← flowEntries fuel true)
    | .blockEntry =>
      if indentless then return .sequence anchor (tagOr sequenceTag tag) false (← plainItems fuel)
      else missing anchor tag
    | .blockSequenceStart =>
      if inBlock then
        skip
        let items ← blockItems fuel
        return .sequence anchor (tagOr sequenceTag tag) false items
      else missing anchor tag
    | .blockMappingStart =>
      if inBlock then
        skip
        let entries ← blockEntries fuel
        return .mapping anchor (tagOr mappingTag tag) false entries
      else missing anchor tag
    | _ => missing anchor tag

def blockItems : Nat → Compose (List Node)
  | 0 => throw .malformed
  | fuel + 1 => do
    match ← peek with
    | .blockEntry =>
      skip
      let item ← match ← peek with
        | .blockEntry | .blockEnd => pure empty
        | _ => node fuel true false
      return item :: (← blockItems fuel)
    | _ =>
      expect .blockEnd
      return []

/-- The items of a sequence that is not indented. -/
def plainItems : Nat → Compose (List Node)
  | 0 => throw .malformed
  | fuel + 1 => do
    match ← peek with
    | .blockEntry =>
      skip
      let item ← match ← peek with
        | .blockEntry | .key | .value | .blockEnd => pure empty
        | _ => node fuel true false
      return item :: (← plainItems fuel)
    | _ => return []

def blockEntries : Nat → Compose (List (Node × Node))
  | 0 => throw .malformed
  | fuel + 1 => do
    match ← peek with
    | .key =>
      skip
      let key ← match ← peek with
        | .key | .value | .blockEnd => pure empty
        | _ => node fuel true true
      let value ← blockValue fuel
      return (key, value) :: (← blockEntries fuel)
    | .value =>
      throw .malformed
    | _ =>
      expect .blockEnd
      return []

def blockValue : Nat → Compose Node
  | 0 => throw .malformed
  | fuel + 1 => do
    match ← peek with
    | .value =>
      skip
      match ← peek with
      | .key | .value | .blockEnd => return empty
      | _ => node fuel true true
    | _ => return empty

/-- The items of a flow sequence; an entry with a key is a mapping of its own. -/
def flowItems : Nat → Bool → Compose (List Node)
  | 0, _ => throw .malformed
  | fuel + 1, first => do
    if (← peek) == .flowSequenceEnd then
      skip
      return []
    if !first then expect .flowEntry
    match ← peek with
    | .key =>
      skip
      let key ← match ← peek with
        | .value | .flowEntry | .flowSequenceEnd => pure empty
        | _ => node fuel false false
      let value ← flowValue fuel .flowSequenceEnd
      return .mapping none mappingTag true [(key, value)] :: (← flowItems fuel false)
    | .flowSequenceEnd =>
      skip
      return []
    | _ =>
      let item ← node fuel false false
      return item :: (← flowItems fuel false)

/-- The value of an entry of a flow collection with the given closing mark. -/
def flowValue : Nat → TokenKind → Compose Node
  | 0, _ => throw .malformed
  | fuel + 1, close => do
    match ← peek with
    | .value =>
      skip
      let kind ← peek
      if kind == .flowEntry || kind == close then return empty else node fuel false false
    | _ => return empty

/-- The entries of a flow mapping; a node without a mark is a key without a value. -/
def flowEntries : Nat → Bool → Compose (List (Node × Node))
  | 0, _ => throw .malformed
  | fuel + 1, first => do
    if (← peek) == .flowMappingEnd then
      skip
      return []
    if !first then expect .flowEntry
    match ← peek with
    | .key =>
      skip
      let key ← match ← peek with
        | .value | .flowEntry | .flowMappingEnd => pure empty
        | _ => node fuel false false
      let value ← flowValue fuel .flowMappingEnd
      return (key, value) :: (← flowEntries fuel false)
    | .flowMappingEnd =>
      skip
      return []
    | _ =>
      let key ← node fuel false false
      return (key, empty) :: (← flowEntries fuel false)

end

def directives : Nat → Bool → List (String × String) → Compose (List (String × String))
  | 0, _, _ => throw .malformed
  | fuel + 1, versioned, handles => do
    match ← peek with
    | .versionDirective major =>
      skip
      if versioned || major ≠ 1 then throw .malformed
      directives fuel true handles
    | .tagDirective handle expansion =>
      skip
      if (handles.lookup handle).isSome then throw .malformed
      directives fuel versioned ((handle, expansion) :: handles)
    | .otherDirective =>
      skip
      directives fuel versioned handles
    | _ => return handles

def skipEnds : Nat → Compose Unit
  | 0 => return
  | fuel + 1 => do
    if (← peek) == .documentEnd then
      skip
      skipEnds fuel

def document (fuel : Nat) : Compose (Option Node) := do
  match ← peek with
  | .streamEnd => return none
  | .versionDirective _ | .tagDirective _ _ | .otherDirective | .documentStart =>
    let handles ← directives fuel false []
    modify ({ · with handles := handles ++ defaultHandles })
    expect .documentStart
    let root ← match ← peek with
      | .versionDirective _ | .tagDirective _ _ | .otherDirective | .documentStart | .documentEnd
      | .streamEnd => pure empty
      | _ => node fuel true false
    skipEnds fuel
    expect .streamEnd
    return some root
  | _ =>
    let root ← node fuel true false
    skipEnds fuel
    expect .streamEnd
    return some root

end Compose

/-! ## Anchors -/

/-- Defines an anchor, which is new. -/
def define (known : List String) : Option String → Except YamlFault (List String)
  | none => .ok known
  | some name => if known.contains name then .error .malformed else .ok (name :: known)

mutual

/-- Anchors are defined once, and before they are used: the anchors known after a node. -/
def Node.anchors (known : List String) : Node → Except YamlFault (List String)
  | .aliasOf name => if known.contains name then .ok known else .error .malformed
  | .scalar anchor _ _ _ => define known anchor
  | .sequence anchor _ _ items => do anchorsOfItems (← define known anchor) items
  | .mapping anchor _ _ entries => do anchorsOfEntries (← define known anchor) entries

def anchorsOfItems (known : List String) : List Node → Except YamlFault (List String)
  | [] => .ok known
  | item :: items => do anchorsOfItems (← item.anchors known) items

def anchorsOfEntries (known : List String) : List (Node × Node) → Except YamlFault (List String)
  | [] => .ok known
  | (key, value) :: entries => do
    let known ← key.anchors known
    let known ← value.anchors known
    anchorsOfEntries known entries

end

/-- Reads the document of a text; none if the text has no content. -/
def compose (text : String) : Except YamlFault (Option Node) := do
  let tokens ← lex text
  let fuel := 4 * tokens.length + 16
  let (root, _) ← (Compose.document fuel).run ⟨tokens, defaultHandles⟩
  match root with
  | some node => let _ ← node.anchors []
  | none => pure ()
  return root

/-! ## Values -/

def bindAnchor (anchor : Option String) (v : Value) (known : List (String × Value)) :
    List (String × Value) :=
  match anchor with
  | some name => (name, v) :: known
  | none => known

mutual

/-- The value of a node, and the values of the anchors known after it. An alias for a node that is
not finished has no value, nor has a mapping with a key that is not a text. -/
def Node.build (known : List (String × Value)) :
    Node → Except YamlFault (Value × List (String × Value))
  | .aliasOf name =>
    match known.lookup name with
    | some v => .ok (v, known)
    | none => .error .malformed
  | .scalar anchor _ _ text => .ok (.str text, bindAnchor anchor (.str text) known)
  | .sequence anchor _ _ items => do
    let (values, known) ← buildItems known items
    return (.list values, bindAnchor anchor (.list values) known)
  | .mapping anchor _ _ entries => do
    let (values, known) ← buildEntries [] known entries
    return (.map values, bindAnchor anchor (.map values) known)

def buildItems (known : List (String × Value)) :
    List Node → Except YamlFault (List Value × List (String × Value))
  | [] => .ok ([], known)
  | item :: items => do
    let (v, known) ← item.build known
    let (vs, known) ← buildItems known items
    return (v :: vs, known)

/-- The entries of a mapping, added to those before. A key that is repeated takes the last value. -/
def buildEntries (before : List (String × Value)) (known : List (String × Value)) :
    List (Node × Node) → Except YamlFault (List (String × Value) × List (String × Value))
  | [] => .ok (before, known)
  | (key, value) :: entries => do
    let (k, known) ← key.build known
    match k with
    | .str k =>
      let (v, known) ← value.build known
      buildEntries (Keyed.set k v before) known entries
    | _ => .error .malformed

end

def Node.load (node : Node) : Except YamlFault Value := do return (← node.build []).1

/-- The value that a text denotes; null if it has no content. -/
def load (text : String) : Except YamlFault Value := do
  match ← compose text with
  | some node => node.load
  | none => return .null

end ServerlessTaint.Yaml
