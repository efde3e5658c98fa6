import ServerlessTaint.Yaml.Writer

/-!
# Documents written from values

A loaded document can be written anew: styles and tags are dropped, the keys of mappings are sorted,
and a collection that is used more than once keeps one anchor and is written at its first place.
-/

namespace ServerlessTaint.Yaml

def textNode (text : String) : Node := .scalar none textTag .plain text

def bindNode (anchor : Option String) (node : Node) (known : List (String × Node)) :
    List (String × Node) :=
  match anchor with
  | some name => (name, node) :: known
  | none => known

mutual

/-- The node with its aliases replaced by what they stand for, without styles and tags, and with
sorted keys. The second component holds the anchored nodes known after it. -/
def Node.expand (known : List (String × Node)) :
    Node → Except YamlFault (Node × List (String × Node))
  | .aliasOf name =>
    match known.lookup name with
    | some node => .ok (node, known)
    | none => .error .malformed
  | .scalar anchor _ _ text => .ok (textNode text, bindNode anchor (textNode text) known)
  | .sequence anchor _ _ items => do
    let (items, known) ← expandItems known items
    let node := .sequence anchor sequenceTag false items
    return (node, bindNode anchor node known)
  | .mapping anchor _ _ entries => do
    let (entries, known) ← expandEntries [] known entries
    let node := .mapping anchor mappingTag false
      ((Keyed.sortByKey entries).map fun (key, value) => (textNode key, value))
    return (node, bindNode anchor node known)

def expandItems (known : List (String × Node)) :
    List Node → Except YamlFault (List Node × List (String × Node))
  | [] => .ok ([], known)
  | item :: items => do
    let (item, known) ← item.expand known
    let (items, known) ← expandItems known items
    return (item :: items, known)

def expandEntries (before : List (String × Node)) (known : List (String × Node)) :
    List (Node × Node) → Except YamlFault (List (String × Node) × List (String × Node))
  | [] => .ok (before, known)
  | (key, value) :: entries => do
    let (key, known) ← key.expand known
    match key with
    | .scalar _ _ _ text =>
      let (value, known) ← value.expand known
      expandEntries (Keyed.set text value before) known entries
    | _ => .error .malformed

end

mutual

/-- Replaces anchored nodes that were met before by aliases. -/
def Node.share (met : List String) : Node → Node × List String
  | .sequence (some name) tag flow items =>
    if met.contains name then (.aliasOf name, met)
    else
      let (items, met) := shareItems (name :: met) items
      (.sequence (some name) tag flow items, met)
  | .sequence none tag flow items =>
    let (items, met) := shareItems met items
    (.sequence none tag flow items, met)
  | .mapping (some name) tag flow entries =>
    if met.contains name then (.aliasOf name, met)
    else
      let (entries, met) := shareEntries (name :: met) entries
      (.mapping (some name) tag flow entries, met)
  | .mapping none tag flow entries =>
    let (entries, met) := shareEntries met entries
    (.mapping none tag flow entries, met)
  | node => (node, met)

def shareItems (met : List String) : List Node → List Node × List String
  | [] => ([], met)
  | item :: items =>
    let (item, met) := item.share met
    let (items, met) := shareItems met items
    (item :: items, met)

def shareEntries (met : List String) : List (Node × Node) → List (Node × Node) × List String
  | [] => ([], met)
  | (key, value) :: entries =>
    let (key, met) := key.share met
    let (value, met) := value.share met
    let (entries, met) := shareEntries met entries
    ((key, value) :: entries, met)

end

/-- The text of a loaded document, written anew. A text without content holds null. -/
def dump (text : String) : Except YamlFault String := do
  match ← compose text with
  | none => return (Node.scalar none (coreTags ++ "null") .plain "null").write
  | some root =>
    let (root, _) ← root.expand []
    return (root.share []).1.write

end ServerlessTaint.Yaml
