import ServerlessTaint.Yaml.Implicit
import ServerlessTaint.Yaml.Layout

/-!
# Writing of YAML documents

A document is written with an indentation of two columns. Nodes keep their styles where the place
allows it. Anchors are numbered anew, in the order in which their first aliases stand.
-/

namespace ServerlessTaint.Yaml

/-! ## Names of anchors -/

mutual

def Node.aliases : Node → List String
  | .aliasOf name => [name]
  | .scalar .. => []
  | .sequence _ _ _ items => aliasesOfItems items
  | .mapping _ _ _ entries => aliasesOfEntries entries

def aliasesOfItems : List Node → List String
  | [] => []
  | item :: items => item.aliases ++ aliasesOfItems items

def aliasesOfEntries : List (Node × Node) → List String
  | [] => []
  | (key, value) :: entries => key.aliases ++ value.aliases ++ aliasesOfEntries entries

end

def anchorText (n : Nat) : String :=
  let digits := Nat.toDigits 10 n
  "id" ++ String.ofList (List.replicate (3 - digits.length) '0' ++ digits)

def anchorNames (root : Node) : List (String × String) :=
  let names := distinct root.aliases
  names.zip ((List.range names.length).map fun n => anchorText (n + 1))

/-! ## Tags -/

/-- The character stands for itself in a written tag. -/
def isTagChar (handle : String) (c : Char) : Bool :=
  c.isAlphanum || "-;/?:@&=+$,_.~*'()[]".toList.contains c || (c == '!' && handle != "!")

/-- A character of a tag, escaped by its bytes if need be. -/
def tagChar (handle : String) (c : Char) : List Char :=
  if isTagChar handle c then [c]
  else (String.singleton c).toUTF8.toList.flatMap fun b =>
    '%' :: (Text.hexDigits 2 b.toNat).map Char.toUpper

def afterStart? (start : String) (text : String) : Option (List Char) :=
  let s := start.toList
  if s.isPrefixOf text.toList then some (text.toList.drop s.length) else none

def tagText (tag : String) : String :=
  let written (handle : String) (rest : List Char) : String :=
    handle ++ String.ofList (rest.flatMap (tagChar handle))
  if tag == "!" then tag
  else match afterStart? coreTags tag with
    | some (c :: rest) => written "!!" (c :: rest)
    | _ =>
      match afterStart? "!" tag with
      | some rest => written "!" rest
      | none => "!<" ++ String.ofList (tag.toList.flatMap (tagChar "")) ++ ">"

/-! ## Nodes -/

/-- Where a node stands: it is the document, an item of a sequence, a key on one line, or another
part of a mapping. -/
inductive Place where
  | root
  | item
  | simpleKey
  | entry
  deriving DecidableEq, Repr

/-- The style in which a scalar is written. A plain scalar keeps its style only if its form gives its
tag. -/
def chooseStyle (inFlow : Bool) (place : Place) (tag : String) (style : Style) (text : String) : Style :=
  let a := analyse text.toList
  let isKey := place == .simpleKey
  let plain := style == .plain && tag == implicitTag text && !(isKey && (a.isEmpty || a.multiline)) &&
    (if inFlow then a.flowPlain else a.blockPlain)
  let quoted := if a.single && !(isKey && a.multiline) then Style.single else .double
  match style with
  | .double => .double
  | .plain => if plain then .plain else quoted
  | .literal => if !inFlow && !isKey && a.block then .literal else quoted
  | .folded => if !inFlow && !isKey && a.block then .folded else quoted
  | .single => quoted

def putTag (understood : Bool) (tag : String) (s : Sheet) : Sheet :=
  if understood then s else s.mark (tagText tag) true false false

/-- An anchor before a node, written if an alias uses it. -/
def putAnchor (names : List (String × String)) (anchor : Option String) (s : Sheet) : Sheet :=
  match anchor >>= fun a => names.lookup a with
  | some name => s.mark ("&" ++ name) true false false
  | none => s

/-- The indentation inside a node, and inside one in flow style or a scalar. -/
def deeper (flow : Bool) : Option Nat → Nat
  | some i => i + 2
  | none => if flow then 2 else 0

def putScalar (indent : Option Nat) (inFlow : Bool) (place : Place) (tag : String) (style : Style)
    (text : String) (s : Sheet) : Sheet :=
  let style := chooseStyle inFlow place tag style text
  let understood := tag == if style == .plain then implicitTag text else textTag
  let s := putTag understood tag s
  let inner := deeper true indent
  let split := place != .simpleKey
  let cs := text.toList
  match style with
  | .double => putDouble inner split cs s
  | .single => putSingle inner split cs s
  | .folded => putFolded inner cs s
  | .literal => putLiteral inner cs s
  | .plain => putPlain inner split (place == .root) cs s

/-- The greatest length of a key that stands on one line with its value. -/
def maxSimpleKey : Nat := 128

def isSimpleKey (names : List (String × String)) : Node → Bool
  | .aliasOf name => ((names.lookup name).map String.length).getD 0 < maxSimpleKey
  | .scalar anchor tag _ text =>
    let a := analyse text.toList
    anchorLength names anchor + (tagText tag).length + text.length < maxSimpleKey && !a.isEmpty &&
      !a.multiline
  | .sequence anchor tag _ items =>
    items.isEmpty && anchorLength names anchor + (tagText tag).length < maxSimpleKey
  | .mapping anchor tag _ entries =>
    entries.isEmpty && anchorLength names anchor + (tagText tag).length < maxSimpleKey
where
  /-- The length of the written name of an anchor. -/
  anchorLength (names : List (String × String)) (anchor : Option String) : Nat :=
    ((anchor >>= fun a => names.lookup a).map String.length).getD 0

/-- Starts a new line inside a flow collection if the line is too long. -/
def foldFlow (indent : Nat) (s : Sheet) : Sheet := if width < s.column then s.indentTo indent else s

mutual

/-- Writes a node. `indent` is the indentation of the collection around it. -/
def putNode (names : List (String × String)) (indent : Option Nat) (inFlow : Bool) (place : Place) :
    Node → Sheet → Sheet
  | .aliasOf name, s => s.mark ("*" ++ (names.lookup name).getD name) true false false
  | .scalar anchor tag style text, s =>
    putScalar indent inFlow place tag style text (putAnchor names anchor s)
  | .sequence anchor tag flow items, s =>
    let s := putTag (tag == sequenceTag) tag (putAnchor names anchor s)
    if inFlow || flow || items.isEmpty then
      let inner := deeper true indent
      (putFlowItems names inner true items (s.mark "[" true true false)).mark "]" false false false
    else
      let indentless := (place == .entry || place == .simpleKey) && !s.indentation
      let inner := match indent with
        | some i => if indentless then i else i + 2
        | none => 0
      putBlockItems names inner items s
  | .mapping anchor tag flow entries, s =>
    let s := putTag (tag == mappingTag) tag (putAnchor names anchor s)
    if inFlow || flow || entries.isEmpty then
      let inner := deeper true indent
      (putFlowEntries names inner true entries (s.mark "\x7b" true true false)).mark "\x7d" false false
        false
    else putBlockEntries names (deeper false indent) entries s

def putBlockItems (names : List (String × String)) (indent : Nat) : List Node → Sheet → Sheet
  | [], s => s
  | item :: items, s =>
    let s := (s.indentTo indent).mark "-" true false true
    putBlockItems names indent items (putNode names (some indent) false .item item s)

def putBlockEntries (names : List (String × String)) (indent : Nat) :
    List (Node × Node) → Sheet → Sheet
  | [], s => s
  | (key, value) :: entries, s =>
    let s := s.indentTo indent
    let s :=
      if isSimpleKey names key then
        (putNode names (some indent) false .simpleKey key s).mark ":" false false false
      else
        let s := putNode names (some indent) false .entry key (s.mark "?" true false true)
        (s.indentTo indent).mark ":" true false true
    putBlockEntries names indent entries (putNode names (some indent) false .entry value s)

def putFlowItems (names : List (String × String)) (indent : Nat) (first : Bool) :
    List Node → Sheet → Sheet
  | [], s => s
  | item :: items, s =>
    let s := foldFlow indent (if first then s else s.mark "," false false false)
    putFlowItems names indent false items (putNode names (some indent) true .item item s)

def putFlowEntries (names : List (String × String)) (indent : Nat) (first : Bool) :
    List (Node × Node) → Sheet → Sheet
  | [], s => s
  | (key, value) :: entries, s =>
    let s := foldFlow indent (if first then s else s.mark "," false false false)
    let s :=
      if isSimpleKey names key then
        (putNode names (some indent) true .simpleKey key s).mark ":" false false false
      else
        let s := putNode names (some indent) true .entry key (s.mark "?" true false false)
        (foldFlow indent s).mark ":" true false false
    putFlowEntries names indent false entries (putNode names (some indent) true .entry value s)

end

/-- The text of a document. A document whose end is open is followed by a mark of its end. -/
def Node.write (root : Node) : String :=
  let s := (putNode (anchorNames root) none false .root root {}).indentTo 0
  (if s.openEnded then (s.mark "..." true false false).indentTo 0 else s).out

end ServerlessTaint.Yaml
