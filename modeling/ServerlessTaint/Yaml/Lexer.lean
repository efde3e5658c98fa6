import ServerlessTaint.Yaml.Scalar

/-!
# Splitting of YAML texts into tokens

The lexer keeps the columns of the open block collections and, for each level of flow collections,
the place of a token that may turn out to be a simple key: the mark of the key is put before that
token once the colon after it is met.
-/

namespace ServerlessTaint.Yaml

open Cursor

/-- A token that may be a simple key: its number, whether the block it stands in needs a key there,
and its place. -/
structure PendingKey where
  number : Nat
  required : Bool
  mark : Mark
  deriving Repr, Inhabited

/-- The state of the lexer. Tokens are kept with the last first, columns of blocks with the innermost
first. -/
structure LexState where
  cursor : Cursor
  flowLevel : Nat := 0
  indents : List Nat := []
  keyAllowed : Bool := true
  pending : List (Nat × PendingKey) := []
  tokens : List Token := []
  count : Nat := 0

abbrev Lex := StateT LexState (Except YamlFault)

namespace Lex

def push (kind : TokenKind) (start stop : Mark) : Lex Unit :=
  modify fun s => { s with tokens := ⟨kind, start, stop⟩ :: s.tokens, count := s.count + 1 }

def insertBefore (number : Nat) (kind : TokenKind) (mark : Mark) : Lex Unit :=
  modify fun s =>
    let later := s.tokens.take (s.count - number)
    let earlier := s.tokens.drop (s.count - number)
    { s with tokens := later ++ ⟨kind, mark, mark⟩ :: earlier, count := s.count + 1 }

def allowKey (allowed : Bool) : Lex Unit := modify ({ · with keyAllowed := allowed })

/-- Moves to another position. -/
def goTo (c : Cursor) : Lex Unit := modify ({ · with cursor := c })

/-- The farthest distance between a simple key and its colon. -/
def maxKeyLength : Nat := 1024

/-- Forgets the possible keys that are on an earlier line or too far away. -/
def dropStaleKeys : Lex Unit := do
  let s ← get
  let here := s.cursor.mark
  let stale (k : PendingKey) : Bool :=
    k.mark.line != here.line || maxKeyLength < here.index - k.mark.index
  if s.pending.any fun (_, k) => stale k && k.required then throw .malformed
  set { s with pending := s.pending.filter fun (_, k) => !stale k }

/-- Forgets the possible key of the current level. -/
def dropKey : Lex Unit := do
  let s ← get
  match s.pending.lookup s.flowLevel with
  | none => return
  | some k =>
    if k.required then throw .malformed
    set { s with pending := s.pending.filter fun (level, _) => level != s.flowLevel }

/-- Notes that the next token may be a simple key. -/
def noteKey : Lex Unit := do
  let s ← get
  let required := s.flowLevel = 0 && s.indents.head? == some s.cursor.column
  if s.keyAllowed then
    dropKey
    modify fun s =>
      { s with pending := (s.flowLevel, ⟨s.count, required, s.cursor.mark⟩) :: s.pending }

/-- Closes the blocks that are indented deeper than the given column; all of them if none is given. -/
def unwind (column : Option Nat) : Lex Unit := do
  let s ← get
  if s.flowLevel = 0 then
    let inner := s.indents.takeWhile fun i =>
      match column with
      | some c => c < i
      | none => true
    let mark := s.cursor.mark
    set { s with
      indents := s.indents.drop inner.length
      tokens := inner.map (fun _ => Token.mk .blockEnd mark mark) ++ s.tokens
      count := s.count + inner.length }

def openBlock (column : Nat) : Lex Bool := do
  let s ← get
  let deeper := match s.indents.head? with
    | some i => i < column
    | none => true
  if deeper then set { s with indents := column :: s.indents }
  return deeper

/-- Moves over blanks, comments and line ends to the next token. -/
def skipToToken : Nat → Lex Unit
  | 0 => return
  | fuel + 1 => do
    let s ← get
    let c := s.cursor.skipSpaces.skipComment
    match c.lineBreak? with
    | some (_, c) =>
      set { s with cursor := c, keyAllowed := s.keyAllowed || s.flowLevel = 0 }
      skipToToken fuel
    | none => goTo c

/-! ## Tokens -/

/-- Takes a token of the given number of characters. -/
def take (kind : TokenKind) (length : Nat) : Lex Unit := do
  let c := (← get).cursor
  let after := c.advance length
  goTo after
  push kind c.mark after.mark

def streamEnd : Lex Unit := do
  unwind none
  dropKey
  let c := (← get).cursor
  push .streamEnd c.mark c.mark

def documentMark (kind : TokenKind) : Lex Unit := do
  unwind none
  dropKey
  allowKey false
  take kind 3

def flowStart (kind : TokenKind) : Lex Unit := do
  noteKey
  modify fun s => { s with flowLevel := s.flowLevel + 1, keyAllowed := true }
  take kind 1

def flowEnd (kind : TokenKind) : Lex Unit := do
  dropKey
  if (← get).flowLevel = 0 then throw .malformed
  modify fun s => { s with flowLevel := s.flowLevel - 1, keyAllowed := false }
  take kind 1

def flowEntry : Lex Unit := do
  allowKey true
  dropKey
  take .flowEntry 1

def blockMark (blockStart : TokenKind) : Lex Unit := do
  let s ← get
  if s.flowLevel = 0 then
    if !s.keyAllowed then throw .malformed
    if ← openBlock s.cursor.column then push blockStart s.cursor.mark s.cursor.mark

def blockEntry : Lex Unit := do
  blockMark .blockSequenceStart
  allowKey true
  dropKey
  take .blockEntry 1

def complexKey : Lex Unit := do
  blockMark .blockMappingStart
  allowKey ((← get).flowLevel = 0)
  dropKey
  take .key 1

def value : Lex Unit := do
  let s ← get
  match s.pending.lookup s.flowLevel with
  | some k =>
    set { s with pending := s.pending.filter fun (level, _) => level != s.flowLevel }
    insertBefore k.number .key k.mark
    if s.flowLevel = 0 then
      if ← openBlock k.mark.column then insertBefore k.number .blockMappingStart k.mark
    allowKey false
  | none =>
    blockMark .blockMappingStart
    allowKey (s.flowLevel = 0)
    dropKey
  take .value 1

def anchorName (kind : String → TokenKind) : Lex Unit := do
  noteKey
  allowKey false
  let c := (← get).cursor
  let (name, after) := c.step.takeWhile isNameChar
  let ends := endsWord after.peek? ||
    (after.peek?.map fun x => "?:,]\x7d%@\x60".toList.contains x).getD false
  if name.isEmpty || !ends then throw .malformed
  goTo after
  push (kind (String.ofList name)) c.mark after.mark

def isUriChar (c : Char) : Bool := c.isAlphanum || "-;/?:@&=+$,_.!~*'()[]%".toList.contains c

/-- The bytes of escapes by percent signs, as far as they go. -/
def percentBytes : Nat → Cursor → Except YamlFault (List UInt8 × Cursor)
  | 0, c => .ok ([], c)
  | fuel + 1, c =>
    match c.rest with
    | '%' :: a :: b :: _ =>
      match Json.hexValue? a, Json.hexValue? b with
      | some x, some y => do
        let (more, c) ← percentBytes fuel (c.advance 3)
        return (UInt8.ofNat (16 * x + y) :: more, c)
      | _, _ => .error .malformed
    | '%' :: _ => .error .malformed
    | _ => .ok ([], c)

def uriChars : Nat → Cursor → Except YamlFault (List Char × Cursor)
  | 0, c => .ok ([], c)
  | fuel + 1, c => do
    match c.peek? with
    | some x =>
      if x == '%' then
        let (bytes, c) ← percentBytes (c.rest.length + 1) c
        match String.fromUTF8? (ByteArray.mk bytes.toArray) with
        | some text =>
          let (more, c) ← uriChars fuel c
          return (text.toList ++ more, c)
        | none => throw .malformed
      else if isUriChar x then
        let (more, c) ← uriChars fuel c.step
        return (x :: more, c)
      else return ([], c)
    | none => return ([], c)

def uri (c : Cursor) : Except YamlFault (String × Cursor) := do
  let (cs, after) ← uriChars (c.rest.length + 1) c
  if after.mark.index = c.mark.index then throw .malformed
  return (String.ofList cs, after)

/-- The handle of a tag: an exclamation mark, or a name between two of them. -/
def tagHandle (c : Cursor) : Except YamlFault (String × Cursor) := do
  if !c.isNext '!' then throw .malformed
  if c.step.isNext ' ' then return ("!", c.step)
  let (name, after) := c.step.takeWhile isNameChar
  if !after.isNext '!' then throw .malformed
  return ("!" ++ String.ofList name ++ "!", after.step)

/-- A tag: in angle brackets, alone, with a handle, or without one. -/
def tagAt (c : Cursor) : Except YamlFault (Option String × String × Cursor) := do
  let second := c.peekAt? 1
  if second == some '<' then
    let (text, after) ← uri (c.advance 2)
    if !after.isNext '>' then throw .malformed
    return (none, text, after.step)
  else if endsWord second then return (none, "!", c.step)
  else
    let word := c.step.rest.takeWhile fun x => !endsField (some x)
    let (handle, after) ← if word.contains '!' then tagHandle c else pure ("!", c.step)
    let (text, after) ← uri after
    return (some handle, text, after)

def tag : Lex Unit := do
  noteKey
  allowKey false
  let c := (← get).cursor
  let (handle, rest, after) ← tagAt c
  if !endsField after.peek? then throw .malformed
  goTo after
  push (.tag handle rest) c.mark after.mark

def versionNumber (c : Cursor) : Except YamlFault (Nat × Cursor) := do
  let (digits, after) := c.takeWhile Char.isDigit
  if digits.isEmpty then throw .malformed
  return (digits.foldl (fun n d => 10 * n + (d.toNat - 48)) 0, after)

/-- A directive without its percent sign: what it is, and the position after it. -/
def directiveAt (c : Cursor) : Except YamlFault (TokenKind × Cursor) := do
  let (name, after) := c.takeWhile isNameChar
  if name.isEmpty || !endsField after.peek? then throw .malformed
  match String.ofList name with
  | "YAML" =>
    let (major, after) ← versionNumber after.skipSpaces
    if !after.isNext '.' then throw .malformed
    let (_, after) ← versionNumber after.step
    if !endsField after.peek? then throw .malformed
    return (.versionDirective major, after)
  | "TAG" =>
    let (handle, after) ← tagHandle after.skipSpaces
    if !after.isNext ' ' then throw .malformed
    let (expansion, after) ← uri after.skipSpaces
    if !endsField after.peek? then throw .malformed
    return (.tagDirective handle expansion, after)
  | _ => return (.otherDirective, after.skipWhile (!isBreak ·))

def directive : Lex Unit := do
  unwind none
  dropKey
  allowKey false
  let c := (← get).cursor
  let (kind, after) ← directiveAt c.step
  push kind c.mark after.mark
  goTo (← after.ignoredLine)

/-- The least indentation of a line that belongs to a node inside the current block. -/
def innerIndent : Lex Nat := do
  match (← get).indents.head? with
  | some i => return i + 1
  | none => return 0

def block (folded : Bool) : Lex Unit := do
  allowKey true
  dropKey
  let c := (← get).cursor
  let scalar ← blockScalar folded (← innerIndent) c.step
  goTo scalar.after
  push (.scalar (String.ofList scalar.text) (if folded then .folded else .literal)) c.mark scalar.stop

def quoted (double : Bool) : Lex Unit := do
  noteKey
  allowKey false
  let c := (← get).cursor
  let scalar ← quotedScalar double c.step
  goTo scalar.after
  push (.scalar (String.ofList scalar.text) (if double then .double else .single)) c.mark scalar.stop

/-- A plain scalar. A simple key may follow it if its last line has ended. -/
def plain : Lex Unit := do
  noteKey
  let s ← get
  let (scalar, broken) := plainScalar (s.flowLevel ≠ 0) (← innerIndent) s.cursor
  allowKey broken
  goTo scalar.after
  push (.scalar (String.ofList scalar.text) .plain) s.cursor.mark scalar.stop

def startsPlain (inFlow : Bool) (x : Char) (second : Option Char) : Bool :=
  !(endsWord (some x) || "-?:,[]\x7b\x7d#&*!|>'\"%@\x60".toList.contains x) ||
    (!endsWord second && (x == '-' || (!inFlow && (x == '?' || x == ':'))))

/-- Moves to the next token, and closes the blocks that end before it. -/
def settle : Lex Unit := do
  let start := (← get).cursor
  if start.mark.index = 0 && start.isNext '\ufeff' then goTo start.step
  skipToToken ((← get).cursor.rest.length + 1)
  dropStaleKeys
  unwind (some (← get).cursor.column)

/-- Reads a token that starts with the given character. -/
def tokenFrom (inFlow : Bool) (c : Cursor) (x : Char) : Lex Unit :=
  let second := c.peekAt? 1
  if x == '%' && c.column = 0 then directive
  else if x == '-' && c.column = 0 && c.atDocumentMark then documentMark .documentStart
  else if x == '.' && c.column = 0 && c.atDocumentMark then documentMark .documentEnd
  else if x == '[' then flowStart .flowSequenceStart
  else if x == '\x7b' then flowStart .flowMappingStart
  else if x == ']' then flowEnd .flowSequenceEnd
  else if x == '\x7d' then flowEnd .flowMappingEnd
  else if x == ',' then flowEntry
  else if x == '-' && endsWord second then blockEntry
  else if x == '?' && (inFlow || endsWord second) then complexKey
  else if x == ':' && (inFlow || endsWord second) then value
  else if x == '*' then anchorName .aliasOf
  else if x == '&' then anchorName .anchor
  else if x == '!' then tag
  else if x == '|' && !inFlow then block false
  else if x == '>' && !inFlow then block true
  else if x == '\'' then quoted false
  else if x == '"' then quoted true
  else if startsPlain inFlow x second then plain
  else throw .malformed

/-- Reads the token that starts here; false at the end of the text. -/
def tokenHere : Lex Bool := do
  let s ← get
  match s.cursor.peek? with
  | none =>
    streamEnd
    return false
  | some x =>
    tokenFrom (s.flowLevel ≠ 0) s.cursor x
    return true

/-- Reads the next token; false at the end of the text. -/
def token : Lex Bool := do
  settle
  tokenHere

def tokens : Nat → Lex Unit
  | 0 => throw .malformed
  | fuel + 1 => do if ← token then tokens fuel

end Lex

def isAllowed (c : Char) : Bool :=
  let n := c.toNat
  n == 9 || n == 10 || n == 13 || (0x20 ≤ n && n ≤ 0x7e) || n == 0x85 || (0xa0 ≤ n && n ≤ 0xfffd)
    || 0x10000 ≤ n

def lex (text : String) : Except YamlFault (List Token) := do
  let cs := text.toList
  if !cs.all isAllowed then throw .malformed
  let (_, s) ← (Lex.tokens (cs.length + 2)).run { cursor := .ofText cs }
  return s.tokens.reverse

end ServerlessTaint.Yaml
