/-!
# Tokens of YAML

A YAML text is read as a stream of tokens: marks of documents, collections and entries, properties
of nodes, and scalars with the style in which they are written.
-/

namespace ServerlessTaint.Yaml

/-- The ways in which a text can fail to be a YAML document: it is not well formed, or an escape
names a code point beyond the last one, or a number too large for one. -/
inductive YamlFault where
  | malformed
  | codePointOutOfRange
  | codePointTooLarge
  deriving DecidableEq, Repr, Inhabited

/-- A place in a text, counted in characters from 0. -/
structure Mark where
  index : Nat
  line : Nat
  column : Nat
  deriving DecidableEq, Repr, Inhabited

/-- The styles of scalars. -/
inductive Style where
  | plain
  | single
  | double
  | literal
  | folded
  deriving DecidableEq, Repr, Inhabited

/-- What a token is. A tag is a handle, if there is one, and the rest. -/
inductive TokenKind where
  | versionDirective (major : Nat)
  | tagDirective (handle : String) (expansion : String)
  | otherDirective
  | documentStart
  | documentEnd
  | streamEnd
  | blockSequenceStart
  | blockMappingStart
  | blockEnd
  | flowSequenceStart
  | flowSequenceEnd
  | flowMappingStart
  | flowMappingEnd
  | blockEntry
  | flowEntry
  | key
  | value
  | aliasOf (name : String)
  | anchor (name : String)
  | tag (handle : Option String) (rest : String)
  | scalar (text : String) (style : Style)
  deriving DecidableEq, Repr, Inhabited

/-- A token and its place. -/
structure Token where
  kind : TokenKind
  start : Mark
  stop : Mark
  deriving DecidableEq, Repr, Inhabited

end ServerlessTaint.Yaml
