import ServerlessTaint.Text.Blank
import ServerlessTaint.Text.Digit
import ServerlessTaint.Text.Word

/-!
# Search patterns

A pattern describes texts. `rests` lists what can be left of a text after a match at its start, best
choice first, so a search is a matter of taking the first element. `deleteAll` removes every match.
-/

namespace ServerlessTaint

namespace Pattern

/-- A class of characters. -/
inductive CharClass where
  | digit
  | blank
  | word
  deriving DecidableEq, Repr

def CharClass.accepts : CharClass → Char → Bool
  | .digit, c => Text.isDecimalDigit c
  | .blank, c => Text.isBlank c
  | .word, c => Text.isWord c

/-- A part of a set of characters. -/
inductive CharItem where
  | range (first last : Char)
  | ofClass (inside : Bool) (c : CharClass)
  deriving DecidableEq, Repr

/-- The character is in the part. -/
def CharItem.accepts : CharItem → Char → Bool
  | .range first last, c => first ≤ c && c ≤ last
  | .ofClass inside k, c => k.accepts c == inside

/-- A set of characters: those in one of the parts, or those in none. -/
structure CharSet where
  inside : Bool
  items : List CharItem
  deriving DecidableEq, Repr

namespace CharSet

def accepts (s : CharSet) (c : Char) : Bool := s.items.any (·.accepts c) == s.inside

def only (c : Char) : CharSet := ⟨true, [.range c c]⟩

/-- The set of all characters that do not end a line. -/
def any : CharSet := ⟨false, [.range '\n' '\n']⟩

end CharSet

/-- A place in a text, described by what stands around it. -/
inductive Anchor where
  | start
  | stop
  | lastLineEnd
  | wordEdge
  | noWordEdge
  deriving DecidableEq, Repr

/-- The rest of a text, with the character before it. -/
structure Cursor where
  before : Option Char
  rest : List Char
  deriving DecidableEq, Repr

def Cursor.atWordEdge (c : Cursor) : Bool := c.before.any Text.isWord != c.rest.head?.any Text.isWord

def Anchor.holds : Anchor → Cursor → Bool
  | .start, c => c.before.isNone
  | .stop, c => c.rest.isEmpty
  | .lastLineEnd, c => c.rest.isEmpty || c.rest == ['\n']
  | .wordEdge, c => c.atWordEdge
  | .noWordEdge, c => !c.atWordEdge

end Pattern

/-- A search pattern. `best` takes the best match of its body and no other. -/
inductive Pattern where
  | empty
  | one (set : Pattern.CharSet)
  | anchor (a : Pattern.Anchor)
  | sequence (first second : Pattern)
  | choice (first second : Pattern)
  | repetition (least : Nat) (most : Option Nat) (greedy : Bool) (body : Pattern)
  | best (body : Pattern)
  deriving DecidableEq, Repr

namespace Pattern

def exactly (step : Cursor → List Cursor) (count : Nat) (c : Cursor) : List Cursor :=
  (List.range count).foldl (fun cs _ => cs.flatMap step) [c]

def upTo (step : Cursor → List Cursor) (greedy : Bool) : Nat → Cursor → List Cursor
  | 0, c => [c]
  | count + 1, c =>
    let more := ((step c).filter fun d => d.rest.length < c.rest.length).flatMap (upTo step greedy count)
    if greedy then more ++ [c] else c :: more

/-- The cursors after a match, best choice first. -/
def rests : Pattern → Cursor → List Cursor
  | .empty, c => [c]
  | .one set, c =>
    match c.rest with
    | x :: rest => if set.accepts x then [⟨some x, rest⟩] else []
    | [] => []
  | .anchor a, c => if a.holds c then [c] else []
  | .sequence p q, c => (p.rests c).flatMap q.rests
  | .choice p q, c => p.rests c ++ q.rests c
  | .repetition least most greedy p, c =>
    (exactly p.rests least c).flatMap fun d =>
      upTo p.rests greedy ((most.map (· - least)).elim d.rest.length (min d.rest.length)) d
  | .best p, c => (p.rests c).take 1

def matchLength? (p : Pattern) (c : Cursor) : Option Nat :=
  ((p.rests c).find? fun d => d.rest.length < c.rest.length).map fun d => c.rest.length - d.rest.length

/-- A text without the matches of a pattern. `skipped` characters belong to a match. -/
def deleteFrom (p : Pattern) (before : Option Char) : Nat → List Char → List Char
  | _, [] => []
  | skipped + 1, c :: rest => deleteFrom p (some c) skipped rest
  | 0, c :: rest =>
    match p.matchLength? ⟨before, c :: rest⟩ with
    | some length => deleteFrom p (some c) (length - 1) rest
    | none => c :: deleteFrom p (some c) 0 rest

def deleteAll (p : Pattern) (text : String) : String := String.ofList (deleteFrom p none 0 text.toList)

end Pattern

end ServerlessTaint
