/-!
# Lines

Three notions of line occur: the lines of a file read as text, where `\r\n` and `\r` count as `\n`;
the lines kept with their ends; and the lines of a message, which end at any line boundary of the
Unicode standard.
-/

namespace ServerlessTaint.Text

/-- Text as it is read from a file: each `\r\n` and each other `\r` becomes `\n`. -/
def normalizeNewlines : List Char → List Char
  | [] => []
  | '\r' :: '\n' :: rest => '\n' :: normalizeNewlines rest
  | '\r' :: rest => '\n' :: normalizeNewlines rest
  | c :: rest => c :: normalizeNewlines rest

/-- The pieces of a text between the occurrences of a character; always at least one. -/
def splitAt (separator : Char) : List Char → List (List Char)
  | [] => [[]]
  | c :: rest =>
    if c = separator then [] :: splitAt separator rest
    else match splitAt separator rest with
      | [] => [[c]]
      | piece :: pieces => (c :: piece) :: pieces

/-- The lines of a text, each with the `\n` that ends it; only the last may lack it. -/
def linesWithEnds : List Char → List (List Char)
  | [] => []
  | c :: rest =>
    if c = '\n' then ['\n'] :: linesWithEnds rest
    else match linesWithEnds rest with
      | [] => [[c]]
      | line :: lines => (c :: line) :: lines

def isLineBoundary (c : Char) : Bool :=
  let n := c.toNat
  (10 ≤ n && n ≤ 13) || (28 ≤ n && n ≤ 30) || n == 0x85 || n == 0x2028 || n == 0x2029

/-- The lines of a message without their ends; `\r\n` is one end, and an end at the very end of the
text opens no further line. -/
def messageLines : List Char → List (List Char)
  | [] => []
  | '\r' :: '\n' :: rest => [] :: messageLines rest
  | c :: rest =>
    if isLineBoundary c then [] :: messageLines rest
    else match messageLines rest with
      | [] => [[c]]
      | line :: lines => (c :: line) :: lines

def joinWith (separator : List Char) : List (List Char) → List Char
  | [] => []
  | [part] => part
  | part :: parts => part ++ separator ++ joinWith separator parts

def splitString (separator : Char) (s : String) : List String :=
  (splitAt separator s.toList).map String.ofList

def readAsText (s : String) : String := String.ofList (normalizeNewlines s.toList)

end ServerlessTaint.Text
