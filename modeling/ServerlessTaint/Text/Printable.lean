import ServerlessTaint.Text.Word

/-!
# Printable characters

A printable character is shown as itself in quoted text; all others are escaped. Separators other
than the space, control characters, surrogates and unassigned code points are not printable.
-/

namespace ServerlessTaint.Text

/-- Symbols and punctuation above the ASCII block, and the characters of words and identifiers between them. -/
def symbolRanges : CharRanges := .ofRuns 128 [
  33, 12, 1, 712, 8, 1, 5, 2, 112, 148, 208, 49, 2, 3, 46, 9, 44, 2, 17, 22, 1, 184, 9, 48, 232, 4, 4, 2, 48, 15, 31, 1,
  41, 1, 219, 13, 129, 12, 120, 1, 121, 2, 126, 1, 130, 8, 124, 14, 202, 1, 41, 1, 122, 1, 74, 29, 165, 61, 71, 1, 56,
  15, 1, 13, 111, 86, 91, 1, 612, 9, 39, 10, 102, 623, 44, 2, 78, 3, 71, 2, 157, 8, 36, 11, 309, 1, 3, 2, 152, 34, 30,
  2, 128, 14, 16, 1, 155, 37, 125, 4, 59, 5, 62, 2, 64, 8, 11, 1, 745, 5, 11, 3, 13, 19, 13, 2, 17, 24, 8, 47, 27, 21,
  17, 33, 28, 8, 27, 140, 4, 663, 25, 11, 81, 1752, 2, 32, 1, 340, 14, 7, 112, 1, 143, 94, 34, 26, 1, 89, 12, 214, 26,
  12, 5, 63, 91, 97, 148, 84, 28, 31, 11, 7126, 22160, 55, 55, 274, 96, 136, 8, 139, 157, 4, 10, 4, 58, 4, 86, 2, 40,
  56, 47, 1, 97, 13, 16, 2, 124, 30, 100, 20, 105, 17, 127, 1, 20285, 1, 136, 17, 379, 18, 127, 1, 44, 30, 22, 35, 1,
  19, 1, 4, 149, 101, 122, 7, 1, 7, 13, 2, 258, 3, 52, 88, 1, 13, 3, 1, 47, 45, 418, 1, 48, 1, 414, 1, 743, 34, 166, 1,
  31, 1, 272, 9, 38, 1, 72, 1, 39, 7, 66, 7, 89, 4, 784, 1, 167, 5, 44, 4, 189, 7, 109, 2, 1, 4, 126, 4, 48, 2, 79, 27,
  88, 6, 107, 1, 417, 17, 1, 1, 104, 1, 250, 23, 105, 3, 28, 13, 76, 1, 130, 4, 251, 1, 264, 3, 155, 1, 92, 8, 83, 9,
  414, 5, 42, 2, 645, 2, 220, 29, 13, 1, 1136, 5, 2940, 2, 14971, 2, 133, 1, 65, 15, 849, 4, 327, 1, 19641, 4, 4784,
  116, 60, 246, 10, 39, 2, 68, 22, 104, 21, 70, 186, 87, 874, 259, 60, 652, 1731, 1, 431, 1, 1630, 2, 844, 5, 125, 1,
  449, 2, 270, 44, 4, 100, 12, 15, 2, 15, 1, 15, 1, 37, 23, 161, 56, 29, 13, 44, 4, 9, 7, 2, 14, 6, 154, 984, 5, 16, 3,
  13, 3, 116, 12, 89, 7, 12, 4, 1, 15, 12, 4, 56, 8, 10, 6, 40, 8, 30, 2, 2, 78, 340, 12, 14, 2, 5, 3, 5, 3, 7, 9, 29,
  3, 11, 5, 6, 10, 10, 6, 8, 8, 7, 9, 147, 1, 55]

/-- The character is shown as itself in quoted text. -/
def isPrintable (c : Char) : Bool :=
  if c.toNat < 128 then 32 ≤ c.toNat && c.toNat < 127
  else isWord c || isIdentifierPart c || symbolRanges.contains c

end ServerlessTaint.Text
