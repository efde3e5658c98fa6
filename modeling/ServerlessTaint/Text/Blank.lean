/-!
# Blank characters and trimming

The blank characters are the separators and control characters that stand for white space in any
script. Trimming removes them at the ends of a text.
-/

namespace ServerlessTaint.Text

/-- White space of any script, and the four separator controls `\x1c` to `\x1f`. -/
def isBlank (c : Char) : Bool :=
  let n := c.toNat
  (9 ≤ n && n ≤ 13) || (28 ≤ n && n ≤ 32) || n == 0x85 || n == 0xA0 || n == 0x1680 ||
    (0x2000 ≤ n && n ≤ 0x200A) || n == 0x2028 || n == 0x2029 || n == 0x202F || n == 0x205F ||
    n == 0x3000

def trimStart (cs : List Char) : List Char := cs.dropWhile isBlank

def trimEnd (cs : List Char) : List Char := (cs.reverse.dropWhile isBlank).reverse

def trim (cs : List Char) : List Char := trimEnd (trimStart cs)

/-- Trimming makes no text longer. -/
theorem length_trim_le (cs : List Char) : (trim cs).length ≤ cs.length := by
  have h1 := (List.dropWhile_sublist (l := (trimStart cs).reverse) isBlank).length_le
  have h2 := (List.dropWhile_sublist (l := cs) isBlank).length_le
  simp only [trim, trimEnd, trimStart, List.length_reverse] at *
  omega

def trimmed (s : String) : String := String.ofList (trim s.toList)

end ServerlessTaint.Text
