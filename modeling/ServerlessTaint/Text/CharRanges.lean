/-!
# Sets of characters given by ranges of code points

A character property of the Unicode standard is a list of closed ranges of code points. The tables
of this folder hold only the part above the ASCII block: the ASCII part of each property is written
out beside its table, so that it can be read and computed with directly.
-/

namespace ServerlessTaint.Text

/-- Closed ranges of code points, in increasing order. -/
abbrev CharRanges := List (Nat × Nat)

/-- The ranges that are told by their lengths: from a code point on, how many code points are left out
and how many belong to the set, in turn. -/
def CharRanges.ofRuns : Nat → List Nat → CharRanges
  | low, skipped :: length :: more =>
    (low + skipped, low + skipped + length - 1) :: ofRuns (low + skipped + length) more
  | _, _ => []

def CharRanges.contains (ranges : CharRanges) (c : Char) : Bool :=
  ranges.any fun (low, high) => low ≤ c.toNat && c.toNat ≤ high

end ServerlessTaint.Text
