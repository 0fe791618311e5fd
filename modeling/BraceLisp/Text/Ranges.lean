/-!
Sets of characters, given as lists of ranges of code points with both ends included.
-/

namespace BraceLisp.Text

/-- The character lies in one of the ranges. -/
def inRanges (ranges : List (Nat × Nat)) (c : Char) : Bool :=
  ranges.any fun (first, last) => decide (first ≤ c.toNat) && decide (c.toNat ≤ last)

end BraceLisp.Text
