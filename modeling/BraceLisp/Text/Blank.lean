import BraceLisp.Text.Ranges

/-!
The characters with the Unicode property `White_Space`, and the ends of lines.
-/

namespace BraceLisp.Text

/-- The ranges of the property `White_Space`, both ends included. -/
def whiteSpace : List (Nat × Nat) :=
  [(0x0009, 0x000D), (0x0020, 0x0020), (0x0085, 0x0085), (0x00A0, 0x00A0), (0x1680, 0x1680),
   (0x2000, 0x200A), (0x2028, 0x2029), (0x202F, 0x202F), (0x205F, 0x205F), (0x3000, 0x3000)]

def isWhiteSpace (c : Char) : Bool := inRanges whiteSpace c

/-- A text without the white space at its end. -/
def trimEnd (cs : List Char) : List Char :=
  (cs.reverse.dropWhile isWhiteSpace).reverse

/-- The characters that end a line: line feed, vertical tab, form feed, carriage return, next
line, line separator and paragraph separator. -/
def isLineEnd (c : Char) : Bool :=
  (0x000A ≤ c.toNat && c.toNat ≤ 0x000D) || c.toNat = 0x0085 || c.toNat = 0x2028
    || c.toNat = 0x2029

end BraceLisp.Text
