import BraceLisp.Bracket

/-!
What the brackets of a source say before it is parsed: where they first nest too deep, and which
of them is open at the end. Brackets in comments do not count, and the kinds of brackets are not
compared.
-/

namespace BraceLisp.Nesting

def isOpening (c : Char) : Bool := (Bracket.ofOpening? c).isSome

def isClosing (c : Char) : Bool := (Bracket.ofClosing? c).isSome

/-- The offset and the depth of the first opening bracket that nests deeper than `limit`, when
`depth` brackets are open at the offset `pos`. A closing bracket without an open one is passed
over. -/
def tooDeepFrom? (limit pos depth : Nat) (inComment : Bool) : List Char → Option (Nat × Nat)
  | [] => none
  | c :: cs =>
    let next := pos + c.utf8Size
    if inComment then tooDeepFrom? limit next depth (c != '\n') cs
    else if c = ';' then tooDeepFrom? limit next depth true cs
    else if isOpening c then
      if depth + 1 > limit then some (pos, depth + 1)
      else tooDeepFrom? limit next (depth + 1) false cs
    else if isClosing c then tooDeepFrom? limit next (depth - 1) false cs
    else tooDeepFrom? limit next depth false cs

/-- The offset and the depth of the first opening bracket that nests deeper than `limit`. -/
def tooDeep? (limit : Nat) (cs : List Char) : Option (Nat × Nat) :=
  tooDeepFrom? limit 0 0 false cs

/-- The offsets of the brackets that are open at the end, the innermost first, when `openers` are
open at the offset `pos`. -/
def stillOpenFrom (pos : Nat) (openers : List Nat) (inComment : Bool) : List Char → List Nat
  | [] => openers
  | c :: cs =>
    let next := pos + c.utf8Size
    if inComment then stillOpenFrom next openers (c != '\n') cs
    else if c = ';' then stillOpenFrom next openers true cs
    else if isOpening c then stillOpenFrom next (pos :: openers) false cs
    else if isClosing c then stillOpenFrom next openers.tail false cs
    else stillOpenFrom next openers false cs

/-- The offset of the innermost bracket that is open at the end. -/
def lastOpen? (cs : List Char) : Option Nat := (stillOpenFrom 0 [] false cs).head?

end BraceLisp.Nesting
