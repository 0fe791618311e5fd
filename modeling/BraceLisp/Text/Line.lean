import BraceLisp.Text.Blank

/-!
The lines of a text. A line holds the characters that end it, and a carriage return before a
line feed ends a line together with it. Places are counted in characters.
-/

namespace BraceLisp.Text

structure Line where
  start : Nat
  text : List Char

namespace Line

/-- The place after the last character of the line. -/
def stop (l : Line) : Nat := l.start + l.text.length

end Line

/-- The lines of what is still to be read. `start` is where the current line begins, `sofar`
holds its characters, the last one first. -/
def linesFrom (start : Nat) (sofar : List Char) : List Char → List Line
  | [] => if sofar.isEmpty then [] else [⟨start, sofar.reverse⟩]
  | '\r' :: '\n' :: cs =>
    ⟨start, ('\n' :: '\r' :: sofar).reverse⟩ :: linesFrom (start + sofar.length + 2) [] cs
  | c :: cs =>
    if isLineEnd c then ⟨start, (c :: sofar).reverse⟩ :: linesFrom (start + sofar.length + 1) [] cs
    else linesFrom start (c :: sofar) cs

/-- The lines of a text. The empty text has one empty line. -/
def lines (cs : List Char) : List Line :=
  if cs.isEmpty then [⟨0, []⟩] else linesFrom 0 [] cs

end BraceLisp.Text
