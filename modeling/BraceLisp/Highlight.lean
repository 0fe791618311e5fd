import BraceLisp.Builtin
import BraceLisp.Lexeme

/-!
Colours for a line as it is typed.
-/

namespace BraceLisp.Highlight

inductive Colour where
  | white
  | yellow
  | darkGray
  | cyan
  | blue
  | magenta
  | red
  deriving DecidableEq, Repr

/-- A piece of a line in one colour. -/
structure Part where
  colour : Colour
  text : String
  deriving DecidableEq, Repr

/-- The colour of a lexeme. The names of builtins stand out among the symbols. -/
def colour (text : String) : Lexeme.Kind → Colour
  | .opening .round => .white
  | .closing .round => .white
  | .opening .curly => .yellow
  | .closing .curly => .yellow
  | .comment => .darkGray
  | .number => .cyan
  | .symbol => if (Builtin.ofName? text).isSome then .magenta else .blue
  | .invalid => .red

/-- The part of a line between two offsets as a plain part, unless it is empty. -/
def plain (line : List Char) (start stop : Nat) : List Part :=
  if start < stop then [⟨.white, String.ofList (Text.slice start stop line)⟩] else []

/-- The parts of a line after an offset, with the lexemes that follow it. -/
def partsFrom (line : List Char) (done : Nat) : List Lexeme → List Part
  | [] => plain line done (Text.utf8Length line)
  | l :: ls =>
    let text := String.ofList (Text.slice l.span.start l.span.stop line)
    plain line done l.span.start ++ ⟨colour text l.kind, text⟩ :: partsFrom line l.span.stop ls

def parts (line : String) : List Part := partsFrom line.toList 0 (Lexeme.scan line)

end BraceLisp.Highlight
