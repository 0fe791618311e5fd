import BraceLisp.Lexeme

/-!
Joining lines to programs: a program ends with the first line after which no bracket is open.
-/

namespace BraceLisp

/-- The lines of a program that is not complete yet, joined by line feeds. -/
structure LineBuffer where
  pending : String
  deriving DecidableEq, Repr

namespace LineBuffer

def empty : LineBuffer := ⟨""⟩

/-- Adds a line, and answers the program if it is complete. -/
def push (b : LineBuffer) (line : String) : Option String × LineBuffer :=
  let text := if b.pending.isEmpty then line else b.pending ++ "\n" ++ line
  if isIncomplete text then (none, ⟨text⟩) else (some text, empty)

/-- The program that is still incomplete when the lines end. -/
def finish (b : LineBuffer) : Option String :=
  if b.pending.isEmpty then none else some b.pending

/-- Adds lines one after another, with an answer for each. -/
def pushAll (b : LineBuffer) : List String → List (Option String) × LineBuffer
  | [] => ([], b)
  | line :: lines =>
    let (program, b) := b.push line
    let (programs, b) := b.pushAll lines
    (program :: programs, b)

/-- The programs that lines hold, the incomplete one at the end included. -/
def programs (lines : List String) : List String :=
  let (complete, b) := empty.pushAll lines
  complete.filterMap id ++ b.finish.toList

end LineBuffer

end BraceLisp
