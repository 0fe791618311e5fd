/-!
The colours of reports, as the codes that terminals know them by.
-/

namespace BraceLisp.Report

inductive Ink where
  | header
  | margin
  | side
  | text
  | help
  | primary
  | related
  deriving DecidableEq, Repr

def Ink.code : Ink → String
  | header => "31"
  | margin => "38;5;246"
  | side => "38;5;240"
  | text => "38;5;249"
  | help => "38;5;115"
  | primary => "38;5;155"
  | related => "38;5;187"

/-- A text in a colour, or as it is in a report without colours. -/
def paint (coloured : Bool) (ink : Ink) (s : String) : String :=
  if coloured then "\x1b[" ++ ink.code ++ "m" ++ s ++ "\x1b[0m" else s

/-- A text a number of times. -/
def times (n : Nat) (s : String) : String := String.join (List.replicate n s)

end BraceLisp.Report
