import BraceLisp.Tree

/-!
What a problem in a source is reported with: a message, the part of the source it is about, and
what else helps to see it.
-/

namespace BraceLisp

/-- A remark on another part of the source. -/
structure Note where
  span : Span
  message : String
  deriving DecidableEq, Repr

structure Diagnostic where
  message : String
  span : Span
  notes : List Note
  help : List String
  code : Option String
  deriving DecidableEq, Repr

/-- The diagnostic as text: the message with its code, and a line for each piece of help. -/
def Diagnostic.summary (d : Diagnostic) : String :=
  "error: " ++ d.message
    ++ (match d.code with | some code => " [" ++ code ++ "]" | none => "")
    ++ String.join (d.help.map fun h => "\nhelp: " ++ h)

end BraceLisp
