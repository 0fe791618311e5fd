import BraceLisp.Bracket
import BraceLisp.Text.Decimal
import BraceLisp.Value

/-!
Values as text. Numbers, symbols, S- and Q-expressions are written as they are read.
-/

namespace BraceLisp

/-- A text between two brackets. -/
def Bracket.enclose (b : Bracket) (s : String) : String :=
  String.singleton b.opening ++ s ++ String.singleton b.closing

namespace Value

mutual

def render : Value → String
  | number n => String.ofList (Text.decimal n.toInt)
  | symbol name => name
  | error message => "Error: " ++ message
  | builtin _ => "<builtin>"
  | closure formals body _ =>
    Bracket.round.enclose ("\\ " ++ Bracket.curly.enclose (" ".intercalate formals) ++ " "
      ++ Bracket.curly.enclose (renderAll body))
  | sexpr cells => Bracket.round.enclose (renderAll cells)
  | qexpr cells => Bracket.curly.enclose (renderAll cells)

/-- The values one after another, with a space between two of them. -/
def renderAll : List Value → String
  | [] => ""
  | [v] => v.render
  | v :: w :: vs => v.render ++ " " ++ renderAll (w :: vs)

end

end Value

end BraceLisp
