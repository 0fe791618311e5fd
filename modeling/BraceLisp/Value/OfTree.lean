import BraceLisp.EvalError
import BraceLisp.Form
import BraceLisp.Text.Decimal

/-!
Reading a syntax tree as a value. Nothing is evaluated, and a malformed leaf reads as an error.
-/

namespace BraceLisp

namespace Tree

/-- The words in tags that say what a node means. -/
def meaningfulWords : List String := ["number", "symbol", "sexpr", "qexpr"]

/-- The texts that are only brackets. -/
def bracketTexts : List String :=
  [Bracket.round, Bracket.curly].flatMap fun b =>
    [String.singleton b.opening, String.singleton b.closing]

/-- A node without a meaning of its own. -/
def isPunctuation (t : Tree) : Bool :=
  !meaningfulWords.any t.hasTag
    && (t.hasTag "char" || t.hasTag "regex"
      || (match t.text with | some s => bracketTexts.contains s | none => false))

end Tree

namespace Value

/-- Reads the text of a number. -/
def ofNumeral (text : Option String) : Value :=
  match text.bind fun s => Text.readInt64? s.toList with
  | some n => number n
  | none => EvalError.notANumeral.toValue

/-- Reads the text of a symbol. -/
def ofSymbolText (text : Option String) : Value :=
  match text with
  | some s => symbol s
  | none => EvalError.notASymbol.toValue

mutual

/-- The root of a program reads as the S-expression of what it holds. -/
def ofTree : Tree → Value
  | t@⟨tag, text, children, _⟩ =>
    if t.hasTag "number" then ofNumeral text
    else if t.hasTag "symbol" then ofSymbolText text
    else if tag = rootTag || t.hasTag "sexpr" then sexpr (ofTrees children)
    else if t.hasTag "qexpr" then qexpr (ofTrees children)
    else (EvalError.unknownNode tag).toValue

/-- Reads the nodes that have a meaning. -/
def ofTrees : List Tree → List Value
  | [] => []
  | t :: ts => if t.isPunctuation then ofTrees ts else ofTree t :: ofTrees ts

end

end Value

end BraceLisp
