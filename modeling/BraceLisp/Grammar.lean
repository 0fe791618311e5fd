import BraceLisp.Bracket

/-!
The vocabulary of the grammar: its classes of characters and its rules.

A program is a sequence of expressions with gaps between them. A gap is made of blanks and of
comments, and a comment runs from a semicolon to the end of its line. A word is a longest run of
symbol characters: a number if the whole run is a numeral, a symbol otherwise. A group is a
sequence of expressions between a pair of brackets.
-/

namespace BraceLisp.Grammar

def isBlank (c : Char) : Bool :=
  c = ' ' || c = '\t' || c = '\r' || c = '\n'

def isSymbolChar (c : Char) : Bool :=
  c.isAlphanum || c = '_' || c = '+' || c = '-' || c = '*' || c = '/' || c = '\\' || c = '='
    || c = '<' || c = '>' || c = '!' || c = '&'

/-- A numeral is a minus sign or none, then one digit or more. -/
def isNumeral : List Char → Bool
  | '-' :: cs => !cs.isEmpty && cs.all Char.isDigit
  | cs => !cs.isEmpty && cs.all Char.isDigit

inductive Rule where
  | endOfInput
  | blank
  | comment
  | symbolChar
  | number
  | symbol
  | opening (b : Bracket)
  | closing (b : Bracket)
  | group (b : Bracket)
  | expression
  | program
  deriving DecidableEq, Repr

namespace Rule

def all : List Rule :=
  [endOfInput, blank, comment, symbolChar, number, symbol, opening .round, closing .round,
   opening .curly, closing .curly, group .round, group .curly, expression, program]

/-- The name a rule has in messages. -/
def name : Rule → String
  | endOfInput => "EOI"
  | blank => "WHITESPACE"
  | comment => "COMMENT"
  | symbolChar => "symbol_char"
  | number => "number"
  | symbol => "symbol"
  | opening .round => "lparen"
  | opening .curly => "lbrace"
  | closing .round => "rparen"
  | closing .curly => "rbrace"
  | group .round => "sexpr"
  | group .curly => "qexpr"
  | expression => "expr"
  | program => "program"

def ofName? (s : String) : Option Rule := all.find? (·.name == s)

/-- What a reader of a message is told was expected where the rule was tried. -/
def concept : Rule → String
  | endOfInput => "end of input"
  | closing b => String.ofList ['\'', b.closing, '\'']
  | _ => "expression"

end Rule

end BraceLisp.Grammar
