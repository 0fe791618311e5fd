import BraceLisp.Bracket
import BraceLisp.Grammar
import BraceLisp.Text.Offset
import BraceLisp.Tree

/-!
The lexemes of a line as it is typed, found without parsing. At each place the kind with the
longest match wins, and of two kinds with the same length the one listed first.
-/

namespace BraceLisp

inductive Lexeme.Kind where
  | opening (b : Bracket)
  | closing (b : Bracket)
  | comment
  | number
  | symbol
  | invalid
  deriving DecidableEq, Repr

structure Lexeme where
  kind : Lexeme.Kind
  span : Span
  deriving DecidableEq, Repr

namespace Lexeme

/-- The characters between lexemes. A form feed is one of them, although no program may hold
one. -/
def isSpace (c : Char) : Bool :=
  c = ' ' || c = '\t' || c = '\r' || c = '\n' || c = '\x0c'

namespace Kind

/-- One if a text begins with the character. -/
def oneIf (c : Char) (cs : List Char) : Nat := if cs.head? = some c then 1 else 0

/-- How many characters at the start of a text a kind matches. Zero means no match. -/
def reach (cs : List Char) : Kind → Nat
  | opening b => oneIf b.opening cs
  | closing b => oneIf b.closing cs
  | comment => if cs.head? = some ';' then (cs.takeWhile (· != '\n')).length else 0
  | number =>
    let sign := oneIf '-' cs
    let digits := ((cs.drop sign).takeWhile Char.isDigit).length
    if digits = 0 then 0 else sign + digits
  | symbol => (cs.takeWhile Grammar.isSymbolChar).length
  | invalid => 0

/-- The kinds that match something. A number goes before a symbol of its length. -/
def all : List Kind :=
  [opening .round, closing .round, opening .curly, closing .curly, comment, number, symbol]

/-- The kind with the longest match, with its length, among some kinds and the best one before
them. -/
def longest (cs : List Char) (best : Kind × Nat) : List Kind → Kind × Nat
  | [] => best
  | k :: ks => longest cs (if best.2 < k.reach cs then (k, k.reach cs) else best) ks

end Kind

/-- The kind of the lexeme at the start of a text, and its length in characters. A character
that begins no lexeme is invalid, alone. -/
def first (cs : List Char) : Kind × Nat :=
  let (kind, n) := Kind.longest cs (.invalid, 0) Kind.all
  (kind, max n 1)

/-- The lexemes of a text that begins at an offset. -/
def scanFrom (pos : Nat) : List Char → List Lexeme
  | [] => []
  | c :: cs =>
    if isSpace c then scanFrom (pos + c.utf8Size) cs
    else
      let (kind, n) := first (c :: cs)
      let stop := pos + Text.utf8Length ((c :: cs).take n)
      ⟨kind, ⟨pos, stop⟩⟩ :: scanFrom stop (cs.drop (n - 1))
  termination_by cs => cs.length
  decreasing_by all_goals (simp only [List.length_cons, List.length_drop]; omega)

def scan (line : String) : List Lexeme := scanFrom 0 line.toList

/-- What a lexeme adds to the number of open brackets. -/
def weight (l : Lexeme) : Int :=
  match l.kind with
  | .opening _ => 1
  | .closing _ => -1
  | _ => 0

def isInvalid (l : Lexeme) : Bool := l.kind = .invalid

/-- The number of brackets that are open after some lexemes, whatever their kinds, and never
below zero. There is no answer if one of the lexemes is invalid. -/
def openCount? (ls : List Lexeme) : Option Nat :=
  if ls.any isInvalid then none else some (ls.foldr (fun l n => weight l + n) 0).toNat

end Lexeme

/-- The number of brackets that are open at the end of a text. -/
def openBrackets? (text : String) : Option Nat := Lexeme.openCount? (Lexeme.scan text)

/-- A text that still waits for closing brackets. If it cannot be told, the parser decides. -/
def isIncomplete (text : String) : Bool :=
  match openBrackets? text with
  | some n => decide (0 < n)
  | none => false

end BraceLisp
