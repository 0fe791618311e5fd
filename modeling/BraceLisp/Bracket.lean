/-!
The two kinds of bracket. Round brackets enclose a call, curly brackets enclose data.
-/

namespace BraceLisp

inductive Bracket where
  | round
  | curly
  deriving DecidableEq, Repr

namespace Bracket

def opening : Bracket → Char
  | round => '('
  | curly => '\x7b'

def closing : Bracket → Char
  | round => ')'
  | curly => '\x7d'

/-- The bracket that a character opens. -/
def ofOpening? (c : Char) : Option Bracket :=
  if c = round.opening then some round
  else if c = curly.opening then some curly
  else none

/-- The bracket that a character closes. -/
def ofClosing? (c : Char) : Option Bracket :=
  if c = round.closing then some round
  else if c = curly.closing then some curly
  else none

end Bracket

end BraceLisp
