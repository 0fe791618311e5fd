import BraceLisp.Form.Scan
import BraceLisp.ParseError

/-!
Parsing a source: into a program, into a syntax tree, and by a single rule of the grammar.
-/

namespace BraceLisp

open Grammar

/-- The depth to which brackets may nest unless another limit is given. -/
def defaultNesting : Nat := 256

/-- The error of a scan that stopped. -/
def Scan.parseError (source : String) (s : Scan) : ParseError :=
  .ofMismatch source ⟨s.pos, s.pos⟩ s.expected []

/-- The program of a source, whatever its nesting. -/
def Program.ofSource (source : String) : Except ParseError Program :=
  (Program.ofChars source.toList).mapError (Scan.parseError source)

/-- Brackets that nest too deep are refused before anything else is looked at. -/
def Program.parse (source : String) (limit : Nat) : Except ParseError Program :=
  match Nesting.tooDeep? limit source.toList with
  | some (pos, depth) => .error ⟨.tooDeep depth limit, source, ⟨pos, pos + 1⟩⟩
  | none => Program.ofSource source

/-- The syntax tree of a source. -/
def Tree.parse (source : String) (limit : Nat) : Except ParseError Tree :=
  (Program.parse source limit).map Program.toTree

/-- A place where a rule matched. `depth` is the number of matches around it. -/
structure Match where
  depth : Nat
  rule : Rule
  span : Span
  deriving DecidableEq, Repr

namespace Form

mutual

/-- The matches that a form is made of, outer ones first. -/
def matchesAt (depth : Nat) : Form → List Match
  | number span _ => [⟨depth, .number, span⟩]
  | symbol span _ => [⟨depth, .symbol, span⟩]
  | group kind span members =>
    ⟨depth, .group kind, span⟩ :: ⟨depth + 1, .opening kind, ⟨span.start, span.start + 1⟩⟩
      :: (allMatchesAt (depth + 1) members
        ++ [⟨depth + 1, .closing kind, ⟨span.stop - 1, span.stop⟩⟩])

def allMatchesAt (depth : Nat) : List Form → List Match
  | [] => []
  | f :: fs => f.matchesAt depth ++ allMatchesAt depth fs

end

end Form

/-- The matches that a program is made of. The last one is the end of the input. -/
def Program.allMatches (p : Program) : List Match :=
  ⟨0, .program, ⟨0, p.size⟩⟩
    :: (Form.allMatchesAt 1 p.forms ++ [⟨1, .endOfInput, ⟨p.size, p.size⟩⟩])

namespace Grammar.Rule

/-- The rules that are tried first where a rule is tried. -/
def firsts : Rule → List Rule
  | expression => [number, symbol, group .round, group .curly]
  | r => [r]

/-- The word at the start of a text, if it is one that the rule takes. -/
def word? (cs : List Char) (accepts : List Char → Bool) : Option (List Char) :=
  let word := cs.takeWhile isSymbolChar
  if !word.isEmpty && accepts word then some word else none

/-- The group at the start of a text: none if another character stands there. -/
def group? (b : Bracket) : List Char → Option (Except Scan Form)
  | [] => none
  | c :: cs => if c = b.opening then (Scan.init.step c).map (·.runGroup cs) else none

/-- The character at the start of a text, if it is the given one. -/
def char? (r : Rule) (c : Char) (cs : List Char) : Option (List Match) :=
  if cs.head? = some c then some [⟨0, r, ⟨0, c.utf8Size⟩⟩] else none

/-- The number at the start of a text. The numeral is not followed by a symbol character. -/
def number? (cs : List Char) : Option Form := (word? cs isNumeral).map (Form.word 0)

/-- The symbol at the start of a text, which may look like a number. -/
def symbol? (cs : List Char) : Option Form :=
  (word? cs fun _ => true).map fun w => .symbol ⟨0, Text.utf8Length w⟩ (String.ofList w)

/-- The first form of a text that begins with one. -/
def form? (r : Rule) (cs : List Char) : Option (Except Scan Form) :=
  match r with
  | number => (number? cs).map .ok
  | symbol => (symbol? cs).map .ok
  | group b => group? b cs
  | expression =>
    ((number? cs).map .ok).orElse fun _ => ((symbol? cs).map .ok).orElse fun _ =>
      (group? .round cs).orElse fun _ => group? .curly cs
  | _ => none

/-- The matches of a rule at the start of a source. What follows the match is not looked at, and
no gap is passed over before it. -/
def matchAtStart (r : Rule) (source : String) : Except ParseError (List Match) :=
  let cs := source.toList
  let refuse := Except.error (ParseError.ofMismatch source ⟨0, 0⟩ r.firsts [])
  match r with
  | program => (Program.ofSource source).map Program.allMatches
  | opening b => ((char? r b.opening cs).map Except.ok).getD refuse
  | closing b => ((char? r b.closing cs).map Except.ok).getD refuse
  | r =>
    match form? r cs with
    | some result => (result.mapError (Scan.parseError source)).map (Form.matchesAt 0)
    | none => refuse

end Grammar.Rule

end BraceLisp
