import BraceLisp.Grammar
import BraceLisp.Text.Offset
import BraceLisp.Tree

/-!
The expressions of a source: numbers, symbols and groups, each with its place.
-/

namespace BraceLisp

open Grammar

inductive Form where
  | number (span : Span) (text : String)
  | symbol (span : Span) (text : String)
  | group (kind : Bracket) (span : Span) (members : List Form)

/-- What a whole source holds. `size` is its length in bytes. -/
structure Program where
  forms : List Form
  size : Nat

namespace Form

/-- The form of a word that begins at an offset. -/
def word (start : Nat) (cs : List Char) : Form :=
  let span : Span := ⟨start, start + Text.utf8Length cs⟩
  if isNumeral cs then number span (String.ofList cs) else symbol span (String.ofList cs)

def groupTag : Bracket → String
  | .round => "expr|sexpr"
  | .curly => "expr|qexpr"

/-- The leaf of a bracket, which takes one byte. -/
def bracketLeaf (c : Char) (start : Nat) : Tree :=
  .leaf "char" (String.singleton c) ⟨start, start + 1⟩

mutual

/-- The syntax tree of a form. The first and the last child of a group are its brackets. -/
def toTree : Form → Tree
  | number span text => .leaf "expr|number" text span
  | symbol span text => .leaf "expr|symbol" text span
  | group kind span members =>
    .branch (groupTag kind)
      (bracketLeaf kind.opening span.start
        :: (toTrees members ++ [bracketLeaf kind.closing (span.stop - 1)])) span

def toTrees : List Form → List Tree
  | [] => []
  | f :: fs => f.toTree :: toTrees fs

end

end Form

/-- The tag of the root of a tree. -/
def rootTag : String := ">"

/-- The syntax tree of a program. Its root covers the whole source. -/
def Program.toTree (p : Program) : Tree := .branch rootTag (Form.toTrees p.forms) ⟨0, p.size⟩

end BraceLisp
