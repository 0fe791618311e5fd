/-!
Syntax trees with tagged nodes. A tag says what a node is, and it is matched by the words that
occur in it, so that `expr|number` is a number.
-/

namespace BraceLisp

/-- A part of a source, from the offset of its first byte to the offset after its last. -/
structure Span where
  start : Nat
  stop : Nat
  deriving DecidableEq, Repr

/-- Leaves carry their text, groups carry their members in the order of the source, brackets
included. -/
structure Tree where
  tag : String
  text : Option String
  children : List Tree
  span : Span

namespace Tree

def leaf (tag text : String) (span : Span) : Tree := ⟨tag, some text, [], span⟩

def branch (tag : String) (children : List Tree) (span : Span) : Tree := ⟨tag, none, children, span⟩

/-- A text occurs in another as a run of consecutive characters. -/
def occursIn (word : List Char) : List Char → Bool
  | [] => word.isEmpty
  | c :: cs => word.isPrefixOf (c :: cs) || occursIn word cs

def hasTag (t : Tree) (word : String) : Bool := occursIn word.toList t.tag.toList

/-- The line of a node in a dump: its tag, indented by its depth, and its text if it has one. -/
def dumpLine (depth : Nat) (tag : String) (text : Option String) : String :=
  String.ofList (List.replicate (2 * depth) ' ') ++ tag
    ++ (match text with | some s => " '" ++ s ++ "'" | none => "") ++ "\n"

mutual

/-- A line for each node, parents before their children. -/
def dumpAt (depth : Nat) : Tree → String
  | ⟨tag, text, children, _⟩ => dumpLine depth tag text ++ dumpAllAt (depth + 1) children

def dumpAllAt (depth : Nat) : List Tree → String
  | [] => ""
  | t :: ts => t.dumpAt depth ++ dumpAllAt depth ts

end

def dump (t : Tree) : String := t.dumpAt 0

mutual

/-- The nodes with their depths, parents before their children. -/
def nodesAt (depth : Nat) : Tree → List (Nat × Tree)
  | t@⟨_, _, children, _⟩ => (depth, t) :: nodesAllAt (depth + 1) children

def nodesAllAt (depth : Nat) : List Tree → List (Nat × Tree)
  | [] => []
  | t :: ts => t.nodesAt depth ++ nodesAllAt depth ts

end

def nodes (t : Tree) : List (Nat × Tree) := t.nodesAt 0

end Tree

end BraceLisp
