import BraceLisp.Value.OfTree
import Mathlib.Tactic.Lemma

/-!
What a program reads as.

The value of a form is defined on the form itself, and reading the syntax tree of a form gives
that value (`ofTree_toTree`): the leaves of its brackets are passed over, and nothing else is.
-/

namespace BraceLisp

/-- The list that a pair of brackets encloses. -/
def Bracket.list : Bracket → List Value → Value
  | round => .sexpr
  | curly => .qexpr

namespace Form

mutual

def value : Form → Value
  | number _ text => .ofNumeral (some text)
  | symbol _ text => .symbol text
  | group kind _ members => kind.list (values members)

def values : List Form → List Value
  | [] => []
  | f :: fs => f.value :: values fs

end

lemma values_eq_map (fs : List Form) : values fs = fs.map value := by
  induction fs with
  | nil => rfl
  | cons f fs ih => rw [values, ih, List.map_cons]

lemma values_append (fs gs : List Form) : values (fs ++ gs) = values fs ++ values gs := by
  simp [values_eq_map]

lemma isPunctuation_toTree (f : Form) : f.toTree.isPunctuation = false := by
  cases f with
  | group kind => cases kind <;>
      simp [toTree, groupTag, Tree.branch, Tree.isPunctuation, Tree.meaningfulWords, Tree.hasTag,
        Tree.occursIn]
  | _ => simp [toTree, Tree.leaf, Tree.isPunctuation, Tree.meaningfulWords, Tree.hasTag,
      Tree.occursIn]

lemma isPunctuation_bracketLeaf (c : Char) (start : Nat) :
    (bracketLeaf c start).isPunctuation = true := by
  simp [bracketLeaf, Tree.leaf, Tree.isPunctuation, Tree.meaningfulWords, Tree.hasTag,
    Tree.occursIn, List.isPrefixOf]

end Form

namespace Value

open Form

/-- A node with a meaning gives a value, a node without one gives none. -/
lemma ofTrees_cons (t : Tree) (ts : List Tree) :
    ofTrees (t :: ts) = if t.isPunctuation then ofTrees ts else ofTree t :: ofTrees ts := by
  rw [ofTrees]

lemma ofTrees_append (ts us : List Tree) : ofTrees (ts ++ us) = ofTrees ts ++ ofTrees us := by
  induction ts with
  | nil => rfl
  | cons t ts ih =>
    rw [List.cons_append, ofTrees_cons, ofTrees_cons, ih]
    split <;> rfl

/-- The brackets around nodes are not read. -/
lemma ofTrees_bracketed (c d : Char) (start stop : Nat) (ts : List Tree) :
    ofTrees (bracketLeaf c start :: (ts ++ [bracketLeaf d stop])) = ofTrees ts := by
  rw [ofTrees_cons, isPunctuation_bracketLeaf, if_pos rfl, ofTrees_append, ofTrees_cons,
    isPunctuation_bracketLeaf, if_pos rfl, ofTrees, List.append_nil]

lemma ofTree_groupTag (kind : Bracket) (ts : List Tree) (span : Span) :
    ofTree (.branch (groupTag kind) ts span) = kind.list (ofTrees ts) := by
  cases kind <;>
    simp [Tree.branch, groupTag, ofTree, Tree.hasTag, Tree.occursIn, Bracket.list, rootTag]

mutual

/-- Reading the syntax tree of a form gives the value of the form. -/
theorem ofTree_toTree : ∀ f : Form, ofTree f.toTree = f.value
  | .number span text => by
    simp [toTree, Tree.leaf, ofTree, Tree.hasTag, Tree.occursIn, Form.value]
  | .symbol span text => by
    simp [toTree, Tree.leaf, ofTree, Tree.hasTag, Tree.occursIn, Form.value, ofSymbolText]
  | .group kind span members => by
    rw [toTree, ofTree_groupTag, ofTrees_bracketed, ofTrees_toTrees members, Form.value]

theorem ofTrees_toTrees : ∀ fs : List Form, ofTrees (toTrees fs) = values fs
  | [] => rfl
  | f :: fs => by
    rw [toTrees, ofTrees_cons, isPunctuation_toTree, ofTree_toTree f, ofTrees_toTrees fs]
    rfl

end

/-- A program reads as the S-expression of what its forms read as. -/
theorem ofTree_program (p : Program) : ofTree p.toTree = .sexpr (values p.forms) := by
  rw [← ofTrees_toTrees, Program.toTree, Tree.branch, ofTree]
  simp [Tree.hasTag, rootTag, Tree.occursIn]

end Value

end BraceLisp
