import BraceLisp.Diagnostic
import BraceLisp.Grammar
import BraceLisp.Nesting
import BraceLisp.Text.Blank
import BraceLisp.Text.Offset

/-!
Why a source was not parsed, and how that is explained.
-/

namespace BraceLisp

open Grammar

inductive ParseError.Cause where
  | unexpected (expected found : String)
  | unclosed (delimiter : Char)
  | tooDeep (depth limit : Nat)
  | other (message : String)
  deriving DecidableEq, Repr

structure ParseError where
  cause : ParseError.Cause
  source : String
  span : Span
  deriving DecidableEq, Repr

namespace ParseError

namespace Cause

def message : Cause → String
  | unexpected expected found => "Expected " ++ expected ++ ", found " ++ found
  | unclosed delimiter => "Unclosed delimiter, expected '" ++ String.singleton delimiter ++ "'"
  | tooDeep _ limit =>
    "Expression nesting depth exceeds maximum of " ++ toString limit ++ " levels"
  | other message => message

def code : Cause → String
  | unexpected .. => "P001"
  | unclosed _ => "P002"
  | tooDeep .. => "P004"
  | other _ => "P999"

def help : Cause → List String
  | unclosed _ => ["Add the missing closing delimiter"]
  | tooDeep .. => ["Reduce nesting or simplify the expression"]
  | _ => []

/-- A missing closing bracket is noted at the innermost bracket that is open at the end. -/
def notes (source : String) : Cause → List Note
  | unclosed _ =>
    match Nesting.lastOpen? source.toList with
    | some pos => [⟨⟨pos, pos + 1⟩, "Unclosed delimiter opened here"⟩]
    | none => []
  | _ => []

end Cause

def diagnostic (e : ParseError) : Diagnostic where
  message := e.cause.message
  span := e.span
  notes := e.cause.notes e.source
  help := e.cause.help
  code := some e.cause.code

def summary (e : ParseError) : String := e.diagnostic.summary

/-- A list in words: commas between the items, and `or` before the last of several. -/
def alternatives : List String → String
  | [] => "something else"
  | [only] => only
  | items => ", ".intercalate items.dropLast ++ " or " ++ items.getLastD ""

/-- What was expected, in words, where some rules were tried. Each concept is named once. -/
def describeExpected (rules : List Rule) : String :=
  alternatives (rules.map Rule.concept).eraseDups

/-- What was found at an offset, in words. A rule that must not match there and did goes before
the character. -/
def describeFound (source : List Char) (pos : Nat) (unwanted : List Rule) : String :=
  match unwanted with
  | rule :: _ => rule.name
  | [] =>
    match Text.charAt? pos source with
    | some c => String.ofList ['\'', c, '\'']
    | none => "end of input"

/-- The bracket that the first closing rule of a list stands for. -/
def closing? (rules : List Rule) : Option Bracket :=
  rules.findSome? fun
    | .closing b => some b
    | _ => none

/-- Nothing but white space follows an offset. -/
def atEnd (source : List Char) (pos : Nat) : Bool :=
  decide (Text.utf8Length (Text.trimEnd source) ≤ pos)

/-- The error of a parse that failed at the start of `span`, where the rules `wanted` were tried
and the rules `unwanted` had to fail. At the end of the source a bracket that could have been
closed is what is missing, even if more could have come before it. -/
def ofMismatch (source : String) (span : Span) (wanted unwanted : List Rule) : ParseError :=
  let cs := source.toList
  let cause : Cause :=
    match closing? wanted, atEnd cs span.start with
    | some b, true => .unclosed b.closing
    | _, _ => .unexpected (describeExpected wanted) (describeFound cs span.start unwanted)
  ⟨cause, source, span⟩

end ParseError

end BraceLisp
