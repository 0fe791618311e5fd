import BraceLisp.Report.Ink
import BraceLisp.Text.Line
import BraceLisp.Tree

/-!
Labels under the lines of a source. Their places are counted in characters. The offsets of a
diagnostic are taken as they are, although they count bytes, so that in a source that is not
ASCII a label may stand further to the right than what it is about.
-/

namespace BraceLisp.Report

structure Label where
  span : Span
  message : String
  ink : Ink

/-- The lines of a source, and its number of characters. -/
structure Source where
  lines : List Text.Line
  size : Nat

namespace Source

def ofChars (cs : List Char) : Source := ⟨Text.lines cs, cs.length⟩

/-- The number, from zero, of the last line that begins at a place or before it. There is none
beyond the end of the source. -/
def lineAt? (s : Source) (place : Nat) : Option Nat :=
  if place ≤ s.size then
    some ((s.lines.filter fun l => decide (l.start ≤ place)).length - 1)
  else none

end Source

namespace Label

def size (l : Label) : Nat := l.span.stop - l.span.start

def contains (l : Label) (place : Nat) : Bool :=
  decide (l.span.start ≤ place) && decide (place < l.span.stop)

/-- The place that the message of a label hangs from: the middle of its span. -/
def middle (l : Label) : Nat := max ((l.span.start + l.span.stop) / 2) l.span.start

/-- The line that a label begins in. There is none if one of its ends is in no line. -/
def line? (source : Source) (l : Label) : Option Nat := do
  let line ← source.lineAt? l.span.start
  if l.span.start < l.span.stop then
    let _ ← source.lineAt? (l.span.stop - 1)
    some line
  else some line

/-- The shortest of the labels that contain a place, and the first of several of that length. -/
def shortestAt? (labels : List Label) (place : Nat) : Option Label :=
  (labels.filter (·.contains place)).foldl
    (fun best l =>
      match best with
      | none => some l
      | some b => if l.size < b.size then some l else some b)
    none

/-- Labels on a line in the order in which their messages are drawn: from left to right, and of
two that hang from one place the one that begins further right comes first. -/
def drawingOrder (labels : List Label) : List Label :=
  labels.mergeSort fun a b =>
    decide (a.middle < b.middle) || (a.middle == b.middle && decide (b.span.start ≤ a.span.start))

end Label

/-- Labels that are drawn in one excerpt of the source, which shows the lines from `first` to
`last`. -/
structure Excerpt where
  labels : List Label
  first : Nat
  last : Nat

namespace Excerpt

/-- The excerpt of some labels: from the line in which the leftmost begins to the line in which
the rightmost ends. -/
def ofLabels (source : Source) (labels : List Label) : Excerpt :=
  let start := (labels.map (·.span.start)).min?.getD 0
  let stop := (labels.map (·.span.stop)).max?.getD 0
  { labels := labels
    first := (source.lineAt? start).getD 0
    last := (source.lineAt? (max (stop - 1) start)).getD (source.lines.length - 1) }

/-- The excerpts of a report. A label goes to the excerpt of the label before it, unless it
begins in an earlier line than that one. -/
def all (source : Source) (labels : List Label) : List Excerpt :=
  let located := labels.filterMap fun l => (l.line? source).map fun line => (l, line)
  (located.splitBy fun a b => decide (a.2 ≤ b.2)).map fun group =>
    ofLabels source (group.map Prod.fst)

end Excerpt

end BraceLisp.Report
