import BraceLisp.Report.Label
import BraceLisp.Text.Width

/-!
Drawing one line of a source with the labels under it.
-/

namespace BraceLisp.Report

/-- The distance between two tab stops. -/
def tabStop : Nat := 4

/-- The columns that a character takes when it is the character number `index` of its line. A tab
goes on to the next tab stop, other white space takes one column. -/
def columns (index : Nat) (c : Char) : Nat :=
  if c = '\t' then (index / tabStop + 1) * tabStop - index
  else if Text.isWhiteSpace c then 1
  else Text.width c

/-- What a character is drawn as: white space as spaces, in as many pieces as it takes columns. -/
def glyphs (index : Nat) (c : Char) : List String :=
  if Text.isWhiteSpace c then List.replicate (columns index c) " " else [String.singleton c]

/-- A line of the source and the labels on it, in drawing order. -/
structure LabelledLine where
  line : Text.Line
  labels : List Label

namespace LabelledLine

/-- The characters of the line that are drawn. -/
def visible (l : LabelledLine) : List Char := Text.trimEnd l.line.text

/-- The number, within the line, of the character that the message of a label hangs from. -/
def hook (l : LabelledLine) (label : Label) : Nat := label.middle - l.line.start

/-- The text of the line, each character in the colour of the shortest label that contains it. -/
def text (coloured : Bool) (l : LabelledLine) : String :=
  String.join (l.visible.zipIdx.flatMap fun (c, index) =>
    let ink := ((Label.shortestAt? l.labels (l.line.start + index)).map (·.ink)).getD .text
    (glyphs index c).map (paint coloured ink))

/-- The numbers of the characters that the labels are drawn under, with their columns. The labels
end two characters after the last one that they contain. -/
def cells (l : LabelledLine) : List (Nat × Nat) :=
  let count := ((l.labels.map (·.span.stop)).max?.getD 0 - l.line.start) + 2
  let text := l.visible.take count
  (text.zipIdx.map fun (c, index) => (index, columns index c))
    ++ (List.range' text.length (count - text.length)).map fun index => (index, 1)

/-- The first label from the one of a row on that hangs from a character. -/
def hanging? (l : LabelledLine) (row index : Nat) : Option Label :=
  (l.labels.drop row).find? fun label => l.hook label == index

/-- A cell of some columns: a sign for the first and a sign for each other. -/
def cell (width : Nat) (first others : String) : String :=
  match width with
  | 0 => ""
  | rest + 1 => first ++ times rest others

/-- A cell of a label's row: the signs that connect labels with the line above. Labels are
underlined in the first row. -/
def stem (coloured : Bool) (l : LabelledLine) (row : Nat) : Nat × Nat → String
  | (index, width) =>
    let marked := if row = 0 then Label.shortestAt? l.labels (l.line.start + index) else none
    match l.hanging? row index, marked with
    | some v, some _ => cell width (paint coloured v.ink "┬") (paint coloured v.ink "─")
    | some v, none => cell width (paint coloured v.ink "│") (paint coloured v.ink " ")
    | none, some u => times width (paint coloured u.ink "─")
    | none, none => times width " "

/-- A cell of the line that leads to the message of a label. -/
def lead (coloured : Bool) (l : LabelledLine) (row : Nat) (label : Label) : Nat × Nat → String
  | (index, width) =>
    if index = l.hook label then
      cell width (paint coloured label.ink "╰") (paint coloured label.ink "─")
    else if l.hook label < index then times width (paint coloured label.ink "─")
    else
      match l.hanging? row index with
      | some v => cell width (paint coloured v.ink "│") (paint coloured label.ink " ")
      | none => times width " "

/-- The two lines of a label: what connects it with the line above, and its message. -/
def labelRow (coloured : Bool) (side : String) (l : LabelledLine) (label : Label) (row : Nat) :
    String :=
  side ++ String.join (l.cells.map (l.stem coloured row)) ++ "\n"
    ++ side ++ String.join (l.cells.map (l.lead coloured row label)) ++ " " ++ label.message ++ "\n"

def labelRows (coloured : Bool) (side : String) (l : LabelledLine) : String :=
  String.join (l.labels.zipIdx.map fun (label, row) => l.labelRow coloured side label row)

end LabelledLine

end BraceLisp.Report
