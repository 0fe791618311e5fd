import BraceLisp.Report.Line
import BraceLisp.Session

/-!
Reports: a diagnostic drawn over the lines of the source that it is about.
-/

namespace BraceLisp.Report

/-- How a report is drawn. `name` tells where the source comes from, and `width` is the number of
columns of the line numbers. -/
structure Style where
  coloured : Bool
  name : String
  width : Nat

namespace Style

def paint (st : Style) (ink : Ink) (s : String) : String := Report.paint st.coloured ink s

def indent (st : Style) : String := times (st.width + 2) " "

/-- The left edge of every line that has no line number. -/
def side (st : Style) : String :=
  " " ++ st.paint .side (times (st.width + 1) " " ++ "│") ++ " "

/-- The line above or below an excerpt. -/
def spacer (st : Style) : String := st.indent ++ st.paint .margin "│" ++ "\n"

/-- The line that tells where an excerpt comes from. -/
def location (st : Style) (isFirst : Bool) (place : String) : String :=
  st.indent ++ st.paint .margin (if isFirst then "╭" else "├") ++ st.paint .margin "─"
    ++ st.paint .margin "[" ++ " " ++ st.name ++ ":" ++ place ++ " " ++ st.paint .margin "]" ++ "\n"

/-- A line number, aligned to the right. -/
def lineNumber (st : Style) (n : Nat) : String :=
  let digits := toString n
  " " ++ st.paint .margin (times (st.width - digits.length) " " ++ digits ++ " │") ++ " "

end Style

/-- The line and the column of a place, counted from one. -/
def position (source : Source) (place : Nat) : String :=
  match source.lineAt? place with
  | none => "?:?"
  | some n =>
    let start := ((source.lines[n]?).map (·.start)).getD 0
    toString (n + 1) ++ ":" ++ toString (place - start + 1)

/-- The labels that lie within a line. -/
def labelsIn (labels : List Label) (line : Text.Line) : List Label :=
  labels.filter fun l => decide (line.start ≤ l.span.start) && decide (l.span.stop ≤ line.stop)

/-- Lines of an excerpt with their numbers. Of lines without labels that follow each other only
the first leaves a mark. -/
def excerptLines (st : Style) (labels : List Label) (afterGap : Bool) :
    List (Text.Line × Nat) → String
  | [] => ""
  | (line, n) :: rest =>
    match Label.drawingOrder (labelsIn labels line) with
    | [] => (if afterGap then "" else st.side ++ "\n") ++ excerptLines st labels true rest
    | ls =>
      let l : LabelledLine := ⟨line, ls⟩
      st.lineNumber (n + 1) ++ l.text st.coloured ++ "\n" ++ l.labelRows st.coloured st.side
        ++ excerptLines st labels false rest

/-- An excerpt under the line that tells where the report is about. -/
def excerpt (st : Style) (source : Source) (place : String) (isFirst : Bool) (e : Excerpt) :
    String :=
  st.location isFirst place ++ st.spacer
    ++ excerptLines st e.labels false
      ((source.lines.zipIdx.drop e.first).take (e.last + 1 - e.first))

def helpLines (st : Style) (help : List String) : String :=
  String.join (help.map fun h =>
    st.side ++ "\n" ++ st.side ++ st.paint .help "Help" ++ ": " ++ h ++ "\n")

/-- The end of a report: the help, and the lower edge. -/
def footer (st : Style) (help : List String) : String :=
  helpLines st help ++ st.paint .margin (times (st.width + 2) "─" ++ "╯") ++ "\n"

/-- Excerpts one under the other. -/
def excerpts (st : Style) (source : Source) (place : String) (help : List String)
    (isFirst : Bool) : List Excerpt → String
  | [] => ""
  | [e] => excerpt st source place isFirst e ++ footer st help
  | e :: rest =>
    excerpt st source place isFirst e ++ st.spacer ++ excerpts st source place help false rest

/-- The first line of a report. -/
def header (coloured : Bool) (d : Diagnostic) : String :=
  let kind := (match d.code with | some code => "[" ++ code ++ "] " | none => "") ++ "Error:"
  Report.paint coloured .header kind ++ " " ++ d.message ++ "\n"

/-- The labels of a diagnostic: its own message, then its notes. -/
def labels (d : Diagnostic) : List Label :=
  ⟨d.span, d.message, .primary⟩ :: d.notes.map fun n => ⟨n.span, n.message, .related⟩

end BraceLisp.Report

namespace BraceLisp

open Report in
/-- A diagnostic drawn over its source. -/
def Diagnostic.report (d : Diagnostic) (coloured : Bool) (name source : String) : String :=
  let src := Source.ofChars source.toList
  let es := Excerpt.all src (labels d)
  let width := (es.map fun e => (toString (e.last + 1)).length).max?.getD 0
  header coloured d
    ++ excerpts ⟨coloured, name, width⟩ src (position src d.span.start) d.help true es

/-- The name of a source that is given none. -/
def defaultSourceName : String := "<input>"

/-- What is shown for an error. Only an error in a source is drawn. -/
def SessionError.report (e : SessionError) (coloured : Bool) (name : String) : String :=
  match e.source? with
  | some source => e.diagnostic.report coloured name source
  | none => e.summary ++ "\n"

end BraceLisp
