import BraceLisp.LineBuffer
import BraceLisp.Report
import BraceLisp.Value.Render

/-!
The program as it is run from a command line: its options, and what it writes for an expression
or for the programs in its standard input.
-/

namespace BraceLisp

/-- What the command line asks for. `history` is the file of an interactive session. -/
structure Options where
  showTree : Bool
  showValue : Bool
  history : Option String
  expression : Option String
  deriving DecidableEq, Repr

namespace Options

/-- No option is given. -/
def initial : Options := ⟨false, false, none, none⟩

/-- Takes an expression, of which there may be one. -/
def withExpression (o : Options) (s : String) : Option Options :=
  if o.expression.isSome then none else some { o with expression := some s }

/-- Takes the path of the history, which is not empty and is given once. -/
def withHistory (o : Options) (path : String) : Option Options :=
  if o.history.isSome || path.isEmpty then none else some { o with history := some path }

/-- Takes the arguments after `--`, none of which is an option. -/
def withExpressions (o : Options) : List String → Option Options
  | [] => some o
  | s :: rest => (o.withExpression s).bind fun o => o.withExpressions rest

/-- An argument that is not an option. A hyphen alone is an expression. -/
def isPlain (s : String) : Bool := s = "-" || s.toList.head? != some '-'

def historyOption : String := "--history"

/-- The path in an argument that holds the option and its path, with an equals sign between. -/
def historyPath? (s : String) : Option String :=
  let start := (historyOption ++ "=").toList
  if start.isPrefixOf s.toList then some (String.ofList (s.toList.drop start.length))
  else none

/-- Takes arguments one after another. There is no answer if one of them is not understood, or
is given once too often. -/
def withArguments (o : Options) : List String → Option Options
  | [] => some o
  | s :: rest =>
    if s = "--" then o.withExpressions rest
    else if s = "--debug-parse" then
      if o.showTree then none else withArguments { o with showTree := true } rest
    else if s = "--debug-read" then
      if o.showValue then none else withArguments { o with showValue := true } rest
    else if s = historyOption then
      match rest with
      | [] => none
      | path :: rest =>
        if isPlain path then (o.withHistory path).bind fun o => withArguments o rest
        else none
    else
      match historyPath? s with
      | some path => (o.withHistory path).bind fun o => withArguments o rest
      | none =>
        if isPlain s then (o.withExpression s).bind fun o => withArguments o rest
        else none

def ofArguments? (args : List String) : Option Options := initial.withArguments args

end Options

/-- What a program writes, and to which stream. -/
structure Output where
  stdout : String
  stderr : String
  deriving DecidableEq, Repr

namespace Output

def empty : Output := ⟨"", ""⟩

def append (a b : Output) : Output := ⟨a.stdout ++ b.stdout, a.stderr ++ b.stderr⟩

instance : Append Output := ⟨append⟩

end Output

namespace Session

/-- Evaluates a program and writes its value. What the options ask for is written before, and a
report is written instead if the program does not parse. -/
def interpret (s : Session) (o : Options) (name source : String) : Output × Session :=
  match Tree.parse source s.nesting with
  | .error e => (⟨"", (SessionError.parse e).report true name⟩, s)
  | .ok tree =>
    let value := Value.ofTree tree
    let treeText := if o.showTree then "=== Syntax Tree ===\n" ++ tree.dump ++ "\n" else ""
    let valueText := if o.showValue then "=== Read Value ===\n" ++ value.render ++ "\n\n" else ""
    let (answer, s) := s.evalValue value
    (⟨treeText ++ valueText ++ answer.render ++ "\n", ""⟩, s)

/-- Evaluates programs one after another. -/
def interpretAll (s : Session) (o : Options) (name : String) : List String → Output × Session
  | [] => (.empty, s)
  | source :: rest =>
    let (output, s) := s.interpret o name source
    let (more, s) := s.interpretAll o name rest
    (output ++ more, s)

end Session

namespace CommandLine

/-- The bytes of lines: each without the line feed at its end, and without a carriage return
before that. `sofar` holds the bytes of the current line, the last one first. -/
def splitLines (sofar : List UInt8) : List UInt8 → List (List UInt8)
  | [] => if sofar.isEmpty then [] else [sofar.reverse]
  | b :: bs =>
    if b = 10 then
      (match sofar with
        | 13 :: rest => rest.reverse
        | _ => sofar.reverse) :: splitLines [] bs
    else splitLines (b :: sofar) bs

/-- The lines as text, up to the first that is not UTF-8, and whether there is such a line. -/
def decodeLines : List (List UInt8) → List String × Bool
  | [] => ([], false)
  | line :: rest =>
    match String.fromUTF8? line.toByteArray with
    | none => ([], true)
    | some s =>
      let (lines, broken) := decodeLines rest
      (s :: lines, broken)

/-- How a run ends: it goes through, it cannot read its input, or its arguments are not
understood. -/
inductive Exit where
  | success
  | unreadable
  | misuse
  deriving DecidableEq, Repr

def Exit.code : Exit → Nat
  | success => 0
  | unreadable => 1
  | misuse => 2

structure Outcome where
  exit : Exit
  output : Output
  deriving DecidableEq, Repr

/-- What is written if the arguments are not understood. -/
def usage : Output :=
  ⟨"", "usage: tlisp [--debug-parse] [--debug-read] [--history PATH] [--] [EXPRESSION]\n"⟩

/-- What is written after everything else if the input cannot be read. -/
def unreadable : Output := ⟨"", "failed to read from stdin\n"⟩

/-- Evaluates the programs in the lines of the standard input. If a line cannot be read the run
ends there, and the program that is incomplete at that point is not evaluated. -/
def runLines (o : Options) (bytes : List UInt8) : Outcome :=
  let (lines, broken) := decodeLines (splitLines [] bytes)
  let interpret (programs : List String) : Output :=
    (Session.default.interpretAll o "<stdin>" programs).1
  if broken then
    ⟨.unreadable, interpret ((LineBuffer.empty.pushAll lines).1.filterMap id) ++ unreadable⟩
  else ⟨.success, interpret (LineBuffer.programs lines)⟩

/-- Evaluates an expression. -/
def runExpression (o : Options) (source : String) : Outcome :=
  ⟨.success, (Session.default.interpret o "<argument>" source).1⟩

/-- A whole run. The standard input is not read if the arguments hold an expression. -/
def run (args : List String) (stdin : List UInt8) : Outcome :=
  match Options.ofArguments? args with
  | none => ⟨.misuse, usage⟩
  | some o =>
    match o.expression with
    | some source => runExpression o source
    | none => runLines o stdin

end CommandLine

end BraceLisp
