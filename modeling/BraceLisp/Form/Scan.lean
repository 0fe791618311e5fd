import BraceLisp.Form

/-!
Reading forms off a source, one character after another. The scan keeps the groups that are open
and the forms that are complete. It stops before the first character that cannot follow what it
has read.
-/

namespace BraceLisp

open Grammar

/-- A group whose closing bracket has not been read. `before` holds the forms that stand before
it in the same group, the last one first. -/
structure OpenGroup where
  kind : Bracket
  start : Nat
  before : List Form

/-- What the characters read last belong to. A word keeps its characters, the last one first. -/
inductive Scan.Place where
  | gap
  | comment
  | word (start : Nat) (chars : List Char)

/-- `level` holds the forms of the innermost open group, or of the program if no group is open,
the last one first. `groups` holds the open groups, the innermost first. -/
structure Scan where
  pos : Nat
  place : Scan.Place
  level : List Form
  groups : List OpenGroup

namespace Scan

def init : Scan := ⟨0, .gap, [], []⟩

/-- Completes the word that has just been read, if there is one. -/
def settle (s : Scan) : Scan :=
  match s.place with
  | .word start chars => { s with place := .gap, level := .word start chars.reverse :: s.level }
  | _ => s

/-- Reads a closing bracket, which has to match the innermost open group. -/
def close (s : Scan) (b : Bracket) : Option Scan :=
  match s.groups with
  | [] => none
  | g :: gs =>
    if b = g.kind then
      some ⟨s.pos + 1, .gap, .group b ⟨g.start, s.pos + 1⟩ s.level.reverse :: g.before, gs⟩
    else none

/-- Reads a character that does not continue a word or a comment. -/
def start (s : Scan) (c : Char) : Option Scan :=
  let next := s.pos + c.utf8Size
  if isBlank c then some { s with pos := next }
  else if c = ';' then some { s with pos := next, place := .comment }
  else if isSymbolChar c then some { s with pos := next, place := .word s.pos [c] }
  else match Bracket.ofOpening? c with
    | some b => some ⟨next, .gap, [], ⟨b, s.pos, s.level⟩ :: s.groups⟩
    | none => (Bracket.ofClosing? c).bind s.close

/-- Reads a character. -/
def step (s : Scan) (c : Char) : Option Scan :=
  match s.place with
  | .gap => s.start c
  | .comment =>
    some { s with pos := s.pos + c.utf8Size, place := if c = '\n' then .gap else .comment }
  | .word start chars =>
    if isSymbolChar c then
      some { s with pos := s.pos + c.utf8Size, place := .word start (c :: chars) }
    else s.settle.start c

/-- Reads all characters, or stops in the state before the first that cannot be read. -/
def run (s : Scan) : List Char → Except Scan Scan
  | [] => .ok s
  | c :: cs =>
    match s.step c with
    | none => .error s
    | some s => s.run cs

@[simp] theorem run_nil (s : Scan) : s.run [] = .ok s := rfl

theorem run_cons (s : Scan) (c : Char) (cs : List Char) :
    s.run (c :: cs) = match s.step c with | none => .error s | some s => s.run cs := rfl

theorem run_append (s : Scan) (cs ds : List Char) :
    s.run (cs ++ ds) = (s.run cs).bind fun s => s.run ds := by
  induction cs generalizing s with
  | nil => rfl
  | cons c cs ih =>
    rw [List.cons_append, run_cons, run_cons]
    cases s.step c with
    | none => rfl
    | some s => exact ih s

/-- The program that has been read, if every group is closed. -/
def finish (s : Scan) : Except Scan Program :=
  if s.groups.isEmpty then .ok ⟨s.settle.level.reverse, s.pos⟩ else .error s

/-- Reads on until no group is open, and answers the group closed last. -/
def runGroup (s : Scan) : List Char → Except Scan Form
  | [] => .error s
  | c :: cs =>
    match s.step c with
    | none => .error s
    | some s =>
      match s.groups, s.level with
      | [], f :: _ => .ok f
      | _, _ => s.runGroup cs

/-- The rules that could have gone on where a scan stopped. A closing bracket is one of them in
a group, and the end of the input is one outside all groups once something has been read. -/
def expected (s : Scan) : List Rule :=
  match s.groups with
  | g :: _ => [.number, .symbol, .closing g.kind, .group .round, .group .curly]
  | [] =>
    if s.pos = 0 then [.number, .symbol, .group .round, .group .curly]
    else [.endOfInput, .number, .symbol, .group .round, .group .curly]

end Scan

/-- The program of a source, or the state in which its scan stopped. -/
def Program.ofChars (cs : List Char) : Except Scan Program :=
  (Scan.init.run cs).bind Scan.finish

end BraceLisp
