import BraceLisp.Evaluator.Eval
import BraceLisp.Parse
import BraceLisp.Value.OfTree

/-!
A session: programs are parsed, read and evaluated one after another, and their definitions stay.
-/

namespace BraceLisp

/-- What a session can fail with. Whatever goes wrong in an evaluation is a value instead. -/
inductive SessionError where
  | parse (e : ParseError)
  | misuse (message : String)
  deriving DecidableEq, Repr

namespace SessionError

def summary : SessionError → String
  | parse e => e.summary
  | misuse message => "API error: " ++ message

def source? : SessionError → Option String
  | parse e => some e.source
  | misuse _ => none

def diagnostic : SessionError → Diagnostic
  | parse e => e.diagnostic
  | misuse message => ⟨message, ⟨0, 0⟩, [], [], none⟩

end SessionError

/-- The value of a source, as it is read and before it is evaluated. -/
def Value.ofSource (source : String) (nesting : Nat) : Except ParseError Value :=
  (Tree.parse source nesting).map Value.ofTree

/-- `nesting` limits the brackets of a source. -/
structure Session where
  nesting : Nat
  evaluator : Evaluator

namespace Session

/-- A session in which only the builtins are defined. -/
def init (depth nesting : Nat) : Session := ⟨nesting, .withBuiltins depth⟩

def default : Session := init defaultDepth defaultNesting

def globals (s : Session) : Frame := s.evaluator.scopes.global

def evalValue (s : Session) (v : Value) : Value × Session :=
  let (v, m) := s.evaluator.eval v
  (v, { s with evaluator := m })

def evalTree (s : Session) (t : Tree) : Value × Session := s.evalValue (.ofTree t)

/-- A program is the S-expression of what it holds. Nothing happens if it does not parse. -/
def evalSource (s : Session) (source : String) : Except ParseError Value × Session :=
  match Tree.parse source s.nesting with
  | .error e => (.error e, s)
  | .ok t =>
    let (v, s) := s.evalTree t
    (.ok v, s)

/-- Binds a name for all programs to come. -/
def define (s : Session) (name : String) (value : Value) : Except SessionError Session :=
  if name.isEmpty then .error (.misuse "cannot define an empty name")
  else
    let scopes := s.evaluator.scopes.defineGlobal name value
    .ok { s with evaluator := { s.evaluator with scopes := scopes } }

def lookup? (s : Session) (name : String) : Option Value := s.globals.get? name

end Session

end BraceLisp
