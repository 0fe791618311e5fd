import BraceLisp.Value

/-!
The frames that names are looked up in: the global frame, and on top of it the frames of the
calls that are being evaluated. The frame of a call hangs below its caller's, so that a body sees
the names of whoever called it.
-/

namespace BraceLisp

/-- `calls` holds the frames of the active calls, the innermost first. -/
structure Scopes where
  calls : List Frame
  global : Frame
  deriving DecidableEq

namespace Scopes

def ofGlobal (global : Frame) : Scopes := ⟨[], global⟩

/-- The number of frames, the global one included. -/
def depth (s : Scopes) : Nat := s.calls.length + 1

/-- All frames, the innermost first and the global one last. -/
def frames (s : Scopes) : List Frame := s.calls ++ [s.global]

def push (s : Scopes) (frame : Frame) : Scopes := { s with calls := frame :: s.calls }

/-- Takes the frame of the innermost call off. The global frame stays. -/
def pop? (s : Scopes) : Option (Frame × Scopes) :=
  match s.calls with
  | [] => none
  | frame :: rest => some (frame, { s with calls := rest })

/-- Why the frame that is left is not taken off. -/
def popRefused : String := "cannot pop the global environment"

/-- Drops the frame of the innermost call, if a call is active. -/
def leave (s : Scopes) : Scopes := { s with calls := s.calls.tail }

/-- What a name stands for: its binding in the innermost frame that has one. -/
def find? (s : Scopes) (name : String) : Option Value :=
  (s.calls.findSome? (·.get? name)).or (s.global.get? name)

theorem find?_eq_findSome? (s : Scopes) (name : String) :
    s.find? name = s.frames.findSome? (·.get? name) := by
  simp [find?, frames, List.findSome?_append]

/-- The innermost frame. -/
def current (s : Scopes) : Frame := s.calls.headD s.global

def defineGlobal (s : Scopes) (name : String) (value : Value) : Scopes :=
  { s with global := s.global.insert name value }

/-- Binds a name in the innermost frame. -/
def defineLocal (s : Scopes) (name : String) (value : Value) : Scopes :=
  match s.calls with
  | [] => s.defineGlobal name value
  | frame :: rest => { s with calls := frame.insert name value :: rest }

def define (s : Scopes) : Reach → String → Value → Scopes
  | .outermost => s.defineGlobal
  | .innermost => s.defineLocal

/-- Makes definitions one after another. -/
def defineAll (s : Scopes) (reach : Reach) (bindings : List (String × Value)) : Scopes :=
  bindings.foldl (fun s b => s.define reach b.1 b.2) s

end Scopes

end BraceLisp
