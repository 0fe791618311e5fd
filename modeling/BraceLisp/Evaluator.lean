import BraceLisp.EvalError
import BraceLisp.Scopes

/-!
The state of an evaluation, and what needs no further evaluation: reducing arithmetic, taking
lists apart, binding arguments.
-/

namespace BraceLisp

/-- `depth` counts the evaluations that have begun and not ended; `limit` is the count at which
no more may begin. -/
structure Evaluator where
  limit : Nat
  depth : Nat
  scopes : Scopes
  deriving DecidableEq

/-- The depth that evaluations may reach unless another limit is given. -/
def defaultDepth : Nat := 1000

/-- The global frame in which every builtin is bound to its name. -/
def Builtin.environment : Frame := .ofList (Builtin.all.map fun b => (b.name, .builtin b))

namespace Evaluator

/-- An evaluator over a global frame. No evaluation has begun. -/
def ofGlobal (global : Frame) (limit : Nat) : Evaluator := ⟨limit, 0, .ofGlobal global⟩

def withBuiltins (limit : Nat) : Evaluator := ofGlobal Builtin.environment limit

/-- What a symbol evaluates to. -/
def lookup (m : Evaluator) (name : String) : Value :=
  (m.scopes.find? name).getD (EvalError.unbound name).toValue

end Evaluator

end BraceLisp
