import BraceLisp.Evaluator
import BraceLisp.Evaluator.Arguments

/-!
Giving names to values: definitions, closures, and the arguments of closures.
-/

namespace BraceLisp

namespace Builtin

/-- The names that a definition binds, each with its value. The names are a Q-expression of
symbols, one for each of the values after it. -/
def definitions (reach : Reach) : List Value → Except EvalError (List (String × Value))
  | [] => .error (.tooFewArguments (define reach) 0 1)
  | names :: values => do
    let cells ← (define reach).listArgument 0 names
    let names ← (define reach).symbolNames cells
    if names.length = values.length then .ok (names.zip values)
    else .error (.countMismatch (define reach) names.length values.length)

/-- The closure with the given formals and body, and no bindings yet. -/
def makeClosure (args : List Value) : Except EvalError Value := do
  let (formals, body) ← lambda.twoArguments args
  let formals ← lambda.listArgument 0 formals
  let body ← lambda.listArgument 1 body
  let formals ← lambda.symbolNames formals
  .ok (.closure formals body .empty)

end Builtin

/-- Binds arguments to formals from left to right. Answers the formals that still wait for an
argument, and the bindings. The variadic mark has to be the last formal but one; the formal after
it is bound to a list of all arguments that are left, which may be empty. -/
def bindFormals : List String → List Value → Frame → Except EvalError (List String × Frame)
  | [], [], env => .ok ([], env)
  | [], _ :: _, _ => .error .tooManyArguments
  | f :: fs, args, env =>
    if f = Value.variadicMark then
      match fs with
      | [rest] => .ok ([], env.insert rest (.qexpr args))
      | _ => .error .misplacedVariadic
    else
      match args with
      | [] => .ok (f :: fs, env)
      | a :: args => bindFormals fs args (env.insert f a)

theorem bindFormals_cons_nil {f : String} (hf : f ≠ Value.variadicMark) (fs : List String)
    (env : Frame) : bindFormals (f :: fs) [] env = .ok (f :: fs, env) := by
  simp [bindFormals, hf]

theorem bindFormals_cons_cons {f : String} (hf : f ≠ Value.variadicMark) (fs : List String)
    (a : Value) (args : List Value) (env : Frame) :
    bindFormals (f :: fs) (a :: args) env = bindFormals fs args (env.insert f a) := by
  simp [bindFormals, hf]

theorem bindFormals_mark (fs : List String) (args : List Value) (env : Frame) :
    bindFormals (Value.variadicMark :: fs) args env =
      match fs with
      | [rest] => .ok ([], env.insert rest (.qexpr args))
      | _ => .error .misplacedVariadic := by
  cases args <;> simp [bindFormals]

end BraceLisp
