import BraceLisp.Evaluator.Arithmetic
import BraceLisp.Evaluator.Definition

/-!
What functions make of their arguments. A function evaluates nothing by itself and does not see
the state: it refuses its arguments, or it says what is left to do.
-/

namespace BraceLisp

/-- What is left to do once a function has taken its arguments. -/
inductive Effect where
  | answer (v : Value)
  | define (reach : Reach) (bindings : List (String × Value))
  | evaluate (cells : List Value)
  | enter (frame : Frame) (body : List Value)

/-- What a builtin makes of its arguments. -/
def Builtin.effect (b : Builtin) (args : List Value) : Except EvalError Effect :=
  match b with
  | list => .ok (.answer (.qexpr args))
  | head => do
    let (first, _) ← head.nonEmptyArgument 0 (← head.oneArgument args)
    .ok (.answer (.qexpr [first]))
  | tail => do
    let (_, rest) ← tail.nonEmptyArgument 0 (← tail.oneArgument args)
    .ok (.answer (.qexpr rest))
  | join => do
    let lists ← join.listArguments 0 args
    .ok (.answer (.qexpr lists.flatten))
  | eval => do
    let cells ← eval.listArgument 0 (← eval.oneArgument args)
    .ok (.evaluate cells)
  | define reach => do
    let bindings ← definitions reach args
    .ok (.define reach bindings)
  | lambda => do
    let closure ← makeClosure args
    .ok (.answer closure)
  | arithmetic op => do
    let result ← compute op args
    .ok (.answer result)

namespace Value

/-- What a closure makes of its arguments. With too few of them the answer is the closure that
waits for the others. -/
def closureEffect (formals : List String) (body : List Value) (captured : Frame)
    (args : List Value) : Except EvalError Effect :=
  match bindFormals formals args captured with
  | .error e => .error e
  | .ok ([], frame) => .ok (.enter frame body)
  | .ok (formals, frame) => .ok (.answer (.closure formals body frame))

/-- What a value makes of its arguments, if it is a function. -/
def effect (f : Value) (args : List Value) : Except EvalError Effect :=
  match f with
  | builtin b => b.effect args
  | closure formals body captured => closureEffect formals body captured args
  | _ => .error .notAFunction

/-- What an S-expression with evaluated cells comes to. One cell stands for itself. -/
def reduction : List Value → Except EvalError Effect
  | [] => .ok (.answer (.sexpr []))
  | [v] => .ok (.answer v)
  | f :: args => f.effect args

end Value

end BraceLisp
