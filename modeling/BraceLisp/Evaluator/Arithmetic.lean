import BraceLisp.Evaluator.Arguments

/-!
Arithmetic on 64-bit integers. Sums, differences and products wrap around; division drops the
fraction, and the least integer divided by minus one is itself.
-/

namespace BraceLisp.Operator

def apply (op : Operator) (a b : Int64) : Except EvalError Int64 :=
  match op with
  | add => .ok (a + b)
  | sub => .ok (a - b)
  | mul => .ok (a * b)
  | div => if b = 0 then .error .divisionByZero else .ok (a / b)

/-- Applies an operator between numbers from left to right, up to the first error. -/
def foldFrom (op : Operator) (a : Int64) : List Int64 → Except EvalError Int64
  | [] => .ok a
  | b :: rest => do
    let c ← op.apply a b
    op.foldFrom c rest

/-- The result of an operator on at least one number. One number alone is negated by `sub`, and
left as it is by the other operators. -/
def fold (op : Operator) (first : Int64) (rest : List Int64) : Except EvalError Int64 :=
  match op, rest with
  | sub, [] => .ok (-first)
  | _, _ => op.foldFrom first rest

end BraceLisp.Operator

namespace BraceLisp.Builtin

/-- Every argument has to be a number, whatever the operator makes of those before it. -/
def compute (op : Operator) : List Value → Except EvalError Value
  | [] => .error (.tooFewArguments (arithmetic op) 0 1)
  | first :: rest => do
    let a ← (arithmetic op).numberArgument 0 first
    let bs ← (arithmetic op).numberArguments 1 rest
    let n ← op.fold a bs
    .ok (.number n)

end BraceLisp.Builtin
