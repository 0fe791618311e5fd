import BraceLisp.EvalError

/-!
What builtins ask of their arguments.
-/

namespace BraceLisp.Builtin

def kindError (f : Builtin) (index : Nat) (got : Value) (expected : Value.Kind) : EvalError :=
  .argumentKind f index got.kind expected

def oneArgument (f : Builtin) : List Value → Except EvalError Value
  | [a] => .ok a
  | args => .error (.argumentCount f args.length 1)

def twoArguments (f : Builtin) : List Value → Except EvalError (Value × Value)
  | [a, b] => .ok (a, b)
  | args => .error (.argumentCount f args.length 2)

/-- The cells of a Q-expression. -/
def listArgument (f : Builtin) (index : Nat) : Value → Except EvalError (List Value)
  | .qexpr cells => .ok cells
  | v => .error (f.kindError index v .qexpr)

/-- The first cell of a Q-expression and the cells after it. -/
def nonEmptyArgument (f : Builtin) (index : Nat) (v : Value) :
    Except EvalError (Value × List Value) := do
  match ← f.listArgument index v with
  | [] => .error (.emptyList f index)
  | first :: rest => .ok (first, rest)

/-- The cells of Q-expressions. `index` is the place of the first of them. -/
def listArguments (f : Builtin) (index : Nat) : List Value → Except EvalError (List (List Value))
  | [] => .ok []
  | v :: vs => do
    let cells ← f.listArgument index v
    let rest ← f.listArguments (index + 1) vs
    .ok (cells :: rest)

def numberArgument (f : Builtin) (index : Nat) : Value → Except EvalError Int64
  | .number n => .ok n
  | v => .error (f.kindError index v .number)

/-- The numbers that arguments are. `index` is the place of the first of them. -/
def numberArguments (f : Builtin) (index : Nat) : List Value → Except EvalError (List Int64)
  | [] => .ok []
  | v :: vs => do
    let n ← f.numberArgument index v
    let rest ← f.numberArguments (index + 1) vs
    .ok (n :: rest)

def symbolName (f : Builtin) : Value → Except EvalError String
  | .symbol name => .ok name
  | v => .error (.definesNonSymbol f v.kind)

/-- The names in a list that holds only symbols. -/
def symbolNames (f : Builtin) : List Value → Except EvalError (List String)
  | [] => .ok []
  | v :: vs => do
    let name ← f.symbolName v
    let rest ← f.symbolNames vs
    .ok (name :: rest)

end BraceLisp.Builtin
