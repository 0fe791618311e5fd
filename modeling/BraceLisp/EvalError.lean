import BraceLisp.Value

/-!
What can go wrong in an evaluation. An error is an ordinary value; its causes are told apart
here, so that each message is written once.
-/

namespace BraceLisp

/-- `func` is the builtin that refuses its arguments, `index` the place of the argument, counted
from zero. -/
inductive EvalError where
  | unbound (name : String)
  | notAFunction
  | tooManyArguments
  | misplacedVariadic
  | divisionByZero
  | notANumeral
  | notASymbol
  | unknownNode (tag : String)
  | argumentCount (func : Builtin) (got expected : Nat)
  | tooFewArguments (func : Builtin) (got least : Nat)
  | argumentKind (func : Builtin) (index : Nat) (got expected : Value.Kind)
  | emptyList (func : Builtin) (index : Nat)
  | definesNonSymbol (func : Builtin) (got : Value.Kind)
  | countMismatch (func : Builtin) (symbols values : Nat)
  | tooDeep (depth limit : Nat)
  deriving DecidableEq, Repr

namespace EvalError

def message : EvalError → String
  | unbound name => "unbound symbol '" ++ name ++ "'"
  | notAFunction => "S-Expression starts with incorrect type"
  | tooManyArguments => "too many arguments"
  | misplacedVariadic => "invalid variadic formal"
  | divisionByZero => "division by zero"
  | notANumeral => "invalid number"
  | notASymbol => "invalid symbol"
  | unknownNode tag => "unknown syntax node '" ++ tag ++ "'"
  | argumentCount func got expected =>
    "function '" ++ func.name ++ "' passed incorrect number of arguments: got " ++ toString got
      ++ ", expected " ++ toString expected
  | tooFewArguments func got least =>
    "function '" ++ func.name ++ "' passed incorrect number of arguments: got " ++ toString got
      ++ ", expected at least " ++ toString least
  | argumentKind func index got expected =>
    "function '" ++ func.name ++ "' passed incorrect type for argument " ++ toString index
      ++ ": got " ++ got.name ++ ", expected " ++ expected.name
  | emptyList func index =>
    "function '" ++ func.name ++ "' passed \x7b\x7d for argument " ++ toString index
  | definesNonSymbol func got =>
    "function '" ++ func.name ++ "' cannot define non-symbol: got " ++ got.name
      ++ ", expected Symbol"
  | countMismatch func symbols values =>
    "function '" ++ func.name ++ "' passed mismatched symbols and values: got "
      ++ toString symbols ++ " symbols, expected " ++ toString values
  | tooDeep depth limit =>
    "evaluation depth " ++ toString depth ++ " exceeds maximum of " ++ toString limit

def toValue (e : EvalError) : Value := .error e.message

end EvalError

end BraceLisp
