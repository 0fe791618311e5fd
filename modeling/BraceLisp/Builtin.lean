/-!
The functions that every program starts with.
-/

namespace BraceLisp

/-- The operators of arithmetic. -/
inductive Operator where
  | add
  | sub
  | mul
  | div
  deriving DecidableEq, Repr

/-- Where a definition goes: to the global frame, or to the innermost one. -/
inductive Reach where
  | outermost
  | innermost
  deriving DecidableEq, Repr

inductive Builtin where
  | list
  | head
  | tail
  | join
  | eval
  | define (reach : Reach)
  | lambda
  | arithmetic (op : Operator)
  deriving DecidableEq, Repr

namespace Builtin

/-- All builtins, in the order in which they are introduced. -/
def all : List Builtin :=
  [list, head, tail, join, eval, define .outermost, define .innermost, lambda,
   arithmetic .add, arithmetic .sub, arithmetic .mul, arithmetic .div]

/-- The name that a builtin is bound to. -/
def name : Builtin → String
  | list => "list"
  | head => "head"
  | tail => "tail"
  | join => "join"
  | eval => "eval"
  | define .outermost => "def"
  | define .innermost => "="
  | lambda => "\\"
  | arithmetic .add => "+"
  | arithmetic .sub => "-"
  | arithmetic .mul => "*"
  | arithmetic .div => "/"

def ofName? (s : String) : Option Builtin := all.find? (·.name == s)

end Builtin

end BraceLisp
