import BraceLisp.Builtin
import BraceLisp.Environment

/-!
The values of the language. An S-expression is a list to reduce, a Q-expression is a list that
evaluation leaves alone.
-/

namespace BraceLisp

/-- A closure holds the formals that still wait for an argument, the body, and the bindings made
so far. -/
inductive Value where
  | number (n : Int64)
  | symbol (name : String)
  | error (message : String)
  | builtin (b : Builtin)
  | closure (formals : List String) (body : List Value) (captured : Environment Value)
  | sexpr (cells : List Value)
  | qexpr (cells : List Value)
  deriving Inhabited

/-- What messages tell apart. Builtins and closures are both functions. -/
inductive Value.Kind where
  | number
  | symbol
  | error
  | function
  | sexpr
  | qexpr
  deriving DecidableEq, Repr

namespace Value

def Kind.name : Kind → String
  | number => "Number"
  | symbol => "Symbol"
  | error => "Error"
  | function => "Function"
  | sexpr => "S-Expression"
  | qexpr => "Q-Expression"

def kind : Value → Kind
  | number _ => .number
  | symbol _ => .symbol
  | error _ => .error
  | builtin _ => .function
  | closure .. => .function
  | sexpr _ => .sexpr
  | qexpr _ => .qexpr

def isError (v : Value) : Bool := v.kind = .error

theorem error_or_not (v : Value) : (∃ message, v = error message) ∨ v.isError = false := by
  cases v <;> simp [isError, kind]

def isFunction (v : Value) : Bool := v.kind = .function

def asNumber? : Value → Option Int64
  | number n => some n
  | _ => none

def asSymbol? : Value → Option String
  | symbol name => some name
  | _ => none

def asError? : Value → Option String
  | error message => some message
  | _ => none

/-- The elements of an S- or Q-expression. -/
def cells? : Value → Option (List Value)
  | sexpr cells => some cells
  | qexpr cells => some cells
  | _ => none

/-- The formal before the one that takes all remaining arguments. -/
def variadicMark : String := "&"

def isVariadic (formals : List String) : Bool := formals.contains variadicMark

/-- Formals as the Q-expression of symbols that they are written as. -/
def ofFormals (formals : List String) : Value := qexpr (formals.map symbol)

/-! ### Equality -/

mutual

def beq : Value → Value → Bool
  | number m, number n => m == n
  | symbol m, symbol n => m == n
  | error m, error n => m == n
  | builtin a, builtin b => a == b
  | closure f b ⟨e⟩, closure g c ⟨d⟩ => f == g && beqAll b c && beqEntries e d
  | sexpr c, sexpr d => beqAll c d
  | qexpr c, qexpr d => beqAll c d
  | _, _ => false

def beqAll : List Value → List Value → Bool
  | [], [] => true
  | v :: vs, w :: ws => v.beq w && beqAll vs ws
  | _, _ => false

def beqEntries : List (String × Value) → List (String × Value) → Bool
  | [], [] => true
  | (m, v) :: vs, (n, w) :: ws => m == n && v.beq w && beqEntries vs ws
  | _, _ => false

end

mutual

theorem beq_iff_eq : ∀ v w : Value, v.beq w = true ↔ v = w
  | number m, w => by cases w <;> simp [beq]
  | symbol m, w => by cases w <;> simp [beq]
  | error m, w => by cases w <;> simp [beq]
  | builtin b, w => by cases w <;> simp [beq]
  | closure f b ⟨e⟩, w => by
    cases w with
    | closure g c d => cases d; simp [beq, beqAll_iff_eq b, beqEntries_iff_eq e, and_assoc]
    | _ => simp [beq]
  | sexpr c, w => by cases w <;> simp [beq, beqAll_iff_eq c]
  | qexpr c, w => by cases w <;> simp [beq, beqAll_iff_eq c]

theorem beqAll_iff_eq : ∀ vs ws : List Value, beqAll vs ws = true ↔ vs = ws
  | [], ws => by cases ws <;> simp [beqAll]
  | v :: vs, ws => by cases ws <;> simp [beqAll, beq_iff_eq v, beqAll_iff_eq vs]

theorem beqEntries_iff_eq : ∀ es ds : List (String × Value), beqEntries es ds = true ↔ es = ds
  | [], ds => by cases ds <;> simp [beqEntries]
  | (m, v) :: es, ds => by
    cases ds with
    | nil => simp [beqEntries]
    | cons d ds =>
      obtain ⟨n, w⟩ := d
      simp [beqEntries, beq_iff_eq v, beqEntries_iff_eq es]

end

instance : DecidableEq Value := fun v w => decidable_of_iff _ (beq_iff_eq v w)

end Value

/-- What the names of a call, or of the whole program, stand for. -/
abbrev Frame := Environment Value

end BraceLisp
