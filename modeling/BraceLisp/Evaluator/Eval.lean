import BraceLisp.Evaluator.Effect

/-!
Evaluation. A symbol evaluates to its binding, an S-expression to what its first cell makes of
the others, and every other value to itself.

The depth limit bounds the recursion. What one evaluation does is written over a parameter
`eval`, which stands for the evaluations nested in it; `evalWithin` ties the knot by recursion on
the number of evaluations that may still begin.
-/

namespace BraceLisp

namespace Evaluator

/-- An evaluation: an answer, and the state that it leaves. -/
abbrev Evaluation := Evaluator → Value → Value × Evaluator

/-- Evaluates cells from left to right. The first answer that is an error ends it, and its
message is the outcome. -/
def evalCells (eval : Evaluation) (m : Evaluator) :
    List Value → Except String (List Value) × Evaluator
  | [] => (.ok [], m)
  | cell :: cells =>
    match eval m cell with
    | (.error message, m) => (.error message, m)
    | (v, m) =>
      match evalCells eval m cells with
      | (.error message, m) => (.error message, m)
      | (.ok vs, m) => (.ok (v :: vs), m)

@[simp] theorem evalCells_nil (eval : Evaluation) (m : Evaluator) :
    evalCells eval m [] = (.ok [], m) := rfl

theorem evalCells_cons_error {eval : Evaluation} {m : Evaluator} {cell : Value}
    {message : String} (cells : List Value) (h : (eval m cell).1 = .error message) :
    evalCells eval m (cell :: cells) = (.error message, (eval m cell).2) := by
  rw [evalCells]
  split
  · next heq => rw [heq] at h; cases h; rw [heq]
  · next hne heq => rw [heq] at h; exact absurd h (hne message)

theorem evalCells_cons_ok {eval : Evaluation} {m : Evaluator} {cell : Value}
    (cells : List Value) (h : (eval m cell).1.isError = false) :
    evalCells eval m (cell :: cells) =
      ((evalCells eval (eval m cell).2 cells).1.map ((eval m cell).1 :: ·),
        (evalCells eval (eval m cell).2 cells).2) := by
  rw [evalCells]
  split
  · next heq => rw [heq] at h; cases h
  · next heq =>
    rw [heq]
    split
    · next hcells => rw [hcells]; rfl
    · next hcells => rw [hcells]; rfl

/-- Carries out what is left to do. The body of a closure is evaluated in a frame of its own. -/
def perform (eval : Evaluation) (m : Evaluator) : Effect → Value × Evaluator
  | .answer v => (v, m)
  | .define reach bindings =>
    (.sexpr [], { m with scopes := m.scopes.defineAll reach bindings })
  | .evaluate cells => eval m (.sexpr cells)
  | .enter frame body =>
    let (v, m) := eval { m with scopes := m.scopes.push frame } (.sexpr body)
    (v, { m with scopes := m.scopes.leave })

/-- Carries out what a function made of its arguments. A refusal leaves the state as it is. -/
def performWith (eval : Evaluation) (m : Evaluator) :
    Except EvalError Effect → Value × Evaluator
  | .error e => (e.toValue, m)
  | .ok effect => perform eval m effect

/-- One evaluation, apart from those nested in it. -/
def evalOnce (eval : Evaluation) : Evaluation
  | m, .symbol name => (m.lookup name, m)
  | m, .sexpr cells =>
    match evalCells eval m cells with
    | (.error message, m) => (.error message, m)
    | (.ok vs, m) => performWith eval m (Value.reduction vs)
  | m, v => (v, m)

/-- Evaluates a value when `room` evaluations may still begin within it, itself included. -/
def evalWithin : Nat → Evaluation
  | 0, m, _ => ((EvalError.tooDeep m.depth m.limit).toValue, m)
  | room + 1, m, v =>
    let (v, m) := evalOnce (evalWithin room) { m with depth := m.depth + 1 } v
    (v, { m with depth := m.depth - 1 })

@[simp] theorem evalWithin_zero (m : Evaluator) (v : Value) :
    evalWithin 0 m v = ((EvalError.tooDeep m.depth m.limit).toValue, m) := rfl

theorem evalWithin_succ (room : Nat) (m : Evaluator) (v : Value) :
    evalWithin (room + 1) m v =
      let r := evalOnce (evalWithin room) { m with depth := m.depth + 1 } v
      (r.1, { r.2 with depth := r.2.depth - 1 }) := rfl

/-- The number of evaluations that may still begin, one within another. -/
def room (m : Evaluator) : Nat := m.limit - m.depth

def eval (m : Evaluator) (v : Value) : Value × Evaluator := evalWithin m.room m v

/-- Applies a function to arguments, which are not evaluated. -/
def apply (m : Evaluator) (f : Value) (args : List Value) : Value × Evaluator :=
  performWith (evalWithin m.room) m (f.effect args)

/-- Runs a builtin. Its arguments are not evaluated. -/
def call (m : Evaluator) (b : Builtin) (args : List Value) : Value × Evaluator :=
  performWith (evalWithin m.room) m (b.effect args)

end Evaluator

end BraceLisp
