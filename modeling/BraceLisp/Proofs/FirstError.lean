import BraceLisp.Proofs.Nested

/-!
The first error wins.

The cells of an S-expression are evaluated from left to right, and the first that comes to an error
is the last that is evaluated (`evalCells_of_passes`). Its error is the answer, and the scopes are
those that it leaves. If the S-expression is itself such a cell of another, the same holds of that
one, and so on outwards: an induction on the S-expressions around the cell (`Reaches.eval_fill`).
-/

namespace BraceLisp

namespace Value

/-- An S-expression with one cell left out. -/
structure Layer where
  before : List Value
  after : List Value

def Layer.fill (l : Layer) (v : Value) : Value := .sexpr (l.before ++ v :: l.after)

/-- A value within S-expressions, the outermost first: each stands in the cell that is left out of
the one before it. -/
def fill : List Layer → Value → Value
  | [], v => v
  | l :: ls, v => l.fill (fill ls v)

end Value

open Value

namespace Evaluator

/-- Evaluating cells from left to right leads from one state to another, and none of them comes to
an error. -/
inductive Passes : Evaluator → List Value → Evaluator → Prop where
  | nil (m : Evaluator) : Passes m [] m
  | cons {m n : Evaluator} {cell : Value} {cells : List Value}
      (hok : (m.eval cell).1.isError = false) (h : Passes (m.eval cell).2 cells n) :
      Passes m (cell :: cells) n

/-- Evaluating S-expressions one within another gets to the cell that is left out of the innermost
one, in the state `n`. The cells before it, and before each of the S-expressions, come to no
error. -/
inductive Reaches : Evaluator → List Layer → Evaluator → Prop where
  | here (m : Evaluator) : Reaches m [] m
  | within {m k n : Evaluator} {l : Layer} {ls : List Layer} (hlimit : m.depth < m.limit)
      (hbefore : Passes m.deeper l.before k) (h : Reaches k ls n) : Reaches m (l :: ls) n

/-- Directly within the evaluation of a value that begins in `m`, all cells come to values, and the
first of them is applied to the others. -/
def Applies (m : Evaluator) (v f : Value) (args : List Value) : Prop :=
  ∃ cells n, v = .sexpr cells ∧ evalCells Evaluator.eval m cells = (.ok (f :: args), n)

variable {m n k : Evaluator} {cells : List Value} {l : Layer} {ls ks : List Layer} {e w : Value}
  {message : String}

/-! ### One S-expression -/

lemma Keeps.eq_withScopes (h : Keeps m n) : n = { m with scopes := n.scopes } := by
  obtain ⟨limit, depth, scopes⟩ := n
  obtain ⟨rfl, rfl, -⟩ := h
  rfl

lemma Passes.keeps (h : Passes m cells n) : Keeps m n := by
  induction h with
  | nil m => exact Keeps.refl m
  | cons _ _ ih => exact (eval_keeps _ _).trans ih

/-- The cell that fails is the last that is evaluated. -/
lemma evalCells_of_passes (h : Passes m cells n) (herr : (n.eval e).1 = .error message)
    (after : List Value) :
    evalCells Evaluator.eval m (cells ++ e :: after) = (.error message, (n.eval e).2) := by
  induction h with
  | nil m => exact evalCells_cons_error after herr
  | cons hok _ ih =>
    rw [List.cons_append, evalCells_cons_ok _ hok, ih herr]
    rfl

/-- Evaluating cells gets no further than to the cell that fails. -/
lemma GetsTo.of_passes {after : List Value} (h : Passes m cells n)
    (herr : (n.eval e).1 = .error message)
    (hw : GetsTo Evaluator.eval m (cells ++ e :: after) k w) :
    GetsTo Evaluator.eval m (cells ++ [e]) k w := by
  induction h with
  | nil m =>
    cases hw with
    | here => exact .here _ _ []
    | next hok _ =>
      rw [herr] at hok
      cases hok
  | cons hok _ ih =>
    cases hw with
    | here => exact .here _ _ _
    | next _ hw => exact .next hok (ih herr hw)

lemma eval_fill_error (hlimit : m.depth < m.limit) (hbefore : Passes m.deeper l.before n)
    (herr : (n.eval e).1 = .error message) :
    m.eval (l.fill e) = (.error message, { m with scopes := (n.eval e).2.scopes }) := by
  have hkeeps := (hbefore.keeps.trans (eval_keeps n e)).eq_withScopes
  rw [eval_of_lt hlimit, Layer.fill, evalOnce, evalCells_of_passes hbefore herr, hkeeps]
  rfl

/-- Nothing else begins within an S-expression than what its cells need, up to the one that fails,
and nothing is applied. -/
lemma begins_of_error (hbefore : Passes m l.before n) (herr : (n.eval e).1 = .error message) :
    (∀ k w, Begins Evaluator.eval m (l.fill e) k w →
      GetsTo Evaluator.eval m (l.before ++ [e]) k w) ∧
    ∀ f args, ¬ Applies m (l.fill e) f args := by
  have hcells := evalCells_of_passes hbefore herr l.after
  constructor
  · intro k w hw
    cases hw with
    | cell hw => exact .of_passes hbefore herr hw
    | reduction hvs _ _ =>
      rw [hcells] at hvs
      cases hvs
  · rintro f args ⟨_, k, hv, hvs⟩
    cases hv
    rw [hcells] at hvs
    cases hvs

/-! ### S-expressions around it -/

/-- What stands after the cells left out does not matter. -/
lemma Reaches.of_before (h : Reaches m ls n) (hks : ks.map Layer.before = ls.map Layer.before) :
    Reaches m ks n := by
  induction h generalizing ks with
  | here m =>
    rw [List.map_nil, List.map_eq_nil_iff] at hks
    rw [hks]
    exact .here m
  | within hlimit hbefore _ ih =>
    obtain ⟨k, ks, rfl, hk, hks⟩ := List.map_eq_cons_iff.mp hks
    exact .within hlimit (by rw [hk]; exact hbefore) (ih hks)

lemma Reaches.split {outer : List Layer} (h : Reaches m (outer ++ ls) n) :
    ∃ k, Reaches m outer k ∧ Reaches k ls n := by
  induction outer generalizing m with
  | nil => exact ⟨m, .here m, h⟩
  | cons l outer ih =>
    cases h with
    | within hlimit hbefore h =>
      obtain ⟨k, houter, hinner⟩ := ih h
      exact ⟨k, .within hlimit hbefore houter, hinner⟩

/-- The error of the innermost cell is the answer of the outermost S-expression. -/
lemma Reaches.eval_fill (h : Reaches m ls n) (herr : (n.eval e).1 = .error message) :
    m.eval (fill ls e) = (.error message, { m with scopes := (n.eval e).2.scopes }) := by
  induction h with
  | here m =>
    rw [fill, ← herr, ← (eval_keeps m e).eq_withScopes]
  | within hlimit hbefore _ ih =>
    have hinner := ih herr
    rw [fill, eval_fill_error hlimit hbefore (congrArg Prod.fst hinner), hinner]

end Evaluator

open Evaluator in
/-- **The first error wins.** If the cells before a cell of an S-expression come to no error and the
cell does, then its error is the answer, with the scopes that it leaves, whatever stands after it;
and so it is of all S-expressions around that one in which it is the first cell that fails. Nothing
that was bound before is lost. In none of the S-expressions a cell after the failing one is
evaluated, or a function applied. The cells are evaluated one level deeper than the S-expression
they stand in. -/
theorem first_error_wins {m n : Evaluator} {ls : List Layer} {e : Value} {message : String}
    (h : Reaches m ls n) (herr : (n.eval e).1 = .error message) :
    (∀ ks, ks.map Layer.before = ls.map Layer.before →
      m.eval (fill ks e) = (.error message, { m with scopes := (n.eval e).2.scopes })) ∧
    n.scopes.Grows (m.eval (fill ls e)).2.scopes ∧
    ∀ outer l inner, ls = outer ++ l :: inner → ∃ k, Reaches m outer k ∧
      (∀ j w, Begins Evaluator.eval k.deeper (l.fill (fill inner e)) j w →
        GetsTo Evaluator.eval k.deeper (l.before ++ [fill inner e]) j w) ∧
      ∀ f args, ¬ Applies k.deeper (l.fill (fill inner e)) f args := by
  refine ⟨fun ks hks => (h.of_before hks).eval_fill herr, ?_, ?_⟩
  · rw [h.eval_fill herr]
    exact (eval_keeps n e).scopes
  · rintro outer l inner rfl
    obtain ⟨k, houter, hinner⟩ := h.split
    cases hinner with
    | within _ hbefore hinner =>
      have herr' := congrArg Prod.fst (hinner.eval_fill herr)
      exact ⟨k, houter, begins_of_error hbefore herr'⟩

open Evaluator in
/-- In `(list (def {a} 1) (+ a b) (def {c} 2))` the symbol `b` is unbound. The definition before it
is kept, and the one after it is not made. -/
theorem first_error_wins_unbound :
    let m := withBuiltins 9
    let a := Value.sexpr [.symbol "def", .qexpr [.symbol "a"], .number 1]
    let c := Value.sexpr [.symbol "def", .qexpr [.symbol "c"], .number 2]
    let ls : List Layer := [⟨[.symbol "list", a], [c]⟩, ⟨[.symbol "+", .symbol "a"], []⟩]
    let n : Evaluator := ⟨9, 2, .ofGlobal (Builtin.environment.insert "a" (.number 1))⟩
    Reaches m ls n ∧ (n.eval (.symbol "b")).1 = .error "unbound symbol 'b'" ∧
      m.eval (fill ls (.symbol "b")) =
        (.error "unbound symbol 'b'", { m with scopes := n.scopes }) := by
  intro m a c ls n
  let k : Evaluator := ⟨9, 1, n.scopes⟩
  have hdef : ((m.deeper.eval (.symbol "list")).2.eval a).2 = k := by decide +kernel
  have hsum : ((k.deeper.eval (.symbol "+")).2.eval (.symbol "a")).2 = n := by decide +kernel
  have hbefore : Passes m.deeper [.symbol "list", a] k :=
    .cons (by decide) (.cons (by decide) (hdef ▸ .nil _))
  have hbefore' : Passes k.deeper [.symbol "+", .symbol "a"] n :=
    .cons (by decide) (.cons (by decide) (hsum ▸ .nil _))
  have hreaches : Reaches m ls n :=
    .within (by decide) hbefore (.within (by decide) hbefore' (.here n))
  have herr : (n.eval (.symbol "b")).1 = .error "unbound symbol 'b'" := by decide
  have h := (first_error_wins hreaches herr).1 ls rfl
  exact ⟨hreaches, herr, h⟩

end BraceLisp
