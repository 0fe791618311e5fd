import BraceLisp.Proofs.Discipline
import Mathlib.Logic.Relation

/-!
The evaluations that begin within an evaluation.

Three places let an evaluation begin within another: a cell of an S-expression, the list that
`eval` is applied to, and the body of a closure. What an evaluation comes to depends on nothing
but these (`evalOnce_withLimit`), which turns the recursion on the room into an equation of the
evaluator with itself (`eval_of_lt`). An error of one of them is the error of the whole
(`Contains.error`).
-/

namespace BraceLisp

namespace Evaluator

/-- The state within an evaluation that begins in `m`. -/
def deeper (m : Evaluator) : Evaluator := { m with depth := m.depth + 1 }

def withLimit (m : Evaluator) (limit : Nat) : Evaluator := { m with limit := limit }

lemma withLimit_of_eq {m : Evaluator} {limit : Nat} (h : m.limit = limit) :
    m.withLimit limit = m := by
  subst h; rfl

@[simp] lemma deeper_depth (m : Evaluator) : m.deeper.depth = m.depth + 1 := rfl

@[simp] lemma deeper_limit (m : Evaluator) : m.deeper.limit = m.limit := rfl

section Begins

variable (eval : Evaluation)

/-- Evaluating cells from left to right gets to the cell `w` in the state `n`. -/
inductive GetsTo : Evaluator → List Value → Evaluator → Value → Prop where
  | here (m : Evaluator) (w : Value) (cells : List Value) : GetsTo m (w :: cells) m w
  | next {m : Evaluator} {cell : Value} {cells : List Value} {n : Evaluator} {w : Value}
      (hok : (eval m cell).1.isError = false) (h : GetsTo (eval m cell).2 cells n w) :
      GetsTo m (cell :: cells) n w

/-- Carrying out an effect evaluates `w` in the state `n`. -/
inductive Effect.Begins (m : Evaluator) : Effect → Evaluator → Value → Prop where
  | evaluate (cells : List Value) : Effect.Begins m (.evaluate cells) m (.sexpr cells)
  | enter (frame : Frame) (body : List Value) :
      Effect.Begins m (.enter frame body) { m with scopes := m.scopes.push frame } (.sexpr body)

/-- Directly within the evaluation of a value that of `w` begins in the state `n`. -/
inductive Begins (m : Evaluator) : Value → Evaluator → Value → Prop where
  | cell {cells : List Value} {n : Evaluator} {w : Value} (h : GetsTo eval m cells n w) :
      Begins m (.sexpr cells) n w
  | reduction {cells vs : List Value} {k n : Evaluator} {x : Effect} {w : Value}
      (hcells : evalCells eval m cells = (.ok vs, k)) (hx : Value.reduction vs = .ok x)
      (h : Effect.Begins k x n w) : Begins m (.sexpr cells) n w

end Begins

variable {eval eval' : Evaluation} {limit : Nat} {m n : Evaluator} {v w : Value}

/-! ### An evaluation depends only on those within it -/

lemma evalCells_withLimit {cells : List Value}
    (h : ∀ n w, GetsTo eval m cells n w →
      eval' (n.withLimit limit) w = ((eval n w).1, (eval n w).2.withLimit limit)) :
    evalCells eval' (m.withLimit limit) cells =
      ((evalCells eval m cells).1, (evalCells eval m cells).2.withLimit limit) := by
  induction cells generalizing m with
  | nil => rfl
  | cons cell cells ih =>
    have hcell := h m cell (.here m cell cells)
    rcases (eval m cell).1.error_or_not with ⟨message, herr⟩ | hok
    · have herr' : (eval' (m.withLimit limit) cell).1 = .error message := by rw [hcell, herr]
      rw [evalCells_cons_error cells herr, evalCells_cons_error cells herr', hcell]
    · have hok' : (eval' (m.withLimit limit) cell).1.isError = false := by rw [hcell]; exact hok
      rw [evalCells_cons_ok cells hok, evalCells_cons_ok cells hok', hcell]
      rw [ih fun n w hn => h n w (.next hok hn)]

lemma perform_withLimit {x : Effect}
    (h : ∀ n w, Effect.Begins m x n w →
      eval' (n.withLimit limit) w = ((eval n w).1, (eval n w).2.withLimit limit)) :
    perform eval' (m.withLimit limit) x =
      ((perform eval m x).1, (perform eval m x).2.withLimit limit) := by
  cases x with
  | answer v => rfl
  | define reach bindings => rfl
  | evaluate cells => exact h _ _ (.evaluate cells)
  | enter frame body =>
    have hbody := h _ _ (.enter frame body)
    simp only [perform]
    exact congrArg (fun r : Value × Evaluator => (r.1, { r.2 with scopes := r.2.scopes.leave }))
      hbody

/-- Two evaluations that agree, up to the limit, on all that begins within one of `v` agree on
`v`. -/
lemma evalOnce_withLimit
    (h : ∀ n w, Begins eval m v n w →
      eval' (n.withLimit limit) w = ((eval n w).1, (eval n w).2.withLimit limit)) :
    evalOnce eval' (m.withLimit limit) v =
      ((evalOnce eval m v).1, (evalOnce eval m v).2.withLimit limit) := by
  cases v with
  | sexpr cells =>
    have hcells := evalCells_withLimit fun n w hn => h n w (.cell hn)
    rw [evalOnce, evalOnce, hcells]
    rcases hr : evalCells eval m cells with ⟨_ | vs, k⟩
    · rfl
    · rcases hx : Value.reduction vs with e | x
      · simp only [hx]; rfl
      · simp only [hx]
        exact perform_withLimit fun n w hn => h n w (.reduction hr hx hn)
  | _ => rfl

/-! ### The equation of the evaluator -/

lemma GetsTo.keeps (hk : ∀ m v, Keeps m (eval m v).2) {cells : List Value}
    (h : GetsTo eval m cells n w) : Keeps m n := by
  induction h with
  | here m w cells => exact Keeps.refl m
  | next hok h ih => exact (hk _ _).trans ih

/-- What begins within an evaluation begins at one depth and under one limit. -/
lemma Begins.level (hk : ∀ m v, Keeps m (eval m v).2) (h : Begins eval m v n w) :
    n.depth = m.depth ∧ n.limit = m.limit := by
  cases h with
  | cell h =>
    have hn := h.keeps hk
    exact ⟨hn.depth, hn.limit⟩
  | @reduction cells vs k n x w hcells hx h =>
    have hn := evalCells_keeps hk m cells
    rw [hcells] at hn
    cases h <;> exact ⟨hn.depth, hn.limit⟩

lemma eval_of_limit_le (h : m.limit ≤ m.depth) (v : Value) :
    m.eval v = ((EvalError.tooDeep m.depth m.limit).toValue, m) := by
  rw [eval, room, Nat.sub_eq_zero_of_le h, evalWithin_zero]

/-- Two evaluations that agree on all that begins within one of `v` agree on `v`. -/
lemma evalOnce_congr (hk : ∀ m v, Keeps m (eval m v).2)
    (h : ∀ n w, Begins eval m v n w → eval' n w = eval n w) :
    evalOnce eval' m v = evalOnce eval m v := by
  have hagree : evalOnce eval' (m.withLimit m.limit) v =
      ((evalOnce eval m v).1, (evalOnce eval m v).2.withLimit m.limit) := by
    refine evalOnce_withLimit fun n w hn => ?_
    have hn' : n.limit = m.limit := (hn.level hk).2
    rw [withLimit_of_eq hn', withLimit_of_eq ((hk n w).limit.trans hn'), h n w hn]
  rwa [withLimit_of_eq rfl, withLimit_of_eq (evalOnce_keeps hk m v).limit] at hagree

/-- Below the limit an evaluation is one step over the evaluator itself. -/
theorem eval_of_lt (h : m.depth < m.limit) (v : Value) :
    m.eval v =
      let r := evalOnce Evaluator.eval m.deeper v
      (r.1, { r.2 with depth := r.2.depth - 1 }) := by
  obtain ⟨room, hroom⟩ : ∃ room, m.room = room + 1 :=
    ⟨m.room - 1, by unfold Evaluator.room; omega⟩
  have honce : evalOnce Evaluator.eval m.deeper v = evalOnce (evalWithin room) m.deeper v := by
    refine evalOnce_congr (evalWithin_keeps room) fun n w hn => ?_
    -- what begins within starts with the room that is left
    obtain ⟨hdepth, hlimit⟩ := hn.level (evalWithin_keeps room)
    have hr : n.room = room := by
      unfold Evaluator.room at hroom ⊢
      rw [hdepth, hlimit, deeper_depth, deeper_limit]
      omega
    rw [Evaluator.eval, hr]
  rw [Evaluator.eval, hroom, evalWithin_succ, honce]
  rfl

/-! ### Evaluations within evaluations -/

/-- Directly within the evaluation of one value in its state that of the other begins. -/
def Nests (p q : Evaluator × Value) : Prop :=
  p.1.depth < p.1.limit ∧ Begins Evaluator.eval p.1.deeper p.2 q.1 q.2

/-- The evaluation of one value in its state is, or has within it at any depth, the other. -/
def Contains : Evaluator × Value → Evaluator × Value → Prop := Relation.ReflTransGen Nests

lemma Nests.level {p q : Evaluator × Value} (h : Nests p q) :
    q.1.depth = p.1.depth + 1 ∧ q.1.limit = p.1.limit :=
  h.2.level eval_keeps

lemma GetsTo.error {cells : List Value} {message : String} (h : GetsTo eval m cells n w)
    (herr : (eval n w).1 = .error message) : (evalCells eval m cells).1 = .error message := by
  induction h with
  | here m w cells => rw [evalCells_cons_error cells herr]
  | @next m cell cells n w hok h ih =>
    rw [evalCells_cons_ok cells hok, ih herr]
    rfl

lemma Begins.error {message : String} (h : Begins eval m v n w)
    (herr : (eval n w).1 = .error message) : (evalOnce eval m v).1 = .error message := by
  cases h with
  | @cell cells n w h =>
    have hcells := h.error herr
    rw [evalOnce]
    rcases hr : evalCells eval m cells with ⟨message' | vs, k⟩ <;> rw [hr] at hcells
    · cases hcells; rfl
    · cases hcells
  | reduction hcells hx h =>
    rw [evalOnce]
    simp only [hcells, performWith, hx]
    cases h with
    | evaluate cells => exact herr
    | enter frame body => exact herr

/-- An error of an evaluation is the answer of every evaluation that it lies within. -/
lemma Contains.error {p q : Evaluator × Value} {message : String} (h : Contains p q)
    (herr : (q.1.eval q.2).1 = .error message) : (p.1.eval p.2).1 = .error message := by
  induction h using Relation.ReflTransGen.head_induction_on with
  | refl => exact herr
  | head hstep _ ih =>
    rw [eval_of_lt hstep.1]
    exact hstep.2.error ih

end Evaluator

end BraceLisp
