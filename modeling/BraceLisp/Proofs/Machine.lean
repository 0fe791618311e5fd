import BraceLisp.Proofs.Nested

/-!
An evaluation taken step by step.

The machine does what an evaluation does, one step after another and without recursion: what is
still to be done after the present task is kept in a list (`Pending`). Its runs come to what the
evaluator says (`comesTo_eval`, `comesTo_apply`), by induction on the evaluations that may still
begin, and on their way they begin every evaluation that the evaluator does (`runs_of_evaluates`).
-/

namespace BraceLisp

/-- What is to be done next. -/
inductive Task where
  | eval (v : Value)
  /-- The evaluation of a value that has begun. -/
  | body (v : Value)
  /-- The cells of an S-expression: the answers to those evaluated, the last one first, and the
  cells after them. -/
  | cells (answers rest : List Value)
  | apply (f : Value) (args : List Value)
  | perform (x : Effect)
  | refuse (e : EvalError)
  | answer (v : Value)

/-- What is to be done with an answer. -/
inductive Pending where
  /-- An evaluation that has begun ends with it. -/
  | body
  /-- It is the answer to a cell. -/
  | cell (answers rest : List Value)
  /-- It is the answer of a call, whose frame is taken off. -/
  | leave

/-- What a function made of its arguments is carried out, or becomes an error. -/
def Task.ofOutcome : Except EvalError Effect → Task
  | .error e => .refuse e
  | .ok x => .perform x

/-- `pending` holds what is to be done with the answer to the task, and with the answers to come,
the next one first. -/
structure Machine where
  task : Task
  pending : List Pending
  state : Evaluator

namespace Machine

/-- An answer is used for what is pending. If nothing is, the machine stops. -/
def resume (v : Value) (pending : List Pending) (m : Evaluator) : Option Machine :=
  match pending with
  | [] => none
  | .body :: k => some ⟨.answer v, k, { m with depth := m.depth - 1 }⟩
  | .cell answers rest :: k =>
    if v.isError then some ⟨.answer v, k, m⟩ else some ⟨.cells (v :: answers) rest, k, m⟩
  | .leave :: k => some ⟨.answer v, k, { m with scopes := m.scopes.leave }⟩

/-- The values of all cells are reduced: one stands for itself, and of several the first is applied
to the others. -/
def reduce : List Value → Task
  | [] => .answer (.sexpr [])
  | [v] => .answer v
  | f :: args => .apply f args

/-- One step. No evaluation begins at the limit. -/
def step? (s : Machine) : Option Machine :=
  let ⟨task, k, m⟩ := s
  match task with
  | .eval v =>
    if m.limit ≤ m.depth then some ⟨.refuse (.tooDeep m.depth m.limit), k, m⟩
    else some ⟨.body v, .body :: k, m.deeper⟩
  | .body (.symbol name) =>
    match m.scopes.find? name with
    | some v => some ⟨.answer v, k, m⟩
    | none => some ⟨.refuse (.unbound name), k, m⟩
  | .body (.sexpr cells) => some ⟨.cells [] cells, k, m⟩
  | .body v => some ⟨.answer v, k, m⟩
  | .cells answers (c :: rest) => some ⟨.eval c, .cell answers rest :: k, m⟩
  | .cells answers [] => some ⟨reduce answers.reverse, k, m⟩
  | .apply f args => some ⟨.ofOutcome (f.effect args), k, m⟩
  | .perform (.answer v) => some ⟨.answer v, k, m⟩
  | .perform (.define reach bindings) =>
    some ⟨.answer (.sexpr []), k, { m with scopes := m.scopes.defineAll reach bindings }⟩
  | .perform (.evaluate cells) => some ⟨.eval (.sexpr cells), k, m⟩
  | .perform (.enter frame body) =>
    some ⟨.eval (.sexpr body), .leave :: k, { m with scopes := m.scopes.push frame }⟩
  | .refuse e => some ⟨.answer e.toValue, k, m⟩
  | .answer v => resume v k m

/-- The state `t` follows `s`. -/
def Follows (t s : Machine) : Prop := s.step? = some t

/-- The machine gets from one state to another. -/
def Runs : Machine → Machine → Prop := Relation.ReflTransGen fun s t => Follows t s

variable {m : Evaluator} {k : List Pending} {s t u : Machine}

lemma Runs.step (h : s.step? = some t) : Runs s t := .single h

lemma Runs.trans (h : Runs s t) (h' : Runs t u) : Runs s u := Relation.ReflTransGen.trans h h'

lemma Runs.head (h : s.step? = some t) (h' : Runs t u) : Runs s u := Relation.ReflTransGen.head h h'

lemma step_eval (h : m.depth < m.limit) (v : Value) (k : List Pending) :
    (⟨.eval v, k, m⟩ : Machine).step? = some ⟨.body v, .body :: k, m.deeper⟩ := by
  simp only [step?, if_neg (Nat.not_le_of_lt h)]

lemma step_eval_of_limit_le (h : m.limit ≤ m.depth) (v : Value) (k : List Pending) :
    (⟨.eval v, k, m⟩ : Machine).step? = some ⟨.refuse (.tooDeep m.depth m.limit), k, m⟩ := by
  simp only [step?, if_pos h]

lemma step_answer_cell {v : Value} (h : v.isError = false) (answers rest : List Value)
    (k : List Pending) : (⟨.answer v, .cell answers rest :: k, m⟩ : Machine).step? =
      some ⟨.cells (v :: answers) rest, k, m⟩ := by
  simp [step?, resume, h]

/-! ### What tasks come to -/

/-- A task comes to an outcome: whatever is pending, the machine gets to its answer. -/
def ComesTo (m : Evaluator) (task : Task) (outcome : Value × Evaluator) : Prop :=
  ∀ k, Runs ⟨task, k, m⟩ ⟨.answer outcome.1, k, outcome.2⟩

/-- All evaluations that begin at the depth of `m` come to what the evaluator says. -/
def EvalsAgree (m : Evaluator) : Prop :=
  ∀ n : Evaluator, n.depth = m.depth → n.limit = m.limit → ∀ v, ComesTo n (.eval v) (n.eval v)

open Evaluator

lemma EvalsAgree.of_keeps {n : Evaluator} (h : EvalsAgree m) (hn : Keeps m n) : EvalsAgree n :=
  fun l hdepth hlimit => h l (hdepth.trans hn.depth) (hlimit.trans hn.limit)

lemma comesTo_perform (h : EvalsAgree m) (x : Effect) :
    ComesTo m (.perform x) (perform Evaluator.eval m x) := by
  intro k
  cases x with
  | answer v => exact .step rfl
  | define reach bindings => exact .step rfl
  | evaluate cells => exact .head rfl (h m rfl rfl _ k)
  | enter frame body =>
    have hbody := h { m with scopes := m.scopes.push frame } rfl rfl (.sexpr body) (.leave :: k)
    exact .head rfl (hbody.trans (.step rfl))

lemma comesTo_ofOutcome (h : EvalsAgree m) (r : Except EvalError Effect) :
    ComesTo m (.ofOutcome r) (performWith Evaluator.eval m r) := by
  cases r with
  | error e => exact fun k => .step rfl
  | ok x => exact comesTo_perform h x

lemma comesTo_reduce (h : EvalsAgree m) (vs : List Value) :
    ComesTo m (reduce vs) (performWith Evaluator.eval m (Value.reduction vs)) := by
  intro k
  match vs with
  | [] => exact .refl
  | [v] => exact .refl
  | f :: a :: args => exact .head rfl (comesTo_ofOutcome h (f.effect (a :: args)) k)

/-- The cells are evaluated, or the first error among their answers is the outcome. -/
def afterCells (answers : List Value) : Except String (List Value) → Task
  | .error message => .answer (.error message)
  | .ok vs => .cells (vs.reverse ++ answers) []

lemma runs_cells (h : EvalsAgree m) (answers cells : List Value) (k : List Pending) :
    Runs ⟨.cells answers cells, k, m⟩
      ⟨afterCells answers (evalCells Evaluator.eval m cells).1, k,
        (evalCells Evaluator.eval m cells).2⟩ := by
  induction cells generalizing m answers with
  | nil => exact .refl
  | cons c cells ih =>
    have hcell := h m rfl rfl c (.cell answers cells :: k)
    refine .head rfl (hcell.trans ?_)
    rcases (m.eval c).1.error_or_not with ⟨message, herr⟩ | hok
    · rw [evalCells_cons_error cells herr, herr]
      exact .step rfl
    · have hrest := ih (h.of_keeps (eval_keeps m c)) ((m.eval c).1 :: answers)
      rw [evalCells_cons_ok cells hok]
      refine .head (step_answer_cell hok answers cells k) ?_
      rcases hr : evalCells Evaluator.eval (m.eval c).2 cells with ⟨message | vs, n⟩
      · rw [hr] at hrest
        exact hrest
      · rw [hr] at hrest
        simpa [afterCells, Except.map] using hrest

lemma comesTo_body (h : EvalsAgree m) (v : Value) :
    ComesTo m (.body v) (evalOnce Evaluator.eval m v) := by
  intro k
  cases v with
  | symbol name =>
    rw [evalOnce, lookup]
    cases hfind : m.scopes.find? name with
    | none =>
      have hrefuse : (⟨.body (.symbol name), k, m⟩ : Machine).step? =
          some ⟨.refuse (.unbound name), k, m⟩ := by
        simp only [step?, hfind]
      exact .head hrefuse (.step rfl)
    | some v => exact .step (by simp only [step?, hfind, Option.getD_some])
  | sexpr cells =>
    have hcells := runs_cells h [] cells k
    have hn := evalCells_keeps eval_keeps m cells
    refine .head rfl (hcells.trans ?_)
    rw [evalOnce]
    rcases hr : evalCells Evaluator.eval m cells with ⟨message | vs, n⟩
    · exact .refl
    · rw [hr] at hn
      refine .head ?_ (comesTo_reduce (h.of_keeps hn) vs k)
      simp [step?, afterCells]
  | _ => exact .step rfl

/-- An evaluation comes to what the evaluator says. -/
theorem comesTo_eval (m : Evaluator) (v : Value) : ComesTo m (.eval v) (m.eval v) := by
  -- the room left shrinks with every evaluation that begins
  induction hroom : m.room generalizing m v with
  | zero =>
    have hle : m.limit ≤ m.depth := Nat.le_of_sub_eq_zero hroom
    rw [eval_of_limit_le hle]
    exact fun k => .head (step_eval_of_limit_le hle v k) (.step rfl)
  | succ room ih =>
    have hlt : m.depth < m.limit := Nat.lt_of_sub_eq_succ hroom
    have hagree : EvalsAgree m.deeper := by
      intro n hdepth hlimit v
      refine ih n v ?_
      rw [Evaluator.room, hdepth, hlimit, deeper_depth, deeper_limit, Nat.sub_add_eq]
      exact congrArg (· - 1) hroom
    intro k
    have hbody := comesTo_body hagree v (.body :: k)
    rw [eval_of_lt hlt]
    exact .head (step_eval hlt v k) (hbody.trans (.step rfl))

lemma evalsAgree (m : Evaluator) : EvalsAgree m := fun n _ _ => comesTo_eval n

/-- An application comes to what the evaluator says. -/
theorem comesTo_apply (m : Evaluator) (f : Value) (args : List Value) :
    ComesTo m (.apply f args) (m.apply f args) := by
  have happly : m.apply f args = performWith Evaluator.eval m (f.effect args) := by
    rw [Evaluator.apply]
    rcases f.effect args with e | x
    · rfl
    · cases x <;> rfl
  rw [happly]
  exact fun k => .head rfl (comesTo_ofOutcome (evalsAgree m) _ k)

/-! ### The evaluations that the machine begins -/

lemma runs_getsTo {cells : List Value} {n : Evaluator} {w : Value}
    (h : GetsTo Evaluator.eval m cells n w) (answers : List Value) (k : List Pending) :
    ∃ k', Runs ⟨.cells answers cells, k, m⟩ ⟨.eval w, k', n⟩ := by
  induction h generalizing answers with
  | here m w cells => exact ⟨_, .step rfl⟩
  | @next m c cells n w hok _ ih =>
    obtain ⟨k', hrest⟩ := ih ((m.eval c).1 :: answers)
    have hcell := comesTo_eval m c (.cell answers cells :: k)
    have hnext := step_answer_cell (m := (m.eval c).2) hok answers cells k
    exact ⟨k', .head rfl (hcell.trans (.head hnext hrest))⟩

lemma runs_effect {f : Value} {args : List Value} {x : Effect} {n : Evaluator} {w : Value}
    (hx : f.effect args = .ok x) (h : Effect.Begins m x n w) (k : List Pending) :
    ∃ k', Runs ⟨.apply f args, k, m⟩ ⟨.eval w, k', n⟩ := by
  have happly : (⟨.apply f args, k, m⟩ : Machine).step? = some ⟨.perform x, k, m⟩ := by
    simp only [step?, hx, Task.ofOutcome]
  cases h with
  | evaluate cells => exact ⟨_, .head happly (.step rfl)⟩
  | enter frame body => exact ⟨_, .head happly (.step rfl)⟩

lemma runs_reduction {vs : List Value} {x : Effect} {n : Evaluator} {w : Value}
    (hx : Value.reduction vs = .ok x) (h : Effect.Begins m x n w) (k : List Pending) :
    ∃ k', Runs ⟨reduce vs, k, m⟩ ⟨.eval w, k', n⟩ := by
  match vs with
  | [] => cases hx; cases h
  | [v] => cases hx; cases h
  | f :: a :: args => exact runs_effect hx h k

lemma runs_begins {v : Value} {n : Evaluator} {w : Value} (h : Begins Evaluator.eval m v n w)
    (k : List Pending) : ∃ k', Runs ⟨.body v, k, m⟩ ⟨.eval w, k', n⟩ := by
  cases h with
  | cell h =>
    obtain ⟨k', hcells⟩ := runs_getsTo h [] k
    exact ⟨k', .head rfl hcells⟩
  | @reduction cells vs n' n x w hcells hx h =>
    have hrun := runs_cells (evalsAgree m) [] cells k
    obtain ⟨k', hreduction⟩ := runs_reduction hx h k
    rw [hcells] at hrun
    exact ⟨k', .head rfl (hrun.trans (.head (by simp [step?, afterCells]) hreduction))⟩

/-- The machine gets to every evaluation that lies within one, at any depth. -/
theorem runs_of_contains {p q : Evaluator × Value} (h : Contains p q) (k : List Pending) :
    ∃ k', Runs ⟨.eval p.2, k, p.1⟩ ⟨.eval q.2, k', q.1⟩ := by
  induction h using Relation.ReflTransGen.head_induction_on generalizing k with
  | refl => exact ⟨k, .refl⟩
  | @head p p' hnest _ ih =>
    obtain ⟨k₁, hbegins⟩ := runs_begins hnest.2 (.body :: k)
    obtain ⟨k₂, hrest⟩ := ih k₁
    exact ⟨k₂, .head (step_eval hnest.1 p.2 k) (hbegins.trans hrest)⟩

/-- In the course of a task that begins in `m` the evaluator evaluates `w` in the state `n`. -/
inductive Evaluates (m : Evaluator) : Task → Evaluator → Value → Prop where
  | eval {v w : Value} {n : Evaluator} (h : Contains (m, v) (n, w)) : Evaluates m (.eval v) n w
  | apply {f v w : Value} {args : List Value} {x : Effect} {n n' : Evaluator}
      (hx : f.effect args = .ok x) (h : Effect.Begins m x n v) (h' : Contains (n, v) (n', w)) :
      Evaluates m (.apply f args) n' w

/-- The machine begins every evaluation that the evaluator does. -/
theorem runs_of_evaluates {task : Task} {n : Evaluator} {w : Value} (h : Evaluates m task n w)
    (k : List Pending) : ∃ k', Runs ⟨task, k, m⟩ ⟨.eval w, k', n⟩ := by
  cases h with
  | eval h => exact runs_of_contains h k
  | apply hx h h' =>
    obtain ⟨k₁, heffect⟩ := runs_effect hx h k
    obtain ⟨k₂, hrest⟩ := runs_of_contains h' k₁
    exact ⟨k₂, heffect.trans hrest⟩

end Machine

end BraceLisp
