import BraceLisp.Proofs.Arguments
import BraceLisp.Proofs.Machine

/-!
Evaluations end, and none begins beyond the limit.

No measure of a value decreases: a closure may call itself, and a list that is evaluated may
rebuild itself. What bounds a run is the counter. It counts the evaluations that are pending and
never passes the limit (`InRange`), at every state that the machine gets to (`InRange.runs`). The
machine does one thing at a time and gets to an answer, so it runs no further (`acc_of_runs`).
-/

namespace BraceLisp

namespace Machine

open Evaluator

/-! ### The counter -/

/-- The evaluations that have begun and not ended. -/
@[simp]
def active : List Pending → Nat
  | [] => 0
  | .body :: k => active k + 1
  | .cell _ _ :: k => active k
  | .leave :: k => active k

/-- An error of the limit tells the limit as the depth. -/
def TellsLimit (limit : Nat) : Task → Prop
  | .refuse (.tooDeep d l) => d = limit ∧ l = limit
  | _ => True

/-- A state that the machine may get to from one that begins in `m`. -/
structure InRange (m : Evaluator) (s : Machine) : Prop where
  limit : s.state.limit = m.limit
  depth : s.state.depth = m.depth + active s.pending
  depth_le : s.state.depth ≤ m.limit
  task : TellsLimit m.limit s.task

variable {m n n' : Evaluator} {task task' : Task} {k k' : List Pending} {s t : Machine}

/-- A step that begins no evaluation and ends none. -/
lemma InRange.next (h : InRange m ⟨task, k, n⟩) (hlimit : n'.limit = n.limit)
    (hdepth : n'.depth = n.depth) (hk : active k' = active k)
    (htask : TellsLimit m.limit task') : InRange m ⟨task', k', n'⟩ where
  limit := hlimit.trans h.limit
  depth := by rw [hk]; exact hdepth.trans h.depth
  depth_le := Nat.le_trans (Nat.le_of_eq hdepth) h.depth_le
  task := htask

/-- No function refuses its arguments with the error of the limit. -/
lemma tellsLimit_ofOutcome (limit : Nat) (f : Value) (args : List Value) :
    TellsLimit limit (.ofOutcome (f.effect args)) := by
  have hrefuses := f.effect_refuses args
  cases hr : f.effect args with
  | ok x => trivial
  | error e =>
    have he : e.OfArguments := hrefuses e hr
    cases e with
    | tooDeep d l => exact he.elim
    | _ => trivial

lemma tellsLimit_reduce (limit : Nat) (vs : List Value) : TellsLimit limit (reduce vs) := by
  match vs with
  | [] => trivial
  | [v] => trivial
  | f :: a :: args => trivial

lemma InRange.eval {v : Value} (h : InRange m ⟨.eval v, k, n⟩)
    (hstep : step? ⟨.eval v, k, n⟩ = some t) : InRange m t := by
  have hlimit : n.limit = m.limit := h.limit
  have hdepth : n.depth = m.depth + active k := h.depth
  have hle : n.depth ≤ m.limit := h.depth_le
  rcases Nat.lt_or_ge n.depth n.limit with hlt | hge
  · rw [step_eval hlt] at hstep
    cases hstep
    refine ⟨hlimit, ?_, ?_, trivial⟩
    · simp only [deeper_depth, active]
      omega
    · simp only [deeper_depth]
      omega
  · rw [step_eval_of_limit_le hge] at hstep
    cases hstep
    exact ⟨hlimit, hdepth, hle, by omega, hlimit⟩

lemma InRange.answer {v : Value} (h : InRange m ⟨.answer v, k, n⟩)
    (hstep : step? ⟨.answer v, k, n⟩ = some t) : InRange m t := by
  match k with
  | [] => cases hstep
  | .body :: k =>
    cases hstep
    have hdepth : n.depth = m.depth + (active k + 1) := h.depth
    have hle : n.depth ≤ m.limit := h.depth_le
    refine ⟨h.limit, ?_, ?_, trivial⟩
    · simp only
      omega
    · simp only
      omega
  | .cell answers rest :: k =>
    simp only [step?, resume] at hstep
    split at hstep <;> cases hstep <;> exact h.next rfl rfl rfl trivial
  | .leave :: k =>
    cases hstep
    exact h.next rfl rfl rfl trivial

/-- What one step keeps. -/
lemma InRange.step (h : InRange m s) (hstep : s.step? = some t) : InRange m t := by
  obtain ⟨task, k, n⟩ := s
  cases task with
  | eval v => exact h.eval hstep
  | body v =>
    cases v with
    | symbol name =>
      simp only [step?] at hstep
      split at hstep <;> cases hstep <;> exact h.next rfl rfl rfl trivial
    | _ => cases hstep; exact h.next rfl rfl rfl trivial
  | cells answers rest =>
    cases rest with
    | nil => cases hstep; exact h.next rfl rfl rfl (tellsLimit_reduce _ _)
    | cons c rest => cases hstep; exact h.next rfl rfl rfl trivial
  | apply f args => cases hstep; exact h.next rfl rfl rfl (tellsLimit_ofOutcome _ f args)
  | perform x => cases x <;> cases hstep <;> exact h.next rfl rfl rfl trivial
  | refuse e => cases hstep; exact h.next rfl rfl rfl trivial
  | answer v => exact h.answer hstep

/-- What a whole run keeps. -/
lemma InRange.runs (h : InRange m s) (hr : Runs s t) : InRange m t := by
  induction hr with
  | refl => exact h
  | tail _ hstep ih => exact ih.step hstep

/-! ### Runs are finite -/

/-- A machine that gets to where it stops has no infinite run. -/
lemma acc_of_runs (h : Runs s t) (ht : t.step? = none) : Acc Follows s := by
  induction h using Relation.ReflTransGen.head_induction_on with
  | refl =>
    refine ⟨_, fun u hu => ?_⟩
    rw [Follows, ht] at hu
    cases hu
  | @head s s' hstep _ ih =>
    refine ⟨_, fun u hu => ?_⟩
    -- one state follows at most
    have heq : s' = u := Option.some.inj (hstep.symm.trans hu)
    exact heq ▸ ih

/-- What an evaluator is asked for, and what it answers: the evaluation of a value, the application
of one, and a call of a builtin. -/
inductive Asks (m : Evaluator) : Task → Value × Evaluator → Prop where
  | eval (v : Value) : Asks m (.eval v) (m.eval v)
  | apply (f : Value) (args : List Value) : Asks m (.apply f args) (m.apply f args)
  | call (b : Builtin) (args : List Value) : Asks m (.apply (.builtin b) args) (m.call b args)

variable {outcome : Value × Evaluator}

lemma Asks.comesTo (h : Asks m task outcome) : ComesTo m task outcome := by
  cases h with
  | eval v => exact comesTo_eval m v
  | apply f args => exact comesTo_apply m f args
  | call b args => exact comesTo_apply m (.builtin b) args

lemma Asks.inRange (h : Asks m task outcome) (hm : m.depth ≤ m.limit) :
    InRange m ⟨task, [], m⟩ :=
  ⟨rfl, rfl, hm, by cases h <;> trivial⟩

end Machine

open Machine in
/-- **Evaluation ends.** Whatever an evaluator is asked for within its limit, the machine has no
infinite run, gets to the answer that the evaluator gives, and begins every evaluation that it does.
All along the counter is not below its first value and not above the limit, no more evaluations are
active than the limit leaves room for, and an error of the limit tells the limit as the depth. -/
theorem evaluation_ends {m : Evaluator} {task : Task} {outcome : Value × Evaluator}
    (hm : m.depth ≤ m.limit) (h : Asks m task outcome) :
    Acc Follows ⟨task, [], m⟩ ∧
    Machine.Runs ⟨task, [], m⟩ ⟨.answer outcome.1, [], outcome.2⟩ ∧
    (∀ n w, Evaluates m task n w → ∃ k, Machine.Runs ⟨task, [], m⟩ ⟨.eval w, k, n⟩) ∧
    ∀ s, Machine.Runs ⟨task, [], m⟩ s →
      m.depth ≤ s.state.depth ∧ s.state.depth ≤ m.limit ∧ s.state.limit = m.limit ∧
      s.state.depth = m.depth + active s.pending ∧ active s.pending ≤ m.limit - m.depth ∧
      ∀ d l, s.task = .refuse (.tooDeep d l) → d = m.limit ∧ l = m.limit := by
  have hruns := h.comesTo []
  refine ⟨acc_of_runs hruns rfl, hruns, fun n w hw => runs_of_evaluates hw [], fun s hs => ?_⟩
  obtain ⟨hlimit, hdepth, hle, htask⟩ := (h.inRange hm).runs hs
  refine ⟨by omega, hle, hlimit, hdepth, by omega, fun d l hrefuse => ?_⟩
  rwa [hrefuse] at htask

open Machine in
/-- A closure that calls itself by its name, evaluated, and one that is applied to itself and
applies it to itself: both meet the limit. -/
theorem evaluation_ends_recursive :
    let f := Value.closure ["x"] [.symbol "f", .symbol "x"] .empty
    let w := Value.closure ["x"] [.symbol "x", .symbol "x"] .empty
    let m := Evaluator.ofGlobal (.ofList [("f", f)]) 4
    let v := Value.sexpr [.symbol "f", .number 1]
    m.depth ≤ m.limit ∧
    (Acc Follows ⟨.eval v, [], m⟩ ∧
      Machine.Runs ⟨.eval v, [], m⟩ ⟨.answer (EvalError.tooDeep 4 4).toValue, [], m⟩ ∧
      ∀ s, Machine.Runs ⟨.eval v, [], m⟩ s → active s.pending ≤ 4) ∧
    Acc Follows ⟨.apply w [w], [], m⟩ ∧
      Machine.Runs ⟨.apply w [w], [], m⟩ ⟨.answer (EvalError.tooDeep 4 4).toValue, [], m⟩ ∧
      ∀ s, Machine.Runs ⟨.apply w [w], [], m⟩ s → active s.pending ≤ 4 := by
  intro f w m v
  have hm : m.depth ≤ m.limit := Nat.zero_le _
  have hv : m.eval v = ((EvalError.tooDeep 4 4).toValue, m) := by decide +kernel
  have hw : m.apply w [w] = ((EvalError.tooDeep 4 4).toValue, m) := by decide +kernel
  obtain ⟨hacc, hruns, -, hall⟩ := evaluation_ends hm (.eval v)
  obtain ⟨hacc', hruns', -, hall'⟩ := evaluation_ends hm (.apply w [w])
  rw [hv] at hruns
  rw [hw] at hruns'
  exact ⟨hm, ⟨hacc, hruns, fun s hs => (hall s hs).2.2.2.2.1⟩, hacc', hruns',
    fun s hs => (hall' s hs).2.2.2.2.1⟩

end BraceLisp
