import BraceLisp.Evaluator.Eval
import BraceLisp.Proofs.Arguments
import Mathlib.Data.List.ModifyLast
import Mathlib.Tactic.ByContra

/-!
What a builtin does to the state.

A builtin that is not refused its arguments answers, defines or asks for an evaluation
(`Builtin.effect_answers`), and only the last two touch the state. A definition is made when all its
arguments have been looked at, and it changes one frame, the global or the innermost one
(`Scopes.frames_defineAll`). So a builtin that refuses its arguments has changed nothing
(`builtins_are_all_or_nothing`).
-/

namespace BraceLisp

/-- What is left to do is to answer, if it is anything. -/
def Answers (r : Except EvalError Effect) : Prop := ∀ x, r = .ok x → ∃ v, x = .answer v

lemma Answers.answer (v : Value) : Answers (.ok (.answer v)) := by
  rintro _ ⟨⟩
  exact ⟨v, rfl⟩

lemma Answers.bind {α : Type} {r : Except EvalError α} {f : α → Except EvalError Effect}
    (hf : ∀ a, Answers (f a)) : Answers (r >>= f) := by
  intro x h
  obtain ⟨a, -, h⟩ := bind_eq_ok.mp h
  exact hf a x h

namespace Builtin

variable {b : Builtin} {args values : List Value} {x : Effect}

/-- The arguments are those of a definition: a Q-expression of symbols, and a value for each of
them. -/
structure Names (args : List Value) (names : List String) (values : List Value) : Prop where
  args_eq : args = .qexpr (names.map .symbol) :: values
  length_eq : names.length = values.length

lemma define_or_not (b : Builtin) :
    (∃ reach, b = .define reach) ∨ ∀ reach, b ≠ .define reach := by
  cases b <;> simp

lemma effect_answers (heval : b ≠ .eval) (hdefine : ∀ reach, b ≠ .define reach)
    (args : List Value) : Answers (b.effect args) := by
  cases b with
  | list => exact .answer _
  | head => exact .bind fun _ => .bind fun _ => .answer _
  | tail => exact .bind fun _ => .bind fun _ => .answer _
  | join => exact .bind fun _ => .answer _
  | eval => exact absurd rfl heval
  | define reach => exact absurd rfl (hdefine reach)
  | lambda => exact .bind fun _ => .answer _
  | arithmetic op => exact .bind fun _ => .answer _

lemma effect_eval_ok : effect .eval args = .ok x ↔
    ∃ cells, args = [.qexpr cells] ∧ x = .evaluate cells := by
  simp only [effect, bind_eq_ok, oneArgument_ok, listArgument_ok]
  constructor
  · rintro ⟨_, rfl, cells, rfl, ⟨⟩⟩
    exact ⟨cells, rfl, rfl⟩
  · rintro ⟨cells, rfl, rfl⟩
    exact ⟨_, rfl, cells, rfl, rfl⟩

lemma effect_define_ok {reach : Reach} : effect (.define reach) args = .ok x ↔
    ∃ names values, Names args names values ∧ x = .define reach (names.zip values) := by
  simp only [effect, bind_eq_ok, definitions_ok]
  constructor
  · rintro ⟨_, ⟨names, values, hargs, hlength, rfl⟩, ⟨⟩⟩
    exact ⟨names, values, ⟨hargs, hlength⟩, rfl⟩
  · rintro ⟨names, values, hargs, rfl⟩
    exact ⟨_, ⟨names, values, hargs.args_eq, hargs.length_eq, rfl⟩, rfl⟩

end Builtin

/-! ### Definitions -/

/-- The frames, the innermost first, with the one changed that a definition goes to. -/
def Reach.modify : Reach → (Frame → Frame) → List Frame → List Frame
  | outermost => List.modifyLast
  | innermost => List.modifyHead

namespace Scopes

variable (s : Scopes) (bindings : List (String × Value))

lemma defineAll_outermost :
    s.defineAll .outermost bindings = { s with global := s.global.insertAll bindings } := by
  induction bindings generalizing s with
  | nil => rfl
  | cons b rest ih => exact ih _

lemma defineAll_innermost_cons (frame : Frame) (rest : List Frame) (global : Frame) :
    defineAll ⟨frame :: rest, global⟩ .innermost bindings =
      ⟨frame.insertAll bindings :: rest, global⟩ := by
  induction bindings generalizing frame with
  | nil => rfl
  | cons b bindings ih => exact ih _

/-- Over the global frame alone both kinds of definition are the same. -/
lemma defineAll_innermost_nil (h : s.calls = []) :
    s.defineAll .innermost bindings = s.defineAll .outermost bindings := by
  induction bindings generalizing s with
  | nil => rfl
  | cons b bindings ih =>
    obtain ⟨_, global⟩ := s
    subst h
    exact ih _ rfl

/-- Definitions change the frame that they go to, and no other. -/
lemma frames_defineAll (reach : Reach) :
    (s.defineAll reach bindings).frames = reach.modify (·.insertAll bindings) s.frames := by
  cases reach with
  | outermost => rw [defineAll_outermost, frames, Reach.modify, frames, List.modifyLast_concat]
  | innermost =>
    obtain ⟨_ | ⟨frame, rest⟩, global⟩ := s
    · rw [defineAll_innermost_nil _ _ rfl, defineAll_outermost]
      rfl
    · rw [defineAll_innermost_cons]
      rfl

end Scopes

/-! ### Calls -/

namespace Evaluator

variable {m : Evaluator} {b : Builtin} {reach : Reach} {args values : List Value}
  {names : List String}

/-- An answer leaves the state as it is, and so does an error. -/
lemma performWith_of_answers {eval : Evaluation} {r : Except EvalError Effect} (h : Answers r)
    (m : Evaluator) : (performWith eval m r).2 = m := by
  cases r with
  | error e => rfl
  | ok x =>
    obtain ⟨v, rfl⟩ := h x rfl
    rfl

lemma call_of_error {e : EvalError} (h : b.effect args = .error e) :
    m.call b args = (e.toValue, m) := by
  rw [call, h, performWith]

lemma call_of_ok {x : Effect} (h : b.effect args = .ok x) :
    m.call b args = perform (evalWithin m.room) m x := by
  rw [call, h, performWith]

lemma call_eval_refused (h : ∀ cells, args ≠ [.qexpr cells]) :
    ∃ e : EvalError, m.call .eval args = (e.toValue, m) := by
  cases hx : Builtin.effect .eval args with
  | error e => exact ⟨e, call_of_error hx⟩
  | ok x =>
    obtain ⟨cells, hargs, -⟩ := Builtin.effect_eval_ok.mp hx
    exact absurd hargs (h cells)

lemma call_define_refused (m : Evaluator) (reach : Reach)
    (h : ¬ ∃ names values, Builtin.Names args names values) :
    ∃ e : EvalError, m.call (.define reach) args = (e.toValue, m) := by
  cases hx : (Builtin.define reach).effect args with
  | error e => exact ⟨e, call_of_error hx⟩
  | ok x =>
    obtain ⟨names, values, hargs, -⟩ := Builtin.effect_define_ok.mp hx
    exact absurd ⟨names, values, hargs⟩ h

lemma call_define (reach : Reach) (h : Builtin.Names args names values) :
    m.call (.define reach) args =
      (.sexpr [], { m with scopes := m.scopes.defineAll reach (names.zip values) }) :=
  call_of_ok (Builtin.effect_define_ok.mpr ⟨names, values, h, rfl⟩)

/-- A definition is made exactly of the arguments that it takes. -/
lemma call_define_iff :
    (m.call (.define reach) args).1 = .sexpr [] ↔
      ∃ names values, Builtin.Names args names values := by
  constructor
  · intro h
    by_contra hargs
    obtain ⟨e, he⟩ := call_define_refused m reach hargs
    rw [he] at h
    cases h
  · rintro ⟨names, values, hargs⟩
    rw [call_define reach hargs]

lemma call_of_isError (heval : b ≠ .eval) (h : (m.call b args).1.isError = true) :
    (m.call b args).2 = m := by
  rcases b.define_or_not with ⟨reach, rfl⟩ | hdefine
  · by_cases hargs : ∃ names values, Builtin.Names args names values
    · rw [call_define_iff.mpr hargs] at h
      cases h
    · obtain ⟨e, he⟩ := call_define_refused m reach hargs
      rw [he]
  · exact performWith_of_answers (Builtin.effect_answers heval hdefine args) m

/-- Over the global frame alone both kinds of definition do the same. -/
lemma call_define_outermost (h : m.scopes.calls = []) (args : List Value) :
    (m.call (.define .outermost) args).2 = (m.call (.define .innermost) args).2 := by
  by_cases hargs : ∃ names values, Builtin.Names args names values
  · obtain ⟨names, values, hargs⟩ := hargs
    rw [call_define _ hargs, call_define _ hargs, m.scopes.defineAll_innermost_nil _ h]
  · obtain ⟨e, he⟩ := call_define_refused m .outermost hargs
    obtain ⟨e', he'⟩ := call_define_refused m .innermost hargs
    rw [he, he']

end Evaluator

open Evaluator Builtin in
/-- **Builtins are all-or-nothing.** A builtin other than `eval` leaves the state as it is if it
answers with an error, and always if it is no definition; `eval` is refused and does so unless it
has one argument, a Q-expression. A definition is made if its arguments are a Q-expression of
symbols and a value for each of them, and refused otherwise. It changes one frame, the global or the
innermost one, where the last value for a name counts; over the global frame alone both do the
same. -/
theorem builtins_are_all_or_nothing (m : Evaluator) (args : List Value) :
    (∀ b, b ≠ .eval → (m.call b args).1.isError = true → (m.call b args).2 = m) ∧
    (∀ b, b ≠ .eval → (∀ reach, b ≠ .define reach) → (m.call b args).2 = m) ∧
    ((∀ cells, args ≠ [.qexpr cells]) →
      ∃ e : EvalError, m.call .eval args = (e.toValue, m)) ∧
    (∀ reach, ((m.call (.define reach) args).1 = .sexpr [] ↔
        ∃ names values, Names args names values) ∧
      ((¬ ∃ names values, Names args names values) →
        ∃ e : EvalError, m.call (.define reach) args = (e.toValue, m)) ∧
      ∀ names values, Names args names values →
        let n := (m.call (.define reach) args).2
        n = { m with scopes := n.scopes } ∧
          n.scopes.frames = reach.modify (·.insertAll (names.zip values)) m.scopes.frames ∧
          ∀ (frame : Frame) (name : String), (frame.insertAll (names.zip values)).get? name =
            ((names.zip values).reverse.lookup name).or (frame.get? name)) ∧
    (m.scopes.depth = 1 →
      (m.call (.define .outermost) args).2 = (m.call (.define .innermost) args).2) := by
  refine ⟨fun b heval => call_of_isError heval, fun b heval hdefine => ?_, call_eval_refused,
    fun reach => ⟨call_define_iff, call_define_refused m reach, fun names values hargs => ?_⟩,
    fun hdepth => ?_⟩
  · exact performWith_of_answers (effect_answers heval hdefine args) m
  · rw [call_define reach hargs]
    exact ⟨rfl, m.scopes.frames_defineAll _ reach, fun frame name => frame.get?_insertAll _ name⟩
  · exact call_define_outermost (List.length_eq_zero_iff.mp (Nat.succ.inj hdepth)) args

open Evaluator Builtin in
/-- Within a call `=` binds a name twice, in the frame of the call only. With a number among the
names it binds none, nor does `eval` of a number or `head` of an empty list change anything. -/
theorem builtins_are_all_or_nothing_twice :
    let m : Evaluator := ⟨9, 1, ⟨[.ofList [("x", .number 7)]], .empty⟩⟩
    let args := [.qexpr [.symbol "x", .symbol "x"], .number 1, .number 2]
    Names args ["x", "x"] [.number 1, .number 2] ∧
      (m.call (.define .innermost) args).1 = .sexpr [] ∧
      (m.call (.define .innermost) args).2.scopes.frames =
        [.ofList [("x", .number 2)], .empty] ∧
      (m.call (.define .innermost) [.qexpr [.symbol "x", .number 3], .number 1, .number 2]).2 = m ∧
      (m.call .eval [.number 1]).2 = m ∧ (m.call .head [.qexpr []]).2 = m ∧
      ((ofGlobal .empty 9).call (.define .outermost) args).2 =
        ((ofGlobal .empty 9).call (.define .innermost) args).2 := by
  intro m args
  have hargs : Names args ["x", "x"] [.number 1, .number 2] := ⟨rfl, rfl⟩
  have hall := builtins_are_all_or_nothing m args
  have hdefine := hall.2.2.2.1 .innermost
  refine ⟨hargs, hdefine.1.mpr ⟨_, _, hargs⟩, ?_, ?_, ?_, ?_, ?_⟩
  · rw [(hdefine.2.2 _ _ hargs).2.1]
    decide
  · exact (builtins_are_all_or_nothing m _).1 _ (by decide) (by decide)
  · obtain ⟨e, he⟩ := (builtins_are_all_or_nothing m [.number 1]).2.2.1 nofun
    rw [he]
  · exact (builtins_are_all_or_nothing m _).2.1 _ (by decide) nofun
  · exact (builtins_are_all_or_nothing (ofGlobal .empty 9) args).2.2.2.2 rfl

end BraceLisp
