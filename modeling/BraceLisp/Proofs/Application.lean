import BraceLisp.Proofs.Currying
import BraceLisp.Proofs.Discipline

/-!
What becomes of a closure that is applied to arguments.

The number of arguments, and where the first variadic mark stands among the formals, decide it: the
arguments are bound in part or in full, or they are refused (`bindFormals_few` and those after it).
A closure whose formals are all bound has its body evaluated in a frame of its own, on top of those
of the caller (`Evaluator.Enters`).
-/

namespace BraceLisp

open Value (variadicMark)

/-! ### Binding arguments -/

section Binding

variable {formals fs : List String} {args : List Value}

/-- Fewer arguments than formals, and none for the variadic mark. -/
lemma bindFormals_few (hlength : args.length < formals.length)
    (hmark : variadicMark ∉ formals.take (args.length + 1)) (env : Frame) :
    bindFormals formals args env =
      .ok (formals.drop args.length, env.insertAll (formals.zip args)) := by
  rw [← List.take_append_getElem hlength, List.mem_append, not_or, List.mem_singleton] at hmark
  obtain ⟨hgiven, hnext⟩ := hmark
  have htake : (formals.take args.length).length = args.length :=
    List.length_take_of_le (Nat.le_of_lt hlength)
  have hzip : formals.zip args = (formals.take args.length).zip args := by
    rw [List.zip_eq_zip_take_min, Nat.min_eq_right (Nat.le_of_lt hlength), List.take_length]
  have happend := bindFormals_append hgiven htake (formals.drop args.length) [] env
  rw [List.take_append_drop, List.append_nil, List.drop_eq_getElem_cons hlength,
    bindFormals_cons_nil (Ne.symm hnext), ← List.drop_eq_getElem_cons hlength, ← hzip] at happend
  exact happend

lemma bindFormals_all (hlength : args.length = formals.length) (hmark : variadicMark ∉ formals)
    (env : Frame) : bindFormals formals args env = .ok ([], env.insertAll (formals.zip args)) := by
  have happend := bindFormals_append hmark hlength.symm [] [] env
  rwa [List.append_nil, List.append_nil] at happend

lemma bindFormals_many (hlength : formals.length < args.length) (hmark : variadicMark ∉ formals)
    (env : Frame) : bindFormals formals args env = .error .tooManyArguments := by
  have htake : formals.length = (args.take formals.length).length :=
    (List.length_take_of_le (Nat.le_of_lt hlength)).symm
  have happend := bindFormals_append hmark htake [] (args.drop formals.length) env
  rwa [List.append_nil, List.take_append_drop, List.drop_eq_getElem_cons hlength] at happend

/-- Arguments for all formals before the variadic mark. Those that are left over are its own. -/
lemma bindFormals_variadic (hlength : fs.length ≤ args.length) (hmark : variadicMark ∉ fs)
    (gs : List String) (env : Frame) :
    bindFormals (fs ++ variadicMark :: gs) args env =
      bindFormals (variadicMark :: gs) (args.drop fs.length) (env.insertAll (fs.zip args)) := by
  have htake : fs.length = (args.take fs.length).length := (List.length_take_of_le hlength).symm
  have hzip : fs.zip args = fs.zip (args.take fs.length) := by
    rw [List.zip_eq_zip_take_min, Nat.min_eq_left hlength, List.take_length]
  have happend := bindFormals_append hmark htake (variadicMark :: gs) (args.drop fs.length) env
  rwa [List.take_append_drop, ← hzip] at happend

lemma bindFormals_mark_one (rest : String) (args : List Value) (env : Frame) :
    bindFormals [variadicMark, rest] args env = .ok ([], env.insert rest (.qexpr args)) := by
  rw [bindFormals_mark]

lemma bindFormals_mark_of_ne {gs : List String} (hgs : gs.length ≠ 1) (args : List Value)
    (env : Frame) : bindFormals (variadicMark :: gs) args env = .error .misplacedVariadic := by
  rw [bindFormals_mark]
  split
  · exact absurd rfl hgs
  · rfl

/-- What stands before the first variadic mark, and after it. -/
lemma exists_of_idxOf?_mark {k : Nat} (hk : formals.idxOf? variadicMark = some k) :
    variadicMark ∉ formals.take k ∧
      formals = formals.take k ++ variadicMark :: formals.drop (k + 1) := by
  obtain ⟨hlt, hmark, hfirst⟩ := List.idxOf?_eq_some_iff.mp hk
  refine ⟨fun hmem => ?_, ?_⟩
  · obtain ⟨i, hi, hget⟩ := List.getElem_of_mem hmem
    rw [List.getElem_take] at hget
    rw [List.length_take] at hi
    exact hfirst i (by omega) hget
  · rw [← hmark, ← List.drop_eq_getElem_cons hlt, List.take_append_drop]

end Binding

/-! ### Entering a body -/

namespace Scopes

/-- Of scopes that grew from some with a frame put on top, a frame can be taken off. -/
lemma Grows.pop? {s t : Scopes} {frame : Frame} (h : Grows (s.push frame) t) :
    ∃ top, t.pop? = some (top, t.leave) := by
  obtain ⟨_ | ⟨top, rest⟩, global⟩ := t
  · have hdepth := h.depth
    simp [Scopes.depth, push] at hdepth
  · exact ⟨top, rfl⟩

/-- A name in a body stands for the last argument that is bound to it, else for what the closure has
captured, else for what it stands for where the closure is applied. -/
lemma find?_push_insertAll (s : Scopes) (captured : Frame) (bindings : List (String × Value))
    (name : String) :
    (s.push (captured.insertAll bindings)).find? name =
      ((bindings.reverse.lookup name).or (captured.get? name)).or (s.find? name) := by
  rw [find?_eq_findSome?, find?_eq_findSome?, ← Environment.get?_insertAll, frames, frames, push,
    List.cons_append, List.findSome?_cons]
  cases (captured.insertAll bindings).get? name <;> rfl

end Scopes

namespace Evaluator

/-- The outcome is that of the body in a frame of its own, on top of the frames of the caller. The
frame is taken off afterwards, and the frames of the caller's calls are as they were. -/
def Enters (m : Evaluator) (frame : Frame) (body : List Value) (outcome : Value × Evaluator) :
    Prop :=
  let inner := eval { m with scopes := m.scopes.push frame } (.sexpr body)
  ∃ top below, inner.2.scopes.pop? = some (top, below) ∧ below.calls = m.scopes.calls ∧
    outcome = (inner.1, { inner.2 with scopes := below })

variable {m : Evaluator} {formals : List String} {body args : List Value} {captured frame : Frame}

lemma enters_perform (m : Evaluator) (frame : Frame) (body : List Value) :
    Enters m frame body (perform (evalWithin m.room) m (.enter frame body)) := by
  have hbody := (eval_keeps { m with scopes := m.scopes.push frame } (.sexpr body)).scopes
  obtain ⟨top, hpop⟩ := hbody.pop?
  exact ⟨top, _, hpop, hbody.leave.1, rfl⟩

lemma apply_of_error {e : EvalError} (h : bindFormals formals args captured = .error e) :
    m.apply (.closure formals body captured) args = (e.toValue, m) := by
  rw [apply, Value.effect, Value.closureEffect, h, performWith]

lemma apply_of_waits (h : bindFormals formals args captured = .ok (formals.drop args.length, frame))
    (hlength : args.length < formals.length) :
    m.apply (.closure formals body captured) args =
      (.closure (formals.drop args.length) body frame, m) := by
  rw [List.drop_eq_getElem_cons hlength] at h ⊢
  rw [apply, Value.effect, Value.closureEffect, h, performWith, perform]

lemma apply_of_bound (h : bindFormals formals args captured = .ok ([], frame)) :
    Enters m frame body (m.apply (.closure formals body captured) args) := by
  rw [apply, Value.effect, Value.closureEffect, h, performWith]
  exact enters_perform m frame body

end Evaluator

open Evaluator in
/-- **The application of closures is classified exactly**, by the number of arguments, the number of
formals and the place of the first variadic mark among them. Unless the body is evaluated the state
is left as it is. Where it is, names are looked up in the bindings of the arguments, then in what
the closure has captured, then as the caller would. -/
theorem application_is_classified (m : Evaluator) (formals : List String) (body : List Value)
    (captured : Frame) (args : List Value) :
    let outcome := m.apply (.closure formals body captured) args
    let waits := outcome =
      (.closure (formals.drop args.length) body (captured.insertAll (formals.zip args)), m)
    (formals.idxOf? variadicMark = none →
      (formals.length < args.length → outcome = (.error "too many arguments", m)) ∧
      (args.length < formals.length → waits) ∧
      (args.length = formals.length →
        m.Enters (captured.insertAll (formals.zip args)) body outcome)) ∧
    (∀ k, formals.idxOf? variadicMark = some k →
      (args.length < k → waits) ∧
      (k ≤ args.length → ∀ hlength : formals.length = k + 2,
        m.Enters (captured.insertAll ((formals.take k).zip args ++
          [(formals[k + 1], .qexpr (args.drop k))])) body outcome) ∧
      (k ≤ args.length → formals.length ≠ k + 2 →
        outcome = (.error "invalid variadic formal", m))) ∧
    ∀ bindings name, (m.scopes.push (captured.insertAll bindings)).find? name =
      ((bindings.reverse.lookup name).or (captured.get? name)).or (m.scopes.find? name) := by
  intro outcome waits
  refine ⟨fun hnone => ?_, fun k hk => ?_, m.scopes.find?_push_insertAll captured⟩
  · have hmark := List.idxOf?_eq_none_iff.mp hnone
    refine ⟨fun hlength => ?_, fun hlength => ?_, fun hlength => ?_⟩
    · exact apply_of_error (bindFormals_many hlength hmark captured)
    · exact apply_of_waits
        (bindFormals_few hlength (fun h => hmark (List.mem_of_mem_take h)) captured) hlength
    · exact apply_of_bound (bindFormals_all hlength hmark captured)
  · obtain ⟨hbefore, hformals⟩ := exists_of_idxOf?_mark hk
    have hlt : k < formals.length := (List.idxOf?_eq_some_iff.mp hk).1
    have htake : (formals.take k).length = k := List.length_take_of_le (Nat.le_of_lt hlt)
    have hvariadic (hlength : k ≤ args.length) :
        bindFormals formals args captured = bindFormals (variadicMark :: formals.drop (k + 1))
          (args.drop k) (captured.insertAll ((formals.take k).zip args)) := by
      have h := bindFormals_variadic (by rw [htake]; exact hlength) hbefore
        (formals.drop (k + 1)) captured
      rwa [← hformals, htake] at h
    refine ⟨fun hlength => ?_, fun hlength hformal => ?_, fun hlength hne => ?_⟩
    · have hgiven : variadicMark ∉ formals.take (args.length + 1) :=
        fun h => hbefore (List.take_subset_take_left formals hlength h)
      have hlength' := Nat.lt_trans hlength hlt
      exact apply_of_waits (bindFormals_few hlength' hgiven captured) hlength'
    · have hrest : formals.drop (k + 1) = [formals[k + 1]] := by
        rw [List.drop_eq_getElem_cons (by omega), List.drop_eq_nil_of_le (by omega)]
      refine apply_of_bound ?_
      rw [hvariadic hlength, hrest, bindFormals_mark_one]
      simp [Environment.insertAll]
    · refine apply_of_error (e := .misplacedVariadic) ?_
      rw [hvariadic hlength]
      refine bindFormals_mark_of_ne ?_ _ _
      rw [List.length_drop]
      omega

open Evaluator in
/-- A closure with a variadic formal waits without arguments, and with one argument binds the last
formal to an empty list. A variadic mark without a formal after it is refused, and so is an argument
too many. -/
theorem application_is_classified_variadic :
    let m := ofGlobal .empty 2
    let f := Value.closure ["x", "&", "rest"] [.symbol "rest"] .empty
    ["x", "&", "rest"].idxOf? variadicMark = some 1 ∧ m.apply f [] = (f, m) ∧
      m.Enters (.ofList [("x", .number 1), ("rest", .qexpr [])]) [.symbol "rest"]
        (m.apply f [.number 1]) ∧
      m.apply f [.number 1] = (.qexpr [], m) ∧
      m.apply (.closure ["&"] [] .empty) [] = (.error "invalid variadic formal", m) ∧
      m.apply (.closure ["x"] [] .empty) [.number 1, .number 2] =
        (.error "too many arguments", m) := by
  intro m f
  have hk : ["x", "&", "rest"].idxOf? variadicMark = some 1 := by decide
  have hnone := application_is_classified m ["x", "&", "rest"] [.symbol "rest"] .empty []
  have hone := application_is_classified m ["x", "&", "rest"] [.symbol "rest"] .empty [.number 1]
  have halone := application_is_classified m ["&"] [] .empty []
  have htwo := application_is_classified m ["x"] [] .empty [.number 1, .number 2]
  exact ⟨hk, (hnone.2.1 1 hk).1 (by decide), (hone.2.1 1 hk).2.1 (by decide) rfl, by decide,
    (halone.2.1 0 (by decide)).2.2 (by decide) (by decide), (htwo.1 (by decide)).1 (by decide)⟩

end BraceLisp
