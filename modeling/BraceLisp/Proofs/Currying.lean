import BraceLisp.Evaluator.Eval
import Mathlib.Tactic.Lemma

/-!
Currying.

A closure binds its arguments from left to right, and each binding depends on those before it only
through the frame (`bindFormals_append`). So a closure that has taken some of its arguments does
with the others what it would have done with all of them (`Value.closureEffect_append`). That it
waits for them is the case where a formal is left that is not the variadic mark: at the mark a
closure waits no longer (`Value.closureEffect_waits`).
-/

namespace BraceLisp

variable {fs gs : List String} {xs : List Value}

/-- Arguments for formals before the variadic mark are bound one by one, whatever follows them. -/
lemma bindFormals_append (hmark : Value.variadicMark ∉ fs) (hlength : fs.length = xs.length)
    (gs : List String) (ys : List Value) (env : Frame) :
    bindFormals (fs ++ gs) (xs ++ ys) env = bindFormals gs ys (env.insertAll (fs.zip xs)) := by
  induction fs generalizing xs env with
  | nil =>
    cases xs with
    | nil => rfl
    | cons x xs => cases hlength
  | cons f fs ih =>
    cases xs with
    | nil => cases hlength
    | cons x xs =>
      obtain ⟨hf, hfs⟩ := List.ne_and_not_mem_of_not_mem_cons hmark
      rw [List.cons_append, List.cons_append, bindFormals_cons_cons hf.symm,
        ih hfs (Nat.succ.inj hlength)]
      rfl

namespace Value

lemma closureEffect_append (hmark : variadicMark ∉ fs) (hlength : fs.length = xs.length)
    (gs : List String) (body : List Value) (captured : Frame) (ys : List Value) :
    closureEffect (fs ++ gs) body captured (xs ++ ys) =
      closureEffect gs body (captured.insertAll (fs.zip xs)) ys := by
  rw [closureEffect, closureEffect, bindFormals_append hmark hlength]

/-- A closure waits for its next argument, unless its next formal is the variadic mark. -/
lemma closureEffect_waits {f : String} (hf : f ≠ variadicMark) (fs : List String)
    (body : List Value) (captured : Frame) :
    closureEffect (f :: fs) body captured [] =
      .ok (.answer (.closure (f :: fs) body captured)) := by
  rw [closureEffect, bindFormals_cons_nil hf]

end Value

open Evaluator in
/-- **Currying.** If a closure is given fewer arguments than it has formals, and the variadic mark
is neither among the formals for them nor the next one, the answer is the closure that waits for the
others, with these bound in order; nothing else happens. Whatever arguments come next, it does with
them what the closure does with all arguments at once. -/
theorem arguments_in_two_parts (m : Evaluator) (formals : List String) (body : List Value)
    (captured : Frame) (xs : List Value) (hlength : xs.length < formals.length)
    (hmark : Value.variadicMark ∉ formals.take (xs.length + 1)) :
    let waiting := Value.closure (formals.drop xs.length) body
      (captured.insertAll ((formals.take xs.length).zip xs))
    m.apply (.closure formals body captured) xs = (waiting, m) ∧
      ∀ ys, m.apply waiting ys = m.apply (.closure formals body captured) (xs ++ ys) := by
  intro waiting
  rw [← List.take_append_getElem hlength, List.mem_append, not_or] at hmark
  obtain ⟨hgiven, hnext⟩ := hmark
  have htake : (formals.take xs.length).length = xs.length :=
    List.length_take_of_le (Nat.le_of_lt hlength)
  have heffect (ys : List Value) :
      (Value.closure formals body captured).effect (xs ++ ys) = waiting.effect ys := by
    have happend :=
      Value.closureEffect_append hgiven htake (formals.drop xs.length) body captured ys
    rwa [List.take_append_drop] at happend
  have hwaits : waiting.effect [] = .ok (.answer waiting) := by
    have hnext : formals[xs.length] ≠ Value.variadicMark :=
      fun h => hnext (List.mem_singleton.mpr h.symm)
    have hdrop := List.drop_eq_getElem_cons hlength
    show Value.closureEffect _ _ _ _ = _
    rw [hdrop, Value.closureEffect_waits hnext, ← hdrop]
  constructor
  · have hanswer := (heffect []).trans hwaits
    rw [List.append_nil] at hanswer
    rw [apply, hanswer]
    rfl
  · intro ys
    rw [apply, apply, heffect]

open Evaluator in
/-- The second of two formals of one name waits. Its argument takes the place of the first, and the
arguments after it make up a list. -/
theorem arguments_in_two_parts_variadic :
    let m := ofGlobal .empty 2
    let f := Value.closure ["x", "x", "&", "rest"] [.symbol "rest"] .empty
    let waiting := Value.closure ["x", "&", "rest"] [.symbol "rest"] (.ofList [("x", .number 1)])
    1 < 4 ∧ Value.variadicMark ∉ ["x", "x"] ∧ m.apply f [.number 1] = (waiting, m) ∧
      m.apply waiting [.number 2, .number 3] = m.apply f [.number 1, .number 2, .number 3] ∧
      m.apply f [.number 1, .number 2, .number 3] = (.qexpr [.number 3], m) := by
  intro m f waiting
  have h := arguments_in_two_parts m ["x", "x", "&", "rest"] [.symbol "rest"] .empty [.number 1]
    (by decide) (by decide)
  exact ⟨by decide, by decide, h.1, h.2 [.number 2, .number 3], by decide⟩

end BraceLisp
