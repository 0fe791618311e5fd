import BraceLisp.Proofs.Formula
import BraceLisp.Proofs.RoundTrip
import BraceLisp.Session

/-!
A closure without bindings is written as the call that makes it.

Its text is that of an S-expression: the name of the builtin, the formals and the body
(`render_lambdaCall`). That is printable if the closure's parts are, so the text reads as a program
of this call alone, and the call comes to the closure (`eval_lambdaCall`). A program of one
expression comes to what the expression does, which takes one evaluation more.
-/

namespace BraceLisp

open Grammar

namespace Value

/-- The call that makes a closure. -/
def lambdaCall (formals : List String) (body : List Value) : Value :=
  sexpr [symbol Builtin.lambda.name, ofFormals formals, qexpr body]

variable {formals : List String} {body : List Value}

/-! ### The text of a closure -/

lemma renderAll_symbols (names : List String) :
    renderAll (names.map symbol) = " ".intercalate names := by
  induction names with
  | nil => rfl
  | cons n names ih =>
    cases names with
    | nil => simp [renderAll, render]
    | cons m names =>
      rw [String.intercalate_cons_cons, ← ih]
      rfl

/-- The bindings of a closure are not written. -/
lemma render_lambdaCall (formals : List String) (body : List Value) (captured : Frame) :
    (closure formals body captured).render = (lambdaCall formals body).render := by
  rw [lambdaCall, ofFormals, render, render, renderAll, renderAll, renderAll, render, render,
    render, renderAll_symbols]
  simp only [Builtin.name, String.append_assoc]
  rfl

lemma nestingAll_symbols (names : List String) : nestingAll (names.map symbol) = 0 := by
  induction names with
  | nil => rfl
  | cons n names ih => rw [List.map_cons, nestingAll, ih]; rfl

/-- A list of names never nests deeper than the body beside it. -/
lemma nesting_lambdaCall (formals : List String) (body : List Value) (captured : Frame) :
    (lambdaCall formals body).nesting = (closure formals body captured).nesting := by
  simp only [lambdaCall, ofFormals, nesting, nestingAll, nestingAll_symbols]
  omega

lemma printable_symbol {name : String} (h : name.toList ≠ [] ∧
    name.toList.all isSymbolChar = true ∧ isNumeral name.toList = false) :
    (symbol name).Printable :=
  .symbol ⟨h.1, List.all_eq_true.mp h.2.1⟩ h.2.2

lemma printable_lambdaCall (hformals : ∀ f ∈ formals, (symbol f).Printable)
    (hbody : ∀ v ∈ body, v.Printable) : (lambdaCall formals body).Printable := by
  have hname : (symbol Builtin.lambda.name).Printable := printable_symbol (by decide)
  have hlist : (ofFormals formals).Printable := by
    refine .qexpr fun v hv => ?_
    obtain ⟨f, hf, rfl⟩ := List.mem_map.mp hv
    exact hformals f hf
  refine .sexpr fun v hv => ?_
  simp only [List.mem_cons, List.not_mem_nil, or_false] at hv
  rcases hv with rfl | rfl | rfl
  · exact hname
  · exact hlist
  · exact .qexpr hbody

end Value

open Value

/-! ### The call -/

namespace Evaluator

variable {m : Evaluator}

/-- Cells that change nothing and come to no error come to their answers. -/
lemma evalCells_of_answers {cells vs : List Value}
    (h : List.Forall₂ (fun c v => m.eval c = (v, m) ∧ v.isError = false) cells vs) :
    evalCells Evaluator.eval m cells = (.ok vs, m) := by
  induction h with
  | nil => rfl
  | @cons c v cells vs hc _ ih =>
    obtain ⟨hc, hok⟩ := hc
    rw [evalCells_cons_ok cells (by rw [hc]; exact hok), hc, ih]
    rfl

lemma eval_qexpr (h : m.depth < m.limit) (cells : List Value) :
    m.eval (.qexpr cells) = (.qexpr cells, m) := by
  rw [eval_of_lt h]
  rfl

/-- A program of one expression that changes nothing comes to what the expression does. -/
lemma eval_sexpr_singleton {v w : Value} (h : m.depth < m.limit)
    (hv : m.deeper.eval v = (w, m.deeper)) (hw : w.isError = false) :
    m.eval (.sexpr [v]) = (w, m) :=
  eval_sexpr_of_answers h (evalCells_of_answers (.cons ⟨hv, hw⟩ .nil)) (.answer w)

lemma eval_lambdaCall (hroom : m.depth + 2 ≤ m.limit)
    (hlambda : m.scopes.find? Builtin.lambda.name = some (.builtin .lambda)) (formals : List String)
    (body : List Value) :
    m.eval (lambdaCall formals body) = (.closure formals body .empty, m) := by
  have hdeeper : m.deeper.depth < m.deeper.limit := Nat.lt_of_succ_le hroom
  have hname : m.deeper.eval (.symbol Builtin.lambda.name) = (.builtin .lambda, m.deeper) := by
    have hfind : m.deeper.scopes.find? Builtin.lambda.name = some (.builtin .lambda) := hlambda
    rw [eval_symbol hdeeper, lookup, hfind]
    rfl
  have hcells := evalCells_of_answers (m := m.deeper)
    (.cons ⟨hname, rfl⟩ (.cons ⟨eval_qexpr hdeeper (formals.map .symbol), rfl⟩
      (.cons ⟨eval_qexpr hdeeper body, rfl⟩ .nil)))
  have hmake : Builtin.makeClosure [.qexpr (formals.map .symbol), .qexpr body] =
      .ok (.closure formals body .empty) :=
    Builtin.makeClosure_ok.mpr ⟨formals, body, rfl, rfl⟩
  have hreduction : Value.reduction [.builtin .lambda, .qexpr (formals.map .symbol), .qexpr body] =
      .ok (.answer (.closure formals body .empty)) := by
    simp only [Value.reduction, Value.effect, Builtin.effect, hmake]
    rfl
  rw [lambdaCall, ofFormals, eval_sexpr_of_answers (Nat.lt_of_succ_lt hroom) hcells]
  · rw [hreduction]
    rfl
  · rw [hreduction]
    exact .answer _

end Evaluator

/-- **A closure without bindings is its own source.** If its formals are names and its body is
printable, then a session in which the name of the builtin stands for it comes to the closure again
from its text, and nothing changes. The limits leave room for three evaluations, one within another,
and for the brackets of the text. Between requests no evaluation has begun, so that a limit of three
is enough. -/
theorem closure_is_its_source {s : Session} {formals : List String} {body : List Value}
    (hroom : s.evaluator.depth + 3 ≤ s.evaluator.limit)
    (hlambda : s.evaluator.scopes.find? Builtin.lambda.name = some (.builtin .lambda))
    (hformals : ∀ f ∈ formals, (symbol f).Printable) (hbody : ∀ v ∈ body, v.Printable)
    (hnesting : (closure formals body .empty).nesting ≤ s.nesting) :
    s.evalSource (closure formals body .empty).render = (.ok (closure formals body .empty), s) := by
  have hprintable := printable_lambdaCall hformals hbody
  rw [← nesting_lambdaCall] at hnesting
  obtain ⟨t, ht, hread⟩ := hprintable.parse_render hnesting
  have hdeeper : s.evaluator.deeper.depth + 2 ≤ s.evaluator.deeper.limit := by
    rw [Evaluator.deeper_depth, Evaluator.deeper_limit]
    omega
  have hcall : s.evaluator.deeper.eval (lambdaCall formals body) =
      (.closure formals body .empty, s.evaluator.deeper) :=
    Evaluator.eval_lambdaCall hdeeper hlambda formals body
  have heval := Evaluator.eval_sexpr_singleton (by omega) hcall rfl
  rw [render_lambdaCall, Session.evalSource, ht]
  simp only [Session.evalTree, Session.evalValue, hread, heval]

/-- A formal that occurs twice and takes the rest of the arguments, and a body with lists in it,
under the least limits. -/
theorem closure_is_its_source_variadic :
    let s := Session.init 3 3
    let formals := ["x", "&", "x"]
    let body := [symbol "head", sexpr [symbol "list", number (-1)], qexpr []]
    s.evaluator.depth + 3 ≤ s.evaluator.limit ∧
    s.evaluator.scopes.find? Builtin.lambda.name = some (.builtin .lambda) ∧
    (∀ f ∈ formals, (symbol f).Printable) ∧ (∀ v ∈ body, v.Printable) ∧
    (closure formals body .empty).nesting ≤ s.nesting ∧
    s.evalSource "(\\ \x7bx & x\x7d \x7bhead (list -1) \x7b\x7d\x7d)" =
      (.ok (closure formals body .empty), s) := by
  intro s formals body
  have hroom : s.evaluator.depth + 3 ≤ s.evaluator.limit := by decide
  have hlambda : s.evaluator.scopes.find? Builtin.lambda.name = some (.builtin .lambda) := by
    decide +kernel
  have hformals : ∀ f ∈ formals, (symbol f).Printable := by
    simp only [formals, List.mem_cons, List.not_mem_nil, or_false]
    rintro f (rfl | rfl | rfl) <;> exact printable_symbol (by decide)
  have hbody : ∀ v ∈ body, v.Printable := by
    simp only [body, List.mem_cons, List.not_mem_nil, or_false]
    rintro v (rfl | rfl | rfl)
    · exact printable_symbol (by decide)
    · refine .sexpr ?_
      simp only [List.mem_cons, List.not_mem_nil, or_false]
      rintro v (rfl | rfl)
      · exact printable_symbol (by decide)
      · exact .number _
    · exact .qexpr nofun
  have hnesting : (closure formals body .empty).nesting ≤ s.nesting := by decide
  have hrender : (closure formals body .empty).render =
      "(\\ \x7bx & x\x7d \x7bhead (list -1) \x7b\x7d\x7d)" := by decide +kernel
  refine ⟨hroom, hlambda, hformals, hbody, hnesting, ?_⟩
  rw [← hrender]
  exact closure_is_its_source hroom hlambda hformals hbody hnesting

end BraceLisp
