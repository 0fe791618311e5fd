import BraceLisp.Value
import Mathlib.Tactic.Lemma

/-!
The values that stand in a value.

A value stands in another as one of its cells, in the body of a closure, or among the bindings
that a closure has captured, at any depth. A property holds throughout a value if it holds of all
that stands in it, and one equation for each kind of value takes it apart (`all_sexpr`,
`all_closure`).
-/

namespace BraceLisp

namespace Value

/-- The first value is the second or stands in it. -/
inductive Within (w : Value) : Value → Prop where
  | self : Within w w
  | sexpr {c : Value} {cells : List Value} (hc : c ∈ cells) (h : Within w c) :
      Within w (.sexpr cells)
  | qexpr {c : Value} {cells : List Value} (hc : c ∈ cells) (h : Within w c) :
      Within w (.qexpr cells)
  | body {c : Value} {formals : List String} {body : List Value} {captured : Frame}
      (hc : c ∈ body) (h : Within w c) : Within w (.closure formals body captured)
  | captured {b : String × Value} {formals : List String} {body : List Value} {captured : Frame}
      (hb : b ∈ captured.entries) (h : Within w b.2) : Within w (.closure formals body captured)

/-- A property of all that stands in a value, itself included. -/
def All (P : Value → Prop) (v : Value) : Prop := ∀ w, w.Within v → P w

variable {P Q : Value → Prop}

lemma All.self {v : Value} (h : v.All P) : P v := h v .self

lemma All.mono {v : Value} (h : v.All P) (hPQ : ∀ w, P w → Q w) : v.All Q :=
  fun w hw => hPQ w (h w hw)

@[simp] lemma all_number {n : Int64} : (number n).All P ↔ P (number n) :=
  ⟨All.self, fun h _ hw => by cases hw; exact h⟩

@[simp] lemma all_symbol {name : String} : (symbol name).All P ↔ P (symbol name) :=
  ⟨All.self, fun h _ hw => by cases hw; exact h⟩

@[simp] lemma all_error {message : String} : (error message).All P ↔ P (error message) :=
  ⟨All.self, fun h _ hw => by cases hw; exact h⟩

@[simp] lemma all_builtin {b : Builtin} : (builtin b).All P ↔ P (builtin b) :=
  ⟨All.self, fun h _ hw => by cases hw; exact h⟩

@[simp] lemma all_sexpr {cells : List Value} :
    (sexpr cells).All P ↔ P (sexpr cells) ∧ ∀ c ∈ cells, c.All P := by
  refine ⟨fun h => ⟨h.self, fun c hc w hw => h w (.sexpr hc hw)⟩, ?_⟩
  rintro ⟨hself, hcells⟩ w hw
  cases hw with
  | self => exact hself
  | sexpr hc hw => exact hcells _ hc w hw

@[simp] lemma all_qexpr {cells : List Value} :
    (qexpr cells).All P ↔ P (qexpr cells) ∧ ∀ c ∈ cells, c.All P := by
  refine ⟨fun h => ⟨h.self, fun c hc w hw => h w (.qexpr hc hw)⟩, ?_⟩
  rintro ⟨hself, hcells⟩ w hw
  cases hw with
  | self => exact hself
  | qexpr hc hw => exact hcells _ hc w hw

@[simp] lemma all_closure {formals : List String} {body : List Value} {captured : Frame} :
    (closure formals body captured).All P ↔ P (closure formals body captured) ∧
      (∀ c ∈ body, c.All P) ∧ ∀ b ∈ captured.entries, b.2.All P := by
  refine ⟨fun h => ⟨h.self, fun c hc w hw => h w (.body hc hw),
    fun b hb w hw => h w (.captured hb hw)⟩, ?_⟩
  rintro ⟨hself, hbody, hcaptured⟩ w hw
  cases hw with
  | self => exact hself
  | body hc hw => exact hbody _ hc w hw
  | captured hb hw => exact hcaptured _ hb w hw

def isClosure : Value → Bool
  | closure .. => true
  | _ => false

/-- No closure stands in the value. -/
def ClosureFree (v : Value) : Prop := v.All fun w => w.isClosure = false

/-- No error stands in the value. -/
def ErrorFree (v : Value) : Prop := v.All fun w => w.isError = false

end Value

end BraceLisp
