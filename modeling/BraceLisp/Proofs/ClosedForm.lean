import BraceLisp.Proofs.Formula
import Mathlib.Algebra.BigOperators.Group.List.Basic
import Mathlib.Algebra.Ring.Int.Defs

/-!
Closed forms of arithmetic.

Sums, differences and products wrap around at every step, and it is the same to wrap around once at
the end (`Operator.foldlM_wraps`). So the order and the grouping of what is added or multiplied do
not matter (`Formula.answer_of_usesOnly`). Division is exact but for one quotient
(`Operator.toInt_quotient`) and cannot be put off in this way; it stops at a zero
(`Operator.foldlM_div`). Before any of this the arguments are looked at (`Builtin.compute_refused`).
-/

namespace BraceLisp

/-! ### Operators -/

namespace Operator

/-- Division drops the fraction. The only quotient that is out of range wraps around. -/
def quotient (a b : Int64) : Int64 :=
  if a = Int64.minValue ∧ b = -1 then Int64.minValue else .ofInt (a.toInt.tdiv b.toInt)

lemma ofInt_tdiv (a b : Int64) : Int64.ofInt (a.toInt.tdiv b.toInt) = quotient a b := by
  unfold quotient
  split
  · next h =>
    rw [h.1, h.2]
    decide
  · rfl

/-- Every other quotient is exact. -/
lemma toInt_quotient {a b : Int64} (h : a ≠ Int64.minValue ∨ b ≠ -1) :
    (quotient a b).toInt = a.toInt.tdiv b.toInt := by
  have hdiv : quotient a b = a / b := by
    rw [← ofInt_tdiv, ← Int64.toInt_inj, Int64.toInt_ofInt, Int64.toInt_div]
  rw [hdiv]
  rcases h with ha | hb
  · exact Int64.toInt_div_of_ne_left a b ha
  · exact Int64.toInt_div_of_ne_right a b hb

lemma meaning_div (a b : Int64) :
    div.meaning a b = if b = 0 then none else some (quotient a b) := by
  have hzero : b.toInt = 0 ↔ b = 0 := Int64.toInt_inj (y := 0)
  rw [meaning, ofInt_tdiv]
  simp only [hzero]

/-- A zero among the divisors stops the division, wherever it is. -/
lemma foldlM_div (a : Int64) (bs : List Int64) :
    bs.foldlM div.meaning a = if 0 ∈ bs then none else some (bs.foldl quotient a) := by
  induction bs generalizing a with
  | nil => rfl
  | cons b bs ih =>
    rw [List.foldlM_cons, meaning_div]
    by_cases hb : b = 0
    · simp [hb]
    · simp [hb, Ne.symm hb, ih]

/-- Wrapping around at each step comes to the same as wrapping around at the end, for an operation
that wraps around what it is given. -/
lemma foldlM_wraps {op : Operator} {f : Int → Int → Int} (total : Int → List Int → Int)
    (hop : ∀ a b, op.meaning a b = some (.ofInt (f a.toInt b.toInt)))
    (hwrap : ∀ x y, Int64.ofInt (f (Int64.ofInt x).toInt y) = .ofInt (f x y))
    (hnil : ∀ x, total x [] = x) (hcons : ∀ x y ys, total x (y :: ys) = total (f x y) ys)
    (x : Int) (bs : List Int64) :
    bs.foldlM op.meaning (.ofInt x) = some (.ofInt (total x (bs.map Int64.toInt))) := by
  induction bs generalizing x with
  | nil =>
    rw [List.map_nil, hnil]
    rfl
  | cons b bs ih =>
    rw [List.foldlM_cons, hop, hwrap, List.map_cons, hcons]
    exact ih _

lemma meaning_sub (a b : Int64) : sub.meaning a b = some (.ofInt (a.toInt - b.toInt)) := rfl

lemma foldlM_sub (a : Int64) (bs : List Int64) :
    bs.foldlM sub.meaning a = some (.ofInt (a.toInt - (bs.map Int64.toInt).sum)) := by
  have hfold := foldlM_wraps (fun x ys => x - ys.sum) meaning_sub
    (fun x y => by rw [Int64.ofInt_sub, Int64.ofInt_toInt, Int64.ofInt_sub]) (by simp)
    (by simp [Int.sub_sub]) a.toInt bs
  rwa [Int64.ofInt_toInt] at hfold

/-- The operator gathers numbers into one, and what has been gathered and wrapped around may be
gathered again. -/
structure Gathers (op : Operator) (total : List Int → Int) : Prop where
  meaningAll : ∀ a bs, op.meaningAll a bs = some (.ofInt (total ((a :: bs).map Int64.toInt)))
  single : ∀ x, total [x] = x
  perm : ∀ {xs ys : List Int}, xs.Perm ys → total xs = total ys
  flatten : ∀ groups : List (List Int),
    Int64.ofInt (total (groups.map fun xs => (Int64.ofInt (total xs)).toInt)) =
      .ofInt (total groups.flatten)

section

variable {f : Int → Int → Int} {unit : Int} [Std.Associative f] [Std.LawfulIdentity f unit]

lemma foldr_append_unit (xs ys : List Int) :
    (xs ++ ys).foldr f unit = f (xs.foldr f unit) (ys.foldr f unit) := by
  have hleft (x : Int) : f unit x = x := Std.LawfulLeftIdentity.left_id x
  calc (xs ++ ys).foldr f unit = xs.foldr f (f unit (ys.foldr f unit)) := by
        rw [List.foldr_append, hleft]
    _ = f (xs.foldr f unit) (ys.foldr f unit) := List.foldr_assoc

/-- An operator gathers numbers if it may wrap around one of its operands before. -/
lemma gathers_foldr {op : Operator} [Std.Commutative f]
    (hall : ∀ a bs, op.meaningAll a bs = bs.foldlM op.meaning a)
    (hop : ∀ a b, op.meaning a b = some (.ofInt (f a.toInt b.toInt)))
    (hwrap : ∀ x y, Int64.ofInt (f (Int64.ofInt x).toInt y) = .ofInt (f x y)) :
    op.Gathers (List.foldr f unit) where
  meaningAll a bs := by
    have hfold := foldlM_wraps (fun x ys => f x (ys.foldr f unit)) hop hwrap
      Std.LawfulRightIdentity.right_id (fun x y _ => (Std.Associative.assoc x y _).symm) a.toInt bs
    rw [Int64.ofInt_toInt] at hfold
    rw [hall, hfold, List.map_cons, List.foldr_cons]
  single x := Std.LawfulRightIdentity.right_id x
  perm h := h.foldr_op_eq
  flatten groups := by
    have hcomm (x y : Int) : f x y = f y x := Std.Commutative.comm x y
    have hwrap' (x y : Int) : Int64.ofInt (f x (Int64.ofInt y).toInt) = .ofInt (f x y) := by
      rw [hcomm, hwrap, hcomm]
    induction groups with
    | nil => rfl
    | cons xs groups ih =>
      -- the first group is on the left of the operator, and the others are on its right
      rw [List.map_cons, List.foldr_cons, hwrap, ← hwrap', ih, hwrap', List.flatten_cons,
        foldr_append_unit]

end

lemma gathers_add : Gathers add List.sum :=
  gathers_foldr (fun _ _ => rfl) (fun _ _ => rfl)
    fun x y => by rw [Int64.ofInt_add, Int64.ofInt_toInt, Int64.ofInt_add]

lemma gathers_mul : Gathers mul List.prod :=
  gathers_foldr (fun _ _ => rfl) (fun _ _ => rfl)
    fun x y => by rw [Int64.ofInt_mul, Int64.ofInt_toInt, Int64.ofInt_mul]

end Operator

/-! ### Calls -/

namespace Builtin

variable {op : Operator}

lemma numberArgument_refused (f : Builtin) (index : Nat) {v : Value} (hv : v.kind ≠ .number) :
    f.numberArgument index v = .error (f.kindError index v .number) := by
  cases v with
  | number n => exact absurd rfl hv
  | _ => rfl

lemma numberArguments_refused (f : Builtin) (index : Nat) (ns : List Int64) {v : Value}
    (hv : v.kind ≠ .number) (rest : List Value) :
    f.numberArguments index (ns.map .number ++ v :: rest) =
      .error (f.kindError (index + ns.length) v .number) := by
  induction ns generalizing index with
  | nil =>
    rw [List.map_nil, List.nil_append, numberArguments, numberArgument_refused f index hv]
    rfl
  | cons n ns ih =>
    rw [List.map_cons, List.cons_append, numberArguments, ih, List.length_cons,
      Nat.add_right_comm index 1, Nat.add_assoc]
    rfl

/-- The first argument that is no number is named, whatever the numbers before it are. -/
lemma compute_refused (op : Operator) (ns : List Int64) {v : Value} (hv : v.kind ≠ .number)
    (rest : List Value) : compute op (ns.map .number ++ v :: rest) =
      .error ((arithmetic op).kindError ns.length v .number) := by
  cases ns with
  | nil =>
    rw [List.map_nil, List.nil_append, compute, numberArgument_refused _ 0 hv]
    rfl
  | cons n ns =>
    rw [List.map_cons, List.cons_append, compute, numberArguments_refused _ 1 ns hv,
      List.length_cons, Nat.add_comm 1]
    rfl

end Builtin

/-- The first of some arguments that is no number, if there is one. -/
lemma Value.exists_first_not_number {args : List Value} (h : ∃ v ∈ args, v.kind ≠ .number) :
    ∃ (ns : List Int64) (v : Value) (rest : List Value),
      args = ns.map .number ++ v :: rest ∧ v.kind ≠ .number := by
  induction args with
  | nil => simp at h
  | cons w args ih =>
    cases w with
    | number n =>
      obtain ⟨ns, v, rest, rfl, hv⟩ := ih (by simpa [kind] using h)
      exact ⟨n :: ns, v, rest, rfl, hv⟩
    | _ => exact ⟨[], _, args, rfl, by simp [kind]⟩

namespace Evaluator

variable (m : Evaluator) (op : Operator)

lemma call_arithmetic (args : List Value) : m.call (.arithmetic op) args =
    (match Builtin.compute op args with | .ok v => v | .error e => e.toValue, m) := by
  have heffect : (Builtin.arithmetic op).effect args =
      (Builtin.compute op args).bind (.ok <| .answer ·) := rfl
  rw [call, heffect]
  cases Builtin.compute op args <;> rfl

lemma call_numbers (a : Int64) (bs : List Int64) :
    m.call (.arithmetic op) ((a :: bs).map .number) = (outcome (op.meaningAll a bs), m) := by
  rw [call_arithmetic, Builtin.compute_numbers]
  cases op.meaningAll a bs <;> rfl

end Evaluator

/-! ### Groups of numbers -/

namespace Formula

mutual

/-- The numbers in a formula, in the order in which they are written. -/
def numbers : Formula → List Int64
  | number n => [n]
  | apply _ first rest => first.numbers ++ numbersAll rest

def numbersAll : List Formula → List Int64
  | [] => []
  | e :: es => e.numbers ++ numbersAll es

end

/-- Numbers, in groups within groups, for one operator. -/
inductive UsesOnly (op : Operator) : Formula → Prop where
  | number (n : Int64) : UsesOnly op (.number n)
  | apply {first : Formula} {rest : List Formula} (h : ∀ e ∈ first :: rest, UsesOnly op e) :
      UsesOnly op (.apply op first rest)

mutual

/-- The answer if each operator is called on the answers of its operands. -/
def answer (m : Evaluator) : Formula → Value
  | number n => .number n
  | apply op first rest => (m.call (.arithmetic op) (first.answer m :: answers m rest)).1

def answers (m : Evaluator) : List Formula → List Value
  | [] => []
  | e :: es => e.answer m :: answers m es

end

lemma numbersAll_eq_flatten (es : List Formula) : numbersAll es = (es.map numbers).flatten := by
  induction es with
  | nil => rfl
  | cons e es ih => rw [numbersAll, ih, List.map_cons, List.flatten_cons]

lemma answers_eq_map (m : Evaluator) (es : List Formula) : answers m es = es.map (answer m) := by
  induction es with
  | nil => rfl
  | cons e es ih => rw [answers, ih, List.map_cons]

/-- The numbers in a formula gathered at once. -/
def gathered (total : List Int → Int) (e : Formula) : Int64 :=
  .ofInt (total (e.numbers.map Int64.toInt))

/-- What has been gathered in groups may be gathered again. -/
lemma gathered_apply {op : Operator} {total : List Int → Int} (hop : op.Gathers total)
    (first : Formula) (rest : List Formula) : gathered total (.apply op first rest) =
      .ofInt (total (((first :: rest).map (gathered total)).map Int64.toInt)) := by
  have hnumbers : (numbers (.apply op first rest)).map Int64.toInt =
      ((first :: rest).map fun e => e.numbers.map Int64.toInt).flatten := by
    rw [numbers, numbersAll_eq_flatten, ← List.flatten_cons, ← List.map_cons (f := numbers),
      List.map_flatten, List.map_map]
    rfl
  rw [gathered, hnumbers, ← hop.flatten, List.map_map, List.map_map]
  rfl

/-- Numbers are gathered all the same, however they are grouped. -/
lemma answer_of_usesOnly {op : Operator} {total : List Int → Int} (hop : op.Gathers total)
    (m : Evaluator) {e : Formula} (h : e.UsesOnly op) :
    e.answer m = .number (e.gathered total) := by
  induction h with
  | number n => rw [answer, gathered, numbers, List.map_singleton, hop.single, Int64.ofInt_toInt]
  | @apply first rest _ ih =>
    have hanswers : first.answer m :: answers m rest =
        ((first :: rest).map (gathered total)).map .number := by
      rw [answers_eq_map, ← List.map_cons (f := answer m), List.map_map]
      exact List.map_congr_left ih
    rw [answer, hanswers, gathered_apply hop, List.map_cons (f := gathered total),
      Evaluator.call_numbers, hop.meaningAll, Evaluator.outcome]

end Formula

open Operator in
/-- **Arithmetic has closed forms.** A sum and a product are those of the integers, wrapped around,
and the same for every order and every grouping of the numbers. One number alone is negated by `-`;
from the first of several the sum of the others is taken away. A division fails if one of the
divisors is zero, and otherwise divides by one after another; but for one quotient this is exact.
An argument that is no number is refused before anything is computed, and it is the first that is
named. None of this changes the state. -/
theorem arithmetic_has_closed_forms (m : Evaluator) :
    (∀ a bs, m.call (.arithmetic add) ((a :: bs).map .number) =
      (.number (.ofInt ((a :: bs).map Int64.toInt).sum), m)) ∧
    (∀ a bs, m.call (.arithmetic mul) ((a :: bs).map .number) =
      (.number (.ofInt ((a :: bs).map Int64.toInt).prod), m)) ∧
    (∀ op, op = add ∨ op = mul → ∀ a bs,
      (∀ cs : List Int64, cs.Perm (a :: bs) →
        m.call (.arithmetic op) (cs.map .number) =
          m.call (.arithmetic op) ((a :: bs).map .number)) ∧
      ∀ e : Formula, e.UsesOnly op → e.numbers.Perm (a :: bs) →
        e.answer m = (m.call (.arithmetic op) ((a :: bs).map .number)).1) ∧
    (∀ a, m.call (.arithmetic sub) [.number a] = (.number (.ofInt (-a.toInt)), m)) ∧
    (∀ a b bs, m.call (.arithmetic sub) ((a :: b :: bs).map .number) =
      (.number (.ofInt (a.toInt - ((b :: bs).map Int64.toInt).sum)), m)) ∧
    (∀ a bs,
      (m.call (.arithmetic div) ((a :: bs).map .number) = (.error "division by zero", m) ↔
        0 ∈ bs) ∧
      (0 ∉ bs → m.call (.arithmetic div) ((a :: bs).map .number) =
        (.number (bs.foldl quotient a), m))) ∧
    (∀ a b, a ≠ Int64.minValue ∨ b ≠ -1 → (quotient a b).toInt = a.toInt.tdiv b.toInt) ∧
    quotient Int64.minValue (-1) = Int64.minValue ∧
    ∀ op args, (∃ v ∈ args, v.kind ≠ .number) → ∃ (ns : List Int64) (v : Value) (rest : List Value),
      args = ns.map .number ++ v :: rest ∧ v.kind ≠ .number ∧
      m.call (.arithmetic op) args =
        (.error ("function '" ++ (Builtin.arithmetic op).name
          ++ "' passed incorrect type for argument " ++ toString ns.length ++ ": got "
          ++ v.kind.name ++ ", expected Number"), m) := by
  have hgathers : ∀ op, op = add ∨ op = mul → ∃ total, op.Gathers total := by
    rintro _ (rfl | rfl)
    · exact ⟨_, gathers_add⟩
    · exact ⟨_, gathers_mul⟩
  refine ⟨fun a bs => ?_, fun a bs => ?_, fun op hop a bs => ?_, fun a => ?_, fun a b bs => ?_,
    fun a bs => ?_, fun a b => toInt_quotient, rfl, fun op args hargs => ?_⟩
  · rw [m.call_numbers, gathers_add.meaningAll, Evaluator.outcome]
  · rw [m.call_numbers, gathers_mul.meaningAll, Evaluator.outcome]
  · obtain ⟨total, hop⟩ := hgathers op hop
    have hcall (a : Int64) (bs : List Int64) : m.call (.arithmetic op) ((a :: bs).map .number) =
        (.number (.ofInt (total ((a :: bs).map Int64.toInt))), m) := by
      rw [m.call_numbers, hop.meaningAll, Evaluator.outcome]
    refine ⟨fun cs hcs => ?_, fun e he hes => ?_⟩
    · cases cs with
      | nil => cases hcs.nil_eq
      | cons c cs => rw [hcall, hcall, hop.perm (hcs.map Int64.toInt)]
    · rw [Formula.answer_of_usesOnly hop m he, hcall, Formula.gathered,
        hop.perm (hes.map Int64.toInt)]
  · exact m.call_numbers sub a []
  · have hall : sub.meaningAll a (b :: bs) = (b :: bs).foldlM sub.meaning a := rfl
    rw [m.call_numbers, hall, foldlM_sub, Evaluator.outcome]
  · have hcall : m.call (.arithmetic div) ((a :: bs).map .number) =
        (Evaluator.outcome (if 0 ∈ bs then none else some (bs.foldl quotient a)), m) := by
      have hall : div.meaningAll a bs = bs.foldlM div.meaning a := rfl
      rw [m.call_numbers, hall, foldlM_div]
    rw [hcall]
    by_cases hzero : 0 ∈ bs
    · rw [if_pos hzero]
      exact ⟨iff_of_true rfl hzero, fun h => absurd hzero h⟩
    · rw [if_neg hzero]
      exact ⟨iff_of_false (by simp [Evaluator.outcome]) hzero, fun _ => rfl⟩
  · obtain ⟨ns, v, rest, rfl, hv⟩ := Value.exists_first_not_number hargs
    refine ⟨ns, v, rest, rfl, hv, ?_⟩
    have hexpected : ", expected " ++ Value.Kind.number.name = ", expected Number" := rfl
    rw [m.call_arithmetic, Builtin.compute_refused op ns hv, ← hexpected, ← String.append_assoc]
    rfl

open Operator in
/-- Numbers in a group within a group come to what they do in another order, past the greatest
number. The least number is divided by minus one. With a zero divisor before it, the list among the
arguments is what is refused. -/
theorem arithmetic_has_closed_forms_wrapped :
    let m := Evaluator.ofGlobal .empty 1
    let e := Formula.apply add (.number Int64.maxValue) [.apply add (.number 1) [.number 2]]
    let args : List Value := [.number 1, .number 0, .qexpr []]
    (e.UsesOnly add ∧ e.numbers.Perm [2, Int64.maxValue, 1] ∧
      e.answer m = (m.call (.arithmetic add) ([2, Int64.maxValue, 1].map .number)).1) ∧
    (0 ∉ [(-1 : Int64)] ∧
      m.call (.arithmetic div) ([Int64.minValue, -1].map .number) =
        (.number Int64.minValue, m)) ∧
    (∃ v ∈ args, v.kind ≠ .number) ∧
    ∃ (ns : List Int64) (v : Value) (rest : List Value),
      args = ns.map .number ++ v :: rest ∧ v.kind ≠ .number ∧
      m.call (.arithmetic div) args =
        (.error ("function '/' passed incorrect type for argument " ++ toString ns.length
          ++ ": got " ++ v.kind.name ++ ", expected Number"), m) := by
  intro m e args
  have huses : e.UsesOnly add := by
    refine .apply (List.forall_mem_cons.mpr ⟨.number _, List.forall_mem_singleton.mpr ?_⟩)
    exact .apply (List.forall_mem_cons.mpr ⟨.number _, List.forall_mem_singleton.mpr (.number _)⟩)
  have hperm : e.numbers.Perm [2, Int64.maxValue, 1] := by decide
  have hzero : 0 ∉ [(-1 : Int64)] := by decide
  have hargs : ∃ v ∈ args, v.kind ≠ .number := ⟨.qexpr [], by simp [args], nofun⟩
  obtain ⟨-, -, hgathers, -, -, hdiv, -, -, hrefused⟩ := arithmetic_has_closed_forms m
  exact ⟨⟨huses, hperm, (hgathers add (Or.inl rfl) _ _).2 e huses hperm⟩,
    ⟨hzero, (hdiv _ _).2 hzero⟩, hargs, hrefused div args hargs⟩

end BraceLisp
