import BraceLisp.Proofs.AllOrNothing
import BraceLisp.Proofs.Nested

/-!
Formulas: numbers and operators between them.

A formula has a meaning that is found without an evaluator: every step is taken between integers
without a bound and wrapped to 64 bits, and a division by zero has none. The evaluator comes to the
meaning (`eval_formula`) if its limit leaves room for the height of the formula, and otherwise it
meets the limit (`eval_formula_tooDeep`), as the symbol of an operator takes as much room as a
number does.
-/

namespace BraceLisp

/-- An operator has one operand or more. -/
inductive Formula where
  | number (n : Int64)
  | apply (op : Operator) (first : Formula) (rest : List Formula)

namespace Operator

/-- What an operator makes of two numbers. -/
def meaning (op : Operator) (a b : Int64) : Option Int64 :=
  match op with
  | add => some (.ofInt (a.toInt + b.toInt))
  | sub => some (.ofInt (a.toInt - b.toInt))
  | mul => some (.ofInt (a.toInt * b.toInt))
  | div => if b.toInt = 0 then none else some (.ofInt (a.toInt.tdiv b.toInt))

/-- What an operator makes of numbers from left to right. -/
def meaningAll (op : Operator) (first : Int64) (rest : List Int64) : Option Int64 :=
  match op, rest with
  | sub, [] => some (.ofInt (-first.toInt))
  | _, _ => rest.foldlM op.meaning first

end Operator

namespace Formula

mutual

/-- None if there is a division by zero. -/
def meaning : Formula → Option Int64
  | number n => some n
  | apply op first rest => do
    let a ← first.meaning
    let bs ← meanings rest
    op.meaningAll a bs

def meanings : List Formula → Option (List Int64)
  | [] => some []
  | e :: es => do
    let n ← e.meaning
    let ns ← meanings es
    some (n :: ns)

end

mutual

def height : Formula → Nat
  | number _ => 1
  | apply _ first rest => max first.height (heights rest) + 1

/-- The height of the highest. -/
def heights : List Formula → Nat
  | [] => 0
  | e :: es => max e.height (heights es)

end

mutual

/-- The formula as it is written in a program. -/
def toValue : Formula → Value
  | number n => .number n
  | apply op first rest =>
    .sexpr (.symbol (Builtin.arithmetic op).name :: first.toValue :: toValues rest)

def toValues : List Formula → List Value
  | [] => []
  | e :: es => e.toValue :: toValues es

end

/-- What holds of numbers, and of an operator with operands if it holds of the operands, holds of
all formulas. -/
@[elab_as_elim]
theorem operandsRec {P : Formula → Prop} (number : ∀ n, P (number n))
    (apply : ∀ op first rest, (∀ e ∈ first :: rest, P e) → P (apply op first rest))
    (e : Formula) : P e :=
  @Formula.rec P (fun es => ∀ e ∈ es, P e) number
    (fun op first rest hfirst hrest =>
      apply op first rest (List.forall_mem_cons.mpr ⟨hfirst, hrest⟩))
    nofun (fun _ _ he hes => List.forall_mem_cons.mpr ⟨he, hes⟩) e

lemma height_pos (e : Formula) : 0 < e.height := by
  cases e <;> simp [height]

lemma heights_le_iff {n : Nat} {es : List Formula} :
    heights es ≤ n ↔ ∀ e ∈ es, e.height ≤ n := by
  induction es with
  | nil => simp [heights]
  | cons e es ih => rw [heights, Nat.max_le, ih, List.forall_mem_cons]

lemma lt_heights_iff {n : Nat} {es : List Formula} :
    n < heights es ↔ ∃ e ∈ es, n < e.height := by
  rw [← Nat.not_le, heights_le_iff]
  simp

lemma height_apply (op : Operator) (first : Formula) (rest : List Formula) :
    (apply op first rest).height = heights (first :: rest) + 1 := rfl

lemma toValue_apply (op : Operator) (first : Formula) (rest : List Formula) :
    (apply op first rest).toValue =
      .sexpr (.symbol (Builtin.arithmetic op).name :: toValues (first :: rest)) := rfl

lemma toValues_eq_map (es : List Formula) : toValues es = es.map toValue := by
  induction es with
  | nil => rfl
  | cons e es ih => rw [toValues, ih, List.map_cons]

lemma forall_mem_toValues {P : Value → Prop} {es : List Formula} :
    (∀ c ∈ toValues es, P c) ↔ ∀ e ∈ es, P e.toValue := by
  rw [toValues_eq_map, List.forall_mem_map]

lemma meaning_apply (op : Operator) (first : Formula) (rest : List Formula) :
    (apply op first rest).meaning =
      first.meaning.bind fun a => (meanings rest).bind fun bs => op.meaningAll a bs := rfl

lemma meanings_cons (e : Formula) (es : List Formula) :
    meanings (e :: es) =
      e.meaning.bind fun n => (meanings es).bind fun ns => some (n :: ns) := rfl

lemma meanings_isSome_iff {es : List Formula} :
    (meanings es).isSome ↔ ∀ e ∈ es, e.meaning.isSome := by
  induction es with
  | nil => simp [meanings]
  | cons e es ih =>
    rw [meanings_cons, List.forall_mem_cons, ← ih]
    cases e.meaning <;> cases meanings es <;> simp

/-- The operands of a formula that has a meaning have one. -/
lemma meaning_operands_isSome {op : Operator} {first : Formula} {rest : List Formula}
    (h : (apply op first rest).meaning.isSome) : ∀ e ∈ first :: rest, e.meaning.isSome := by
  rw [meaning_apply] at h
  rw [List.forall_mem_cons, ← meanings_isSome_iff]
  cases hfirst : first.meaning <;> cases hrest : meanings rest <;> simp [hfirst, hrest] at h ⊢

end Formula

/-! ### Operators -/

namespace Operator

lemma apply_eq (op : Operator) (a b : Int64) :
    op.apply a b = (op.meaning a b).elim (.error .divisionByZero) .ok := by
  cases op with
  | add => simp [apply, meaning]
  | sub => simp [apply, meaning]
  | mul => simp [apply, meaning]
  | div =>
    have hzero : b.toInt = 0 ↔ b = 0 := Int64.toInt_inj (y := 0)
    have hdiv : Int64.ofInt (a.toInt.tdiv b.toInt) = a / b := by
      rw [← Int64.toInt_inj, Int64.toInt_ofInt, Int64.toInt_div]
    by_cases hb : b = 0 <;> simp [apply, meaning, hzero, hdiv, hb]

lemma foldFrom_eq (op : Operator) (a : Int64) (bs : List Int64) :
    op.foldFrom a bs = (bs.foldlM op.meaning a).elim (.error .divisionByZero) .ok := by
  induction bs generalizing a with
  | nil => rfl
  | cons b bs ih =>
    rw [foldFrom, apply_eq, List.foldlM_cons]
    cases op.meaning a b with
    | none => rfl
    | some c => exact ih c

lemma fold_eq (op : Operator) (a : Int64) (bs : List Int64) :
    op.fold a bs = (op.meaningAll a bs).elim (.error .divisionByZero) .ok := by
  cases op with
  | sub =>
    cases bs with
    | nil => simp [fold, meaningAll]
    | cons b bs => exact foldFrom_eq sub a (b :: bs)
  | _ => exact foldFrom_eq _ a bs

end Operator

lemma Builtin.compute_numbers (op : Operator) (a : Int64) (bs : List Int64) :
    compute op ((a :: bs).map .number) =
      (op.meaningAll a bs).elim (.error .divisionByZero) (.ok <| .number ·) := by
  have hbs : (arithmetic op).numberArguments 1 (bs.map .number) = .ok bs :=
    numberArguments_ok.mpr rfl
  rw [List.map_cons, compute, hbs, numberArgument]
  simp only [bind, Except.bind, op.fold_eq]
  cases op.meaningAll a bs <;> rfl

open Formula

namespace Evaluator

variable {m : Evaluator} {cells vs : List Value} {op : Operator} {es : List Formula}
  {first e : Formula} {rest : List Formula}

/-! ### Evaluating a formula -/

/-- The names of the operators stand for the builtins. -/
def BindsOperators (m : Evaluator) : Prop :=
  ∀ op, m.scopes.find? (Builtin.arithmetic op).name = some (.builtin (.arithmetic op))

/-- The value of what has a meaning, and the error otherwise. -/
def outcome : Option Int64 → Value
  | some n => .number n
  | none => EvalError.divisionByZero.toValue

lemma eval_of_depth_eq (h : m.depth = m.limit) (v : Value) :
    m.eval v = ((EvalError.tooDeep m.limit m.limit).toValue, m) := by
  rw [eval_of_limit_le (Nat.le_of_eq h.symm), h]

lemma eval_number (h : m.depth < m.limit) (n : Int64) : m.eval (.number n) = (.number n, m) := by
  rw [eval_of_lt h]
  rfl

lemma eval_symbol (h : m.depth < m.limit) (name : String) :
    m.eval (.symbol name) = (m.lookup name, m) := by
  rw [eval_of_lt h]
  rfl

lemma eval_sexpr_of_error {message : String} (h : m.depth < m.limit)
    (hcells : evalCells Evaluator.eval m.deeper cells = (.error message, m.deeper)) :
    m.eval (.sexpr cells) = (.error message, m) := by
  rw [eval_of_lt h, evalOnce, hcells]
  rfl

lemma eval_sexpr_of_answers (h : m.depth < m.limit)
    (hcells : evalCells Evaluator.eval m.deeper cells = (.ok vs, m.deeper))
    (hanswers : Answers (Value.reduction vs)) :
    m.eval (.sexpr cells) =
      ((performWith Evaluator.eval m.deeper (Value.reduction vs)).1, m) := by
  rw [eval_of_lt h, evalOnce, hcells]
  simp only [performWith_of_answers hanswers]
  rfl

/-! ### Cells that change nothing -/

lemma evalCells_state (h : ∀ c ∈ cells, (m.eval c).2 = m) :
    (evalCells Evaluator.eval m cells).2 = m := by
  induction cells with
  | nil => rfl
  | cons c cells ih =>
    obtain ⟨hc, hcells⟩ := List.forall_mem_cons.mp h
    rcases (m.eval c).1.error_or_not with ⟨message, herr⟩ | hok
    · rw [evalCells_cons_error cells herr, hc]
    · rw [evalCells_cons_ok cells hok, hc]
      exact ih hcells

/-- If some cells come to an error, and it is the same for all of them, then it is the outcome. -/
lemma evalCells_error {message : String} (hstate : ∀ c ∈ cells, (m.eval c).2 = m)
    (hcells : ∀ c ∈ cells, (m.eval c).1.isError = false ∨ (m.eval c).1 = .error message)
    (herr : ∃ c ∈ cells, (m.eval c).1 = .error message) :
    evalCells Evaluator.eval m cells = (.error message, m) := by
  induction cells with
  | nil => simp at herr
  | cons c cells ih =>
    obtain ⟨hc, hstate⟩ := List.forall_mem_cons.mp hstate
    obtain ⟨hfirst, hrest⟩ := List.forall_mem_cons.mp hcells
    rcases hfirst with hok | hmessage
    · have hlater : ∃ c ∈ cells, (m.eval c).1 = .error message := by
        obtain ⟨d, hd, hmessage⟩ := herr
        rcases List.mem_cons.mp hd with rfl | hd
        · rw [hmessage] at hok
          cases hok
        · exact ⟨d, hd, hmessage⟩
      rw [evalCells_cons_ok cells hok, hc, ih hstate hrest hlater]
      rfl
    · rw [evalCells_cons_error cells hmessage, hc]

lemma evalCells_formulas (h : ∀ e ∈ es, m.eval e.toValue = (outcome e.meaning, m)) :
    evalCells Evaluator.eval m (toValues es) =
      ((meanings es).elim (.error EvalError.divisionByZero.message) (.ok <| ·.map .number), m) := by
  induction es with
  | nil => rfl
  | cons e es ih =>
    obtain ⟨he, hes⟩ := List.forall_mem_cons.mp h
    rw [toValues, meanings_cons]
    cases hmeaning : e.meaning with
    | none =>
      rw [hmeaning] at he
      have herr : (m.eval e.toValue).1 = .error EvalError.divisionByZero.message := by
        rw [he]
        rfl
      rw [evalCells_cons_error _ herr, he]
      rfl
    | some n =>
      rw [hmeaning] at he
      rw [evalCells_cons_ok _ (by rw [he]; rfl), he, ih hes]
      cases meanings es <;> rfl

/-! ### Formulas -/

lemma BindsOperators.deeper (h : m.BindsOperators) : m.deeper.BindsOperators := h

lemma BindsOperators.eval_symbol (h : m.BindsOperators) (hm : m.depth < m.limit) (op : Operator) :
    m.eval (.symbol (Builtin.arithmetic op).name) = (.builtin (.arithmetic op), m) := by
  rw [Evaluator.eval_symbol hm, Evaluator.lookup, h op]
  rfl

lemma BindsOperators.symbol_or_tooDeep (h : m.BindsOperators) (hm : m.depth ≤ m.limit)
    (op : Operator) :
    (m.eval (.symbol (Builtin.arithmetic op).name)).1.isError = false ∨
      (m.eval (.symbol (Builtin.arithmetic op).name)).1 =
        .error (EvalError.tooDeep m.limit m.limit).message := by
  rcases Nat.lt_or_eq_of_le hm with hlt | heq
  · exact Or.inl (by rw [h.eval_symbol hlt]; rfl)
  · exact Or.inr (by rw [eval_of_depth_eq heq]; rfl)

/-- The symbol of an operator comes to the operator, and the cells after it are evaluated. -/
lemma BindsOperators.evalCells_cons (h : m.BindsOperators) (hm : m.depth < m.limit)
    (op : Operator) (cells : List Value) :
    evalCells Evaluator.eval m (.symbol (Builtin.arithmetic op).name :: cells) =
      ((evalCells Evaluator.eval m cells).1.map (.builtin (.arithmetic op) :: ·),
        (evalCells Evaluator.eval m cells).2) := by
  have hsymbol := h.eval_symbol hm op
  rw [evalCells_cons_ok cells (by rw [hsymbol]; rfl), hsymbol]

/-- Cells that begin with the symbol of an operator come to values that begin with the operator. -/
lemma BindsOperators.head_of_evalCells (h : m.BindsOperators) (op : Operator)
    (hvs : (evalCells Evaluator.eval m
      (.symbol (Builtin.arithmetic op).name :: cells)).1 = .ok vs) :
    ∃ args, vs = .builtin (.arithmetic op) :: args := by
  rcases Nat.lt_or_ge m.depth m.limit with hm | hm
  · rw [h.evalCells_cons hm] at hvs
    cases hargs : (evalCells Evaluator.eval m cells).1 with
    | error message =>
      rw [hargs] at hvs
      cases hvs
    | ok args =>
      rw [hargs] at hvs
      cases hvs
      exact ⟨args, rfl⟩
  · rw [evalCells_cons_error cells (by rw [eval_of_limit_le hm]; rfl)] at hvs
    cases hvs

lemma reduction_operator (op : Operator) (a : Int64) (bs : List Int64) :
    Value.reduction (.builtin (.arithmetic op) :: (a :: bs).map .number) =
      (op.meaningAll a bs).elim (.error .divisionByZero) (.ok <| .answer <| .number ·) := by
  have heffect : Value.reduction (.builtin (.arithmetic op) :: (a :: bs).map .number) =
      (Builtin.compute op ((a :: bs).map .number)).bind (.ok <| .answer ·) := rfl
  rw [heffect, Builtin.compute_numbers]
  cases op.meaningAll a bs <;> rfl

lemma answers_reduction_operator (op : Operator) (args : List Value) :
    Answers (Value.reduction (.builtin (.arithmetic op) :: args)) := by
  cases args with
  | nil => exact .answer _
  | cons a args =>
    exact Builtin.effect_answers (b := .arithmetic op) nofun nofun (a :: args)

/-- A formula that has room enough comes to its meaning. -/
lemma eval_formula (e : Formula) (hops : m.BindsOperators) (hroom : m.depth + e.height ≤ m.limit) :
    m.eval e.toValue = (outcome e.meaning, m) := by
  induction e using operandsRec generalizing m with
  | number n => exact eval_number hroom n
  | apply op first rest ih =>
    rw [height_apply] at hroom
    have hdeeper : m.deeper.depth < m.deeper.limit := by
      have hfirst := first.height_pos
      rw [heights] at hroom
      simp only [deeper_depth, deeper_limit]
      omega
    have hm : m.depth < m.limit := Nat.lt_of_succ_lt hdeeper
    have hoperands : ∀ e ∈ first :: rest,
        m.deeper.eval e.toValue = (outcome e.meaning, m.deeper) := by
      intro e he
      have hle := heights_le_iff.mp (Nat.le_refl _) e he
      refine ih e he hops.deeper ?_
      simp only [deeper_depth, deeper_limit]
      omega
    have hcells := hops.deeper.evalCells_cons hdeeper op (toValues (first :: rest))
    rw [evalCells_formulas hoperands, meanings_cons] at hcells
    rw [toValue_apply, meaning_apply]
    cases hfirst : first.meaning with
    | none =>
      rw [hfirst] at hcells
      exact eval_sexpr_of_error hm hcells
    | some a =>
      rw [hfirst] at hcells
      cases hrest : meanings rest with
      | none =>
        rw [hrest] at hcells
        exact eval_sexpr_of_error hm hcells
      | some bs =>
        rw [hrest] at hcells
        rw [eval_sexpr_of_answers hm hcells (answers_reduction_operator op _), reduction_operator,
          Option.bind_some, Option.bind_some]
        cases op.meaningAll a bs <;> rfl

/-- An evaluation that meets the limit changes nothing. -/
lemma eval_state_of_lt {v : Value} (h : m.depth < m.limit → (m.eval v).2 = m) :
    (m.eval v).2 = m := by
  rcases Nat.lt_or_ge m.depth m.limit with hm | hm
  · exact h hm
  · rw [eval_of_limit_le hm]

lemma eval_symbol_state (m : Evaluator) (name : String) : (m.eval (.symbol name)).2 = m :=
  eval_state_of_lt fun hm => by rw [eval_symbol hm]

/-- Evaluating a formula changes nothing. -/
lemma eval_formula_state (e : Formula) (hops : m.BindsOperators) : (m.eval e.toValue).2 = m := by
  induction e using operandsRec generalizing m with
  | number n => exact eval_state_of_lt fun hm => by rw [toValue, eval_number hm]
  | apply op first rest ih =>
    refine eval_state_of_lt fun hm => ?_
    have hstate : (evalCells Evaluator.eval m.deeper
        (.symbol (Builtin.arithmetic op).name :: toValues (first :: rest))).2 = m.deeper := by
      refine evalCells_state (List.forall_mem_cons.mpr ⟨eval_symbol_state _ _, ?_⟩)
      exact forall_mem_toValues.mpr fun e he => ih e he hops.deeper
    rw [toValue_apply]
    rcases hcells : evalCells Evaluator.eval m.deeper
      (.symbol (Builtin.arithmetic op).name :: toValues (first :: rest)) with ⟨message | vs, n⟩
    · rw [hcells] at hstate
      subst hstate
      rw [eval_sexpr_of_error hm hcells]
    · rw [hcells] at hstate
      subst hstate
      obtain ⟨args, rfl⟩ := hops.deeper.head_of_evalCells op (congrArg Prod.fst hcells)
      rw [eval_sexpr_of_answers hm hcells (answers_reduction_operator op args)]

/-- A formula that has not room enough meets the limit, unless it divides by zero. -/
lemma eval_formula_tooDeep (e : Formula) (hops : m.BindsOperators) (hm : m.depth ≤ m.limit)
    (hroom : m.limit < m.depth + e.height) (hmeaning : e.meaning.isSome) :
    m.eval e.toValue = ((EvalError.tooDeep m.limit m.limit).toValue, m) := by
  induction e using operandsRec generalizing m with
  | number n =>
    rw [height] at hroom
    have heq : m.depth = m.limit := by omega
    rw [eval_of_depth_eq heq]
  | apply op first rest ih =>
    rcases Nat.lt_or_eq_of_le hm with hlt | heq
    · rw [toValue_apply]
      refine eval_sexpr_of_error hlt (evalCells_error ?_ ?_ ?_)
      · exact List.forall_mem_cons.mpr ⟨eval_symbol_state _ _,
          forall_mem_toValues.mpr fun e _ => eval_formula_state e hops.deeper⟩
      · refine List.forall_mem_cons.mpr ⟨?_, forall_mem_toValues.mpr fun e he => ?_⟩
        · exact hops.deeper.symbol_or_tooDeep hlt op
        · have hmeaning := meaning_operands_isSome hmeaning e he
          rcases Nat.lt_or_ge m.limit (m.deeper.depth + e.height) with hgt | hle
          · exact Or.inr (by rw [ih e he hops.deeper hlt hgt hmeaning]; rfl)
          · obtain ⟨n, hn⟩ := Option.isSome_iff_exists.mp hmeaning
            exact Or.inl (by rw [eval_formula e hops.deeper hle, hn]; rfl)
      · -- one of the operands has not room enough
        have hgt : m.limit - m.deeper.depth < heights (first :: rest) := by
          rw [height_apply] at hroom
          rw [deeper_depth]
          omega
        obtain ⟨e, he, hgt⟩ := lt_heights_iff.mp hgt
        have htooDeep := ih e he hops.deeper hlt (by rw [deeper_limit]; omega)
          (meaning_operands_isSome hmeaning e he)
        refine ⟨e.toValue, ?_, by rw [htooDeep]; rfl⟩
        rw [toValues_eq_map]
        exact List.mem_cons_of_mem _ (List.mem_map_of_mem he)
    · rw [eval_of_depth_eq heq]

end Evaluator

/-- **Formulas come to their meaning.** Over a global frame in which the operators have their names,
a formula is evaluated to its meaning, or to an error if it divides by zero, under every limit that
is not below its height. Under a lower limit it meets the limit, unless it divides by zero. Nothing
is bound in any case. -/
theorem formulas_come_to_their_meaning {global : Frame}
    (hops : ∀ op, global.get? (Builtin.arithmetic op).name = some (.builtin (.arithmetic op)))
    (e : Formula) (limit : Nat) :
    let m := Evaluator.ofGlobal global limit
    (e.height ≤ limit → ∀ n, e.meaning = some n → m.eval e.toValue = (.number n, m)) ∧
    (e.height ≤ limit → e.meaning = none → m.eval e.toValue = (.error "division by zero", m)) ∧
    (limit < e.height → e.meaning ≠ none →
      m.eval e.toValue = ((EvalError.tooDeep limit limit).toValue, m)) ∧
    (m.eval e.toValue).2 = m := by
  intro m
  have hm : m.BindsOperators := hops
  have hroom {k : Nat} : k ≤ limit ↔ m.depth + k ≤ m.limit := by
    rw [show m.depth = 0 from rfl, Nat.zero_add]
    rfl
  refine ⟨fun hle n hn => ?_, fun hle hnone => ?_, fun hlt hsome => ?_, ?_⟩
  · rw [Evaluator.eval_formula e hm (hroom.mp hle), hn]
    rfl
  · rw [Evaluator.eval_formula e hm (hroom.mp hle), hnone]
    rfl
  · exact Evaluator.eval_formula_tooDeep e hm (Nat.zero_le _)
      (Nat.lt_of_not_le (hroom.not.mp (Nat.not_le_of_lt hlt))) (Option.isSome_iff_ne_none.mpr hsome)
  · exact Evaluator.eval_formula_state e hm

/-- The formulas `(- (/ 7 -2) 3)`, which is three high, and `(/ -9223372036854775808 -1)`, which
wraps around. In `(+ 1 (/ 1 0))` there is a division by zero. -/
theorem formulas_come_to_their_meaning_rounded :
    let m := Evaluator.ofGlobal Builtin.environment
    let e := Formula.apply .sub (.apply .div (.number 7) [.number (-2)]) [.number 3]
    let d := Formula.apply .div (.number Int64.minValue) [.number (-1)]
    let z := Formula.apply .add (.number 1) [.apply .div (.number 1) [.number 0]]
    (∀ op, Builtin.environment.get? (Builtin.arithmetic op).name =
        some (.builtin (.arithmetic op))) ∧
      e.height = 3 ∧ (m 3).eval e.toValue = (.number (-6), m 3) ∧
      (m 2).eval e.toValue = ((EvalError.tooDeep 2 2).toValue, m 2) ∧
      (m 2).eval d.toValue = (.number Int64.minValue, m 2) ∧
      (m 3).eval z.toValue = (.error "division by zero", m 3) := by
  intro m e d z
  have hops : ∀ op, Builtin.environment.get? (Builtin.arithmetic op).name =
      some (.builtin (.arithmetic op)) := by
    intro op
    cases op <;> decide
  have he : e.meaning = some (-6) := by decide
  have hd : d.meaning = some Int64.minValue := by decide
  have hz : z.meaning = none := by decide
  exact ⟨hops, rfl, (formulas_come_to_their_meaning hops e 3).1 (by decide) _ he,
    (formulas_come_to_their_meaning hops e 2).2.2.1 (by decide) (by rw [he]; exact nofun),
    (formulas_come_to_their_meaning hops d 2).1 (by decide) _ hd,
    (formulas_come_to_their_meaning hops z 3).2.1 (by decide) hz⟩

end BraceLisp
