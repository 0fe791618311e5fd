import BraceLisp.Evaluator.Effect
import Mathlib.Tactic.Lemma

/-!
What builtins accept and what they refuse.

A check that succeeds says what its arguments are, and one equation says it for each check. A
check that fails names the builtin, places and kinds, and nothing that the program has written
(`Builtin.effect_refuses`).
-/

namespace BraceLisp

section Outcomes

variable {ε α β : Type} {x : Except ε α} {f : α → Except ε β}

lemma bind_eq_ok {b : β} : (x >>= f) = .ok b ↔ ∃ a, x = .ok a ∧ f a = .ok b := by
  cases x <;> simp [bind, Except.bind]

lemma bind_eq_error {e : ε} :
    (x >>= f) = .error e ↔ x = .error e ∨ ∃ a, x = .ok a ∧ f a = .error e := by
  cases x <;> simp [bind, Except.bind]

end Outcomes

namespace Builtin

variable {b : Builtin} {index : Nat} {args cells : List Value} {v : Value}

/-! ### What is accepted -/

lemma oneArgument_ok {a : Value} : b.oneArgument args = .ok a ↔ args = [a] := by
  unfold oneArgument
  split
  · simp
  · next hne => exact ⟨fun h => (nomatch h), fun h => absurd h (hne a)⟩

lemma twoArguments_ok {a a' : Value} : b.twoArguments args = .ok (a, a') ↔ args = [a, a'] := by
  unfold twoArguments
  split
  · simp
  · next hne => exact ⟨fun h => (nomatch h), fun h => absurd h (hne a a')⟩

lemma listArgument_ok : b.listArgument index v = .ok cells ↔ v = .qexpr cells := by
  cases v <;> simp [listArgument]

lemma nonEmptyArgument_ok {first : Value} {rest : List Value} :
    b.nonEmptyArgument index v = .ok (first, rest) ↔ v = .qexpr (first :: rest) := by
  unfold nonEmptyArgument
  rw [bind_eq_ok]
  constructor
  · rintro ⟨cells, hcells, h⟩
    rw [listArgument_ok] at hcells
    subst hcells
    cases cells with
    | nil => cases h
    | cons c cs => cases h; rfl
  · rintro rfl
    exact ⟨first :: rest, rfl, rfl⟩

lemma listArguments_ok {lists : List (List Value)} :
    b.listArguments index args = .ok lists ↔ args = lists.map .qexpr := by
  induction args generalizing index lists with
  | nil => cases lists <;> simp [listArguments]
  | cons v vs ih =>
    unfold listArguments
    simp only [bind_eq_ok, listArgument_ok, ih]
    cases lists with
    | nil => simp
    | cons cells rest => simp

lemma numberArguments_ok {ns : List Int64} :
    b.numberArguments index args = .ok ns ↔ args = ns.map .number := by
  induction args generalizing index ns with
  | nil => cases ns <;> simp [numberArguments]
  | cons v vs ih =>
    unfold numberArguments
    simp only [bind_eq_ok, ih]
    cases ns with
    | nil => simp
    | cons n rest =>
      cases v with
      | number k => simpa [numberArgument] using and_comm
      | _ => simp [numberArgument]

lemma symbolNames_ok {names : List String} :
    b.symbolNames cells = .ok names ↔ cells = names.map .symbol := by
  induction cells generalizing names with
  | nil => cases names <;> simp [symbolNames]
  | cons v vs ih =>
    unfold symbolNames
    simp only [bind_eq_ok, ih]
    cases names with
    | nil => simp
    | cons n rest =>
      cases v with
      | symbol k => simpa [symbolName] using and_comm
      | _ => simp [symbolName]

lemma definitions_ok {reach : Reach} {bindings : List (String × Value)} :
    definitions reach args = .ok bindings ↔
      ∃ (names : List String) (values : List Value),
        args = .qexpr (names.map .symbol) :: values ∧ names.length = values.length ∧
          bindings = names.zip values := by
  cases args with
  | nil => simp [definitions]
  | cons v values =>
    unfold definitions
    simp only [bind_eq_ok, listArgument_ok, symbolNames_ok]
    constructor
    · rintro ⟨cells, rfl, names, rfl, h⟩
      split at h
      · next hlen => cases h; exact ⟨names, values, rfl, hlen, rfl⟩
      · cases h
    · rintro ⟨names, values', hargs, hlen, rfl⟩
      cases hargs
      exact ⟨_, rfl, names, rfl, by rw [if_pos hlen]⟩

lemma makeClosure_ok : makeClosure args = .ok v ↔
    ∃ (formals : List String) (body : List Value),
      args = [.qexpr (formals.map .symbol), .qexpr body] ∧ v = .closure formals body .empty := by
  unfold makeClosure
  simp only [bind_eq_ok, Prod.exists, twoArguments_ok, listArgument_ok, symbolNames_ok]
  constructor
  · rintro ⟨_, _, rfl, _, rfl, body, rfl, formals, rfl, h⟩
    cases h
    exact ⟨formals, body, rfl, rfl⟩
  · rintro ⟨formals, body, rfl, rfl⟩
    exact ⟨_, _, rfl, _, rfl, _, rfl, _, rfl, rfl⟩

/-- What arithmetic computes is a number. -/
lemma compute_ok {op : Operator} (h : compute op args = .ok v) : ∃ n, v = .number n := by
  cases args with
  | nil => cases h
  | cons first rest =>
    unfold compute at h
    simp only [bind_eq_ok] at h
    obtain ⟨a, -, bs, -, n, -, h⟩ := h
    cases h
    exact ⟨n, rfl⟩

end Builtin

/-! ### What is refused -/

/-- An error that tells nothing which a program has written. -/
def EvalError.Plain : EvalError → Prop
  | unbound _ => False
  | unknownNode _ => False
  | _ => True

/-- An error that a function makes of its arguments: a plain one, and not that of the limit. -/
def EvalError.OfArguments : EvalError → Prop
  | tooDeep .. => False
  | e => e.Plain

lemma EvalError.OfArguments.plain {e : EvalError} (h : e.OfArguments) : e.Plain := by
  cases e <;> first | exact h | exact h.elim

/-- An outcome that, if it is an error, is one of the arguments. -/
def Refuses {α : Type} (x : Except EvalError α) : Prop := ∀ e, x = .error e → e.OfArguments

section Refuses

variable {α β : Type}

lemma Refuses.ok (a : α) : Refuses (.ok a : Except EvalError α) := fun _ h => nomatch h

lemma Refuses.error {e : EvalError} (h : e.OfArguments) :
    Refuses (.error e : Except EvalError α) := by
  rintro _ ⟨⟩
  exact h

lemma Refuses.bind {x : Except EvalError α} {f : α → Except EvalError β} (hx : Refuses x)
    (hf : ∀ a, Refuses (f a)) : Refuses (x >>= f) := by
  intro e h
  rcases bind_eq_error.mp h with h | ⟨a, -, h⟩
  · exact hx e h
  · exact hf a e h

end Refuses

namespace Builtin

variable (b : Builtin) (index : Nat) (args cells : List Value) (v : Value)

lemma oneArgument_refuses : Refuses (b.oneArgument args) := by
  unfold oneArgument
  split
  · exact .ok _
  · exact .error trivial

lemma twoArguments_refuses : Refuses (b.twoArguments args) := by
  unfold twoArguments
  split
  · exact .ok _
  · exact .error trivial

lemma listArgument_refuses : Refuses (b.listArgument index v) := by
  cases v with
  | qexpr cells => exact .ok cells
  | _ => exact .error trivial

lemma nonEmptyArgument_refuses : Refuses (b.nonEmptyArgument index v) := by
  refine (b.listArgument_refuses index v).bind fun cells => ?_
  cases cells with
  | nil => exact .error trivial
  | cons first rest => exact .ok _

lemma listArguments_refuses : Refuses (b.listArguments index args) := by
  induction args generalizing index with
  | nil => exact .ok _
  | cons v vs ih =>
    exact (b.listArgument_refuses index v).bind fun _ => (ih _).bind fun _ => .ok _

lemma numberArgument_refuses : Refuses (b.numberArgument index v) := by
  cases v with
  | number n => exact .ok n
  | _ => exact .error trivial

lemma numberArguments_refuses : Refuses (b.numberArguments index args) := by
  induction args generalizing index with
  | nil => exact .ok _
  | cons v vs ih =>
    exact (b.numberArgument_refuses index v).bind fun _ => (ih _).bind fun _ => .ok _

lemma symbolNames_refuses : Refuses (b.symbolNames cells) := by
  induction cells with
  | nil => exact .ok _
  | cons v vs ih =>
    refine Refuses.bind ?_ fun _ => ih.bind fun _ => .ok _
    cases v with
    | symbol name => exact .ok name
    | _ => exact .error trivial

lemma definitions_refuses (reach : Reach) : Refuses (definitions reach args) := by
  cases args with
  | nil => exact .error trivial
  | cons names values =>
    refine (listArgument_refuses _ _ _).bind fun cells =>
      (symbolNames_refuses _ _).bind fun names => ?_
    split
    · exact .ok _
    · exact .error trivial

lemma makeClosure_refuses : Refuses (makeClosure args) :=
  (twoArguments_refuses _ _).bind fun _ => (listArgument_refuses _ _ _).bind fun _ =>
    (listArgument_refuses _ _ _).bind fun _ => (symbolNames_refuses _ _).bind fun _ => .ok _

end Builtin

lemma Operator.foldFrom_refuses (op : Operator) (a : Int64) (ns : List Int64) :
    Refuses (op.foldFrom a ns) := by
  induction ns generalizing a with
  | nil => exact .ok a
  | cons n ns ih =>
    refine Refuses.bind ?_ fun c => ih c
    cases op with
    | div =>
      simp only [apply]
      split
      · exact .error trivial
      · exact .ok _
    | _ => exact .ok _

lemma Builtin.compute_refuses (op : Operator) (args : List Value) :
    Refuses (compute op args) := by
  cases args with
  | nil => exact .error trivial
  | cons first rest =>
    refine (numberArgument_refuses _ _ _).bind fun a =>
      (numberArguments_refuses _ _ _).bind fun bs => Refuses.bind ?_ fun n => .ok _
    unfold Operator.fold
    split
    · exact .ok _
    · exact op.foldFrom_refuses a bs

/-- A builtin refuses its arguments without a word from them. -/
lemma Builtin.effect_refuses (b : Builtin) (args : List Value) : Refuses (b.effect args) := by
  cases b with
  | list => exact .ok _
  | head =>
    exact (oneArgument_refuses _ _).bind fun _ => (nonEmptyArgument_refuses _ _ _).bind fun _ =>
      .ok _
  | tail =>
    exact (oneArgument_refuses _ _).bind fun _ => (nonEmptyArgument_refuses _ _ _).bind fun _ =>
      .ok _
  | join => exact (listArguments_refuses _ _ _).bind fun _ => .ok _
  | eval =>
    exact (oneArgument_refuses _ _).bind fun _ => (listArgument_refuses _ _ _).bind fun _ =>
      .ok _
  | define reach => exact (definitions_refuses _ reach).bind fun _ => .ok _
  | lambda => exact (makeClosure_refuses _).bind fun _ => .ok _
  | arithmetic op => exact (compute_refuses op _).bind fun _ => .ok _

namespace Value

lemma bindFormals_refuses (formals : List String) (args : List Value) (env : Frame) :
    Refuses (bindFormals formals args env) := by
  induction formals generalizing args env with
  | nil =>
    cases args with
    | nil => exact .ok _
    | cons a args => exact .error trivial
  | cons f fs ih =>
    by_cases hf : f = variadicMark
    · rw [hf, bindFormals_mark]
      split
      · exact .ok _
      · exact .error trivial
    · cases args with
      | nil => rw [bindFormals_cons_nil hf]; exact .ok _
      | cons a args => rw [bindFormals_cons_cons hf]; exact ih args _

lemma closureEffect_refuses (formals : List String) (body : List Value) (captured : Frame)
    (args : List Value) : Refuses (closureEffect formals body captured args) := by
  unfold closureEffect
  split
  · next h => exact .error (bindFormals_refuses _ _ _ _ h)
  · exact .ok _
  · exact .ok _

/-- What a value refuses when it is applied is its arguments, never for want of room. -/
lemma effect_refuses (f : Value) (args : List Value) : Refuses (f.effect args) := by
  cases f with
  | builtin b => exact b.effect_refuses args
  | closure formals body captured => exact closureEffect_refuses formals body captured args
  | _ => exact .error trivial

end Value

end BraceLisp
