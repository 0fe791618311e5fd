import BraceLisp.Proofs.Nested
import Mathlib.Tactic.ByContra

/-!
The depth limit cuts evaluations short and does nothing else.

Where no evaluation within another meets the limit, a higher limit gives the same answer and the
same state (`eval_withLimit`). Where one does, its error is the answer (`eval_of_contains_trip`).
So an answer other than that error does not depend on the limit (`limit_only_cuts`).
-/

namespace BraceLisp

namespace Evaluator

variable {m n : Evaluator} {v w : Value} {limit : Nat}

/-- Evaluations lie deeper the further in they begin, under one limit and never beyond it. -/
lemma Contains.level {p q : Evaluator × Value} (h : Contains p q) (hp : p.1.depth ≤ p.1.limit) :
    p.1.depth ≤ q.1.depth ∧ q.1.depth ≤ q.1.limit ∧ q.1.limit = p.1.limit := by
  induction h with
  | refl => exact ⟨Nat.le_refl _, hp, rfl⟩
  | tail _ hstep ih =>
    obtain ⟨hdepth, hlimit⟩ := hstep.level
    have hlt := hstep.1
    omega

/-- An evaluation that meets the limit gives its error to all that it lies within. -/
lemma eval_of_contains_trip (h : Contains (m, v) (n, w)) (htrip : n.limit ≤ n.depth) :
    (m.eval v).1 = (EvalError.tooDeep n.depth n.limit).toValue :=
  h.error (by rw [eval_of_limit_le htrip]; rfl)

/-- Where nothing meets the limit, it may as well be higher. -/
lemma eval_withLimit (hle : m.limit ≤ limit)
    (hno : ∀ n w, Contains (m, v) (n, w) → n.depth < n.limit) :
    (m.withLimit limit).eval v = ((m.eval v).1, (m.eval v).2.withLimit limit) := by
  -- the room left by the lower limit shrinks with every evaluation that begins
  induction hroom : m.limit - m.depth generalizing m v with
  | zero =>
    have hlt : m.depth < m.limit := hno m v .refl
    omega
  | succ room ih =>
    have hlt : m.depth < m.limit := hno m v .refl
    have honce : evalOnce Evaluator.eval (m.deeper.withLimit limit) v =
        ((evalOnce Evaluator.eval m.deeper v).1,
          (evalOnce Evaluator.eval m.deeper v).2.withLimit limit) := by
      refine evalOnce_withLimit fun n w hn => ?_
      have hnest : Nests (m, v) (n, w) := ⟨hlt, hn⟩
      obtain ⟨hdepth, hlimit⟩ := hnest.level
      refine ih ?_ (fun k u hk => hno k u (hk.head hnest)) ?_
      · simp only at hlimit; omega
      · simp only at hdepth hlimit; omega
    have hlt' : (m.withLimit limit).depth < (m.withLimit limit).limit :=
      Nat.lt_of_lt_of_le hlt hle
    have hdeeper : (m.withLimit limit).deeper = m.deeper.withLimit limit := rfl
    rw [eval_of_lt hlt, eval_of_lt hlt', hdeeper, honce]
    rfl

/-- The answers to values evaluated one after another, each with the scopes that it leaves. -/
def trace (m : Evaluator) : List Value → List (Value × Scopes)
  | [] => []
  | v :: vs => ((m.eval v).1, (m.eval v).2.scopes) :: trace (m.eval v).2 vs

lemma trace_withLimit (vs : List Value) (hm : m.depth ≤ m.limit) (hle : m.limit ≤ limit)
    (hno : ∀ a ∈ trace m vs, a.1 ≠ (EvalError.tooDeep m.limit m.limit).toValue) :
    trace (m.withLimit limit) vs = trace m vs := by
  induction vs generalizing m with
  | nil => rfl
  | cons v vs ih =>
    have hv : (m.eval v).1 ≠ (EvalError.tooDeep m.limit m.limit).toValue :=
      hno _ List.mem_cons_self
    have hrun : (m.withLimit limit).eval v = ((m.eval v).1, (m.eval v).2.withLimit limit) := by
      refine eval_withLimit hle fun n w hn => ?_
      by_contra hc
      obtain ⟨-, hdepth, hlimit⟩ := hn.level hm
      have htrip := eval_of_contains_trip hn (by omega)
      have heq : n.depth = m.limit := by simp only at hdepth hlimit; omega
      rw [heq, hlimit] at htrip
      exact hv htrip
    obtain ⟨hdepth, hlimit, -⟩ := eval_keeps m v
    have htail : trace ((m.eval v).2.withLimit limit) vs = trace (m.eval v).2 vs := by
      refine ih (by omega) (by omega) fun a ha => ?_
      rw [hlimit]
      exact hno a (List.mem_cons_of_mem _ ha)
    rw [trace, trace, hrun, htail]
    rfl

end Evaluator

open Evaluator in
/-- **The limit only cuts short.** Values evaluated one after another are answered alike, and
leave the same scopes, under a limit that no answer complains of and under every higher one. An
evaluation that meets the limit, however deep within another, gives its error to the whole; and
where none does, a higher limit changes nothing. -/
theorem limit_only_cuts :
    (∀ (scopes : Scopes) (vs : List Value) (limit limit' : Nat), limit ≤ limit' →
      (∀ a ∈ trace ⟨limit, 0, scopes⟩ vs, a.1 ≠ (EvalError.tooDeep limit limit).toValue) →
      trace ⟨limit', 0, scopes⟩ vs = trace ⟨limit, 0, scopes⟩ vs) ∧
    (∀ (m n : Evaluator) (v w : Value), Contains (m, v) (n, w) → n.limit ≤ n.depth →
      (m.eval v).1 = (EvalError.tooDeep n.depth n.limit).toValue) ∧
    ∀ (m : Evaluator) (v : Value) (limit : Nat), m.limit ≤ limit →
      (∀ n w, Contains (m, v) (n, w) → n.depth < n.limit) →
      (m.withLimit limit).eval v = ((m.eval v).1, (m.eval v).2.withLimit limit) := by
  refine ⟨fun scopes vs limit limit' hle hno => ?_, fun m n v w h htrip => ?_,
    fun m v limit hle hno => ?_⟩
  · exact trace_withLimit (m := ⟨limit, 0, scopes⟩) vs (Nat.zero_le _) hle hno
  · exact eval_of_contains_trip h htrip
  · exact eval_withLimit hle hno

open Evaluator in
/-- A limit of two is enough for a sum, the cell of a list meets a limit of one, and a number
meets no limit above zero. -/
theorem limit_only_cuts_sum :
    ((∀ a ∈ trace ⟨2, 0, .ofGlobal Builtin.environment⟩
          [.sexpr [.symbol "+", .number 1, .number 2]],
        a.1 ≠ (EvalError.tooDeep 2 2).toValue) ∧
      trace ⟨7, 0, .ofGlobal Builtin.environment⟩ [.sexpr [.symbol "+", .number 1, .number 2]] =
        trace ⟨2, 0, .ofGlobal Builtin.environment⟩
          [.sexpr [.symbol "+", .number 1, .number 2]]) ∧
    (Contains (⟨1, 0, .ofGlobal .empty⟩, .sexpr [.number 5]) (⟨1, 1, .ofGlobal .empty⟩, .number 5) ∧
      (eval ⟨1, 0, .ofGlobal .empty⟩ (.sexpr [.number 5])).1 =
        (EvalError.tooDeep 1 1).toValue) ∧
    ((∀ n w, Contains (⟨1, 0, .ofGlobal .empty⟩, .number 5) (n, w) → n.depth < n.limit) ∧
      eval ⟨9, 0, .ofGlobal .empty⟩ (.number 5) =
        ((eval ⟨1, 0, .ofGlobal .empty⟩ (.number 5)).1,
          (eval ⟨1, 0, .ofGlobal .empty⟩ (.number 5)).2.withLimit 9)) := by
  have hno : ∀ a ∈ trace ⟨2, 0, .ofGlobal Builtin.environment⟩
      [.sexpr [.symbol "+", .number 1, .number 2]],
      a.1 ≠ (EvalError.tooDeep 2 2).toValue := by decide
  have hcell : Contains (⟨1, 0, .ofGlobal .empty⟩, .sexpr [.number 5])
      (⟨1, 1, .ofGlobal .empty⟩, .number 5) :=
    Relation.ReflTransGen.single ⟨Nat.zero_lt_one, .cell (.here _ _ _)⟩
  have hnumber : ∀ n w, Contains (⟨1, 0, .ofGlobal .empty⟩, .number 5) (n, w) →
      n.depth < n.limit := by
    intro n w h
    rcases Relation.ReflTransGen.cases_head h with heq | ⟨_, ⟨_, hbegins⟩, _⟩
    · cases heq; decide
    · cases hbegins
  refine ⟨⟨hno, ?_⟩, ⟨hcell, ?_⟩, hnumber, ?_⟩
  · exact limit_only_cuts.1 _ _ 2 7 (by decide) hno
  · exact limit_only_cuts.2.1 _ ⟨1, 1, .ofGlobal .empty⟩ _ (.number 5) hcell (Nat.le_refl 1)
  · exact limit_only_cuts.2.2 ⟨1, 0, .ofGlobal .empty⟩ (.number 5) 9 (by decide) hnumber

end BraceLisp
