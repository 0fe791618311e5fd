import BraceLisp.Proofs.Requests
import Mathlib.Tactic.Lemma

/-!
What an evaluation may change.

An evaluation binds names in the global frame and in the innermost frame, and it takes off
whatever frame it put on. Depth, limit, the number of frames and all frames between the two stay
as they were. This is shown of each effect, then of one evaluation over any other that keeps to
it (`evalOnce_keeps`), and so of the evaluator by induction on its room.
-/

namespace BraceLisp

lemma Environment.names_subset_insert {α : Type} (env : Environment α) (name : String)
    (value : α) : env.names ⊆ (env.insert name value).names := by
  obtain ⟨entries⟩ := env
  simp only [names, insert]
  induction entries with
  | nil => simp
  | cons e rest ih =>
    obtain ⟨n, v⟩ := e
    simp only [insertEntry]
    split
    · next h => simp [h]
    · split
      · exact List.subset_cons_self _ _
      · simpa using List.cons_subset_cons n ih

namespace Scopes

/-- The scopes `t` differ from `s` by bindings in the global and in the innermost frame only, and
no name is missing from either. -/
structure Grows (s t : Scopes) : Prop where
  depth : t.depth = s.depth
  between : t.calls.tail = s.calls.tail
  global : s.global.names ⊆ t.global.names
  current : s.current.names ⊆ t.current.names

lemma Grows.refl (s : Scopes) : Grows s s :=
  ⟨rfl, rfl, List.Subset.refl _, List.Subset.refl _⟩

lemma Grows.trans {s t u : Scopes} (h : Grows s t) (k : Grows t u) : Grows s u :=
  ⟨k.depth.trans h.depth, k.between.trans h.between, List.Subset.trans h.global k.global,
    List.Subset.trans h.current k.current⟩

lemma grows_defineGlobal (s : Scopes) (name : String) (v : Value) :
    Grows s (s.defineGlobal name v) := by
  refine ⟨rfl, rfl, s.global.names_subset_insert name v, ?_⟩
  obtain ⟨calls, global⟩ := s
  cases calls with
  | nil => exact global.names_subset_insert name v
  | cons frame rest => exact List.Subset.refl _

lemma grows_defineLocal (s : Scopes) (name : String) (v : Value) :
    Grows s (s.defineLocal name v) := by
  obtain ⟨calls, global⟩ := s
  cases calls with
  | nil => exact grows_defineGlobal ⟨[], global⟩ name v
  | cons frame rest =>
    exact ⟨rfl, rfl, List.Subset.refl _, frame.names_subset_insert name v⟩

lemma grows_define (s : Scopes) (reach : Reach) (name : String) (v : Value) :
    Grows s (s.define reach name v) := by
  cases reach with
  | outermost => exact grows_defineGlobal s name v
  | innermost => exact grows_defineLocal s name v

lemma grows_defineAll (s : Scopes) (reach : Reach) (bindings : List (String × Value)) :
    Grows s (s.defineAll reach bindings) := by
  induction bindings generalizing s with
  | nil => exact Grows.refl s
  | cons b rest ih => exact (grows_define s reach b.1 b.2).trans (ih _)

/-- A frame that was put on top and grew there leaves nothing behind when it is taken off. -/
lemma Grows.leave {s t : Scopes} {frame : Frame} (h : Grows (s.push frame) t) :
    t.leave.calls = s.calls ∧ Grows s t.leave := by
  have hcalls : t.leave.calls = s.calls := h.between
  refine ⟨hcalls, by simp [Scopes.depth, hcalls], by rw [hcalls], h.global, ?_⟩
  have hcurrent : t.leave.current = s.calls.headD t.global := by
    rw [Scopes.current, hcalls]; rfl
  rw [hcurrent, Scopes.current]
  cases s.calls with
  | nil => exact h.global
  | cons frame rest => exact List.Subset.refl _

end Scopes

namespace Evaluator

/-- The state `n` is one that an evaluation may leave when it begins in `m`. -/
structure Keeps (m n : Evaluator) : Prop where
  depth : n.depth = m.depth
  limit : n.limit = m.limit
  scopes : m.scopes.Grows n.scopes

lemma Keeps.refl (m : Evaluator) : Keeps m m := ⟨rfl, rfl, Scopes.Grows.refl _⟩

lemma Keeps.trans {m n k : Evaluator} (h : Keeps m n) (h' : Keeps n k) : Keeps m k :=
  ⟨h'.depth.trans h.depth, h'.limit.trans h.limit, h.scopes.trans h'.scopes⟩

variable {eval : Evaluation}

lemma perform_keeps (h : ∀ m v, Keeps m (eval m v).2) (m : Evaluator) (x : Effect) :
    Keeps m (perform eval m x).2 := by
  cases x with
  | answer v => exact Keeps.refl m
  | define reach bindings => exact ⟨rfl, rfl, Scopes.grows_defineAll _ _ _⟩
  | evaluate cells => exact h m _
  | enter frame body =>
    have hbody := h { m with scopes := m.scopes.push frame } (.sexpr body)
    exact ⟨hbody.depth, hbody.limit, hbody.scopes.leave.2⟩

lemma performWith_keeps (h : ∀ m v, Keeps m (eval m v).2) (m : Evaluator)
    (r : Except EvalError Effect) : Keeps m (performWith eval m r).2 := by
  cases r with
  | error e => exact Keeps.refl m
  | ok x => exact perform_keeps h m x

lemma evalCells_keeps (h : ∀ m v, Keeps m (eval m v).2) (m : Evaluator) (cells : List Value) :
    Keeps m (evalCells eval m cells).2 := by
  induction cells generalizing m with
  | nil => exact Keeps.refl m
  | cons cell cells ih =>
    rcases (eval m cell).1.error_or_not with ⟨message, herr⟩ | hok
    · rw [evalCells_cons_error cells herr]
      exact h m cell
    · rw [evalCells_cons_ok cells hok]
      exact (h m cell).trans (ih _)

lemma evalOnce_keeps (h : ∀ m v, Keeps m (eval m v).2) (m : Evaluator) (v : Value) :
    Keeps m (evalOnce eval m v).2 := by
  cases v with
  | sexpr cells =>
    have hcells := evalCells_keeps h m cells
    rw [evalOnce]
    rcases hr : evalCells eval m cells with ⟨_ | vs, n⟩ <;> rw [hr] at hcells
    · exact hcells
    · exact hcells.trans (performWith_keeps h n _)
  | _ => exact Keeps.refl m

lemma evalWithin_keeps (room : Nat) (m : Evaluator) (v : Value) :
    Keeps m (evalWithin room m v).2 := by
  induction room generalizing m v with
  | zero => exact Keeps.refl m
  | succ room ih =>
    rw [evalWithin_succ]
    have honce := evalOnce_keeps ih { m with depth := m.depth + 1 } v
    exact ⟨by simp only [honce.depth]; omega, honce.limit, honce.scopes⟩

lemma eval_keeps (m : Evaluator) (v : Value) : Keeps m (m.eval v).2 :=
  evalWithin_keeps m.room m v

/-- What was over a global frame alone stays so, with the global frame it has then. -/
lemma Keeps.eq_ofGlobal {m n : Evaluator} {global : Frame} {limit : Nat}
    (h : Keeps m n) (hm : m = ofGlobal global limit) : n = ofGlobal n.scopes.global limit := by
  subst hm
  obtain ⟨limit', depth', calls, global'⟩ := n
  have hcalls : calls = [] := by
    have := h.scopes.depth
    simp only [Scopes.depth, ofGlobal, Scopes.ofGlobal, List.length_nil] at this
    exact List.length_eq_zero_iff.mp (by omega)
  have hdepth : depth' = 0 := h.depth
  have hlimit : limit' = limit := h.limit
  subst hcalls hdepth hlimit
  rfl

end Evaluator

namespace Session

lemma perform_eq_ofGlobal (s : Session) (r : Request) (depth : Nat)
    (h : s.evaluator = .ofGlobal s.globals depth) :
    (s.perform r).2.evaluator = .ofGlobal (s.perform r).2.globals depth := by
  rcases s.perform_cases r with ⟨v, -, hv⟩ | ⟨name, v, -, hv⟩ | ⟨e, he⟩
  · rw [hv]
    exact (Evaluator.eval_keeps s.evaluator v).eq_ofGlobal h
  · rw [hv]
    exact congrArg (fun m : Evaluator => { m with scopes := m.scopes.defineGlobal name v }) h
  · rw [he]
    exact h

end Session

open Evaluator in
/-- **Scope discipline.** Evaluating, applying and running a builtin leave depth, limit, the
number of frames and the frames between the global and the innermost one as they were, and
unbind no name. A session is between requests as if it had just begun over its global frame. -/
theorem scope_discipline :
    (∀ (m : Evaluator) (v : Value), Keeps m (m.eval v).2) ∧
    (∀ (m : Evaluator) (f : Value) (args : List Value), Keeps m (m.apply f args).2) ∧
    (∀ (m : Evaluator) (b : Builtin) (args : List Value), Keeps m (m.call b args).2) ∧
    ∀ (depth nesting : Nat) (rs : List Request),
      let s := ((Session.init depth nesting).run rs).2
      s.evaluator.scopes.depth = 1 ∧ s.evaluator.depth = 0 ∧
        s.evaluator = Evaluator.ofGlobal s.globals depth := by
  refine ⟨eval_keeps, fun m f args => ?_, fun m b args => ?_, fun depth nesting rs => ?_⟩
  · exact performWith_keeps (evalWithin_keeps m.room) m _
  · exact performWith_keeps (evalWithin_keeps m.room) m _
  · intro s
    have hs : s.evaluator = .ofGlobal s.globals depth :=
      (Session.run_induction (I := fun s => s.evaluator = .ofGlobal s.globals depth)
        (P := fun _ => True) (Q := fun _ => True)
        (fun s r h _ => ⟨s.perform_eq_ofGlobal r depth h, trivial⟩)
        (s := Session.init depth nesting) rfl fun _ _ => trivial).1
    refine ⟨?_, ?_, hs⟩ <;> rw [hs] <;> rfl

end BraceLisp
